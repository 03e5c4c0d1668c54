import Soloist.Slots

/-! Revisioned documents under unique handles. A write names the revision it replaces, so what a
reader holds of a document is what is there, or an older revision of it. -/
open Option

namespace Soloist

structure Revised (β : Type*) where
  id : ℕ
  revision : ℕ
  body : β
  deriving DecidableEq, Repr

/-- Documents by handle. Every document has one handle, and ids are given out in order. -/
structure Revisions (κ β : Type*) where
  docs : Slots κ (Revised β)
  next : ℕ
  unique : ∀ h h' doc doc', docs h = some doc → docs h' = some doc' → doc.id = doc'.id → h = h'
  issued : ∀ h doc, docs h = some doc → doc.id < next

namespace Revisions
variable {κ β : Type*} [DecidableEq κ]

def empty : Revisions κ β where
  docs := .empty
  next := 1
  unique h _ _ _ hdoc := by cases hdoc
  issued h _ hdoc := by cases hdoc

def revise (s : Revisions κ β) (h : κ) (doc : Revised β) (body : β) (hdoc : s.docs h = some doc) :
    Revisions κ β where
  docs := s.docs.put h { doc with revision := doc.revision + 1, body }
  next := s.next
  unique := by
    intro i j x y hx hy hid
    rcases Slots.put_eq_some.mp hx with ⟨rfl, rfl⟩ | ⟨-, hi⟩
    · rcases Slots.put_eq_some.mp hy with ⟨rfl, rfl⟩ | ⟨-, hj⟩
      · rfl
      · exact s.unique i j doc y hdoc hj hid
    · rcases Slots.put_eq_some.mp hy with ⟨rfl, rfl⟩ | ⟨-, hj⟩
      · exact s.unique i j x doc hi hdoc hid
      · exact s.unique i j x y hi hj hid
  issued := by
    intro i x hx
    rcases Slots.put_eq_some.mp hx with ⟨rfl, rfl⟩ | ⟨-, hx⟩
    · exact s.issued i doc hdoc
    · exact s.issued i x hx

def add (s : Revisions κ β) (h : κ) (body : β) : Revisions κ β where
  docs := s.docs.put h ⟨s.next, 1, body⟩
  next := s.next + 1
  unique := by
    intro i j x y hx hy hid
    rcases Slots.put_eq_some.mp hx with ⟨rfl, rfl⟩ | ⟨-, hi⟩
    · rcases Slots.put_eq_some.mp hy with ⟨rfl, rfl⟩ | ⟨-, hj⟩
      · rfl
      · exact absurd hid (Nat.ne_of_gt (s.issued j y hj))
    · rcases Slots.put_eq_some.mp hy with ⟨rfl, rfl⟩ | ⟨-, hj⟩
      · exact absurd hid (Nat.ne_of_lt (s.issued i x hi))
      · exact s.unique i j x y hi hj hid
  issued := by
    intro i x hx
    rcases Slots.put_eq_some.mp hx with ⟨rfl, rfl⟩ | ⟨-, hx⟩
    · exact Nat.lt_succ_self s.next
    · exact Nat.lt_succ_of_lt (s.issued i x hx)

def move (s : Revisions κ β) (source target : κ) (doc : Revised β)
    (hdoc : s.docs source = some doc) : Revisions κ β where
  docs := (s.docs.erase source).put target doc
  next := s.next
  unique := by
    have hleft : ∀ i x, s.docs.erase source i = some x → x.id ≠ doc.id := by
      intro i x hx hid
      obtain ⟨hne, hx⟩ := Slots.erase_eq_some.mp hx
      exact hne (s.unique i source x doc hx hdoc hid)
    intro i j x y hx hy hid
    rcases Slots.put_eq_some.mp hx with ⟨rfl, rfl⟩ | ⟨-, hi⟩
    · rcases Slots.put_eq_some.mp hy with ⟨rfl, rfl⟩ | ⟨-, hj⟩
      · rfl
      · exact absurd hid.symm (hleft j y hj)
    · rcases Slots.put_eq_some.mp hy with ⟨rfl, rfl⟩ | ⟨-, hj⟩
      · exact absurd hid (hleft i x hi)
      · exact s.unique i j x y (Slots.erase_eq_some.mp hi).2 (Slots.erase_eq_some.mp hj).2 hid
  issued := by
    intro i x hx
    rcases Slots.put_eq_some.mp hx with ⟨rfl, rfl⟩ | ⟨-, hx⟩
    · exact s.issued source doc hdoc
    · exact s.issued i x (Slots.erase_eq_some.mp hx).2

/-- Creates or replaces, guarded by what the writer expects: nothing there, or a revision. -/
def write (s : Revisions κ β) (h : κ) (body : β) (expected : Option ℕ) :
    Option (Revisions κ β × Revised β) :=
  match hdoc : s.docs h, expected with
  | some doc, some revision =>
    if doc.revision = revision then
      some (s.revise h doc body hdoc, { doc with revision := doc.revision + 1, body })
    else none
  | none, none => some (s.add h body, ⟨s.next, 1, body⟩)
  | some _, none | none, some _ => none

def rename (s : Revisions κ β) (source target : κ) : Option (Revisions κ β) :=
  match hdoc : s.docs source with
  | some doc =>
    if source ≠ target ∧ (s.docs target).isSome then none else some (s.move source target doc hdoc)
  | none => none

variable {s t : Revisions κ β} {h source target : κ} {doc view : Revised β} {body : β}
  {expected : Option ℕ}

theorem write_eq_some (hwrite : s.write h body expected = some (t, view)) :
    (∃ doc, s.docs h = some doc ∧ expected = some doc.revision ∧
      view = { doc with revision := doc.revision + 1, body } ∧
      t.docs = s.docs.put h view ∧ t.next = s.next) ∨
    s.docs h = none ∧ expected = none ∧ view = ⟨s.next, 1, body⟩ ∧ t.docs = s.docs.put h view ∧
      t.next = s.next + 1 := by
  unfold write at hwrite
  split at hwrite
  · rename_i doc revision hdoc
    split_ifs at hwrite with hrevision
    obtain ⟨rfl, rfl⟩ := Prod.mk.inj (some.inj hwrite)
    subst hrevision
    exact .inl ⟨doc, hdoc, rfl, rfl, rfl, rfl⟩
  · rename_i hdoc
    obtain ⟨rfl, rfl⟩ := Prod.mk.inj (some.inj hwrite)
    exact .inr ⟨hdoc, rfl, rfl, rfl, rfl⟩
  all_goals cases hwrite

omit [DecidableEq κ] in
@[ext] theorem ext (hdocs : s.docs = t.docs) (hnext : s.next = t.next) : s = t := by
  cases s
  cases t
  cases hdocs
  cases hnext
  rfl

theorem write_of_current (hdoc : s.docs h = some doc)
    (hdocs : t.docs = s.docs.put h { doc with revision := doc.revision + 1, body })
    (hnext : t.next = s.next) :
    s.write h body (some doc.revision) =
      some (t, { doc with revision := doc.revision + 1, body }) := by
  unfold write
  split
  · rename_i current revision hcurrent hrevision
    obtain rfl := some.inj (hdoc.symm.trans hcurrent)
    rw [if_pos (some.inj hrevision)]
    exact congrArg (fun u => some (u, _)) (ext hdocs.symm hnext.symm)
  · rename_i hnone _
    rw [hdoc] at hnone
    cases hnone
  · rename_i hnone
    cases hnone
  · rename_i hnone _
    rw [hdoc] at hnone
    cases hnone

theorem write_of_absent (hdoc : s.docs h = none) (hdocs : t.docs = s.docs.put h ⟨s.next, 1, body⟩)
    (hnext : t.next = s.next + 1) :
    s.write h body none = some (t, ⟨s.next, 1, body⟩) := by
  unfold write
  split
  · rename_i hnone
    cases hnone
  · exact congrArg (fun u => some (u, _)) (ext hdocs.symm hnext.symm)
  · rename_i hsome _
    rw [hdoc] at hsome
    cases hsome
  · rename_i hnone
    cases hnone

theorem rename_eq_some (hrename : s.rename source target = some t) :
    ∃ doc, s.docs source = some doc ∧ (source = target ∨ s.docs target = none) ∧
      t.docs = (s.docs.erase source).put target doc ∧ t.next = s.next := by
  unfold rename at hrename
  split at hrename
  · rename_i doc hdoc
    split_ifs at hrename with htaken
    cases hrename
    refine ⟨doc, hdoc, ?_, rfl, rfl⟩
    by_cases hsame : source = target
    · exact .inl hsame
    · refine .inr (not_isSome_iff_eq_none.mp fun hsome => ?_)
      exact htaken ⟨hsame, hsome⟩
  · cases hrename

theorem rename_of_free (hdoc : s.docs source = some doc)
    (hfree : source = target ∨ s.docs target = none)
    (hdocs : t.docs = (s.docs.erase source).put target doc) (hnext : t.next = s.next) :
    s.rename source target = some t := by
  have hleft : ¬(source ≠ target ∧ (s.docs target).isSome = true) := by
    rintro ⟨hne, htaken⟩
    rcases hfree with rfl | hnone
    · exact hne rfl
    · rw [hnone] at htaken
      cases htaken
  unfold rename
  split
  · rename_i current hcurrent
    obtain rfl := some.inj (hdoc.symm.trans hcurrent)
    rw [if_neg hleft]
    exact congrArg some (ext hdocs.symm hnext.symm)
  · rename_i hnone
    rw [hdoc] at hnone
    cases hnone

/-- What a reader holds of a document: what is there, or an older revision. -/
def Dated (s : Revisions κ β) (view : Revised β) : Prop :=
  view.id < s.next ∧ ∀ h doc, s.docs h = some doc → doc.id = view.id →
    view.revision ≤ doc.revision ∧ (view.revision = doc.revision → view = doc)

omit [DecidableEq κ] in
theorem dated_of_get (hdoc : s.docs h = some doc) : s.Dated doc := by
  refine ⟨s.issued h doc hdoc, fun h' doc' hdoc' hid => ?_⟩
  obtain rfl := s.unique h' h doc' doc hdoc' hdoc hid
  obtain rfl := some.inj (hdoc.symm.trans hdoc')
  exact ⟨Nat.le_refl _, fun _ => rfl⟩

variable {written : Revised β}

theorem Dated.write (hview : s.Dated view) (hwrite : s.write h body expected = some (t, written)) :
    t.Dated view := by
  rcases write_eq_some hwrite with ⟨doc, hdoc, -, rfl, hdocs, hnext⟩ | ⟨-, -, rfl, hdocs, hnext⟩
  · refine ⟨hnext ▸ hview.1, fun i x hx hid => ?_⟩
    rw [hdocs] at hx
    rcases Slots.put_eq_some.mp hx with ⟨rfl, rfl⟩ | ⟨-, hx⟩
    · have hle := (hview.2 i doc hdoc hid).1
      refine ⟨Nat.le_succ_of_le hle, fun heq => ?_⟩
      exact absurd heq (Nat.ne_of_lt (Nat.lt_succ_of_le hle))
    · exact hview.2 i x hx hid
  · refine ⟨?_, fun i x hx hid => ?_⟩
    · rw [hnext]
      exact Nat.lt_succ_of_lt hview.1
    · rw [hdocs] at hx
      rcases Slots.put_eq_some.mp hx with ⟨rfl, rfl⟩ | ⟨-, hx⟩
      · exact absurd hid (Nat.ne_of_gt hview.1)
      · exact hview.2 i x hx hid

theorem Dated.rename (hview : s.Dated view) (hrename : s.rename source target = some t) :
    t.Dated view := by
  obtain ⟨doc, hdoc, -, hdocs, hnext⟩ := rename_eq_some hrename
  refine ⟨hnext ▸ hview.1, fun i x hx hid => ?_⟩
  rw [hdocs] at hx
  rcases Slots.put_eq_some.mp hx with ⟨rfl, rfl⟩ | ⟨-, hx⟩
  · exact hview.2 source doc hdoc hid
  · exact hview.2 i x (Slots.erase_eq_some.mp hx).2 hid

theorem Dated.eq_of_write (hview : s.Dated view)
    (hwrite : s.write h body (some view.revision) = some (t, written))
    (hid : ∀ doc, s.docs h = some doc → doc.id = view.id) : s.docs h = some view := by
  rcases write_eq_some hwrite with ⟨doc, hdoc, hrevision, -⟩ | ⟨-, hnone, -⟩
  · have hsame := (hview.2 h doc hdoc (hid doc hdoc)).2 (some.inj hrevision)
    rw [hsame]
    exact hdoc
  · cases hnone

end Revisions
end Soloist
