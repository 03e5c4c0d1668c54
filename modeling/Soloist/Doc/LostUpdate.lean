import Soloist.Doc.Aggregate
import Soloist.Machine

/-! Revision-guarded writes under any interleaving of the document operations. A revision is a
counter of one row and is read by name, so what can go wrong is that the name comes to denote
another row. -/
open Option

namespace Soloist

/-- A document table and the projects its rows belong to. -/
structure DocStore where
  projects : ProjectTable
  docs : DocTable

inductive DocOp
  | addProject
  | removeProject (project : ProjectId)
  | write (project : ProjectId) (name body : String) (expected : Option Nat) (now : Nat)
  | rename (project : ProjectId) (source target : String)
  | delete (project : ProjectId) (name : String)
  | addTags (project : ProjectId) (name : String) (tags : List String)
  | removeTags (project : ProjectId) (name : String) (tags : List String)
  | setArchived (project : ProjectId) (name : String) (archived : Bool)
  | transfer (source : ProjectId) (name : String) (target : ProjectId)

namespace DocStore

def addProject (s : DocStore) : DocStore :=
  { s with projects := s.projects.append (s.projects.seq + 1) rfl }

def removeProject (s : DocStore) (project : ProjectId) : DocStore where
  projects := s.projects.delete fun p => p = project
  docs := DocTable.dropProject s.docs project

end DocStore

/-- The table after an operation, and whether the operation was answered with success. -/
def DocOp.apply (kind : DocKind) (s : DocStore) : DocOp → DocStore × Bool
  | .addProject => (s.addProject, true)
  | .removeProject project => (s.removeProject project, true)
  | .write project name body expected now =>
    let (docs, result) := Documents.write kind s.docs s.projects project name body expected now
    ({ s with docs := docs }, result.isOk)
  | .rename project source target =>
    let (docs, result) := Documents.rename kind s.docs project source target
    ({ s with docs := docs }, result.isOk)
  | .delete project name =>
    let (docs, removed) := DocTable.delete s.docs project name
    ({ s with docs := docs }, removed)
  | .addTags project name tags =>
    let (docs, found) := DocTable.addTags s.docs project name tags
    ({ s with docs := docs }, found.isSome)
  | .removeTags project name tags =>
    let (docs, found) := DocTable.removeTags s.docs project name tags
    ({ s with docs := docs }, found.isSome)
  | .setArchived project name archived =>
    let (docs, found) := DocTable.setArchived s.docs project name archived
    ({ s with docs := docs }, found.isSome)
  | .transfer source name target =>
    let (docs, result) := DocTable.transfer s.docs s.projects source name target
    ({ s with docs := docs }, result matches .ok (.transferred _))

def DocOp.supported (kind : DocKind) : DocOp → Bool
  | .transfer .. => kind = .scratchpad
  | _ => true

def docMachine (kind : DocKind) : Machine DocStore DocOp where
  init s := s = ⟨AutoTable.empty, SlotTable.empty⟩
  step s op := if op.supported kind then some (op.apply kind s).1 else none

def DocOp.writes (slot : ProjectId × String) : DocOp → Bool
  | .write project name _ _ _ => (project, name) = slot
  | _ => false

/-- The operation brings another row under `slot`: a create, a rename onto the name, or a transfer
into the project. -/
def DocOp.places (slot : ProjectId × String) : DocOp → Bool
  | .write project name _ none _ => (project, name) = slot
  | .rename project source target => source ≠ target ∧ (project, target) = slot
  | .transfer _ name target => (target, name) = slot
  | _ => false

/-- The step put another row under `slot`. -/
def Placed (kind : DocKind) (slot : ProjectId × String) (s : DocStore) (op : DocOp) : Prop :=
  (op.apply kind s).2 ∧ op.places slot

/-- The step wrote the document under `slot` or put another row there. -/
def Disturbed (kind : DocKind) (slot : ProjectId × String) (s : DocStore) (op : DocOp) : Prop :=
  (op.apply kind s).2 ∧ (op.writes slot ∨ op.places slot)

instance (kind : DocKind) (slot : ProjectId × String) (s : DocStore) (op : DocOp) :
    Decidable (Placed kind slot s op) := inferInstanceAs (Decidable (_ ∧ _))

instance (kind : DocKind) (slot : ProjectId × String) (s : DocStore) (op : DocOp) :
    Decidable (Disturbed kind slot s op) := inferInstanceAs (Decidable (_ ∧ _))

/-- What may become of the row under a slot in a step that places none there: it goes away, its
revision moves on, or it is the same revision of the same body and nothing `touched` it. -/
def Evolves (before after : Option StoredDoc) (touched : Prop) : Prop :=
  after = none ∨ ∃ r r', before = some r ∧ after = some r' ∧
    (r'.revision = r.revision + 1 ∨ r'.revision = r.revision ∧ r'.body = r.body ∧ ¬ touched)

section Evolves
variable {before after : Option StoredDoc} {touched : Prop}

theorem Evolves.of_map {f : StoredDoc → StoredDoc} (hafter : after = before.map f)
    (hf : ∀ r, (f r).revision = r.revision ∧ (f r).body = r.body) (htouched : ¬ touched) :
    Evolves before after touched := by
  cases hbefore : before with
  | none =>
    left
    rw [hafter, hbefore, map_none]
  | some r =>
    right
    refine ⟨r, f r, rfl, ?_, .inr ⟨(hf r).1, (hf r).2, htouched⟩⟩
    rw [hafter, hbefore, map_some]

theorem Evolves.of_eq (hafter : after = before) (htouched : ¬ touched) :
    Evolves before after touched :=
  of_map (f := id) (by rw [hafter, map_id, id]) (fun _ => ⟨rfl, rfl⟩) htouched

theorem Evolves.of_filter {p : StoredDoc → Bool} (hafter : after = before.filter p)
    (htouched : ¬ touched) : Evolves before after touched := by
  cases hbefore : before.filter p with
  | none => exact .inl (hafter.trans hbefore)
  | some r =>
    have hr : before = some r := (filter_eq_some_iff.mp hbefore).1
    exact of_eq ((hafter.trans hbefore).trans hr.symm) htouched

end Evolves

section Step
variable {kind : DocKind} {slot : ProjectId × String} {s : DocStore} {op : DocOp}

theorem not_disturbed_of_refused (h : (op.apply kind s).2 = false) :
    ¬ Disturbed kind slot s op := by
  unfold Disturbed
  simp [h]

theorem not_disturbed_of_elsewhere (hw : op.writes slot = false) (hp : op.places slot = false) :
    ¬ Disturbed kind slot s op := by
  unfold Disturbed
  simp [hw, hp]

/-- The step lemma: a step that places no row under a slot lets the row there evolve. -/
theorem DocOp.evolves (h : ¬ Placed kind slot s op) :
    Evolves (s.docs.find slot) ((op.apply kind s).1.docs.find slot) (Disturbed kind slot s op) := by
  cases op with
  | addProject => exact .of_eq rfl (not_disturbed_of_elsewhere rfl rfl)
  | removeProject project =>
    exact .of_filter (SlotTable.find_delete _ _ _) (not_disturbed_of_elsewhere rfl rfl)
  | write project name body expected now =>
    rcases Documents.write_cases kind s.docs s.projects project name body expected now with
      ⟨r, hr, hexp, -, hw⟩ | ⟨hnone, hexp, hw⟩ | ⟨e, hw, -⟩
    · have happly : (DocOp.write project name body expected now).apply kind s =
          ({ s with docs := s.docs.updateBody project name body (r.revision + 1) now }, true) := by
        simp only [DocOp.apply, hw]
        rfl
      rw [happly]
      dsimp only
      by_cases hslot : (project, name) = slot
      · right
        subst hslot
        refine ⟨r, r.withBody body (r.revision + 1) now, hr, ?_, .inl rfl⟩
        rw [DocTable.find_updateBody, hr, map_some, if_pos (SlotTable.find_eq_some.mp hr).2]
      · apply Evolves.of_eq (DocTable.find_updateBody_of_ne body (r.revision + 1) now hslot)
        apply not_disturbed_of_elsewhere
        · exact decide_eq_false hslot
        · subst hexp
          rfl
    · have happly : (DocOp.write project name body expected now).apply kind s =
          ({ s with docs := s.docs.insert project name body now hnone }, true) := by
        simp only [DocOp.apply, hw]
        rfl
      have hslot : (project, name) ≠ slot := by
        intro hslot
        apply h
        rw [Placed, happly, hexp]
        exact ⟨rfl, decide_eq_true hslot⟩
      rw [happly]
      apply Evolves.of_eq
      · rw [DocTable.find_insert, if_neg hslot]
      · apply not_disturbed_of_elsewhere
        · exact decide_eq_false hslot
        · subst hexp
          exact decide_eq_false hslot
    · have happly : (DocOp.write project name body expected now).apply kind s = (s, false) := by
        simp only [DocOp.apply, hw]
        rfl
      rw [happly]
      exact .of_eq rfl (not_disturbed_of_refused (by rw [happly]))
  | rename project source target =>
    rcases Documents.rename_cases kind s.docs project source target with
      ⟨hfree, r, hr, hw⟩ | ⟨e, hw⟩
    · have happly : (DocOp.rename project source target).apply kind s =
          ({ s with docs := s.docs.updateName project source target hfree }, true) := by
        simp only [DocOp.apply, hw]
        rfl
      rw [happly]
      dsimp only
      by_cases htarget : (project, target) = slot
      · have hname : source = target := by
          by_contra hname
          apply h
          rw [Placed, happly]
          exact ⟨rfl, decide_eq_true ⟨hname, htarget⟩⟩
        subst hname
        subst htarget
        right
        refine ⟨r, r.withName source, hr, DocTable.find_updateName hfree hr, .inr ⟨rfl, rfl, ?_⟩⟩
        exact not_disturbed_of_elsewhere rfl (decide_eq_false (fun hp => hp.1 rfl))
      · by_cases hsource : (project, source) = slot
        · left
          subst hsource
          exact SlotTable.find_move_source (fun heq => htarget heq.symm)
        · apply Evolves.of_eq
          · exact SlotTable.find_move_of_ne (fun heq => hsource heq.symm)
              (fun heq => htarget heq.symm)
          · exact not_disturbed_of_elsewhere rfl (decide_eq_false (fun hp => htarget hp.2))
    · have happly : (DocOp.rename project source target).apply kind s = (s, false) := by
        simp only [DocOp.apply, hw]
        rfl
      rw [happly]
      exact .of_eq rfl (not_disturbed_of_refused (by rw [happly]))
  | delete project name =>
    exact .of_filter (SlotTable.find_delete _ _ _) (not_disturbed_of_elsewhere rfl rfl)
  | addTags project name tags =>
    obtain ⟨tags', hfind⟩ := DocTable.find_updateTags s.docs project name
      (fun current => tags.foldl
        (fun current tag => if tag ∈ current then current else current ++ [tag]) current) slot
    refine .of_map hfind ?_ (not_disturbed_of_elsewhere rfl rfl)
    intro r
    split_ifs <;> exact ⟨rfl, rfl⟩
  | removeTags project name tags =>
    obtain ⟨tags', hfind⟩ := DocTable.find_updateTags s.docs project name
      (fun current => current.filter (· ∉ tags)) slot
    refine .of_map hfind ?_ (not_disturbed_of_elsewhere rfl rfl)
    intro r
    split_ifs <;> exact ⟨rfl, rfl⟩
  | setArchived project name archived =>
    refine .of_map (DocTable.find_setArchived s.docs project name archived slot) ?_
      (not_disturbed_of_elsewhere rfl rfl)
    intro r
    split_ifs <;> exact ⟨rfl, rfl⟩
  | transfer source name target =>
    rcases DocTable.transfer_cases s.docs s.projects source name target with
      ⟨hfree, r, hr, hw⟩ | ⟨hsame, hw⟩
    · have happly : (DocOp.transfer source name target).apply kind s =
          ({ s with docs := s.docs.updateProject source name target hfree }, true) := by
        simp only [DocOp.apply, hw]
      have htarget : (target, name) ≠ slot := by
        intro htarget
        apply h
        rw [Placed, happly]
        exact ⟨rfl, decide_eq_true htarget⟩
      rw [happly]
      dsimp only
      by_cases hsource : (source, name) = slot
      · left
        subst hsource
        exact SlotTable.find_move_source (fun heq => htarget heq.symm)
      · apply Evolves.of_eq
        · exact SlotTable.find_move_of_ne (fun heq => hsource heq.symm)
            (fun heq => htarget heq.symm)
        · exact not_disturbed_of_elsewhere rfl (decide_eq_false htarget)
    · have happly : (DocOp.transfer source name target).apply kind s = (s, false) := by
        simp only [DocOp.apply, hsame]
      rw [happly]
      exact .of_eq rfl (not_disturbed_of_refused (by rw [happly]))

end Step

section Run
variable {kind : DocKind} {slot : ProjectId × String} {s t : DocStore} {ops : List DocOp}

theorem docMachine_step {op : DocOp} (h : (docMachine kind).step s op = some t) :
    (op.apply kind s).1 = t := by
  simp only [docMachine] at h
  split_ifs at h
  exact some.inj h

theorem absent_run (hnone : s.docs.find slot = none)
    (hplaced : (docMachine kind).Along (fun s op => ¬ Placed kind slot s op) s ops)
    (hrun : (docMachine kind).run s ops = some t) : t.docs.find slot = none := by
  refine Machine.invariant_along (P := fun s => s.docs.find slot = none) ?_ hnone hplaced hrun
  intro s op t hplaced hnone hstep
  have hevolves := DocOp.evolves hplaced
  rw [docMachine_step hstep] at hevolves
  rcases hevolves with hnone' | ⟨r, -, hr, -, -⟩
  · exact hnone'
  · rw [hnone] at hr
    exact absurd hr (by simp)

/-- The run lemma: while nothing is placed under a name, the row there has moved past the revision
read, or it still has the body read and no step disturbed it. -/
theorem revision_run {r r' : StoredDoc} (hr : s.docs.find slot = some r)
    (hplaced : (docMachine kind).Along (fun s op => ¬ Placed kind slot s op) s ops)
    (hrun : (docMachine kind).run s ops = some t) (hr' : t.docs.find slot = some r') :
    r.revision ≤ r'.revision ∧ (r'.revision = r.revision → r'.body = r.body ∧
      (docMachine kind).Along (fun s op => ¬ Disturbed kind slot s op) s ops) := by
  induction ops generalizing s r with
  | nil =>
    obtain rfl : s = t := some.inj hrun
    obtain rfl : r = r' := some.inj (hr.symm.trans hr')
    exact ⟨le_refl _, fun _ => ⟨rfl, Machine.along_nil _ _⟩⟩
  | cons op ops ih =>
    obtain ⟨u, hstep, hrun⟩ := Machine.run_cons_eq_some.mp hrun
    have hrest := hplaced.2 u hstep
    have hevolves := DocOp.evolves hplaced.1
    rw [docMachine_step hstep, hr] at hevolves
    rcases hevolves with hnone | ⟨r₀, r₁, hr₀, hr₁, hnext⟩
    · have habsent := absent_run hnone hrest hrun
      rw [habsent] at hr'
      exact absurd hr' (by simp)
    · obtain rfl : r = r₀ := some.inj hr₀
      obtain ⟨hle, hsame⟩ := ih hr₁ hrest hrun
      rcases hnext with hbump | ⟨hkeep, hbody, hquiet⟩
      · exact ⟨by omega, fun heq => by omega⟩
      · refine ⟨by omega, fun heq => ?_⟩
        obtain ⟨hbody', halong⟩ := hsame (by omega)
        refine ⟨hbody'.trans hbody, hquiet, ?_⟩
        intro u' hu'
        obtain rfl : u = u' := some.inj (hstep.symm.trans hu')
        exact halong

end Run

/-- What a caller relies on who read `r` under a name in `s` and, after the steps `ops` of all
callers, writes `body` there in `t` expecting the revision read: a refusal changes nothing, the
write applies only over the body read, and it is refused if a step in between disturbed the
document. -/
def WriteGuarded (kind : DocKind) (s : DocStore) (ops : List DocOp) (t : DocStore)
    (project : ProjectId) (name : String) (r : StoredDoc) (body : String) (now : Nat) : Prop :=
  let outcome := Documents.write kind t.docs t.projects project name body (some r.revision) now
  (∀ e, outcome.2 = .error e → outcome.1 = t.docs) ∧
  (∀ stored, outcome.2 = .ok stored →
    (DocTable.readOne t.docs project name).map StoredDoc.body = some r.body) ∧
  (¬ (docMachine kind).Along (fun s op => ¬ Disturbed kind (project, name) s op) s ops →
    ∃ e, outcome.2 = .error e)

/-- The revision read is met by a row that a step since the read placed under the name. -/
def Reused (kind : DocKind) (s : DocStore) (ops : List DocOp) (t : DocStore)
    (project : ProjectId) (name : String) (r : StoredDoc) : Prop :=
  ¬ (docMachine kind).Along (fun s op => ¬ Placed kind (project, name) s op) s ops ∧
    DocTable.currentRevision t.docs project name = some r.revision

/-- A revision-guarded write keeps its promise exactly when it is malformed or its revision was not
reused. -/
theorem writeGuarded_iff {kind : DocKind} {s t : DocStore} {ops : List DocOp}
    {project : ProjectId} {name : String} {r : StoredDoc} (body : String) (now : Nat)
    (hread : DocTable.readOne s.docs project name = some r)
    (hrun : (docMachine kind).run s ops = some t) :
    WriteGuarded kind s ops t project name r body now ↔
      ¬ (Documents.validate kind name body = .ok () ∧ Reused kind s ops t project name r) := by
  unfold WriteGuarded Reused
  rcases Documents.write_cases kind t.docs t.projects project name body (some r.revision) now with
    ⟨r', hr', hexp, hvalid, hw⟩ | ⟨-, hexp, -⟩ | ⟨e, hw, hrefused⟩
  · have hrev : r'.revision = r.revision := (Option.some.inj hexp).symm
    have hcurrent : DocTable.currentRevision t.docs project name = some r.revision :=
      DocTable.currentRevision_eq_some.mpr ⟨r', hr', hrev⟩
    rw [hw]
    constructor
    · rintro ⟨-, -, hdisturbed⟩ ⟨-, hplaced, -⟩
      have hquiet : ¬ (docMachine kind).Along
          (fun s op => ¬ Disturbed kind (project, name) s op) s ops :=
        fun h => hplaced (h.mono fun s op hd hp => hd ⟨hp.1, .inr hp.2⟩)
      obtain ⟨e, he⟩ := hdisturbed hquiet
      exact absurd he (by simp)
    · intro hnot
      have hplaced : (docMachine kind).Along
          (fun s op => ¬ Placed kind (project, name) s op) s ops := by
        by_contra hplaced
        exact hnot ⟨hvalid, hplaced, hcurrent⟩
      obtain ⟨hbody, hquiet⟩ := (revision_run hread hplaced hrun hr').2 hrev
      refine ⟨fun e he => absurd he (by simp), fun stored _ => ?_, fun h => absurd hquiet h⟩
      have hget : DocTable.readOne t.docs project name = some r' := hr'
      rw [hget, Option.map_some, hbody]
  · exact absurd hexp (by simp)
  · rw [hw]
    constructor
    · rintro - ⟨hvalid, -, hcurrent⟩
      exact hrefused hvalid rfl hcurrent
    · intro _
      exact ⟨fun _ _ => rfl, fun stored h => absurd h (by simp), fun _ => ⟨e, rfl⟩⟩

/-- The state after the operations, each answered or refused. -/
def DocStore.after (kind : DocKind) (s : DocStore) (ops : List DocOp) : DocStore :=
  ops.foldl (fun s op => (op.apply kind s).1) s

def planStore : DocStore :=
  .after .scratchpad ⟨AutoTable.empty, SlotTable.empty⟩ [.addProject, .write 1 "plan" "A" none 1]

/-- The document is deleted and another created under its name, again at the first revision. -/
def planRecreated : List DocOp := [.delete 1 "plan", .write 1 "plan" "B" none 2]

theorem writeGuarded_iff_renamed :
    WriteGuarded .scratchpad planStore [.rename 1 "plan" "old"]
        (planStore.after .scratchpad [.rename 1 "plan" "old"]) 1 "plan"
        (.fresh 1 1 "plan" "A" 1) "C" 3 ↔
      ¬ (Documents.validate .scratchpad "plan" "C" = .ok () ∧
        Reused .scratchpad planStore [.rename 1 "plan" "old"]
          (planStore.after .scratchpad [.rename 1 "plan" "old"]) 1 "plan"
          (.fresh 1 1 "plan" "A" 1)) :=
  writeGuarded_iff "C" 3 rfl rfl

/-- The write of a caller who read the deleted document overwrites the new one. -/
theorem not_writeGuarded_of_recreated :
    ¬ ∀ (kind : DocKind) (s : DocStore) (ops : List DocOp) (t : DocStore) (project : ProjectId)
        (name : String) (r : StoredDoc) (body : String) (now : Nat),
      (docMachine kind).Reachable s → DocTable.readOne s.docs project name = some r →
      (docMachine kind).run s ops = some t → WriteGuarded kind s ops t project name r body now := by
  intro h
  have hreach : (docMachine .scratchpad).Reachable planStore :=
    ⟨_, [.addProject, .write 1 "plan" "A" none 1], rfl, rfl⟩
  obtain ⟨-, hbody, -⟩ := h .scratchpad planStore planRecreated
    (planStore.after .scratchpad planRecreated) 1 "plan" (.fresh 1 1 "plan" "A" 1) "C" 3 hreach rfl
    rfl
  have hover := hbody ((StoredDoc.fresh 2 1 "plan" "B" 2).withBody "C" 2 3) rfl
  exact absurd hover (by decide)

end Soloist
