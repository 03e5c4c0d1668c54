import Soloist.Doc.LostUpdate
import Soloist.Doc.Revisions

/-! A document table as revisioned documents under their slots: what it accepts, and what it then
holds. -/
open Option Slots

namespace Soloist

def StoredDoc.revised (r : StoredDoc) : Revised String := ⟨r.id, r.revision, r.body⟩

namespace DocTable
variable {t : DocTable} {projects : ProjectTable} {label name source target body : String}
  {project : ProjectId} {expected : Option Nat} {now : Nat}

def revisions (t : DocTable) : Revisions (ProjectId × String) String where
  docs slot := (t.find slot).map StoredDoc.revised
  next := t.seq + 1
  unique := by
    intro i j x y hx hy hid
    obtain ⟨r, hr, rfl⟩ := Option.map_eq_some_iff.mp hx
    obtain ⟨q, hq, rfl⟩ := Option.map_eq_some_iff.mp hy
    obtain ⟨hrow, rfl⟩ := SlotTable.find_eq_some.mp hr
    obtain ⟨hother, rfl⟩ := SlotTable.find_eq_some.mp hq
    exact congrArg StoredDoc.slot (Table.eq_of_key_eq hrow hother hid)
  issued := by
    intro i x hx
    obtain ⟨r, hr, rfl⟩ := Option.map_eq_some_iff.mp hx
    obtain ⟨hrow, -⟩ := SlotTable.find_eq_some.mp hr
    exact Nat.lt_succ_of_le (AutoTable.get_le_seq (Table.get_of_mem hrow))

variable {r : StoredDoc}

theorem docs_updateBody (hr : t.find (project, name) = some r) :
    (updateBody t project name body (r.revision + 1) now).revisions.docs =
      t.revisions.docs.put (project, name) ⟨r.id, r.revision + 1, body⟩ := by
  funext slot
  show ((updateBody t project name body (r.revision + 1) now).find slot).map _ = _
  by_cases hslot : slot = (project, name)
  · subst hslot
    rw [find_updateBody, hr, put_self, map_some, map_some,
      if_pos (SlotTable.find_eq_some.mp hr).2]
    rfl
  · rw [find_updateBody_of_ne body (r.revision + 1) now fun heq => hslot heq.symm,
      put_of_ne hslot]
    rfl

theorem docs_insert (hfree : currentRevision t project name = none) :
    (insert t project name body now hfree).revisions.docs =
      t.revisions.docs.put (project, name) ⟨t.seq + 1, 1, body⟩ := by
  funext slot
  show ((insert t project name body now hfree).find slot).map _ = _
  rw [find_insert]
  by_cases hslot : (project, name) = slot
  · subst hslot
    rw [if_pos rfl, put_self]
    rfl
  · rw [if_neg hslot, put_of_ne fun heq => hslot heq.symm]
    rfl

variable {t' : DocTable} {stored : StoredDoc}

theorem revisions_write
    (hwrite : write t projects label project name body expected now = (t', .ok (.written stored))) :
    t.revisions.write (project, name) body expected = some (t'.revisions, stored.revised) := by
  rcases write_cases t projects label project name body expected now with
    ⟨r, hr, rfl, hwritten⟩ | ⟨hfree, rfl, hwritten⟩ | ⟨-, -, hrefused⟩
  · obtain ⟨rfl, hstored⟩ := Prod.mk.inj (hwritten.symm.trans hwrite)
    obtain rfl := DocWrite.written.inj (Except.ok.inj hstored)
    have hdoc : t.revisions.docs (project, name) = some r.revised := congrArg (Option.map _) hr
    exact Revisions.write_of_current hdoc (docs_updateBody hr) rfl
  · obtain ⟨rfl, hstored⟩ := Prod.mk.inj (hwritten.symm.trans hwrite)
    obtain rfl := DocWrite.written.inj (Except.ok.inj hstored)
    have hdoc : t.revisions.docs (project, name) = none :=
      map_eq_none_iff.mpr (map_eq_none_iff.mp hfree)
    exact Revisions.write_of_absent hdoc (docs_insert hfree) rfl
  · rw [hwrite] at hrefused
    exact absurd rfl (hrefused stored)

theorem exists_written_of_absent (hproject : ProjectTable.contains projects project = true)
    (hfree : currentRevision t project name = none) :
    ∃ r, (write t projects label project name body none now).2 = .ok (.written r) := by
  unfold write
  split
  next hnone => cases hnone
  next habsent _ =>
    have hread : readOne (insert t project name body now habsent) project name =
        some (.fresh (t.seq + 1) project name body now) := by
      unfold readOne
      rw [find_insert, if_pos rfl]
    rw [if_pos hproject]
    dsimp only
    rw [hread]
    exact ⟨_, rfl⟩
  next hneither => exact absurd rfl (hneither hfree)

theorem revisions_write_refused (hproject : ProjectTable.contains projects project = true)
    (hrefused : ∀ stored, (write t projects label project name body expected now).2 ≠
      .ok (.written stored)) :
    t.revisions.write (project, name) body expected = none ∧
      (write t projects label project name body expected now).1 = t := by
  rcases write_cases t projects label project name body expected now with
    ⟨r, -, -, hwritten⟩ | ⟨hfree, -, hwritten⟩ | ⟨hsame, hstale, -⟩
  · exact absurd (congrArg Prod.snd hwritten) (hrefused _)
  · exact absurd (congrArg Prod.snd hwritten) (hrefused _)
  · refine ⟨?_, hsame⟩
    cases haccepted : t.revisions.write (project, name) body expected with
    | none => rfl
    | some written =>
      rcases Revisions.write_eq_some haccepted with ⟨doc, hdoc, rfl, -⟩ | ⟨hnone, rfl, -⟩
      · obtain ⟨r, hr, rfl⟩ := map_eq_some_iff.mp hdoc
        have hcurrent : currentRevision t project name = some r.revision :=
          congrArg (Option.map StoredDoc.revision) hr
        exact absurd hcurrent (hstale rfl)
      · have hfree : currentRevision t project name = none :=
          map_eq_none_iff.mpr (map_eq_none_iff.mp hnone)
        obtain ⟨r, hr⟩ := exists_written_of_absent hproject hfree
        exact absurd hr (hrefused r)

theorem docs_updateName (hr : t.find (project, source) = some r)
    (hfree : ¬ (source ≠ target ∧ (currentRevision t project target).isSome)) :
    (updateName t project source target hfree).revisions.docs =
      (t.revisions.docs.erase (project, source)).put (project, target) r.revised := by
  funext slot
  show ((updateName t project source target hfree).find slot).map _ = _
  by_cases htarget : slot = (project, target)
  · subst htarget
    rw [find_updateName hfree hr, put_self]
    rfl
  · rw [put_of_ne htarget]
    by_cases hsource : slot = (project, source)
    · subst hsource
      have hmoved : (updateName t project source target hfree).find (project, source) = none :=
        SlotTable.find_move_source htarget
      rw [hmoved]
      exact (if_pos rfl).symm
    · have hkept : (updateName t project source target hfree).find slot = t.find slot :=
        SlotTable.find_move_of_ne hsource htarget
      rw [hkept]
      exact (if_neg hsource).symm

theorem revisions_rename
    (hrename : rename t label project source target = (t', .ok (.renamed stored))) :
    t.revisions.rename (project, source) (project, target) = some t'.revisions := by
  rcases rename_cases t label project source target with ⟨hfree, r, hr, hrenamed⟩ | ⟨-, hrefused⟩
  · obtain ⟨rfl, -⟩ := Prod.mk.inj (hrenamed.symm.trans hrename)
    have hdoc : t.revisions.docs (project, source) = some r.revised := congrArg (Option.map _) hr
    refine Revisions.rename_of_free hdoc ?_ (docs_updateName hr hfree) rfl
    by_cases hsame : source = target
    · exact .inl (congrArg _ hsame)
    · right
      have hnone : ¬(currentRevision t project target).isSome = true :=
        fun htaken => hfree ⟨hsame, htaken⟩
      have habsent := map_eq_none_iff.mp (not_isSome_iff_eq_none.mp hnone)
      exact map_eq_none_iff.mpr habsent
  · rw [hrename] at hrefused
    exact absurd rfl (hrefused stored)

end DocTable

/-! Every document operation, as it bears on what a reader holds. -/

namespace DocTable
variable {t t' : DocTable} {view : Revised String} {project : ProjectId} {name : String}

/-- Renames, transfers, tags and deletes leave every row they keep its id, revision and body. -/
theorem dated_of_rows (hview : t.revisions.Dated view) (hseq : t.seq ≤ t'.seq)
    (hrows : ∀ r ∈ t'.rows, ∃ q ∈ t.rows, q.revised = r.revised) : t'.revisions.Dated view := by
  refine ⟨Nat.lt_of_lt_of_le hview.1 (Nat.succ_le_succ hseq), ?_⟩
  intro slot doc hdoc hid
  obtain ⟨r, hr, rfl⟩ := Option.map_eq_some_iff.mp hdoc
  obtain ⟨q, hq, hsame⟩ := hrows r (SlotTable.find_eq_some.mp hr).1
  have hfound : t.find q.slot = some q := SlotTable.find_eq_some.mpr ⟨hq, rfl⟩
  have hdoc' : t.revisions.docs q.slot = some q.revised := congrArg (Option.map _) hfound
  rw [← hsame] at hid ⊢
  exact hview.2 q.slot q.revised hdoc' hid

theorem dated_delete (hview : t.revisions.Dated view) (p : StoredDoc → Bool) :
    (DocTable.revisions (SlotTable.delete t p)).Dated view :=
  dated_of_rows hview (Nat.le_refl _) fun r hr => ⟨r, (Table.mem_delete.mp hr).1, rfl⟩

theorem dated_update (hview : t.revisions.Dated view) (p : StoredDoc → Bool)
    (f : StoredDoc → StoredDoc) (hf : ∀ r, (f r).id = r.id) (hs : ∀ r, (f r).slot = r.slot)
    (hkept : ∀ r, (f r).revised = r.revised) :
    (DocTable.revisions (SlotTable.update t p f hf hs)).Dated view := by
  refine dated_of_rows hview (Nat.le_refl _) fun r hr => ?_
  obtain ⟨q, hq, rfl⟩ := (@Table.mem_update _ _ _ t.toTable r p f hf).mp hr
  refine ⟨q, hq, ?_⟩
  split_ifs
  · exact (hkept q).symm
  · rfl

theorem dated_move (hview : t.revisions.Dated view) {i j : ProjectId × String}
    {f : StoredDoc → StoredDoc} {hf : ∀ r, (f r).id = r.id} {hs : ∀ r, r.slot = i → (f r).slot = j}
    {hfree : ∀ r ∈ t.rows, r.slot = j → i = j} (hkept : ∀ r, (f r).revised = r.revised) :
    (DocTable.revisions (SlotTable.move t i j f hf hs hfree)).Dated view := by
  refine dated_of_rows hview (Nat.le_refl _) fun r hr => ?_
  obtain ⟨q, hq, rfl⟩ := SlotTable.mem_move.mp hr
  refine ⟨q, hq, ?_⟩
  split_ifs
  · exact (hkept q).symm
  · rfl

theorem dated_updateTags (hview : t.revisions.Dated view) (change : List String → List String) :
    (updateTags t project name change).1.revisions.Dated view := by
  unfold updateTags
  split
  · exact hview
  · exact dated_update hview _ _ _ (StoredDoc.slot_withTags _) fun r => rfl

end DocTable

section History
variable {kind : DocKind} {s t : DocStore} {op : DocOp} {view : Revised String}

/-- The step lemma: an operation leaves what a reader holds current, or an older revision. -/
theorem DocOp.dated (hview : s.docs.revisions.Dated view) :
    (op.apply kind s).1.docs.revisions.Dated view := by
  cases op with
  | addProject => exact hview
  | removeProject project => exact DocTable.dated_delete hview _
  | write project name body expected now =>
    show (Documents.write kind s.docs s.projects project name body expected now).1.revisions.Dated _
    rcases Documents.write_cases kind s.docs s.projects project name body expected now with
      ⟨r, hr, -, -, hw⟩ | ⟨hfree, -, hw⟩ | ⟨e, hw, -⟩
    · rw [hw]
      have hdoc : s.docs.revisions.docs (project, name) = some r.revised :=
        congrArg (Option.map _) hr
      exact hview.write (Revisions.write_of_current hdoc (DocTable.docs_updateBody hr) rfl)
    · rw [hw]
      have hdoc : s.docs.revisions.docs (project, name) = none :=
        map_eq_none_iff.mpr (map_eq_none_iff.mp hfree)
      exact hview.write (Revisions.write_of_absent hdoc (DocTable.docs_insert hfree) rfl)
    · rw [hw]
      exact hview
  | rename project source target =>
    show (Documents.rename kind s.docs project source target).1.revisions.Dated _
    rcases Documents.rename_cases kind s.docs project source target with
      ⟨hfree, r, -, hrename⟩ | ⟨e, hrename⟩
    · rw [hrename]
      dsimp only [DocTable.updateName]
      exact DocTable.dated_move hview fun r => rfl
    · rw [hrename]
      exact hview
  | delete project name => exact DocTable.dated_delete hview _
  | addTags project name tags =>
    show (DocTable.addTags s.docs project name tags).1.revisions.Dated _
    exact DocTable.dated_updateTags hview _
  | removeTags project name tags =>
    show (DocTable.removeTags s.docs project name tags).1.revisions.Dated _
    exact DocTable.dated_updateTags hview _
  | setArchived project name archived =>
    exact DocTable.dated_update hview _ _ _ (StoredDoc.slot_withArchived archived) fun r => rfl
  | transfer source name target =>
    show (DocTable.transfer s.docs s.projects source name target).1.revisions.Dated _
    rcases DocTable.transfer_cases s.docs s.projects source name target with
      ⟨hfree, r, -, htransfer⟩ | ⟨hsame, -⟩
    · rw [htransfer]
      dsimp only [DocTable.updateProject]
      exact DocTable.dated_move hview fun r => rfl
    · rw [hsame]
      exact hview

theorem dated_run {ops : List DocOp} (hview : s.docs.revisions.Dated view)
    (hrun : (docMachine kind).run s ops = some t) : t.docs.revisions.Dated view := by
  refine Machine.invariant_run (P := fun s => s.docs.revisions.Dated view) ?_ hview hrun
  intro s op t hview hstep
  rw [← docMachine_step hstep]
  exact DocOp.dated hview

end History

/-- A document keeps its id under every name and in every project it is moved to. Whoever finds it
again finds no older revision of it, and under the revision read the body read. -/
theorem revision_names_body {kind : DocKind} {s t : DocStore} {ops : List DocOp}
    {project project' : ProjectId} {name name' : String} {r r' : StoredDoc}
    (hread : DocTable.readOne s.docs project name = some r)
    (hrun : (docMachine kind).run s ops = some t)
    (hfound : DocTable.readOne t.docs project' name' = some r') (hid : r'.id = r.id) :
    r.revision ≤ r'.revision ∧ (r'.revision = r.revision → r'.body = r.body) := by
  have hdoc : s.docs.revisions.docs (project, name) = some r.revised :=
    congrArg (Option.map _) hread
  have hdoc' : t.docs.revisions.docs (project', name') = some r'.revised :=
    congrArg (Option.map _) hfound
  obtain ⟨-, hheld⟩ := dated_run (Revisions.dated_of_get hdoc) hrun
  obtain ⟨hle, hsame⟩ := hheld (project', name') r'.revised hdoc' hid
  refine ⟨hle, fun hrevision => ?_⟩
  have hrevised : r.revised = r'.revised := hsame hrevision.symm
  exact (congrArg Revised.body hrevised).symm

theorem revision_names_body_renamed :
    (StoredDoc.fresh 1 1 "plan" "A" 1).revision ≤ (StoredDoc.fresh 1 1 "old" "A" 1).revision ∧
      ((StoredDoc.fresh 1 1 "old" "A" 1).revision = (StoredDoc.fresh 1 1 "plan" "A" 1).revision →
        (StoredDoc.fresh 1 1 "old" "A" 1).body = (StoredDoc.fresh 1 1 "plan" "A" 1).body) :=
  @revision_names_body .scratchpad planStore
    (planStore.after .scratchpad [.rename 1 "plan" "old"]) [.rename 1 "plan" "old"] 1 1 "plan" "old"
    _ _ rfl rfl rfl rfl

end Soloist
