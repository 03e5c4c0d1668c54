import Soloist.Ids

/-! The row mechanics the coordination document tables share: scratchpads and diagrams are both a
`(project, name)`-addressed table with a revision-guarded body, a tag set, an archived flag and a
durable id. -/
open Option

namespace Soloist

/-- One document row; `body` is the Markdown of a scratchpad or the source of a diagram. -/
structure StoredDoc where
  id : Nat
  project : ProjectId
  name : String
  body : String
  tags : List String
  archived : Bool
  revision : Nat
  updatedAt : Nat
  deriving DecidableEq, Repr

namespace StoredDoc

def slot (r : StoredDoc) : ProjectId × String := (r.project, r.name)

def withBody (body : String) (revision now : Nat) (r : StoredDoc) : StoredDoc :=
  { r with body := body, revision := revision, updatedAt := now }

def withName (name : String) (r : StoredDoc) : StoredDoc := { r with name := name }

def withProject (project : ProjectId) (r : StoredDoc) : StoredDoc := { r with project := project }

def withTags (tags : List String) (r : StoredDoc) : StoredDoc := { r with tags := tags }

def withArchived (archived : Bool) (r : StoredDoc) : StoredDoc := { r with archived := archived }

def fresh (id : Nat) (project : ProjectId) (name body : String) (now : Nat) : StoredDoc where
  id := id
  project := project
  name := name
  body := body
  tags := []
  archived := false
  revision := 1
  updatedAt := now

@[simp] theorem id_withBody (body : String) (revision now : Nat) (r : StoredDoc) :
    (r.withBody body revision now).id = r.id := rfl

@[simp] theorem slot_withBody (body : String) (revision now : Nat) (r : StoredDoc) :
    (r.withBody body revision now).slot = r.slot := rfl

@[simp] theorem id_withName (name : String) (r : StoredDoc) : (r.withName name).id = r.id := rfl

@[simp] theorem id_withProject (project : ProjectId) (r : StoredDoc) :
    (r.withProject project).id = r.id := rfl

@[simp] theorem id_withTags (tags : List String) (r : StoredDoc) : (r.withTags tags).id = r.id :=
  rfl

@[simp] theorem slot_withTags (tags : List String) (r : StoredDoc) :
    (r.withTags tags).slot = r.slot := rfl

@[simp] theorem id_withArchived (archived : Bool) (r : StoredDoc) :
    (r.withArchived archived).id = r.id := rfl

@[simp] theorem slot_withArchived (archived : Bool) (r : StoredDoc) :
    (r.withArchived archived).slot = r.slot := rfl

variable {r : StoredDoc}

theorem slot_withName {project : ProjectId} {source : String} (target : String)
    (h : r.slot = (project, source)) : (r.withName target).slot = (project, target) := by
  have hp : r.project = project := congrArg Prod.fst h
  rw [← hp]
  rfl

theorem slot_withProject {source : ProjectId} {name : String} (target : ProjectId)
    (h : r.slot = (source, name)) : (r.withProject target).slot = (target, name) := by
  have hn : r.name = name := congrArg Prod.snd h
  rw [← hn]
  rfl

@[simp] theorem id_fresh (id : Nat) (project : ProjectId) (name body : String) (now : Nat) :
    (fresh id project name body now).id = id := rfl

end StoredDoc

inductive DocWrite
  | written (stored : StoredDoc)
  | conflict (actual : Option Nat)
  deriving DecidableEq, Repr

inductive DocRename
  | renamed (stored : StoredDoc)
  | notFound
  | nameTaken
  deriving DecidableEq, Repr

inductive DocTransfer
  | transferred (stored : StoredDoc)
  | notFound
  | nameTaken
  deriving DecidableEq, Repr

/-- The error a step reports when the row it just wrote does not read back. -/
def vanished (label step : String) : StoreError := .backend s!"{label} vanished after {step}"

/-- Documents with a unique name in each project. -/
abbrev DocTable := SlotTable StoredDoc.id StoredDoc.slot

namespace DocTable

def readOne (t : DocTable) (project : ProjectId) (name : String) : Option StoredDoc :=
  t.find (project, name)

def currentRevision (t : DocTable) (project : ProjectId) (name : String) : Option Nat :=
  (readOne t project name).map StoredDoc.revision

def contains (t : DocTable) (project : ProjectId) (id : Nat) : Bool :=
  t.rows.any fun r => r.project = project ∧ r.id = id

variable {t : DocTable} {project : ProjectId}

theorem slot_ne_of_absent {name : String} (h : currentRevision t project name = none) :
    ∀ r ∈ t.rows, r.slot ≠ (project, name) :=
  SlotTable.find_eq_none.mp (map_eq_none_iff.mp h)

theorem eq_of_not_nameTaken {source target : String}
    (h : ¬ (source ≠ target ∧ (currentRevision t project target).isSome)) :
    ∀ r ∈ t.rows, r.slot = (project, target) → (project, source) = (project, target) := by
  intro r hr hslot
  by_contra hne
  have hname : source ≠ target := fun heq => hne (by rw [heq])
  have hsome : currentRevision t project target ≠ none :=
    fun hnone => slot_ne_of_absent hnone r hr hslot
  exact h ⟨hname, isSome_iff_ne_none.mpr hsome⟩

/-- `UPDATE … SET body, revision, updated_at WHERE project_id AND name`. -/
def updateBody (t : DocTable) (project : ProjectId) (name body : String) (revision now : Nat) :
    DocTable :=
  t.update (fun r => r.slot = (project, name)) (.withBody body revision now)
    (StoredDoc.id_withBody body revision now) (StoredDoc.slot_withBody body revision now)

def insert (t : DocTable) (project : ProjectId) (name body : String) (now : Nat)
    (h : currentRevision t project name = none) : DocTable :=
  t.append (.fresh (t.seq + 1) project name body now)
    (StoredDoc.id_fresh (t.seq + 1) project name body now) (slot_ne_of_absent h)

/-- `UPDATE … SET name WHERE project_id AND name`. -/
def updateName (t : DocTable) (project : ProjectId) (source target : String)
    (h : ¬ (source ≠ target ∧ (currentRevision t project target).isSome)) : DocTable :=
  t.move (project, source) (project, target) (.withName target) (StoredDoc.id_withName target)
    (fun _ => StoredDoc.slot_withName target) (eq_of_not_nameTaken h)

/-- `UPDATE … SET project_id WHERE project_id AND name`. -/
def updateProject (t : DocTable) (source : ProjectId) (name : String) (target : ProjectId)
    (h : currentRevision t target name = none) : DocTable :=
  t.move (source, name) (target, name) (.withProject target) (StoredDoc.id_withProject target)
    (fun _ => StoredDoc.slot_withProject target)
    (fun r hr hslot => absurd hslot (slot_ne_of_absent h r hr))

/-- Creates or updates a document, revision-guarded: `expected` is `none` to create (applies only
if absent) or the revision to update (applies only if it still is the current one). -/
def write (t : DocTable) (projects : ProjectTable) (label : String) (project : ProjectId)
    (name body : String) (expected : Option Nat) (now : Nat) :
    DocTable × Except StoreError DocWrite :=
  match h : currentRevision t project name, expected with
  | some revision, some expected =>
    if revision = expected then
      let t' := updateBody t project name body (revision + 1) now
      match readOne t' project name with
      | some stored => (t', .ok (.written stored))
      | none => (t', .error (vanished label "write"))
    else (t, .ok (.conflict (some revision)))
  | none, none =>
    if ProjectTable.contains projects project then
      let t' := insert t project name body now h
      match readOne t' project name with
      | some stored => (t', .ok (.written stored))
      | none => (t', .error (vanished label "create"))
    else (t, .error .foreignKey)
  | actual, _ => (t, .ok (.conflict actual))

def rename (t : DocTable) (label : String) (project : ProjectId) (source target : String) :
    DocTable × Except StoreError DocRename :=
  if h : source ≠ target ∧ (currentRevision t project target).isSome then (t, .ok .nameTaken)
  else
    match readOne t project source with
    | none => (t, .ok .notFound)
    | some _ =>
      let t' := updateName t project source target h
      match readOne t' project target with
      | some stored => (t', .ok (.renamed stored))
      | none => (t', .error (vanished label "rename"))

/-- Moves a document to another project under its name, unless one there has it; everything but
the project rides along. Only scratchpads have this step. -/
def transfer (t : DocTable) (projects : ProjectTable) (source : ProjectId) (name : String)
    (target : ProjectId) : DocTable × Except StoreError DocTransfer :=
  match h : currentRevision t target name with
  | some _ => (t, .ok .nameTaken)
  | none =>
    match readOne t source name with
    | none => (t, .ok .notFound)
    | some _ =>
      if ProjectTable.contains projects target then
        let t' := updateProject t source name target h
        match readOne t' target name with
        | some stored => (t', .ok (.transferred stored))
        | none => (t', .error (vanished "scratchpad" "transfer"))
      else (t, .error .foreignKey)

/-- Reads the tag set, changes it and writes it back sorted. -/
def updateTags (t : DocTable) (project : ProjectId) (name : String)
    (change : List String → List String) : DocTable × Option StoredDoc :=
  match readOne t project name with
  | none => (t, none)
  | some stored =>
    let tags := (change stored.tags).mergeSort (· ≤ ·)
    (t.update (fun r => r.slot = (project, name)) (.withTags tags) (StoredDoc.id_withTags tags)
      (StoredDoc.slot_withTags tags), some (stored.withTags tags))

def addTags (t : DocTable) (project : ProjectId) (name : String) (tags : List String) :
    DocTable × Option StoredDoc :=
  updateTags t project name fun current =>
    tags.foldl (fun current tag => if tag ∈ current then current else current ++ [tag]) current

def removeTags (t : DocTable) (project : ProjectId) (name : String) (tags : List String) :
    DocTable × Option StoredDoc :=
  updateTags t project name fun current => current.filter (· ∉ tags)

def setArchived (t : DocTable) (project : ProjectId) (name : String) (archived : Bool) :
    DocTable × Option StoredDoc :=
  let t' := t.update (fun r => r.slot = (project, name)) (.withArchived archived)
    (StoredDoc.id_withArchived archived) (StoredDoc.slot_withArchived archived)
  (t', readOne t' project name)

def delete (t : DocTable) (project : ProjectId) (name : String) : DocTable × Bool :=
  (SlotTable.delete t fun r => r.slot = (project, name), (readOne t project name).isSome)

/-- The foreign key cascade of a project's removal. -/
def dropProject (t : DocTable) (project : ProjectId) : DocTable :=
  SlotTable.delete t fun r => r.project = project

section Lookup
variable {t : DocTable} {project : ProjectId} {name : String}

theorem find_updateBody (body : String) (revision now : Nat) (slot : ProjectId × String) :
    (updateBody t project name body revision now).find slot =
      (t.find slot).map fun r =>
        if r.slot = (project, name) then r.withBody body revision now else r := by
  unfold updateBody
  rw [SlotTable.find_update]
  simp only [decide_eq_true_eq]

theorem find_updateBody_of_ne (body : String) (revision now : Nat) {slot : ProjectId × String}
    (h : (project, name) ≠ slot) :
    (updateBody t project name body revision now).find slot = t.find slot := by
  rw [find_updateBody]
  cases hr : t.find slot with
  | none => rfl
  | some r =>
    have hne : r.slot ≠ (project, name) := by
      rw [(SlotTable.find_eq_some.mp hr).2]
      exact fun heq => h heq.symm
    rw [map_some, if_neg hne]

theorem find_insert (body : String) (now : Nat) (h : currentRevision t project name = none)
    (slot : ProjectId × String) :
    (insert t project name body now h).find slot =
      if (project, name) = slot then some (.fresh (t.seq + 1) project name body now)
      else t.find slot :=
  SlotTable.find_append t _ _ _ slot

theorem currentRevision_eq_some {revision : Nat} :
    currentRevision t project name = some revision ↔
      ∃ r, t.find (project, name) = some r ∧ r.revision = revision :=
  map_eq_some_iff

/-- A write updates the row it expects, creates the row it expects to be absent, or is refused and
changes nothing. -/
theorem write_cases (t : DocTable) (projects : ProjectTable) (label : String)
    (project : ProjectId) (name body : String) (expected : Option Nat) (now : Nat) :
    (∃ r, t.find (project, name) = some r ∧ expected = some r.revision ∧
      write t projects label project name body expected now =
        (updateBody t project name body (r.revision + 1) now,
          .ok (.written (r.withBody body (r.revision + 1) now)))) ∨
    (∃ h : currentRevision t project name = none, expected = none ∧
      write t projects label project name body expected now =
        (insert t project name body now h,
          .ok (.written (.fresh (t.seq + 1) project name body now)))) ∨
    (write t projects label project name body expected now).1 = t ∧
      (expected.isSome → currentRevision t project name ≠ expected) ∧
      ∀ r, (write t projects label project name body expected now).2 ≠ .ok (.written r) := by
  unfold write
  split
  next revision expected' hcur =>
    obtain ⟨r, hr, rfl⟩ := currentRevision_eq_some.mp hcur
    by_cases hrev : r.revision = expected'
    · subst hrev
      have hread : readOne (updateBody t project name body (r.revision + 1) now) project name =
          some (r.withBody body (r.revision + 1) now) := by
        unfold readOne
        rw [find_updateBody, hr, map_some, if_pos (SlotTable.find_eq_some.mp hr).2]
      left
      refine ⟨r, hr, rfl, ?_⟩
      rw [if_pos rfl]
      dsimp only
      rw [hread]
    · right; right
      rw [if_neg hrev]
      refine ⟨rfl, ?_, ?_⟩
      · intro _ heq
        exact hrev (some.inj (hcur.symm.trans heq))
      · intro r' h
        exact DocWrite.noConfusion (Except.ok.inj h)
  next hcur =>
    by_cases hp : ProjectTable.contains projects project = true
    · have hread : readOne (insert t project name body now hcur) project name =
          some (.fresh (t.seq + 1) project name body now) := by
        unfold readOne
        rw [find_insert, if_pos rfl]
      right; left
      refine ⟨hcur, rfl, ?_⟩
      rw [if_pos hp]
      dsimp only
      rw [hread]
    · right; right
      rw [if_neg hp]
      refine ⟨rfl, fun h => absurd h (by simp), ?_⟩
      intro r h
      exact absurd h (by simp)
  next hboth hneither =>
    right; right
    refine ⟨rfl, ?_, ?_⟩
    · intro hsome heq
      obtain ⟨revision, hrev⟩ := isSome_iff_exists.mp hsome
      exact hboth revision revision (heq.trans hrev) hrev
    · intro r h
      exact DocWrite.noConfusion (Except.ok.inj h)

variable {r : StoredDoc}

theorem find_updateName {source target : String}
    (h : ¬ (source ≠ target ∧ (currentRevision t project target).isSome))
    (hr : t.find (project, source) = some r) :
    (updateName t project source target h).find (project, target) = some (r.withName target) :=
  SlotTable.find_move_target hr

theorem find_updateProject {source target : ProjectId} (h : currentRevision t target name = none)
    (hr : t.find (source, name) = some r) :
    (updateProject t source name target h).find (target, name) = some (r.withProject target) :=
  SlotTable.find_move_target hr

/-- A rename moves the row to its new name, or changes nothing. -/
theorem rename_cases (t : DocTable) (label : String) (project : ProjectId)
    (source target : String) :
    (∃ h r, t.find (project, source) = some r ∧
      rename t label project source target =
        (updateName t project source target h, .ok (.renamed (r.withName target)))) ∨
    (rename t label project source target).1 = t ∧
      ∀ r, (rename t label project source target).2 ≠ .ok (.renamed r) := by
  unfold rename
  split_ifs with htaken
  · right
    refine ⟨rfl, ?_⟩
    intro r h
    exact DocRename.noConfusion (Except.ok.inj h)
  · split
    next hnone =>
      right
      refine ⟨rfl, ?_⟩
      intro r h
      exact DocRename.noConfusion (Except.ok.inj h)
    next r hr =>
      left
      have hread : readOne (updateName t project source target htaken) project target =
          some (r.withName target) := find_updateName htaken hr
      refine ⟨htaken, r, hr, ?_⟩
      dsimp only
      rw [hread]

/-- A transfer moves the row to its new project, or changes nothing. -/
theorem transfer_cases (t : DocTable) (projects : ProjectTable) (source : ProjectId)
    (name : String) (target : ProjectId) :
    (∃ h r, t.find (source, name) = some r ∧
      transfer t projects source name target =
        (updateProject t source name target h, .ok (.transferred (r.withProject target)))) ∨
    (transfer t projects source name target).1 = t ∧
      ∀ r, (transfer t projects source name target).2 ≠ .ok (.transferred r) := by
  unfold transfer
  split
  next =>
    right
    refine ⟨rfl, ?_⟩
    intro r h
    exact DocTransfer.noConfusion (Except.ok.inj h)
  next hfree =>
    split
    next =>
      right
      refine ⟨rfl, ?_⟩
      intro r h
      exact DocTransfer.noConfusion (Except.ok.inj h)
    next r hr =>
      by_cases hp : ProjectTable.contains projects target = true
      · left
        have hread : readOne (updateProject t source name target hfree) target name =
            some (r.withProject target) := find_updateProject hfree hr
        refine ⟨hfree, r, hr, ?_⟩
        rw [if_pos hp]
        dsimp only
        rw [hread]
      · right
        rw [if_neg hp]
        refine ⟨rfl, ?_⟩
        intro r h
        exact absurd h (by simp)

/-- Tag edits leave every row its name, body and revision. -/
theorem find_updateTags (t : DocTable) (project : ProjectId) (name : String)
    (change : List String → List String) (slot : ProjectId × String) :
    ∃ tags, (updateTags t project name change).1.find slot = (t.find slot).map fun r =>
      if r.slot = (project, name) then r.withTags tags else r := by
  unfold updateTags
  split
  next hnone =>
    refine ⟨[], ?_⟩
    cases hr : t.find slot with
    | none => rfl
    | some r =>
      have hne : r.slot ≠ (project, name) :=
        SlotTable.find_eq_none.mp hnone r (SlotTable.find_eq_some.mp hr).1
      rw [map_some, if_neg hne]
  next stored _ =>
    refine ⟨(change stored.tags).mergeSort (· ≤ ·), ?_⟩
    dsimp only
    rw [SlotTable.find_update]
    simp only [decide_eq_true_eq]

theorem find_setArchived (t : DocTable) (project : ProjectId) (name : String) (archived : Bool)
    (slot : ProjectId × String) :
    (setArchived t project name archived).1.find slot = (t.find slot).map fun r =>
      if r.slot = (project, name) then r.withArchived archived else r := by
  unfold setArchived
  dsimp only
  rw [SlotTable.find_update]
  simp only [decide_eq_true_eq]

end Lookup

end DocTable

end Soloist
