import Soloist.Slots
import Soloist.Todo.Machine

/-! The association of todos with scratchpads under any sessions. A create or update checks that the
scratchpad it names belongs to its project, and writes in a later step of the store. -/
open Option

namespace Soloist

/-- The scratchpad a todo is associated with exists and belongs to the same project as the todo. -/
def StoredTodo.Homed (t : DocTable) (r : StoredTodo) : Prop :=
  ∀ id ∈ r.scratchpad, DocTable.contains t r.project id = true

instance (t : DocTable) (r : StoredTodo) : Decidable (r.Homed t) :=
  inferInstanceAs (Decidable (∀ id ∈ r.scratchpad, DocTable.contains t r.project id = true))

def Board.Associated (b : Board) : Prop := ∀ r ∈ b.todos.rows, r.Homed b.scratchpads

instance : DecidablePred Board.Associated := fun b =>
  inferInstanceAs (Decidable (∀ r ∈ b.todos.rows, r.Homed b.scratchpads))

def guardScratchpad (b : Board) (project : ProjectId) (scratchpad : Option ScratchpadId) : Bool :=
  scratchpad.all (DocTable.contains b.scratchpads project)

/-- The body of a new document: a blank one is seeded from the project's default template, if it
has selected one. -/
def seedBody (body : String) (template : Except StoreError (Option String)) :
    Except StoreError String :=
  if isBlank body then template.map fun found => found.getD body else .ok body

/-- The todo is there, not protected by a completion, met by its blockers if the document completes
it, and at the revision expected. -/
def Board.Takes (b : Board) (project : ProjectId) (id : TodoId) (doc : TodoDoc) (expected : ℕ) :
    Prop :=
  ∃ stored ∈ b.readOne project id, stored.completion = none ∧
    (doc.status = .done → b.unmetBlockers project stored.blockers = []) ∧
    expected = stored.revision

/-- What a call goes on to write. -/
inductive TodoWrite
  | create (project : ProjectId) (doc : TodoDoc) (scratchpad : Option ScratchpadId)
  | update (project : ProjectId) (id : TodoId) (doc : TodoDoc) (link : ScratchpadLink)
      (expected : ℕ)
  deriving DecidableEq

namespace TodoWrite

def project : TodoWrite → ProjectId
  | .create project _ _ | .update project _ _ _ _ => project

def target : TodoWrite → Option ScratchpadId
  | .create _ _ scratchpad => scratchpad
  | .update _ _ _ link _ => link.target

def seeded (template : Except StoreError (Option String)) : TodoWrite → Except StoreError TodoWrite
  | .create project doc scratchpad =>
    (seedBody doc.body template).map fun body => .create project { doc with body } scratchpad
  | .update project id doc link expected => .ok (.update project id doc link expected)

def op : TodoWrite → TodoOp
  | .create project doc scratchpad => .create project doc scratchpad
  | .update project id doc link expected => .update project id doc link expected

/-- The document is well formed, and its project is known or the todo it is for takes it. -/
def Lands (b : Board) : TodoWrite → Prop
  | .create project doc _ =>
    doc.validate = .ok () ∧ ProjectTable.contains b.projects project = true
  | .update project id doc _ expected =>
    doc.validate = .ok () ∧ b.Takes project id doc expected

end TodoWrite

def TodoOp.associates : TodoOp → Bool
  | .create _ _ _ | .update _ _ _ _ _ => true
  | _ => false

/-- The board, and the calls that have checked their association and not yet written. -/
structure TodoDesk where
  board : Board
  calls : Slots ℕ TodoWrite

inductive TodoDeskEvent
  | check (call : ℕ) (write : TodoWrite)
  | write (call : ℕ) (template : Except StoreError (Option String))
  | board (op : TodoOp)

namespace TodoDesk

def new : TodoDesk := ⟨.empty, .empty⟩

/-- `guard_scratchpad`, which lets the call go on or refuses it with nothing written. -/
def check (s : TodoDesk) (call : ℕ) (write : TodoWrite) : TodoDesk :=
  if guardScratchpad s.board write.project write.target then
    { s with calls := s.calls.put call write }
  else s

/-- The rest of the call; a body that cannot be seeded ends it. -/
def write (s : TodoDesk) (call : ℕ) (template : Except StoreError (Option String))
    (w : TodoWrite) : TodoDesk where
  board := match w.seeded template with
    | .ok w => w.op.apply s.board
    | .error _ => s.board
  calls := s.calls.erase call

def step (s : TodoDesk) : TodoDeskEvent → Option TodoDesk
  | .check call write => if (s.calls call).isNone then some (s.check call write) else none
  | .write call template => (s.calls call).map (s.write call template)
  | .board op => if op.associates then none else some { s with board := op.apply s.board }

end TodoDesk

/-- Todo and scratchpad operations by any sessions, in any interleaving of their store steps. -/
def todoDeskMachine : Machine TodoDesk TodoDeskEvent where
  init s := s = .new
  step := TodoDesk.step

/-- A write the board takes finds its scratchpad still in the project it was checked in, or gone.
The foreign key refuses what is gone and nothing else. -/
def WritesAtHome (s : TodoDesk) : TodoDeskEvent → Prop
  | .write call template => ∀ w ∈ s.calls call, ∀ seeded, w.seeded template = .ok seeded →
      seeded.Lands s.board → ∀ id ∈ seeded.target, s.board.hasScratchpad id = true →
        DocTable.contains s.board.scratchpads seeded.project id = true
  | _ => True

namespace DocTable
variable {t : DocTable} {project : ProjectId} {name : String} {id : ℕ}

theorem contains_iff :
    contains t project id = true ↔ ∃ r ∈ t.rows, r.project = project ∧ r.id = id := by
  unfold contains
  rw [List.any_eq_true]
  simp only [decide_eq_true_eq]

variable {owner : ProjectId}

theorem contains_of_map {t' : DocTable} {f : StoredDoc → StoredDoc} (hrows : t'.rows = t.rows.map f)
    (hproject : ∀ r, (f r).project = r.project) (hid : ∀ r, (f r).id = r.id)
    (h : contains t owner id = true) : contains t' owner id = true := by
  obtain ⟨r, hr, howner, hkey⟩ := contains_iff.mp h
  rw [contains_iff, hrows]
  exact ⟨f r, List.mem_map_of_mem hr, (hproject r).trans howner, (hid r).trans hkey⟩

theorem contains_updateBody (body : String) (revision now : ℕ) (h : contains t owner id = true) :
    contains (updateBody t project name body revision now) owner id = true := by
  apply contains_of_map rfl _ _ h
  · intro r
    split_ifs <;> rfl
  · intro r
    split_ifs <;> rfl

theorem contains_insert (body : String) (now : ℕ) (hfree : currentRevision t project name = none)
    (h : contains t owner id = true) :
    contains (insert t project name body now hfree) owner id = true := by
  obtain ⟨r, hr, hrow⟩ := contains_iff.mp h
  exact contains_iff.mpr ⟨r, List.mem_append_left _ hr, hrow⟩

theorem contains_updateName {source target : String}
    (hfree : ¬ (source ≠ target ∧ (currentRevision t project target).isSome))
    (h : contains t owner id = true) :
    contains (updateName t project source target hfree) owner id = true := by
  apply contains_of_map rfl _ _ h
  · intro r
    split_ifs <;> rfl
  · intro r
    split_ifs <;> rfl

/-- A move takes the row to its new project and leaves every other where it is. -/
theorem contains_updateProject {source target : ProjectId}
    (hfree : currentRevision t target name = none) {moved : StoredDoc}
    (hmoved : t.find (source, name) = some moved) (h : contains t owner id = true) :
    contains (updateProject t source name target hfree)
      (if id = moved.id then target else owner) id = true := by
  obtain ⟨r, hr, hproject, hid⟩ := contains_iff.mp h
  obtain ⟨hmem, hslot⟩ := SlotTable.find_eq_some.mp hmoved
  apply contains_iff.mpr
  refine ⟨_, List.mem_map_of_mem hr, ?_⟩
  simp only [decide_eq_true_eq]
  by_cases heq : r.slot = (source, name)
  · have hsame : r = moved := Table.eq_of_key_eq (t := t.bySlot) hr hmem (heq.trans hslot.symm)
    rw [if_pos heq, if_pos (by rw [← hid, hsame])]
    exact ⟨rfl, hid⟩
  · have hother : id ≠ moved.id := by
      rintro rfl
      exact heq (by rw [Table.eq_of_key_eq (t := t.toTable) hr hmem hid, hslot])
    rw [if_neg heq, if_neg hother]
    exact ⟨hproject, hid⟩

end DocTable

variable {t : DocTable} {owner project : ProjectId} {id : ℕ}

theorem Scratchpads.contains_write {projects : ProjectTable} {name body : String}
    {expected : Option ℕ} {now : ℕ} (h : DocTable.contains t owner id = true) :
    DocTable.contains (write t projects project name body expected now).1 owner id = true := by
  unfold write
  obtain ⟨r, -, -, -, hw⟩ | ⟨hfree, -, hw⟩ | ⟨e, hw, -⟩ :=
    Documents.write_cases .scratchpad t projects project name body expected now
  · rw [hw]
    exact DocTable.contains_updateBody body _ now h
  · rw [hw]
    exact DocTable.contains_insert body now hfree h
  · rw [hw]
    exact h

theorem Scratchpads.contains_rename {source target : String}
    (h : DocTable.contains t owner id = true) :
    DocTable.contains (rename t project source target).1 owner id = true := by
  unfold rename
  obtain ⟨hfree, r, -, hw⟩ | ⟨e, hw⟩ :=
    Documents.rename_cases .scratchpad t project source target
  · rw [hw]
    exact DocTable.contains_updateName hfree h
  · rw [hw]
    exact h

namespace Board
variable {b : Board} {project : ProjectId} {id : TodoId}

theorem associated_of_scratchpads {scratchpads : DocTable} (hb : b.Associated)
    (h : ∀ owner id, DocTable.contains b.scratchpads owner id = true →
      DocTable.contains scratchpads owner id = true) :
    Associated { b with scratchpads } :=
  fun r hr scratchpad hscratchpad => h _ _ (hb r hr scratchpad hscratchpad)

variable {p : StoredTodo → Bool} {f : StoredTodo → StoredTodo}

variable (hb : b.Associated)
include hb

theorem associated_update {hf : ∀ r, (f r).id = r.id}
    (h : ∀ r ∈ b.todos.rows, p r = true → r.Homed b.scratchpads → (f r).Homed b.scratchpads) :
    (b.update p f hf).Associated := by
  intro r' hr'
  obtain ⟨r, hr, rfl⟩ := List.mem_map.mp hr'
  split_ifs with hp
  · exact h r hr hp (hb r hr)
  · exact hb r hr

theorem associated_update_of_same {hf : ∀ r, (f r).id = r.id}
    (hproject : ∀ r, (f r).project = r.project)
    (hscratchpad : ∀ r, (f r).scratchpad = r.scratchpad) : (b.update p f hf).Associated := by
  apply associated_update hb
  intro r _ _ hr
  unfold StoredTodo.Homed
  rw [hproject r, hscratchpad r]
  exact hr

theorem associated_mutate {change : StoredTodo → StoredTodo.Live}
    (hproject : ∀ r, (change r).project = r.project)
    (hscratchpad : ∀ r, (change r).scratchpad = r.scratchpad) :
    (b.mutate project id change).1.Associated := by
  unfold mutate
  split
  · exact hb
  · exact associated_update_of_same hb hproject hscratchpad

theorem associated_editComments (comment : ℕ)
    (edit : List Comment → List Comment) :
    (b.editComments project id comment edit).1.Associated := by
  unfold editComments
  split
  · exact hb
  · split_ifs
    · exact hb
    · exact associated_update_of_same hb (fun _ => rfl) (fun _ => rfl)
    · exact hb

theorem associated_commentCreate (body : String)
    (author : Option CommentAuthor) : (b.commentCreate project id body author).1.Associated := by
  unfold commentCreate
  split
  · exact hb
  · exact associated_update_of_same hb (fun _ => rfl) (fun _ => rfl)

theorem associated_applyCompletion
    (policy : TodoCompletionContext → TodoCompletionDecision) :
    (b.applyCompletion project id policy).1.Associated := by
  unfold applyCompletion
  split
  · exact hb
  · split
    · exact hb
    · exact hb
    · exact associated_update_of_same hb (fun _ => rfl) (fun _ => rfl)

theorem associated_compareCompletion (expected replacement : TodoCompletion) :
    (b.compareCompletion project id expected replacement).1.Associated := by
  unfold compareCompletion
  split
  · exact hb
  · split_ifs
    · exact hb
    · exact associated_update_of_same hb (fun _ => rfl) (fun _ => rfl)

/-- A todo that moves leaves its association behind. -/
theorem associated_transfer (source target : ProjectId) :
    (b.transfer source target id).1.Associated := by
  unfold transfer
  split
  · exact hb
  · split_ifs
    · apply associated_update hb
      intro r _ _ _ scratchpad hscratchpad
      cases hscratchpad
    · exact hb

omit hb

/-- Whatever scratchpads are gone, the associations left name what stayed. -/
theorem associated_unlinkGone
    (hb : ∀ r ∈ b.todos.rows, ∀ id ∈ r.scratchpad, b.hasScratchpad id = true →
      DocTable.contains b.scratchpads r.project id = true) : b.unlinkGone.Associated := by
  intro r' hr'
  obtain ⟨r, hr, rfl⟩ := List.mem_map.mp hr'
  split_ifs with hgone
  · intro scratchpad hscratchpad
    cases hscratchpad
  · intro scratchpad hscratchpad
    have hlinked : b.linkable r.scratchpad = true := by simpa using hgone
    rw [mem_def.mp hscratchpad] at hlinked
    exact hb r hr scratchpad hscratchpad hlinked

theorem hasScratchpad_iff {scratchpad : ScratchpadId} :
    b.hasScratchpad scratchpad = true ↔ ∃ s ∈ b.scratchpads.rows, s.id = scratchpad := by
  unfold hasScratchpad
  rw [isSome_iff_exists]
  simp only [Table.get_eq_some]

theorem associated_drop {p : StoredDoc → Bool} {todos : TodoTable} {projects : ProjectTable}
    (hb : b.Associated) (htodos : ∀ r ∈ todos.rows, r ∈ b.todos.rows) :
    (unlinkGone ⟨projects, SlotTable.delete b.scratchpads p, todos⟩).Associated := by
  apply associated_unlinkGone
  intro r hr scratchpad hscratchpad hthere
  obtain ⟨s, hs, hid⟩ := hasScratchpad_iff.mp hthere
  obtain ⟨s', hs', hproject, hid'⟩ :=
    DocTable.contains_iff.mp (hb r (htodos r hr) scratchpad hscratchpad)
  have hkept : s ∈ b.scratchpads.rows := (Table.mem_delete.mp hs).1
  have hsame : s = s' :=
    Table.eq_of_key_eq (t := b.scratchpads.toTable) hkept hs' (hid.trans hid'.symm)
  exact DocTable.contains_iff.mpr ⟨s, hs, hsame ▸ hproject, hid⟩

theorem associated_scratchpadTransfer (hb : b.Associated) (source : ProjectId) (name : String)
    (target : ProjectId) : (b.scratchpadTransfer source name target).1.Associated := by
  unfold scratchpadTransfer
  obtain ⟨hfree, moved, hmoved, heq⟩ | ⟨-, hrefused⟩ :=
    DocTable.transfer_cases b.scratchpads b.projects source name target
  · rw [heq]
    have hrow : moved ∈ b.scratchpads.rows := (SlotTable.find_eq_some.mp hmoved).1
    have howner : moved.project = source := congrArg Prod.fst (SlotTable.find_eq_some.mp hmoved).2
    intro r' hr'
    obtain ⟨r, hr, rfl⟩ := List.mem_map.mp hr'
    have hhome := hb r hr
    split_ifs with hderived
    · have hlink : r.scratchpad = some moved.id := by
        unfold derivedFrom at hderived
        exact (of_decide_eq_true hderived).2
      intro scratchpad hscratchpad
      have hid : scratchpad = moved.id := some.inj (hscratchpad.symm.trans hlink)
      have hmove := DocTable.contains_updateProject hfree hmoved (hhome scratchpad hscratchpad)
      rw [if_pos hid] at hmove
      exact hmove
    · intro scratchpad hscratchpad
      have hmove := DocTable.contains_updateProject hfree hmoved (hhome scratchpad hscratchpad)
      have hother : scratchpad ≠ moved.id := by
        rintro rfl
        obtain ⟨s, hs, hproject, hid⟩ := DocTable.contains_iff.mp (hhome _ hscratchpad)
        have hsame : s = moved := Table.eq_of_key_eq (t := b.scratchpads.toTable) hs hrow hid
        apply hderived
        unfold derivedFrom
        rw [decide_eq_true_eq]
        exact ⟨by rw [← hproject, hsame, howner], hscratchpad⟩
      rw [if_neg hother] at hmove
      exact hmove
  · split
    next stored heq => exact absurd (congrArg Prod.snd heq) (hrefused stored)
    · exact hb
    · exact hb

variable {doc : TodoDoc}

theorem gate_open_iff {unmet : List TodoId} :
    ¬ ((if doc.status = .done then BlockerGate.enforced else .unenforced) = .enforced ∧
      unmet ≠ []) ↔ (doc.status = .done → unmet = []) := by
  split_ifs with hdone
  · simp [hdone]
  · simp [hdone]

variable {link : ScratchpadLink}

theorem board_writeDoc {expected : ℕ} (htakes : b.Takes project id doc expected)
    (hlink : b.linkable link.target = true) :
    (b.writeDoc project id doc link expected
      (if doc.status = .done then .enforced else .unenforced)).1 =
      b.update (addressed project id) (.withDoc doc link) (StoredTodo.id_withDoc doc link) := by
  obtain ⟨stored, hread, hopen, hgate, hrevision⟩ := htakes
  unfold writeDoc
  rw [mem_def.mp hread]
  dsimp only
  rw [if_neg (by simp [hopen]), if_neg (gate_open_iff.mpr hgate), if_neg (not_not.mpr hrevision),
    if_pos hlink]

theorem associated_writeDoc (hb : b.Associated) (doc : TodoDoc)
    (expected : ℕ)
    (hlink : b.Takes project id doc expected → b.linkable link.target = true →
      ∀ scratchpad ∈ link.target, DocTable.contains b.scratchpads project scratchpad = true) :
    (b.writeDoc project id doc link expected
      (if doc.status = .done then .enforced else .unenforced)).1.Associated := by
  unfold writeDoc
  split
  · exact hb
  next stored hread =>
    dsimp only
    by_cases hprotected : stored.completion.isSome = true
    · rw [if_pos hprotected]
      exact hb
    rw [if_neg hprotected]
    by_cases hgate : doc.status = .done → b.unmetBlockers project stored.blockers = []
    · rw [if_neg (gate_open_iff.mpr hgate)]
      split_ifs with hstale hlinkable
      · exact hb
      · have htakes : b.Takes project id doc expected :=
          ⟨stored, hread, by simpa using hprotected, hgate, not_not.mp hstale⟩
        apply associated_update hb
        intro r _ haddr hr scratchpad hscratchpad
        have hproject : r.project = project := (addressed_iff.mp haddr).1
        cases link with
        | unchanged => exact hr scratchpad hscratchpad
        | cleared => cases hscratchpad
        | linked id' =>
          show DocTable.contains b.scratchpads r.project scratchpad = true
          rw [hproject]
          exact hlink htakes hlinkable scratchpad hscratchpad
      · exact hb
    · rw [if_pos (not_not.mp (mt gate_open_iff.mp hgate))]
      exact hb

end Board

namespace Todos
variable {b : Board} {project : ProjectId} {id : TodoId}

theorem board_create (doc : TodoDoc) (scratchpad : Option ScratchpadId) :
    (create b project doc scratchpad).1 =
      if doc.validate = .ok () then (b.create project doc scratchpad).1 else b := by
  unfold create
  cases hvalid : doc.validate with
  | error message => rw [if_neg (by simp)]
  | ok _ =>
    rw [if_pos rfl]
    dsimp only
    split <;> simp [*]

theorem board_applyDoc (doc : TodoDoc) (link : ScratchpadLink) (expected : ℕ) :
    (applyDoc b project id doc link expected).1 =
      (b.writeDoc project id doc link expected
        (if doc.status = .done then .enforced else .unenforced)).1 := by
  unfold applyDoc
  dsimp only
  split <;> simp [*]

theorem board_update (doc : TodoDoc) (link : ScratchpadLink) (expected : ℕ) :
    (update b project id doc link expected).1 =
      if doc.validate = .ok () then (applyDoc b project id doc link expected).1 else b := by
  unfold update
  cases hvalid : doc.validate with
  | error message => rw [if_neg (by simp)]
  | ok _ => rw [if_pos rfl]

theorem associated_complete (hb : b.Associated) (read : Option StoredTodo) :
    (complete b project id read).1.Associated := by
  unfold complete
  cases read with
  | none => exact hb
  | some stored =>
    dsimp only
    rw [board_applyDoc]
    apply Board.associated_writeDoc hb
    intro _ _ scratchpad hscratchpad
    cases hscratchpad

theorem associated_reportCompletion (hb : b.Associated) (key : TodoCompletionKey)
    (summary : String) (author : CommentAuthor) :
    (reportCompletion b project id key summary author).1.Associated := by
  have hstep := @Board.associated_applyCompletion b project id hb fun context =>
    completionDecision context id key summary author
  unfold reportCompletion
  dsimp only
  split <;> simpa [*] using hstep

theorem associated_markCompletionNoticeQueued (hb : b.Associated) (completion : TodoCompletion) :
    (markCompletionNoticeQueued b project completion).1.Associated := by
  have hstep := @Board.associated_compareCompletion b project completion.todoId hb completion
    completion.withNoticeQueued
  unfold markCompletionNoticeQueued
  split_ifs
  · exact hb
  · split
    next heq => rwa [heq] at hstep
    next stored heq =>
      rw [heq] at hstep
      split
      · split_ifs <;> exact hstep
      · exact hstep
    next heq => rwa [heq] at hstep

end Todos

section Operations
variable {b : Board} {op : TodoOp} {w : TodoWrite}

/-- Every operation that states no association keeps the ones there are at home. -/
theorem TodoOp.associated (h : op.associates = false) (hb : b.Associated) :
    (op.apply b).Associated := by
  cases op with
  | addProject => exact hb
  | removeProject project =>
    exact Board.associated_drop hb fun r hr => (Table.mem_delete.mp hr).1
  | create | update => cases h
  | complete project id read => exact Todos.associated_complete hb read
  | delete project id => exact fun r hr => hb r (Table.mem_delete.mp hr).1
  | addTag | removeTag | setBlockers | addBlocker | removeBlocker | lock | unlock =>
    exact Board.associated_mutate hb (fun _ => rfl) (fun _ => rfl)
  | commentCreate project id body author => exact Board.associated_commentCreate hb body author
  | commentUpdate project id comment body => exact Board.associated_editComments hb comment _
  | commentDelete project id comment => exact Board.associated_editComments hb comment _
  | releaseOwner | clearLocks =>
    exact Board.associated_update_of_same hb (fun _ => rfl) (fun _ => rfl)
  | transfer source target id => exact Board.associated_transfer hb source target
  | reportCompletion project id key summary author =>
    exact Todos.associated_reportCompletion hb key summary author
  | markCompletionNoticeQueued project completion =>
    exact Todos.associated_markCompletionNoticeQueued hb completion
  | scratchpadWrite project name body expected now =>
    exact Board.associated_of_scratchpads hb fun _ _ hid => Scratchpads.contains_write hid
  | scratchpadRename project source target =>
    exact Board.associated_of_scratchpads hb fun _ _ hid => Scratchpads.contains_rename hid
  | scratchpadDelete project name => exact Board.associated_drop hb fun _ hr => hr
  | scratchpadTransfer source name target =>
    exact Board.associated_scratchpadTransfer hb source name target

variable {scratchpad : Option ScratchpadId}

theorem linkable_iff :
    b.linkable scratchpad = true ↔ ∀ id ∈ scratchpad, b.hasScratchpad id = true := by
  unfold Board.linkable
  rw [all_eq_true]
  rfl

variable {project : ProjectId} {doc : TodoDoc}

theorem associated_create_iff (hb : b.Associated) :
    (b.create project doc scratchpad).1.Associated ↔
      (ProjectTable.contains b.projects project = true → b.linkable scratchpad = true →
        ∀ id ∈ scratchpad, DocTable.contains b.scratchpads project id = true) := by
  unfold Board.create
  by_cases haccepted : ProjectTable.contains b.projects project = true ∧
      b.linkable scratchpad = true
  · rw [if_pos haccepted]
    constructor
    · intro h _ _ id hid
      exact h _ (List.mem_append_right _ (List.mem_singleton_self _)) id hid
    · intro h r hr
      obtain hr | hr := List.mem_append.mp hr
      · exact hb r hr
      · cases List.mem_singleton.mp hr
        exact h haccepted.1 haccepted.2
  · rw [if_neg haccepted]
    constructor
    · intro _ hproject hlink
      exact absurd ⟨hproject, hlink⟩ haccepted
    · intro _
      exact hb

theorem associated_applyDoc_iff (hb : b.Associated) {id : TodoId} {link : ScratchpadLink}
    {expected : ℕ} :
    (Todos.applyDoc b project id doc link expected).1.Associated ↔
      (b.Takes project id doc expected → b.linkable link.target = true →
        ∀ scratchpad ∈ link.target, DocTable.contains b.scratchpads project scratchpad = true) := by
  rw [Todos.board_applyDoc]
  constructor
  · intro h htakes hlink scratchpad hscratchpad
    rw [Board.board_writeDoc htakes hlink] at h
    obtain ⟨stored, hread, -⟩ := htakes
    obtain ⟨hget, hproject⟩ := Board.readOne_eq_some.mp hread
    have haddr : Board.addressed project id stored = true :=
      Board.addressed_iff.mpr ⟨hproject, Table.get_key hget⟩
    have hrow := h _ (List.mem_map_of_mem (Table.get_mem hget))
    rw [if_pos haddr] at hrow
    have hhome : DocTable.contains b.scratchpads stored.project scratchpad = true := by
      apply hrow
      cases link with
      | unchanged => cases hscratchpad
      | cleared => cases hscratchpad
      | linked id' => exact hscratchpad
    rwa [hproject] at hhome
  · exact Board.associated_writeDoc hb doc expected

theorem TodoWrite.associated_iff (hb : b.Associated) :
    (w.op.apply b).Associated ↔ (w.Lands b → ∀ id ∈ w.target, b.hasScratchpad id = true →
      DocTable.contains b.scratchpads w.project id = true) := by
  have hone : ∀ {target : Option ScratchpadId} {owner : ProjectId},
      (b.linkable target = true → ∀ id ∈ target, DocTable.contains b.scratchpads owner id = true) ↔
        ∀ id ∈ target, b.hasScratchpad id = true →
          DocTable.contains b.scratchpads owner id = true := by
    intro target owner
    rw [linkable_iff]
    cases target with
    | none => simp
    | some id => simp
  cases w with
  | create project doc scratchpad =>
    show (Todos.create b project doc scratchpad).1.Associated ↔ (_ ∧ _ → _)
    rw [Todos.board_create]
    by_cases hvalid : doc.validate = .ok ()
    · rw [if_pos hvalid, associated_create_iff hb, hone]
      exact ⟨fun h hlands => h hlands.2, fun h hproject => h ⟨hvalid, hproject⟩⟩
    · rw [if_neg hvalid]
      exact ⟨fun _ hlands => absurd hlands.1 hvalid, fun _ => hb⟩
  | update project id doc link expected =>
    show (Todos.update b project id doc link expected).1.Associated ↔ (_ ∧ _ → _)
    rw [Todos.board_update]
    by_cases hvalid : doc.validate = .ok ()
    · rw [if_pos hvalid, associated_applyDoc_iff hb, hone]
      exact ⟨fun h hlands => h hlands.2, fun h htakes => h ⟨hvalid, htakes⟩⟩
    · rw [if_neg hvalid]
      exact ⟨fun _ hlands => absurd hlands.1 hvalid, fun _ => hb⟩

end Operations

theorem TodoDesk.step_associated_iff {s : TodoDesk} (e : TodoDeskEvent) (hs : s.board.Associated) :
    (∀ t, s.step e = some t → t.board.Associated) ↔ WritesAtHome s e := by
  cases e with
  | check call write =>
    refine iff_of_true ?_ trivial
    intro t ht
    simp only [step, ite_none_right_eq_some, Option.some.injEq] at ht
    obtain ⟨-, rfl⟩ := ht
    unfold check
    split_ifs
    · exact hs
    · exact hs
  | board op =>
    refine iff_of_true ?_ trivial
    intro t ht
    simp only [step, ite_none_left_eq_some, Option.some.injEq] at ht
    obtain ⟨hop, rfl⟩ := ht
    exact TodoOp.associated (by simpa using hop) hs
  | write call template =>
    simp only [step, WritesAtHome, map_eq_some_iff]
    constructor
    · intro h w hw seeded hseeded
      have hwritten := h _ ⟨w, hw, rfl⟩
      unfold write at hwritten
      rw [hseeded] at hwritten
      exact (TodoWrite.associated_iff hs).mp hwritten
    · rintro h t ⟨w, hw, rfl⟩
      unfold write
      cases hseeded : w.seeded template with
      | error e => exact hs
      | ok seeded => exact (TodoWrite.associated_iff hs).mpr (h w hw seeded hseeded)

theorem associated_new : TodoDesk.new.board.Associated := fun _ hr => nomatch hr

/-- In every run the todos stay associated within their projects exactly as long as every write the
board takes finds its scratchpad where it was checked. -/
theorem associations_stay (events : List TodoDeskEvent) :
    todoDeskMachine.Throughout (fun s => s.board.Associated) .new events ↔
      todoDeskMachine.Along WritesAtHome .new events :=
  Machine.throughout_iff_along (I := fun _ => True) (fun _ _ _ _ _ => trivial)
    (fun _ e _ hs => TodoDesk.step_associated_iff e hs) trivial associated_new

def movedMeanwhile : List TodoDeskEvent :=
  [.board .addProject, .board .addProject, .board (.scratchpadWrite 1 "plan" "" none 0),
    .check 0 (.create 1 ⟨"task", "body", .open⟩ (some 1)),
    .board (.scratchpadTransfer 1 "plan" 2), .write 0 (.ok none)]

theorem association_left_behind :
    ∃ s, todoDeskMachine.Reachable s ∧ ¬ s.board.Associated :=
  Machine.exists_reachable_of_run (M := todoDeskMachine) rfl movedMeanwhile
    (fun s => ¬ s.board.Associated) (by decide)

end Soloist
