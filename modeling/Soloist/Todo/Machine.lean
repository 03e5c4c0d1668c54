import Soloist.Machine
import Soloist.Todo.Repo

/-! The todo aggregate over the repository: document validation, the gate a write carries, and the
completion policy. -/
open Option

namespace Soloist

structure TodoView where
  id : TodoId
  doc : TodoDoc
  tags : List String
  blockers : List TodoId
  blockedBy : List TodoId
  blocked : Bool
  comments : List Comment
  lockedBy : Option ProcessId
  scratchpad : Option (ScratchpadId × String)
  revision : Nat
  deriving DecidableEq, Repr

/-- Whether a call created the durable result or found the same authenticated report. -/
inductive TodoCompletionOccurrence
  | recorded
  | existing
  deriving DecidableEq, Repr

/-- Whether the caller should attempt the parent notification. -/
inductive TodoCompletionNotice
  | required
  | alreadyQueued
  deriving DecidableEq, Repr

structure TodoCompletionOutcome where
  completion : TodoCompletion
  occurrence : TodoCompletionOccurrence
  notice : TodoCompletionNotice
  deriving DecidableEq, Repr

inductive TodoCompletionNoticeOutcome
  | recorded
  | alreadyQueued
  deriving DecidableEq, Repr

/-- A retry under the same key finds its record, another task's report is refused, unmet blockers
refuse, and otherwise the todo is done with one result comment. -/
def completionDecision (context : TodoCompletionContext) (id : TodoId) (key : TodoCompletionKey)
    (summary : String) (author : CommentAuthor) : TodoCompletionDecision :=
  match context.todo.completion with
  | some existing =>
    if existing.key = key then .existing else .refuse .completionConflict
  | none =>
    let blockedBy := (context.blockers.filter fun r => r.doc.status ≠ .done).map StoredTodo.id
    if blockedBy ≠ [] then .refuse (.blocked blockedBy)
    else
      let comment := nextCommentId context.todo.comments
      .record
        { doc := context.todo.doc.complete
          comment := ⟨comment, summary, some author⟩
          completion := ⟨id, key, summary, comment, false⟩ }

namespace Todos

def view (b : Board) (stored : StoredTodo) : TodoView :=
  let blockedBy := b.unmetBlockers stored.project stored.blockers
  { id := stored.id
    doc := stored.doc
    tags := stored.tags
    blockers := stored.blockers
    blockedBy := blockedBy
    blocked := blockedBy ≠ []
    comments := stored.comments
    lockedBy := stored.lockedBy
    scratchpad := stored.scratchpad.bind fun id =>
      (b.scratchpads.get id).map fun doc => (id, doc.name)
    revision := stored.revision }

def create (b : Board) (project : ProjectId) (doc : TodoDoc) (scratchpad : Option ScratchpadId) :
    Board × Except TodoError TodoView :=
  match doc.validate with
  | .error message => (b, .error (.invalid message))
  | .ok _ =>
    match b.create project doc scratchpad with
    | (b', .ok stored) => (b', .ok (view b' stored))
    | (b', .error e) => (b', .error (.store e))

def applyDoc (b : Board) (project : ProjectId) (id : TodoId) (doc : TodoDoc)
    (link : ScratchpadLink) (expected : Nat) : Board × Except TodoError TodoView :=
  let gate := if doc.status = .done then BlockerGate.enforced else .unenforced
  match b.writeDoc project id doc link expected gate with
  | (b', .ok (.written stored)) => (b', .ok (view b' stored))
  | (b', .ok .notFound) => (b', .error .notFound)
  | (b', .ok (.conflict actual)) => (b', .error (.conflict (some expected) (some actual)))
  | (b', .ok (.blocked unmet)) => (b', .error (.blocked unmet))
  | (b', .ok .completionProtected) => (b', .error .completionProtected)
  | (b', .error e) => (b', .error (.store e))

def update (b : Board) (project : ProjectId) (id : TodoId) (doc : TodoDoc)
    (link : ScratchpadLink) (expected : Nat) : Board × Except TodoError TodoView :=
  match doc.validate with
  | .error message => (b, .error (.invalid message))
  | .ok _ => applyDoc b project id doc link expected

/-- The write of `complete`, whose read in a step before returned `read`. -/
def complete (b : Board) (project : ProjectId) (id : TodoId) (read : Option StoredTodo) :
    Board × Except TodoError TodoView :=
  match read with
  | none => (b, .error .notFound)
  | some stored =>
    applyDoc b project id { stored.doc with status := .done } .unchanged stored.revision

def reportCompletion (b : Board) (project : ProjectId) (id : TodoId) (key : TodoCompletionKey)
    (summary : String) (author : CommentAuthor) :
    Board × Except TodoError TodoCompletionOutcome :=
  let outcome := fun (stored : StoredTodo) (occurrence : TodoCompletionOccurrence) =>
    match stored.completion with
    | none => .error (.store (.backend "completion write returned no record"))
    | some completion =>
      .ok ⟨completion, occurrence, if completion.noticeQueued then .alreadyQueued else .required⟩
  match b.applyCompletion project id
    fun context => completionDecision context id key summary author with
  | (b', .recorded stored) => (b', outcome stored .recorded)
  | (b', .existing stored) => (b', outcome stored .existing)
  | (b', .refused e) => (b', .error e)
  | (b', .notFound) => (b', .error .notFound)

/-- A compare-write, so a stale or unrelated completion never marks another task's record. -/
def markCompletionNoticeQueued (b : Board) (project : ProjectId) (completion : TodoCompletion) :
    Board × Except TodoError TodoCompletionNoticeOutcome :=
  if completion.noticeQueued then (b, .ok .alreadyQueued)
  else
    match b.compareCompletion project completion.todoId completion completion.withNoticeQueued with
    | (b', .written _) => (b', .ok .recorded)
    | (b', .mismatch stored) =>
      match stored.completion with
      | some current =>
        if current.key = completion.key ∧ current.noticeQueued then (b', .ok .alreadyQueued)
        else (b', .error .completionConflict)
      | none => (b', .error .completionConflict)
    | (b', .notFound) => (b', .error .notFound)

end Todos

end Soloist

/-! The board under any interleaving of todo and scratchpad operations by any number of sessions:
each operation is one atomic store step with arbitrary arguments. -/
namespace Soloist

inductive TodoOp
  | addProject
  | removeProject (project : ProjectId)
  | create (project : ProjectId) (doc : TodoDoc) (scratchpad : Option ScratchpadId)
  | update (project : ProjectId) (id : TodoId) (doc : TodoDoc) (link : ScratchpadLink)
      (expected : Nat)
  | complete (project : ProjectId) (id : TodoId) (read : Option StoredTodo)
  | delete (project : ProjectId) (id : TodoId)
  | addTag (project : ProjectId) (id : TodoId) (tag : String)
  | removeTag (project : ProjectId) (id : TodoId) (tag : String)
  | setBlockers (project : ProjectId) (id : TodoId) (blockers : List TodoId)
  | addBlocker (project : ProjectId) (id blocker : TodoId)
  | removeBlocker (project : ProjectId) (id blocker : TodoId)
  | lock (project : ProjectId) (id : TodoId) (owner : ProcessId)
  | unlock (project : ProjectId) (id : TodoId) (owner : ProcessId)
  | commentCreate (project : ProjectId) (id : TodoId) (body : String)
      (author : Option CommentAuthor)
  | commentUpdate (project : ProjectId) (id : TodoId) (comment : Nat) (body : String)
  | commentDelete (project : ProjectId) (id : TodoId) (comment : Nat)
  | releaseOwner (process : ProcessId)
  | clearLocks
  | transfer (source target : ProjectId) (id : TodoId)
  | reportCompletion (project : ProjectId) (id : TodoId) (key : TodoCompletionKey)
      (summary : String) (author : CommentAuthor)
  | markCompletionNoticeQueued (project : ProjectId) (completion : TodoCompletion)
  | scratchpadWrite (project : ProjectId) (name body : String) (expected : Option Nat) (now : Nat)
  | scratchpadRename (project : ProjectId) (source target : String)
  | scratchpadDelete (project : ProjectId) (name : String)
  | scratchpadTransfer (source : ProjectId) (name : String) (target : ProjectId)

def TodoOp.apply (b : Board) : TodoOp → Board
  | .addProject => b.addProject
  | .removeProject project => b.removeProject project
  | .create project doc scratchpad => (Todos.create b project doc scratchpad).1
  | .update project id doc link expected => (Todos.update b project id doc link expected).1
  | .complete project id read => (Todos.complete b project id read).1
  | .delete project id => (b.delete project id).1
  | .addTag project id tag => (b.addTag project id tag).1
  | .removeTag project id tag => (b.removeTag project id tag).1
  | .setBlockers project id blockers => (b.setBlockers project id blockers).1
  | .addBlocker project id blocker => (b.addBlocker project id blocker).1
  | .removeBlocker project id blocker => (b.removeBlocker project id blocker).1
  | .lock project id owner => (b.lock project id owner).1
  | .unlock project id owner => (b.unlock project id owner).1
  | .commentCreate project id body author => (b.commentCreate project id body author).1
  | .commentUpdate project id comment body => (b.commentUpdate project id comment body).1
  | .commentDelete project id comment => (b.commentDelete project id comment).1
  | .releaseOwner process => b.releaseOwner process
  | .clearLocks => b.clearLocks
  | .transfer source target id => (b.transfer source target id).1
  | .reportCompletion project id key summary author =>
    (Todos.reportCompletion b project id key summary author).1
  | .markCompletionNoticeQueued project completion =>
    (Todos.markCompletionNoticeQueued b project completion).1
  | .scratchpadWrite project name body expected now =>
    (b.scratchpadWrite project name body expected now).1
  | .scratchpadRename project source target => (b.scratchpadRename project source target).1
  | .scratchpadDelete project name => (b.scratchpadDelete project name).1
  | .scratchpadTransfer source name target => (b.scratchpadTransfer source name target).1

def Board.empty : Board := ⟨AutoTable.empty, SlotTable.empty, AutoTable.empty⟩

def boardMachine : Machine Board TodoOp where
  init b := b = .empty
  step b op := some (op.apply b)

def Board.after (b : Board) (ops : List TodoOp) : Board := ops.foldl (fun b op => op.apply b) b

theorem boardMachine_run (b : Board) (ops : List TodoOp) :
    boardMachine.run b ops = some (b.after ops) := by
  induction ops generalizing b with
  | nil => rfl
  | cons op ops ih => exact ih (op.apply b)

theorem reachable_after (ops : List TodoOp) : boardMachine.Reachable (Board.empty.after ops) :=
  ⟨.empty, ops, rfl, boardMachine_run .empty ops⟩

/-- Everything a store step may do to one todo row, with the guard it did it under. -/
inductive RowStep (b : Board) (op : TodoOp) : StoredTodo → StoredTodo → Prop
  | kept (r : StoredTodo) : RowStep b op r r
  | live (r : StoredTodo) (change : StoredTodo → StoredTodo.Live) :
    RowStep b op r (r.withLive change)
  | docWritten (r : StoredTodo) (doc : TodoDoc) (link : ScratchpadLink)
      (hopen : r.completion = none)
      (hgate : doc.status = .done → b.unmetBlockers r.project r.blockers = []) :
    RowStep b op r (r.withDoc doc link)
  | commented (r : StoredTodo) (body : String) (author : Option CommentAuthor) :
    RowStep b op r (r.withComments (· ++ [⟨nextCommentId r.comments, body, author⟩]))
  | commentUpdated (r : StoredTodo) (comment : Nat) (body : String)
      (hfree : r.completion.map TodoCompletion.comment ≠ some comment) :
    RowStep b op r (r.withComments (updateComment comment body))
  | commentDeleted (r : StoredTodo) (comment : Nat)
      (hfree : r.completion.map TodoCompletion.comment ≠ some comment) :
    RowStep b op r (r.withComments (·.filter fun c => c.id ≠ comment))
  | recorded (r : StoredTodo) (key : TodoCompletionKey) (summary : String)
      (author : CommentAuthor) (hop : op = .reportCompletion r.project r.id key summary author)
      (hopen : r.completion = none) (hgate : b.unmetBlockers r.project r.blockers = []) :
    RowStep b op r (r.withRecord r.doc.complete
      ⟨nextCommentId r.comments, summary, some author⟩
      ⟨r.id, key, summary, nextCommentId r.comments, false⟩)
  | noticed (r : StoredTodo) (completion : TodoCompletion)
      (hrecorded : r.completion = some completion) :
    RowStep b op r (r.withCompletion completion.withNoticeQueued)

namespace Board
variable {b : Board} {op : TodoOp} {project : ProjectId} {id : TodoId} {r : StoredTodo}

theorem readOne_eq_some :
    b.readOne project id = some r ↔ b.todos.get id = some r ∧ r.project = project := by
  unfold readOne
  rw [filter_eq_some_iff, decide_eq_true_eq]

theorem addressed_iff : addressed project id r = true ↔ r.project = project ∧ r.id = id :=
  decide_eq_true_iff

/-- The row a read under the guard found is the only one the update addresses. -/
theorem eq_of_addressed {s : StoredTodo} (hread : b.readOne project id = some r)
    (hs : b.todos.get s.id = some s) (haddr : addressed project id s = true) : s = r := by
  have hid : s.id = id := (addressed_iff.mp haddr).2
  rw [hid] at hs
  exact some.inj (hs.symm.trans (readOne_eq_some.mp hread).1)

/-- Every row after a step comes from a row before by one row step, or is freshly inserted under an
id never handed out before. -/
structure RowsStep (b : Board) (op : TodoOp) (b' : Board) : Prop where
  seq_le : b.todos.seq ≤ b'.todos.seq
  rows : ∀ i r', b'.todos.get i = some r' →
    (∃ r, b.todos.get i = some r ∧ RowStep b op r r') ∨
      (b.todos.seq < i ∧ ∃ project doc scratchpad, r' = .fresh i project doc scratchpad)

variable {b' : Board}

theorem RowsStep.of_todos (h : b'.todos = b.todos) : b.RowsStep op b' where
  seq_le := by rw [h]
  rows i r' hr' := by
    rw [h] at hr'
    exact .inl ⟨r', hr', .kept r'⟩

theorem RowsStep.refl (b : Board) (op : TodoOp) : b.RowsStep op b := of_todos rfl

variable {p : StoredTodo → Bool}

variable {f : StoredTodo → StoredTodo}

theorem RowsStep.of_update {hf : ∀ r, (f r).id = r.id}
    (h : ∀ r, b.todos.get r.id = some r → p r = true → RowStep b op r (f r)) :
    b.RowsStep op (b.update p f hf) := by
  refine ⟨le_refl _, fun i r' hget => .inl ?_⟩
  have hmap : (b.todos.get i).map (fun r => if p r then f r else r) = some r' := by
    rw [← AutoTable.get_update b.todos p f hf i]
    exact hget
  obtain ⟨r, hr, rfl⟩ := map_eq_some_iff.mp hmap
  refine ⟨r, hr, ?_⟩
  split_ifs with hp
  · have hid : r.id = i := Table.get_key hr
    exact h r (hid ▸ hr) hp
  · exact .kept r

theorem RowsStep.of_addressed {hf : ∀ r, (f r).id = r.id} (hread : b.readOne project id = some r)
    (h : RowStep b op r (f r)) : b.RowsStep op (b.update (addressed project id) f hf) := by
  apply of_update
  intro s hs haddr
  rw [eq_of_addressed hread hs haddr]
  exact h

variable {change : StoredTodo → StoredTodo.Live}

theorem RowsStep.of_live_of_subset {hf : ∀ r : StoredTodo, (r.withLive change).id = r.id}
    (hseq : b.todos.seq ≤ b'.todos.seq)
    (h : ∀ i r, b'.todos.get i = some r → b.todos.get i = some r) :
    b.RowsStep op (b'.update p (.withLive change) hf) := by
  refine ⟨hseq, fun i r' hget => .inl ?_⟩
  have hmap : (b'.todos.get i).map (fun r => if p r then r.withLive change else r) = some r' := by
    rw [← AutoTable.get_update b'.todos p _ hf i]
    exact hget
  obtain ⟨r, hr, rfl⟩ := map_eq_some_iff.mp hmap
  refine ⟨r, h i r hr, ?_⟩
  split_ifs
  · exact .live r change
  · exact .kept r

theorem RowsStep.of_live {hf : ∀ r : StoredTodo, (r.withLive change).id = r.id} :
    b.RowsStep op (b.update p (.withLive change) hf) :=
  of_live_of_subset (le_refl _) fun _ _ h => h

theorem RowsStep.of_delete (h : b'.todos = b.todos.delete p) : b.RowsStep op b' where
  seq_le := by rw [h, AutoTable.seq_delete]
  rows i r' hr' := by
    rw [h, AutoTable.get_delete] at hr'
    exact .inl ⟨r', (filter_eq_some_iff.mp hr').1, .kept r'⟩

theorem rowsStep_mutate (change : StoredTodo → StoredTodo.Live) :
    b.RowsStep op (b.mutate project id change).1 := by
  unfold mutate
  split
  · exact .refl b _
  · exact .of_live

theorem rowsStep_editComments (comment : Nat) (edit : List Comment → List Comment)
    (h : ∀ r : StoredTodo, r.completion.map TodoCompletion.comment ≠ some comment →
      RowStep b op r (r.withComments edit)) :
    b.RowsStep op (b.editComments project id comment edit).1 := by
  unfold editComments
  split
  · exact .refl b _
  next stored hread =>
    split_ifs with hprotected
    · exact .refl b _
    · exact .of_addressed hread (h stored hprotected)
    · exact .refl b _

theorem rowsStep_commentCreate (body : String) (author : Option CommentAuthor) :
    b.RowsStep op (b.commentCreate project id body author).1 := by
  unfold commentCreate
  split
  · exact .refl b _
  next stored hread => exact .of_addressed hread (.commented stored body author)

theorem rowsStep_create (doc : TodoDoc) (scratchpad : Option ScratchpadId) :
    b.RowsStep op (b.create project doc scratchpad).1 := by
  unfold create
  split_ifs
  · refine ⟨Nat.le_succ _, fun i r' hr' => ?_⟩
    have hget := AutoTable.get_append b.todos _
      (StoredTodo.id_fresh (b.todos.seq + 1) project doc scratchpad) i
    rw [hget] at hr'
    split_ifs at hr' with hi
    · right
      subst hi
      exact ⟨Nat.lt_succ_self _, project, doc, scratchpad, (some.inj hr').symm⟩
    · exact .inl ⟨r', hr', .kept r'⟩
  · exact .refl b _

theorem rowsStep_writeDoc (doc : TodoDoc) (link : ScratchpadLink) (expected : Nat)
    (gate : BlockerGate) (hgate : doc.status = .done → gate = .enforced) :
    b.RowsStep op (b.writeDoc project id doc link expected gate).1 := by
  unfold writeDoc
  split
  · exact .refl b _
  next stored hread =>
    dsimp only
    split_ifs with hrecorded hblocked
    · exact .refl b _
    · exact .refl b _
    · exact .refl b _
    · refine .of_addressed hread (.docWritten stored doc link (by simpa using hrecorded) ?_)
      intro hdone
      rw [(readOne_eq_some.mp hread).2]
      by_contra hunmet
      exact hblocked ⟨hgate hdone, hunmet⟩
    · exact .refl b _

theorem rowsStep_transfer (source target : ProjectId) :
    b.RowsStep op (b.transfer source target id).1 := by
  unfold transfer
  split
  · exact .refl b _
  · split_ifs
    · exact .of_live
    · exact .refl b _

theorem rowsStep_compareCompletion (completion : TodoCompletion) :
    b.RowsStep op
      (b.compareCompletion project id completion completion.withNoticeQueued).1 := by
  unfold compareCompletion
  split
  · exact .refl b _
  next stored hread =>
    split_ifs with hmismatch
    · exact .refl b _
    · exact .of_addressed hread (.noticed stored completion (not_not.mp hmismatch))

/-- The blockers the completion policy sees are those of the store's own gate. -/
theorem blockedBy_eq_nil_iff (blockers : List TodoId) :
    (blockers.filterMap (b.readOne project)).filter (fun r => r.doc.status ≠ .done) = [] ↔
      b.unmetBlockers project blockers = [] := by
  unfold unmetBlockers
  simp only [List.filter_eq_nil_iff, List.mem_filterMap]
  constructor
  · intro h blocker hmem hunmet
    obtain ⟨r, hr, hopen⟩ := (any_eq_true _ _).mp hunmet
    exact h r ⟨blocker, hmem, hr⟩ hopen
  · rintro h r ⟨blocker, hmem, hr⟩ hopen
    exact h blocker hmem (by rw [hr]; exact hopen)

theorem rowsStep_applyCompletion (key : TodoCompletionKey) (summary : String)
    (author : CommentAuthor) :
    b.RowsStep (.reportCompletion project id key summary author) (b.applyCompletion project id
      fun context => completionDecision context id key summary author).1 := by
  unfold applyCompletion
  split
  · exact .refl b _
  next stored hread =>
    obtain ⟨hget, hproject⟩ := readOne_eq_some.mp hread
    have hid : stored.id = id := Table.get_key hget
    cases hcompletion : stored.completion with
    | some existing =>
      simp only [completionDecision, hcompletion]
      split_ifs <;> exact .refl b _
    | none =>
      simp only [completionDecision, hcompletion]
      split_ifs with hblocked
      · exact .refl b _
      · have hmet : b.unmetBlockers project stored.blockers = [] := by
          apply (blockedBy_eq_nil_iff stored.blockers).mp
          simpa using hblocked
        have hrow := RowStep.recorded (b := b) stored key summary author rfl hcompletion
          (by rw [hproject]; exact hmet)
        rw [hid, hproject] at hrow
        exact .of_addressed hread hrow

end Board

section Aggregate
variable {b : Board} {op : TodoOp} {project : ProjectId} {id : TodoId}

theorem Todos.rowsStep_applyDoc (doc : TodoDoc) (link : ScratchpadLink) (expected : Nat) :
    b.RowsStep op (applyDoc b project id doc link expected).1 := by
  have hstep : b.RowsStep op (b.writeDoc project id doc link expected
      (if doc.status = .done then .enforced else .unenforced)).1 :=
    Board.rowsStep_writeDoc doc link expected _ fun hdone => if_pos hdone
  unfold applyDoc
  dsimp only
  split <;> simpa [*] using hstep

theorem Todos.rowsStep_update (doc : TodoDoc) (link : ScratchpadLink) (expected : Nat) :
    b.RowsStep op (update b project id doc link expected).1 := by
  unfold update
  split
  · exact .refl b _
  · exact rowsStep_applyDoc doc link expected

theorem Todos.rowsStep_complete (read : Option StoredTodo) :
    b.RowsStep op (complete b project id read).1 := by
  unfold complete
  split
  · exact .refl b _
  · exact rowsStep_applyDoc _ _ _

theorem Todos.rowsStep_create (doc : TodoDoc) (scratchpad : Option ScratchpadId) :
    b.RowsStep op (create b project doc scratchpad).1 := by
  have hstep : b.RowsStep op (b.create project doc scratchpad).1 :=
    Board.rowsStep_create doc scratchpad
  unfold create
  split
  · exact .refl b _
  · split <;> simpa [*] using hstep

theorem Todos.rowsStep_reportCompletion (key : TodoCompletionKey) (summary : String)
    (author : CommentAuthor) :
    b.RowsStep (.reportCompletion project id key summary author)
      (reportCompletion b project id key summary author).1 := by
  have hstep : b.RowsStep (.reportCompletion project id key summary author) (b.applyCompletion project id
      fun context => completionDecision context id key summary author).1 :=
    Board.rowsStep_applyCompletion key summary author
  unfold reportCompletion
  dsimp only
  split <;> simpa [*] using hstep

theorem Todos.rowsStep_markCompletionNoticeQueued (completion : TodoCompletion) :
    b.RowsStep op (markCompletionNoticeQueued b project completion).1 := by
  have hstep : b.RowsStep op (b.compareCompletion project completion.todoId completion
      completion.withNoticeQueued).1 := Board.rowsStep_compareCompletion completion
  unfold markCompletionNoticeQueued
  split_ifs
  · exact .refl b _
  · split
    next heq => rwa [heq] at hstep
    next stored heq =>
      rw [heq] at hstep
      split
      · split_ifs <;> exact hstep
      · exact hstep
    next heq => rwa [heq] at hstep

/-- The inversion lemma of the board: whatever the operation, each row comes from one row step. -/
theorem TodoOp.rowsStep (op : TodoOp) : b.RowsStep op (op.apply b) := by
  cases op with
  | addProject => exact .of_todos rfl
  | removeProject project =>
    apply Board.RowsStep.of_live_of_subset
    · exact le_refl b.todos.seq
    intro i r hr
    have hkept : (b.todos.get i).filter (fun r => !decide (r.project = project)) = some r := by
      rw [← AutoTable.get_delete]
      exact hr
    exact (filter_eq_some_iff.mp hkept).1
  | create project doc scratchpad => exact Todos.rowsStep_create doc scratchpad
  | update project id doc link expected => exact Todos.rowsStep_update doc link expected
  | complete project id read => exact Todos.rowsStep_complete read
  | delete project id => exact .of_delete rfl
  | addTag | removeTag | setBlockers | addBlocker | removeBlocker | lock | unlock =>
    exact Board.rowsStep_mutate _
  | commentCreate project id body author => exact Board.rowsStep_commentCreate body author
  | commentUpdate project id comment body =>
    exact Board.rowsStep_editComments comment _ fun r => .commentUpdated r comment body
  | commentDelete project id comment =>
    exact Board.rowsStep_editComments comment _ fun r => .commentDeleted r comment
  | releaseOwner | clearLocks => exact .of_live
  | transfer source target id => exact Board.rowsStep_transfer source target
  | reportCompletion project id key summary author =>
    exact Todos.rowsStep_reportCompletion key summary author
  | markCompletionNoticeQueued project completion =>
    exact Todos.rowsStep_markCompletionNoticeQueued completion
  | scratchpadWrite | scratchpadRename => exact .of_todos rfl
  | scratchpadDelete project name =>
    exact .of_live_of_subset (le_refl b.todos.seq) fun _ _ h => h
  | scratchpadTransfer source name target =>
    show b.RowsStep _ (b.scratchpadTransfer source name target).1
    unfold Board.scratchpadTransfer
    split
    · exact .of_live_of_subset (le_refl b.todos.seq) fun _ _ h => h
    · exact .refl b _
    · exact .refl b _

end Aggregate

end Soloist

/-! The blocker gate: what holds when a store step moves a todo to done. -/
namespace Soloist

def Completes (b : Board) (op : TodoOp) (r : StoredTodo) : Prop :=
  b.todos.get r.id = some r ∧ r.doc.status ≠ .done ∧
    ∃ r', (op.apply b).todos.get r.id = some r' ∧ r'.doc.status = .done

def BlockersMet (b : Board) (r : StoredTodo) : Prop :=
  ∀ blocker ∈ r.blockers, ∀ s, b.todos.get blocker = some s → s.project = r.project →
    s.doc.status = .done

variable {b : Board} {r : StoredTodo}

theorem blockersMet_of_unmet_nil (h : b.unmetBlockers r.project r.blockers = []) :
    BlockersMet b r := by
  intro blocker hmem s hs hproject
  by_contra hopen
  have hread : b.readOne r.project blocker = some s := Board.readOne_eq_some.mpr ⟨hs, hproject⟩
  have hunmet : blocker ∈ b.unmetBlockers r.project r.blockers := by
    unfold Board.unmetBlockers
    rw [List.mem_filter, hread]
    exact ⟨hmem, decide_eq_true hopen⟩
  rw [h] at hunmet
  exact List.not_mem_nil hunmet

/-- Of the row steps only the two gated ones complete a todo. -/
theorem RowStep.blockersMet {op : TodoOp} {r' : StoredTodo} (h : RowStep b op r r')
    (hopen : r.doc.status ≠ .done) (hdone : r'.doc.status = .done) : BlockersMet b r := by
  cases h with
  | docWritten doc link hrecord hgate => exact blockersMet_of_unmet_nil (hgate hdone)
  | recorded key summary author hop hrecord hgate => exact blockersMet_of_unmet_nil hgate
  | kept | live | commented | commentUpdated | commentDeleted | noticed =>
    exact absurd hdone hopen

/-- Along every run, from any board, a step completes a todo only when its blockers are met. -/
theorem completes_only_when_blockersMet (b : Board) (ops : List TodoOp) :
    boardMachine.Along (fun b op => ∀ r, Completes b op r → BlockersMet b r) b ops := by
  apply Machine.along_of_forall
  rintro b op r ⟨hr, hopen, r', hr', hdone⟩
  rcases op.rowsStep.rows r.id r' hr' with ⟨r₀, hr₀, hstep⟩ | ⟨hnew, -⟩
  · obtain rfl : r = r₀ := Option.some.inj (hr.symm.trans hr₀)
    exact hstep.blockersMet hopen hdone
  · have hle := AutoTable.get_le_seq hr
    omega

def movedBlocker : List TodoOp :=
  [.addProject, .addProject, .create 1 ⟨"ship", "", .open⟩ none, .create 1 ⟨"test", "", .open⟩ none,
    .addBlocker 1 1 2, .transfer 1 2 2]

/-- The todo `movedBlocker` leaves blocked. -/
def gatedTodo : StoredTodo :=
  { StoredTodo.fresh 1 1 ⟨"ship", "", .open⟩ none with blockers := [2] }

/-- The todo is completed although its open blocker still exists, in the other project. -/
theorem completes_with_moved_blocker :
    ¬ ∀ (b : Board), boardMachine.Reachable b → ∀ (op : TodoOp) (r : StoredTodo),
      Completes b op r → ∀ blocker ∈ r.blockers, ∀ s, b.todos.get blocker = some s →
        s.doc.status = .done := by
  intro h
  have hcompletes : Completes (Board.empty.after movedBlocker) (.complete 1 1 (some gatedTodo))
      gatedTodo :=
    ⟨by decide, by decide, gatedTodo.withDoc ⟨"ship", "", .done⟩ .unchanged, by decide, rfl⟩
  have hdone := h _ (reachable_after movedBlocker) _ _ hcompletes 2 (by decide)
    (StoredTodo.fresh 2 2 ⟨"test", "", .open⟩ none) (by decide)
  exact absurd hdone (by decide)

end Soloist

/-! The projects a board knows. Only opening one adds to them, under an id never used before, and
only a removal takes one away. -/
namespace Soloist

namespace Board
variable (b : Board) (project : ProjectId) (id : TodoId)

theorem projects_create (doc : TodoDoc) (scratchpad : Option ScratchpadId) :
    (b.create project doc scratchpad).1.projects = b.projects := by
  unfold create
  split_ifs
  · rfl
  · rfl

theorem projects_writeDoc (doc : TodoDoc) (link : ScratchpadLink) (expected : Nat)
    (gate : BlockerGate) :
    (b.writeDoc project id doc link expected gate).1.projects = b.projects := by
  unfold writeDoc
  split
  · rfl
  · dsimp only
    split_ifs <;> rfl

theorem projects_mutate (change : StoredTodo → StoredTodo.Live) :
    (b.mutate project id change).1.projects = b.projects := by
  unfold mutate
  split <;> rfl

theorem projects_editComments (comment : Nat) (edit : List Comment → List Comment) :
    (b.editComments project id comment edit).1.projects = b.projects := by
  unfold editComments
  split
  · rfl
  · split_ifs <;> rfl

theorem projects_commentCreate (body : String) (author : Option CommentAuthor) :
    (b.commentCreate project id body author).1.projects = b.projects := by
  unfold commentCreate
  split <;> rfl

theorem projects_transfer (target : ProjectId) :
    (b.transfer project target id).1.projects = b.projects := by
  unfold transfer
  split
  · rfl
  · split_ifs <;> rfl

theorem projects_applyCompletion (policy : TodoCompletionContext → TodoCompletionDecision) :
    (b.applyCompletion project id policy).1.projects = b.projects := by
  unfold applyCompletion
  split
  · rfl
  · split <;> rfl

theorem projects_compareCompletion (expected replacement : TodoCompletion) :
    (b.compareCompletion project id expected replacement).1.projects = b.projects := by
  unfold compareCompletion
  split
  · rfl
  · split_ifs <;> rfl

theorem projects_scratchpadTransfer (name : String) (target : ProjectId) :
    (b.scratchpadTransfer project name target).1.projects = b.projects := by
  unfold scratchpadTransfer
  split <;> rfl

end Board

namespace Todos
variable (b : Board) (project : ProjectId) (id : TodoId)

theorem projects_create (doc : TodoDoc) (scratchpad : Option ScratchpadId) :
    (create b project doc scratchpad).1.projects = b.projects := by
  have h := b.projects_create project doc scratchpad
  unfold create
  split
  · rfl
  · split
    next heq => rwa [heq] at h
    next heq => rwa [heq] at h

theorem projects_applyDoc (doc : TodoDoc) (link : ScratchpadLink) (expected : Nat) :
    (applyDoc b project id doc link expected).1.projects = b.projects := by
  have h := b.projects_writeDoc project id doc link expected
    (if doc.status = .done then .enforced else .unenforced)
  unfold applyDoc
  dsimp only
  split <;> (next heq => rwa [heq] at h)

theorem projects_reportCompletion (key : TodoCompletionKey) (summary : String)
    (author : CommentAuthor) :
    (reportCompletion b project id key summary author).1.projects = b.projects := by
  have h := b.projects_applyCompletion project id
    fun context => completionDecision context id key summary author
  unfold reportCompletion
  dsimp only
  split <;> (next heq => rwa [heq] at h)

theorem projects_markCompletionNoticeQueued (completion : TodoCompletion) :
    (markCompletionNoticeQueued b project completion).1.projects = b.projects := by
  have h := b.projects_compareCompletion project completion.todoId completion
    completion.withNoticeQueued
  unfold markCompletionNoticeQueued
  split_ifs
  · rfl
  · split
    next heq => rwa [heq] at h
    next heq =>
      rw [heq] at h
      split
      · split_ifs <;> exact h
      · exact h
    next heq => rwa [heq] at h

end Todos

theorem TodoOp.projects_apply (b : Board) (op : TodoOp) :
    (op.apply b).projects = b.projects ∨ op = .addProject ∨ ∃ p, op = .removeProject p := by
  cases op with
  | addProject => exact .inr (.inl rfl)
  | removeProject p => exact .inr (.inr ⟨p, rfl⟩)
  | create project doc scratchpad => exact .inl (Todos.projects_create b project doc scratchpad)
  | update project id doc link expected =>
    have h := Todos.projects_applyDoc b project id doc link expected
    refine .inl ?_
    simp only [TodoOp.apply, Todos.update]
    split
    · rfl
    · exact h
  | complete project id read =>
    refine .inl ?_
    cases read with
    | none => rfl
    | some stored => exact Todos.projects_applyDoc b project id _ _ _
  | addTag | removeTag | setBlockers | addBlocker | removeBlocker | lock | unlock =>
    exact .inl (b.projects_mutate _ _ _)
  | commentCreate project id body author =>
    exact .inl (b.projects_commentCreate project id body author)
  | commentUpdate | commentDelete => exact .inl (b.projects_editComments _ _ _ _)
  | transfer source target id => exact .inl (b.projects_transfer source id target)
  | reportCompletion project id key summary author =>
    exact .inl (Todos.projects_reportCompletion b project id key summary author)
  | markCompletionNoticeQueued project completion =>
    exact .inl (Todos.projects_markCompletionNoticeQueued b project completion)
  | scratchpadTransfer source name target =>
    exact .inl (b.projects_scratchpadTransfer source name target)
  | delete | releaseOwner | clearLocks | scratchpadWrite | scratchpadRename | scratchpadDelete =>
    exact .inl rfl

namespace Board

variable {b : Board} {p : ProjectId}

/-- A project is known after an opening when it was known or its id is new. -/
theorem contains_addProject :
    b.addProject.projects.contains p = true ↔
      p = b.projects.seq + 1 ∨ b.projects.contains p = true := by
  unfold addProject ProjectTable.contains
  rw [AutoTable.get_append]
  by_cases hp : p = b.projects.seq + 1
  · simp [hp]
  · simp [hp]

theorem contains_removeProject {q : ProjectId} :
    (b.removeProject q).projects.contains p = true ↔ b.projects.contains p = true ∧ p ≠ q := by
  have hget : (b.removeProject q).projects.get p =
      (b.projects.get p).filter fun r => !decide (r = q) := AutoTable.get_delete b.projects _ p
  unfold ProjectTable.contains
  rw [hget]
  cases hp : b.projects.get p with
  | none => simp
  | some r =>
    have hkey : r = p := Table.get_key hp
    by_cases hq : p = q
    · simp [Option.filter, hkey, hq]
    · simp [Option.filter, hkey, hq]

end Board

end Soloist
