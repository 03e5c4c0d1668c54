import Soloist.Doc.Aggregate

/-! The todo aggregate's data: the revision-guarded document, and around it the live columns that
dedicated operations mutate. -/
namespace Soloist

inductive TodoStatus
  | open
  | blocked
  | inProgress
  | done
  deriving DecidableEq, Repr

/-- The legal terminal transition used by todo completion. -/
def TodoStatus.completed : TodoStatus → TodoStatus
  | .open | .blocked | .inProgress | .done => .done

@[simp] theorem TodoStatus.completed_eq (s : TodoStatus) : s.completed = .done := by
  cases s <;> rfl

structure TodoDoc where
  title : String
  body : String
  status : TodoStatus
  deriving DecidableEq, Repr

def maxTodoDocBytes : Nat := 64 * 1024

namespace TodoDoc

def contentBytes (d : TodoDoc) : Nat := d.title.utf8ByteSize + d.body.utf8ByteSize

def validate (d : TodoDoc) : Except String Unit :=
  let titleProblems := if isBlank d.title then ["title must not be blank"] else []
  let sizeProblems :=
    if maxTodoDocBytes < d.contentBytes then
      [s!"the document exceeds the {maxTodoDocBytes / 1024} KiB cap"]
    else []
  match titleProblems ++ sizeProblems with
  | [] => .ok ()
  | problems => .error ("; ".intercalate problems)

def complete (d : TodoDoc) : TodoDoc := { d with status := d.status.completed }

@[simp] theorem status_complete (d : TodoDoc) : d.complete.status = .done :=
  TodoStatus.completed_eq d.status

end TodoDoc

inductive CommentAuthor
  | process (id : ProcessId) (label : String)
  | external (label : String)
  deriving DecidableEq, Repr

structure Comment where
  id : Nat
  body : String
  author : Option CommentAuthor
  deriving DecidableEq, Repr

/-- Authenticated identity and task correlation of one completion report. -/
structure TodoCompletionKey where
  reporter : ProcessId
  taskMessage : AgentMessageId
  deriving DecidableEq, Repr

/-- Durable proof that one task completed one todo with one result comment. -/
structure TodoCompletion where
  todoId : TodoId
  key : TodoCompletionKey
  summary : String
  comment : Nat
  noticeQueued : Bool
  deriving DecidableEq, Repr

def TodoCompletion.withNoticeQueued (c : TodoCompletion) : TodoCompletion :=
  { c with noticeQueued := true }

/-- What a write says about a todo's association with a scratchpad. -/
inductive ScratchpadLink
  | unchanged
  | cleared
  | linked (id : ScratchpadId)
  deriving DecidableEq, Repr

/-- The association a stated link leaves in the column. -/
def ScratchpadLink.apply (current : Option ScratchpadId) : ScratchpadLink → Option ScratchpadId
  | .unchanged => current
  | .cleared => none
  | .linked id => some id

def ScratchpadLink.target : ScratchpadLink → Option ScratchpadId
  | .unchanged | .cleared => none
  | .linked id => some id

inductive TodoError
  | invalid (message : String)
  | notFound
  | conflict (expected actual : Option Nat)
  | blocked (unmet : List TodoId)
  | unknownBlocker
  | selfBlocker
  | store (error : StoreError)
  | completionProtected
  | completionConflict
  deriving DecidableEq, Repr

/-- One row of the `todos` table; only the scratchpad's id is stored. -/
structure StoredTodo where
  id : TodoId
  project : ProjectId
  doc : TodoDoc
  tags : List String
  blockers : List TodoId
  comments : List Comment
  completion : Option TodoCompletion
  lockedBy : Option ProcessId
  scratchpad : Option ScratchpadId
  revision : Nat
  deriving DecidableEq, Repr

abbrev TodoTable := AutoTable StoredTodo.id

/-- The next per-todo comment id: one more than the greatest in use. -/
def nextCommentId (comments : List Comment) : Nat := (comments.map Comment.id).foldr max 0 + 1

def updateComment (comment : Nat) (body : String) : List Comment → List Comment
  | [] => []
  | c :: cs => if c.id = comment then { c with body := body } :: cs
    else c :: updateComment comment body cs

namespace StoredTodo

def fresh (id : TodoId) (project : ProjectId) (doc : TodoDoc) (scratchpad : Option ScratchpadId) :
    StoredTodo where
  id := id
  project := project
  doc := doc
  tags := []
  blockers := []
  comments := []
  completion := none
  lockedBy := none
  scratchpad := scratchpad
  revision := 1

def withDoc (doc : TodoDoc) (link : ScratchpadLink) (r : StoredTodo) : StoredTodo :=
  { r with doc := doc, scratchpad := link.apply r.scratchpad, revision := r.revision + 1 }

def withComments (change : List Comment → List Comment) (r : StoredTodo) : StoredTodo :=
  { r with comments := change r.comments }

def withRecord (doc : TodoDoc) (comment : Comment) (completion : TodoCompletion) (r : StoredTodo) :
    StoredTodo :=
  { r with
    doc := doc
    comments := r.comments ++ [comment]
    completion := some completion
    revision := r.revision + 1 }

def withCompletion (completion : TodoCompletion) (r : StoredTodo) : StoredTodo :=
  { r with completion := some completion }

/-- The columns that a todo's own operations change without touching its document, its comments
or its completion. -/
structure Live where
  project : ProjectId
  tags : List String
  blockers : List TodoId
  lockedBy : Option ProcessId
  scratchpad : Option ScratchpadId

def withLive (change : StoredTodo → Live) (r : StoredTodo) : StoredTodo :=
  { r with
    project := (change r).project
    tags := (change r).tags
    blockers := (change r).blockers
    lockedBy := (change r).lockedBy
    scratchpad := (change r).scratchpad }

def live (r : StoredTodo) : Live where
  project := r.project
  tags := r.tags
  blockers := r.blockers
  lockedBy := r.lockedBy
  scratchpad := r.scratchpad

@[simp] theorem id_withDoc (doc : TodoDoc) (link : ScratchpadLink) (r : StoredTodo) :
    (r.withDoc doc link).id = r.id := rfl

@[simp] theorem id_withComments (change : List Comment → List Comment) (r : StoredTodo) :
    (r.withComments change).id = r.id := rfl

@[simp] theorem id_withRecord (doc : TodoDoc) (comment : Comment) (completion : TodoCompletion)
    (r : StoredTodo) : (r.withRecord doc comment completion).id = r.id := rfl

@[simp] theorem id_withCompletion (completion : TodoCompletion) (r : StoredTodo) :
    (r.withCompletion completion).id = r.id := rfl

@[simp] theorem id_withLive (change : StoredTodo → Live) (r : StoredTodo) :
    (r.withLive change).id = r.id := rfl

@[simp] theorem id_fresh (id : TodoId) (project : ProjectId) (doc : TodoDoc)
    (scratchpad : Option ScratchpadId) : (fresh id project doc scratchpad).id = id := rfl

end StoredTodo

end Soloist

/-! The todo repository. Each definition is one store step, taken under the single connection guard
for its whole span. -/
namespace Soloist

/-- The tables a todo's columns refer to, and the todos. -/
structure Board where
  projects : ProjectTable
  scratchpads : DocTable
  todos : TodoTable

/-- Whether a document write completes the todo, and so applies only while every blocker is met. -/
inductive BlockerGate
  | enforced
  | unenforced
  deriving DecidableEq, Repr

inductive TodoWriteResult
  | written (stored : StoredTodo)
  | notFound
  | conflict (actual : Nat)
  | blocked (unmet : List TodoId)
  | completionProtected
  deriving DecidableEq, Repr

inductive CommentEdit
  | edited (stored : StoredTodo)
  | noTodo
  | noComment
  | completionProtected
  deriving DecidableEq, Repr

/-- One consistent todo-and-blockers snapshot presented to the completion policy. -/
structure TodoCompletionContext where
  todo : StoredTodo
  blockers : List StoredTodo

/-- The state change of a completion, which the repository persists without interpreting it. -/
structure TodoCompletionIntent where
  doc : TodoDoc
  comment : Comment
  completion : TodoCompletion
  deriving DecidableEq, Repr

inductive TodoCompletionDecision
  | record (intent : TodoCompletionIntent)
  | existing
  | refuse (error : TodoError)
  deriving DecidableEq, Repr

inductive TodoCompletionAtomicResult
  | recorded (stored : StoredTodo)
  | existing (stored : StoredTodo)
  | refused (error : TodoError)
  | notFound
  deriving DecidableEq, Repr

inductive TodoCompletionCompareResult
  | written (stored : StoredTodo)
  | mismatch (stored : StoredTodo)
  | notFound
  deriving DecidableEq, Repr

namespace Board

/-- `WHERE project_id AND id`. -/
def addressed (project : ProjectId) (id : TodoId) (r : StoredTodo) : Bool :=
  r.project = project ∧ r.id = id

def readOne (b : Board) (project : ProjectId) (id : TodoId) : Option StoredTodo :=
  (b.todos.get id).filter fun r => r.project = project

def hasScratchpad (b : Board) (id : ScratchpadId) : Bool := (b.scratchpads.get id).isSome

/-- The foreign key of the association column accepts the value. -/
def linkable (b : Board) (scratchpad : Option ScratchpadId) : Bool := scratchpad.all b.hasScratchpad

def update (b : Board) (p : StoredTodo → Bool) (f : StoredTodo → StoredTodo)
    (hf : ∀ r, (f r).id = r.id) : Board :=
  { b with todos := b.todos.update p f hf }

/-- The blockers that exist in the project and are not yet done; one that no longer exists counts
as met. -/
def unmetBlockers (b : Board) (project : ProjectId) (blockers : List TodoId) : List TodoId :=
  blockers.filter fun blocker => (readOne b project blocker).any fun r => r.doc.status ≠ .done

def create (b : Board) (project : ProjectId) (doc : TodoDoc) (scratchpad : Option ScratchpadId) :
    Board × Except StoreError StoredTodo :=
  if ProjectTable.contains b.projects project ∧ b.linkable scratchpad then
    let stored := StoredTodo.fresh (b.todos.seq + 1) project doc scratchpad
    ({ b with todos := b.todos.append stored (StoredTodo.id_fresh _ project doc scratchpad) },
      .ok stored)
  else (b, .error .foreignKey)

/-- Replaces the document, revision-guarded and under the gate; a recorded completion protects
it. -/
def writeDoc (b : Board) (project : ProjectId) (id : TodoId) (doc : TodoDoc)
    (link : ScratchpadLink) (expected : Nat) (gate : BlockerGate) :
    Board × Except StoreError TodoWriteResult :=
  match readOne b project id with
  | none => (b, .ok .notFound)
  | some stored =>
    if stored.completion.isSome then (b, .ok .completionProtected)
    else
      let unmet := unmetBlockers b project stored.blockers
      if gate = .enforced ∧ unmet ≠ [] then (b, .ok (.blocked unmet))
      else if expected ≠ stored.revision then (b, .ok (.conflict stored.revision))
      else if b.linkable link.target then
        (b.update (addressed project id) (.withDoc doc link) (StoredTodo.id_withDoc doc link),
          .ok (.written (stored.withDoc doc link)))
      else (b, .error .foreignKey)

def delete (b : Board) (project : ProjectId) (id : TodoId) : Board × Bool :=
  ({ b with todos := b.todos.delete (addressed project id) }, (readOne b project id).isSome)

def mutate (b : Board) (project : ProjectId) (id : TodoId)
    (change : StoredTodo → StoredTodo.Live) : Board × Option StoredTodo :=
  match readOne b project id with
  | none => (b, none)
  | some stored =>
    (b.update (addressed project id) (.withLive change) (StoredTodo.id_withLive change),
      some (stored.withLive change))

def addTag (b : Board) (project : ProjectId) (id : TodoId) (tag : String) :=
  mutate b project id fun r =>
    { r.live with
      tags := (if tag ∈ r.tags then r.tags else r.tags ++ [tag]).mergeSort (· ≤ ·) }

def removeTag (b : Board) (project : ProjectId) (id : TodoId) (tag : String) :=
  mutate b project id fun r => { r.live with tags := r.tags.filter (· ≠ tag) }

def setBlockers (b : Board) (project : ProjectId) (id : TodoId) (blockers : List TodoId) :=
  mutate b project id fun r => { r.live with blockers := blockers }

def addBlocker (b : Board) (project : ProjectId) (id blocker : TodoId) :=
  mutate b project id fun r =>
    { r.live with
      blockers := if blocker ∈ r.blockers then r.blockers else r.blockers ++ [blocker] }

def removeBlocker (b : Board) (project : ProjectId) (id blocker : TodoId) :=
  mutate b project id fun r => { r.live with blockers := r.blockers.filter (· ≠ blocker) }

def lock (b : Board) (project : ProjectId) (id : TodoId) (owner : ProcessId) :=
  mutate b project id fun r =>
    { r.live with
      lockedBy := if r.lockedBy = none ∨ r.lockedBy = some owner then some owner else r.lockedBy }

def unlock (b : Board) (project : ProjectId) (id : TodoId) (owner : ProcessId) :=
  mutate b project id fun r =>
    { r.live with lockedBy := if r.lockedBy = some owner then none else r.lockedBy }

def commentCreate (b : Board) (project : ProjectId) (id : TodoId) (body : String)
    (author : Option CommentAuthor) : Board × Option (StoredTodo × Nat) :=
  match readOne b project id with
  | none => (b, none)
  | some stored =>
    let comment := nextCommentId stored.comments
    let change := fun comments => comments ++ [⟨comment, body, author⟩]
    (b.update (addressed project id) (.withComments change) (StoredTodo.id_withComments change),
      some (stored.withComments change, comment))

/-- Applies an edit of one comment, unless it is the one a recorded completion names. -/
def editComments (b : Board) (project : ProjectId) (id : TodoId) (comment : Nat)
    (edit : List Comment → List Comment) : Board × CommentEdit :=
  match readOne b project id with
  | none => (b, .noTodo)
  | some stored =>
    if stored.completion.map TodoCompletion.comment = some comment then
      (b, .completionProtected)
    else if comment ∈ stored.comments.map Comment.id then
      (b.update (addressed project id) (.withComments edit) (StoredTodo.id_withComments edit),
        .edited (stored.withComments edit))
    else (b, .noComment)

def commentUpdate (b : Board) (project : ProjectId) (id : TodoId) (comment : Nat)
    (body : String) : Board × CommentEdit :=
  editComments b project id comment (updateComment comment body)

def commentDelete (b : Board) (project : ProjectId) (id : TodoId) (comment : Nat) :
    Board × CommentEdit :=
  editComments b project id comment (·.filter fun c => c.id ≠ comment)

def unlocked (r : StoredTodo) : StoredTodo.Live := { r.live with lockedBy := none }

def releaseOwner (b : Board) (process : ProcessId) : Board :=
  b.update (fun r => r.lockedBy = some process) (.withLive unlocked)
    (StoredTodo.id_withLive unlocked)

def clearLocks (b : Board) : Board :=
  b.update (fun r => r.lockedBy.isSome) (.withLive unlocked) (StoredTodo.id_withLive unlocked)

def transfer (b : Board) (source target : ProjectId) (id : TodoId) :
    Board × Except StoreError (Option StoredTodo) :=
  match readOne b source id with
  | none => (b, .ok none)
  | some _ =>
    if ProjectTable.contains b.projects target then
      let moved := fun r : StoredTodo =>
        { r.live with project := target, blockers := [], lockedBy := none, scratchpad := none }
      let b' := b.update (addressed source id) (.withLive moved) (StoredTodo.id_withLive moved)
      (b', .ok (readOne b' target id))
    else (b, .error .foreignKey)

def derivedFrom (source : ProjectId) (scratchpad : ScratchpadId) (r : StoredTodo) : Bool :=
  r.project = source ∧ r.scratchpad = some scratchpad

/-- Moves every derived todo along, keeping the association and the blockers that move too, and
dropping the lock. -/
def transferDerived (b : Board) (source target : ProjectId) (scratchpad : ScratchpadId) :
    Board × List TodoId :=
  let ids := ((b.todos.rows.filter (derivedFrom source scratchpad)).map StoredTodo.id).mergeSort
    (· ≤ ·)
  let moved := fun r : StoredTodo =>
    { r.live with
      project := target
      blockers := r.blockers.filter (· ∈ ids)
      lockedBy := none }
  (b.update (derivedFrom source scratchpad) (.withLive moved) (StoredTodo.id_withLive moved), ids)

/-- Runs the policy against the todo and its existing blockers, and persists what it records in the
same transaction. -/
def applyCompletion (b : Board) (project : ProjectId) (id : TodoId)
    (policy : TodoCompletionContext → TodoCompletionDecision) :
    Board × TodoCompletionAtomicResult :=
  match readOne b project id with
  | none => (b, .notFound)
  | some stored =>
    match policy ⟨stored, stored.blockers.filterMap (readOne b project)⟩ with
    | .existing => (b, .existing stored)
    | .refuse error => (b, .refused error)
    | .record intent =>
      let record := StoredTodo.withRecord intent.doc intent.comment intent.completion
      (b.update (addressed project id) record
        (StoredTodo.id_withRecord intent.doc intent.comment intent.completion),
        .recorded (record stored))

/-- Replaces only the completion record when its current value equals `expected`. -/
def compareCompletion (b : Board) (project : ProjectId) (id : TodoId)
    (expected replacement : TodoCompletion) : Board × TodoCompletionCompareResult :=
  match readOne b project id with
  | none => (b, .notFound)
  | some stored =>
    if stored.completion ≠ some expected then (b, .mismatch stored)
    else
      (b.update (addressed project id) (.withCompletion replacement)
        (StoredTodo.id_withCompletion replacement), .written (stored.withCompletion replacement))

def unlinked (r : StoredTodo) : StoredTodo.Live := { r.live with scratchpad := none }

/-- `ON DELETE SET NULL`: the associations whose scratchpad is gone. -/
def unlinkGone (b : Board) : Board :=
  b.update (fun r => !b.linkable r.scratchpad) (.withLive unlinked)
    (StoredTodo.id_withLive unlinked)

def addProject (b : Board) : Board :=
  { b with projects := b.projects.append (b.projects.seq + 1) rfl }

def removeProject (b : Board) (project : ProjectId) : Board :=
  unlinkGone
    { projects := b.projects.delete fun p => p = project
      scratchpads := DocTable.dropProject b.scratchpads project
      todos := b.todos.delete fun r => r.project = project }

def scratchpadWrite (b : Board) (project : ProjectId) (name body : String)
    (expected : Option Nat) (now : Nat) : Board × Except WriteError ScratchpadView :=
  let (scratchpads, result) :=
    Scratchpads.write b.scratchpads b.projects project name body expected now
  ({ b with scratchpads := scratchpads }, result)

def scratchpadRename (b : Board) (project : ProjectId) (source target : String) :
    Board × Except RenameError ScratchpadView :=
  let (scratchpads, result) := Scratchpads.rename b.scratchpads project source target
  ({ b with scratchpads := scratchpads }, result)

def scratchpadDelete (b : Board) (project : ProjectId) (name : String) : Board × Bool :=
  let (scratchpads, removed) := DocTable.delete b.scratchpads project name
  (unlinkGone { b with scratchpads := scratchpads }, removed)

def scratchpadTransfer (b : Board) (source : ProjectId) (name : String) (target : ProjectId) :
    Board × Except StoreError (DocTransfer × List TodoId) :=
  match DocTable.transfer b.scratchpads b.projects source name target with
  | (scratchpads, .ok (.transferred stored)) =>
    let (b', ids) := transferDerived { b with scratchpads := scratchpads } source target stored.id
    (b', .ok (.transferred stored, ids))
  | (_, .ok outcome) => (b, .ok (outcome, []))
  | (_, .error e) => (b, .error e)

end Board

end Soloist
