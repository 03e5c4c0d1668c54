import Soloist.Mailbox.Mailroom
import Soloist.Process.Spec
import Soloist.Todo.Machine

/-! The façade's mailbox calls, as what each holds before its next access to shared state. -/
namespace Soloist

inductive AgentActivity
  | idle
  | permission
  | thinking
  | working
  | error
  deriving DecidableEq, Repr

/-- What the mailbox reads of a registered process. -/
structure ProcessView where
  project : ProjectId
  kind : ProcessKind
  label : String
  deriving DecidableEq, Repr

/-- The domain events, as the mailbox reactor tells them apart. -/
inductive MailEvent
  | agentActivityChanged (id : ProcessId) (activity : AgentActivity)
  | processRemoved (id : ProcessId)
  | projectRemoved (id : ProjectId)
  | agentMessageChanged (project : ProjectId) (id : AgentMessageId)
  | todoChanged (project : ProjectId) (id : TodoId)
  | other
  deriving DecidableEq, Repr

/-- What the calling session resolves to: its effective project and the process behind it. -/
structure Caller where
  project : Option ProjectId
  process : Option ProcessId
  deriving DecidableEq, Repr

inductive AgentMailboxError
  | noProjectScope
  | noBoundProcess
  | unknownRecipient
  | unrelatedRecipient
  | unknownMessage
  | messageTooLarge
  | recipientQueueFull
  | projectQueueFull
  | globalQueueFull
  | globalByteLimit
  | unknownTodo
  | todoBlocked (unmet : List TodoId)
  | store (error : StoreError)
  deriving DecidableEq, Repr

def AgentMailboxError.ofCapacity : MailboxCapacityError → AgentMailboxError
  | .messageTooLarge => .messageTooLarge
  | .recipientQueueFull => .recipientQueueFull
  | .projectQueueFull => .projectQueueFull
  | .globalQueueFull => .globalQueueFull
  | .globalByteLimit => .globalByteLimit

/-- The text of an error that reaches a report only inside a store error. -/
def TodoError.message : TodoError → String
  | .invalid problems => s!"todo is not well-formed: {problems}"
  | .notFound => "no todo under that id"
  | .conflict expected actual =>
    s!"todo revision conflict (expected {debug expected}, found {debug actual})"
  | .blocked unmet => s!"todo is blocked by {unmet}"
  | .unknownBlocker => "no todo under that id to block on"
  | .selfBlocker => "a todo cannot block itself"
  | .store (.backend problem) => problem
  | .completionProtected =>
    "the todo has a recorded completion and cannot be changed by this operation"
  | .completionConflict => "the todo completion belongs to a different task"
where
  debug : Option Nat → String
    | none => "None"
    | some n => s!"Some({n})"

def AgentMailboxError.ofTodo : TodoError → AgentMailboxError
  | .notFound => .unknownTodo
  | .blocked unmet => .todoBlocked unmet
  | .store e => .store e
  | other => .store (.backend other.message)

inductive CompletionNotification
  | enqueued (delivery : AgentMessageDelivery)
  | pending (delivery : AgentMessageDelivery)
  | alreadyQueued
  | deferred (recipient : Option ProcessId)
  deriving DecidableEq, Repr

structure CompletionReport where
  completion : Option TodoCompletion
  occurrence : Option TodoCompletionOccurrence
  notification : CompletionNotification
  deriving DecidableEq, Repr

/-- A completion report whose task was found, with the outcome of its todo. -/
structure Report where
  project : ProjectId
  reporter : ProcessId
  task : AgentMessageId
  parent : ProcessId
  todoId : Option TodoId
  summary : String
  outcome : Option TodoCompletionOutcome
  deriving DecidableEq, Repr

namespace Report

def key (r : Report) : TodoCompletionKey := ⟨r.reporter, r.task⟩

def reply (r : Report) (notification : CompletionNotification) : CompletionReport where
  completion := r.outcome.map TodoCompletionOutcome.completion
  occurrence := r.outcome.map TodoCompletionOutcome.occurrence
  notification := notification

end Report

inductive Addressee
  | one (recipient : ProcessId)
  /-- Every other member of the caller's roster. -/
  | group
  deriving DecidableEq, Repr

/-- A message on its way into the mailbox, with the report it is the notice of, if any. -/
structure Draft where
  project : ProjectId
  sender : ProcessId
  addressee : Addressee
  kind : AgentMessageKind
  body : String
  todoId : Option TodoId
  report : Option Report
  deriving DecidableEq, Repr

/-- How far the reading of a roster has come: the snapshot gives the live agents, and the lineage
is then asked for the root of one after another. -/
inductive RosterPoint
  | identify
  | list (project : ProjectId) (sender : ProcessId)
  | root (sender : ProcessId) (live : List ProcessId)
  | sift (root : ProcessId) (live members : List ProcessId)
  deriving DecidableEq, Repr

/-- What a delivery past its enqueue does next: read whether its recipient is idle, claim the wake,
submit it, record the exchange, announce it. -/
inductive DeliveryStage
  | fresh
  | idle
  | claimed
  | settled
  | recorded
  deriving DecidableEq, Repr

/-- A send past its enqueue: the delivery under way, those of a broadcast still to come, and those
done. -/
structure Dispatch where
  draft : Draft
  done : List AgentMessageDelivery
  head : AgentMessageDelivery
  rest : List AgentMessageDelivery
  stage : DeliveryStage
  deriving DecidableEq, Repr

structure SpawnAgentRequest where
  tool : String
  prompt : Option String
  todoId : Option TodoId
  includeAgentInstructions : Bool
  deriving DecidableEq, Repr

/-- A spawn past its checks: the process behind its session, and the sender of its first message,
there when it has a prompt. -/
structure AgentSpawn where
  project : ProjectId
  request : SpawnAgentRequest
  lead : Option ProcessId
  sender : Option ProcessId
  deriving DecidableEq, Repr

/-- A process on its way into the registry. -/
structure Launch where
  project : ProjectId
  kind : ProcessKind
  label : String
  spawn : Option AgentSpawn
  deriving DecidableEq, Repr

inductive LaunchAgentError
  | unknownTool
  | unknownProject
  | store (error : StoreError)
  | supervisor
  deriving DecidableEq, Repr

inductive SpawnAgentError
  | noProjectScope
  | workerMayNotSpawn
  | launch (error : LaunchAgentError)
  | mailbox (error : AgentMailboxError)
  deriving DecidableEq, Repr

inductive MailReply
  | sent (result : Except AgentMailboxError AgentMessageDelivery)
  | broadcast (result : Except AgentMailboxError (List AgentMessageDelivery))
  | acknowledged (result : Except AgentMailboxError AgentMessageDelivery)
  | reportRefused (error : AgentMailboxError)
  | reported (report : Report) (result : CompletionReport)
  | spawned (result : Except SpawnAgentError (ProcessId × Option AgentMessageDelivery))
  | launched (result : Except LaunchAgentError ProcessId)
  | decided
  | closed
  | removed

def MailReply.isReport : MailReply → Bool
  | .reported .. => true
  | _ => false

/-- The notice that could not be sent is owed still; any other failed send is its caller's. -/
def Draft.refused (d : Draft) (e : AgentMailboxError) : MailReply :=
  match d.report, d.addressee with
  | some r, _ => .reported r (r.reply (.deferred (some r.parent)))
  | none, .one _ => .sent (.error e)
  | none, .group => .broadcast (.error e)

inductive MailCall
  /-- A send, a broadcast or a notice that reads its roster, and has read it. -/
  | rostering (draft : Draft) (point : RosterPoint)
  | rostered (draft : Draft) (members : List ProcessId)
  | dispatching (d : Dispatch)
  | acknowledging (recipient : ProcessId) (id : AgentMessageId)
  | acknowledged (delivery : AgentMessageDelivery)
  | announcing (delivery : AgentMessageDelivery)
  | reporting (project : ProjectId) (reporter : ProcessId) (task : AgentMessageId)
      (todoId : Option TodoId) (summary : String)
  | completing (report : Report)
  | announcingTodo (report : Report)
  | checking (report : Report)
  | notifying (report : Report)
  | noticing (report : Report) (delivery : AgentMessageDelivery)
  | flagging (report : Report) (delivery : AgentMessageDelivery)
  | reserving (spawn : AgentSpawn)
  | launching (launch : Launch)
  | registering (launch : Launch)
  | starting (launch : Launch) (id : ProcessId)
  | nesting (spawn : AgentSpawn) (worker : ProcessId)
  | labelling (spawn : AgentSpawn) (worker : ProcessId)
  | briefing (spawn : AgentSpawn) (worker : ProcessId) (label : String)
  | placing (spawn : AgentSpawn) (worker : ProcessId)
  | recording (worker : ProcessId) (delivery : AgentMessageDelivery)
  | announcingTask (worker : ProcessId) (delivery : AgentMessageDelivery)
  | cancelling (error : LaunchAgentError)
  /-- A person's decision on a trust request, told to the process that asked. -/
  | deciding (project : ProjectId) (process : ProcessId) (body : String)
  | poking (process : ProcessId) (stage : DeliveryStage)
  /-- A process out of the registry whose removal is still to be announced. -/
  | closing (id : ProcessId) (rest : Option (ProjectId × List ProcessId))
  | listingAll (project : ProjectId)
  | closingAll (project : ProjectId) (ids : List ProcessId)
  | deleting (project : ProjectId)
  | removing (project : ProjectId)
  | returned (reply : MailReply)

/-- The call of a finished delivery: the next one of a broadcast, the notice to record, or the
reply. -/
def Dispatch.next (d : Dispatch) : MailCall :=
  match d.rest with
  | head :: rest => .dispatching ⟨d.draft, d.done ++ [d.head], head, rest, .fresh⟩
  | [] =>
    match d.draft.report, d.draft.addressee with
    | some r, _ => .noticing r d.head
    | none, .one _ => .returned (.sent (.ok d.head))
    | none, .group => .returned (.broadcast (.ok (d.done ++ [d.head])))

end Soloist
