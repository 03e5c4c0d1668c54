import Soloist.Machine
import Soloist.Mailbox.State
import Soloist.Slots

/-! Wakes and notices. A wake claims what is waiting under the in-flight latch, hands its envelope
to the recipient's terminal outside the lock, and then marks what it carried or gives the claim
back. -/
namespace Soloist

def orchestrationGuide (process : ProcessId) (project : ProjectId) (label : String) : String :=
  s!"[Soloist orchestration context]\nAuthenticated identity: {label} ({process}) in project {project}. Use whoami and agent_roster for identity and lineage; agent_message_list, agent_message_get, and agent_message_acknowledge for addressed work; agent_message_send and agent_message_broadcast to coordinate; agent_report_completion to report a todo result."

/-- What a claim took: the text to submit and the messages it names. -/
structure WakeClaim where
  onboarding : Option String
  claimed : List AgentMessageId
  deriving DecidableEq, Repr

/-- Where the notice a reporter sent for one task now stands. -/
inductive CompletionNoticeState
  | pending (delivery : AgentMessageDelivery)
  | acknowledged
  deriving DecidableEq, Repr

namespace MailboxState

def queueOnboarding (s : MailboxState) (now : UInt64) (process : ProcessId) (guide : String) :
    MailboxState :=
  { s with
    onboarding := AList.insert process guide s.onboarding
    pendingWakes := AList.insert process (.armed now) s.pendingWakes }

def queuedIds (s : MailboxState) (recipient : ProcessId) : List AgentMessageId :=
  ((s.inbox recipient).filter fun p => p.outcome = .queued).map fun p => p.message.id

def claimWakeEnvelope (s : MailboxState) (recipient : ProcessId) :
    MailboxState × Option WakeClaim :=
  if recipient ∈ s.wakeInFlight then (s, none)
  else
    let onboarding := s.onboardingOf recipient
    let queued := s.queuedIds recipient
    if onboarding.isNone && queued.isEmpty then (s, none)
    else ({ s with wakeInFlight := insert recipient s.wakeInFlight }, some ⟨onboarding, queued⟩)

def submitClaimed (claimed : List AgentMessageId) (p : Pending) : Pending :=
  if p.outcome = .queued ∧ p.message.id ∈ claimed then { p with outcome := .wakeSubmitted } else p

def advanceWoken : MailboxState → List (ProjectId × AgentMessageId) →
    MailboxState × List (ProjectId × AgentMessageId)
  | s, [] => (s, [])
  | s, (project, id) :: rest =>
    let (s', found) := s.advanceRecordedOutcome project id .wakeSubmitted
    let (s'', advanced) := advanceWoken s' rest
    (s'', if found then (project, id) :: advanced else advanced)

def markWakeSubmitted (s : MailboxState) (recipient : ProcessId) (claimed : List AgentMessageId) :
    MailboxState × List (ProjectId × AgentMessageId) :=
  let inbox := s.inbox recipient
  let woken := inbox.filter fun p => p.outcome = .queued ∧ p.message.id ∈ claimed
  let s := { s with
    onboarding := AList.erase recipient s.onboarding
    pendingWakes := AList.erase recipient s.pendingWakes
    inboxes := s.inboxes.keep recipient (inbox.map (submitClaimed claimed)) }
  s.advanceWoken (woken.map fun p => (p.message.project, p.message.id))

def releaseWakeClaim (s : MailboxState) (recipient : ProcessId) : MailboxState :=
  { s with wakeInFlight := s.wakeInFlight.erase recipient }

def observeNonIdle (s : MailboxState) (now : UInt64) (recipient : ProcessId) : MailboxState :=
  if recipient ∈ s.wakeInFlight then s.endWake recipient now else s

def recordWakeFailure (s : MailboxState) (recipient : ProcessId) : MailboxState :=
  match s.pendingWake recipient with
  | none => s
  | some wake => { s with pendingWakes := AList.insert recipient wake.refused s.pendingWakes }

def retryableRecipients (s : MailboxState) : List ProcessId :=
  s.pendingWakes.entries.filterMap fun e =>
    if e.2.attempts < maxWakeRetries ∧ e.1 ∉ s.wakeInFlight then some e.1 else none

def backstopCandidates (s : MailboxState) (now : UInt64) : List ProcessId :=
  s.pendingWakes.entries.filterMap fun e =>
    if e.2.backstopDue now ∧ e.1 ∉ s.wakeInFlight then some e.1 else none

def recordCompletionNotice (s : MailboxState) (reporter : ProcessId) (taskMessage : AgentMessageId)
    (notice : AgentMessage) : MailboxState :=
  { s with
    completionNotices := pushRing maxCompletionNotices s.completionNotices
      ⟨reporter, taskMessage, notice.id, notice.recipient⟩ }

def findNotice (s : MailboxState) (reporter : ProcessId) (taskMessage : AgentMessageId) :
    Option NoticeReceipt :=
  s.completionNotices.find? fun r => r.reporter = reporter ∧ r.taskMessage = taskMessage

def completionNotice (s : MailboxState) (reporter : ProcessId) (taskMessage : AgentMessageId) :
    Option CompletionNoticeState :=
  (s.findNotice reporter taskMessage).map fun receipt =>
    match s.find receipt.recipient receipt.notice with
    | some pending => .pending ⟨pending.message, pending.outcome⟩
    | none => .acknowledged

end MailboxState

end Soloist

/-! The mailbox with what its callers hold between two of its operations: a place reserved for a
first message, and a wake that has been claimed and not yet marked or released. -/
namespace Soloist

/-- Who makes a wake attempt: the reactor, or the call of a client. -/
inductive Waker
  | reactor
  | call (id : Nat)
  deriving DecidableEq, Repr

structure Submission where
  recipient : ProcessId
  claim : WakeClaim
  deriving DecidableEq, Repr

/-- The first message of a spawn request, whose place is reserved. -/
structure Prepared where
  project : ProjectId
  sender : ProcessId
  prompt : String
  todoId : Option TodoId
  deriving DecidableEq, Repr

structure Mailroom where
  state : MailboxState
  prepared : Dict Nat Prepared
  submissions : Slots Waker Submission

inductive MailboxOp
  | enqueue (now : UInt64) (project : ProjectId) (sender recipient : ProcessId)
      (kind : AgentMessageKind) (body : String) (todoId : Option TodoId)
  | enqueueMany (now : UInt64) (project : ProjectId) (sender : ProcessId)
      (recipients : List ProcessId) (kind : AgentMessageKind) (body : String)
      (todoId : Option TodoId)
  | reserve (call : Nat) (first : Prepared)
  | cancel (call : Nat)
  | enqueueReserved (now : UInt64) (call : Nat) (recipient : ProcessId)
  | queueOnboarding (now : UInt64) (process : ProcessId) (guide : String)
  | claim (waker : Waker) (recipient : ProcessId)
  | mark (waker : Waker)
  | release (waker : Waker)
  | wakeFailed (recipient : ProcessId)
  | observeNonIdle (now : UInt64) (recipient : ProcessId)
  | acknowledge (now : UInt64) (recipient : ProcessId) (id : AgentMessageId)
  | removeProcess (process : ProcessId)
  | forgetProject (project : ProjectId)
  | record (now : UInt64) (delivery : AgentMessageDelivery)
  | recordOutcome (project : ProjectId) (id : AgentMessageId) (outcome : AgentMessageOutcome)
  | recordCompletionNotice (reporter : ProcessId) (taskMessage : AgentMessageId)
      (notice : AgentMessage)
  deriving Repr

namespace Mailroom

def empty : Mailroom := ⟨.empty, ∅, Slots.empty⟩

/-- A refused operation changes nothing. A spawn request checks the size of its prompt before it
reserves, and reserves once; a broadcast is addressed to the distinct members of a roster; a waker
makes one attempt at a time. -/
def step (m : Mailroom) : MailboxOp → Option Mailroom
  | .enqueue now project sender recipient kind body todoId =>
    some { m with state := (m.state.enqueue now project sender recipient kind body todoId).1 }
  | .enqueueMany now project sender recipients kind body todoId =>
    if recipients.Nodup then
      some { m with
        state := (m.state.enqueueMany now project sender recipients kind body todoId).1 }
    else none
  | .reserve call first =>
    if (AList.lookup call m.prepared).isSome ∨ maxAgentMessageBytes < first.prompt.utf8ByteSize then
      none
    else
      match m.state.reserveProjectSlot first.project first.prompt.utf8ByteSize with
      | (s, .ok ()) => some { m with state := s, prepared := AList.insert call first m.prepared }
      | (s, .error _) => some { m with state := s }
  | .cancel call =>
    (AList.lookup call m.prepared).map fun first =>
      { m with
        state := m.state.cancelProjectReservation first.project first.prompt.utf8ByteSize
        prepared := AList.erase call m.prepared }
  | .enqueueReserved now call recipient =>
    (AList.lookup call m.prepared).map fun first =>
      { m with
        state := (m.state.enqueueReserved now first.project first.sender recipient .task
          first.prompt first.todoId).1
        prepared := AList.erase call m.prepared }
  | .queueOnboarding now process guide =>
    some { m with state := m.state.queueOnboarding now process guide }
  | .claim waker recipient =>
    if (m.submissions waker).isSome then none
    else
      match m.state.claimWakeEnvelope recipient with
      | (s, some claim) =>
        some { m with state := s, submissions := m.submissions.put waker ⟨recipient, claim⟩ }
      | (s, none) => some { m with state := s }
  | .mark waker =>
    (m.submissions waker).map fun sub =>
      { m with
        state := (m.state.markWakeSubmitted sub.recipient sub.claim.claimed).1
        submissions := m.submissions.erase waker }
  | .release waker =>
    (m.submissions waker).map fun sub =>
      { m with
        state := m.state.releaseWakeClaim sub.recipient
        submissions := m.submissions.erase waker }
  | .wakeFailed recipient => some { m with state := m.state.recordWakeFailure recipient }
  | .observeNonIdle now recipient => some { m with state := m.state.observeNonIdle now recipient }
  | .acknowledge now recipient id =>
    some { m with state := (m.state.acknowledge now recipient id).1 }
  | .removeProcess process => some { m with state := m.state.removeProcess process }
  | .forgetProject project => some { m with state := m.state.forgetProject project }
  | .record now delivery => some { m with state := m.state.record now delivery }
  | .recordOutcome project id outcome =>
    some { m with state := m.state.recordOutcome project id outcome }
  | .recordCompletionNotice reporter taskMessage notice =>
    some { m with state := m.state.recordCompletionNotice reporter taskMessage notice }

end Mailroom

def mailroomMachine : Machine Mailroom MailboxOp where
  init m := m = .empty
  step := Mailroom.step

end Soloist
