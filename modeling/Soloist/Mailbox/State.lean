import Mathlib.Data.Finset.Basic
import Soloist.Clock
import Soloist.Dict
import Soloist.Ids

/-! The mailbox's data: pending messages with their redundant counters, the wakes owed and in
flight, the receipts kept for completions, and the bounded transcript. -/
namespace Soloist

def maxAgentMessageBytes : Nat := 16 * 1024

def maxPendingMessagesPerRecipient : Nat := 64

def maxPendingMessagesPerProject : Nat := 1024

def maxPendingAgentMessages : Nat := 4096

def maxPendingAgentMessageBytes : Nat := 16 * 1024 * 1024

def maxTranscriptEntriesPerProject : Nat := 512

def maxTranscriptEntries : Nat := maxPendingAgentMessages

def maxTranscriptBodyBytes : Nat := 4 * 1024

def maxWakeWait : UInt64 := 120000

def maxWakeRetries : UInt8 := 8

def maxTaskReceipts : Nat := maxPendingAgentMessages

def maxCompletionNotices : Nat := maxPendingAgentMessages

inductive AgentMessageKind
  | direct
  | task
  | completion
  | trustDecision
  deriving DecidableEq, Repr

inductive AgentMessageOutcome
  | queued
  | wakeSubmitted
  | acknowledged
  deriving DecidableEq, Repr

structure AgentMessage where
  id : AgentMessageId
  project : ProjectId
  sender : ProcessId
  recipient : ProcessId
  kind : AgentMessageKind
  body : String
  todoId : Option TodoId
  deriving DecidableEq, Repr

structure AgentMessageDelivery where
  message : AgentMessage
  outcome : AgentMessageOutcome
  deriving DecidableEq, Repr

structure AgentMessageRecord where
  delivery : AgentMessageDelivery
  atUnixMillis : UInt64
  truncated : Bool
  deriving DecidableEq, Repr

/-- A queue ceiling that refused an enqueue without dropping an existing message. -/
inductive MailboxCapacityError
  | messageTooLarge
  | recipientQueueFull
  | projectQueueFull
  | globalQueueFull
  | globalByteLimit
  deriving DecidableEq, Repr

/-- A queued message with the state it has reached. -/
structure Pending where
  message : AgentMessage
  outcome : AgentMessageOutcome
  deriving DecidableEq, Repr

/-- One wake owed to a recipient: the deliveries it refused, and the instant past which it is
delivered without an idle classification. -/
structure PendingWake where
  attempts : UInt8
  backstopUnixMillis : UInt64
  deriving DecidableEq, Repr

structure TaskReceipt where
  id : AgentMessageId
  project : ProjectId
  sender : ProcessId
  recipient : ProcessId
  todoId : Option TodoId
  deriving DecidableEq, Repr

/-- One notice a reporter put in the mailbox, tied to the task it resolves. -/
structure NoticeReceipt where
  reporter : ProcessId
  taskMessage : AgentMessageId
  notice : AgentMessageId
  recipient : ProcessId
  deriving DecidableEq, Repr

structure MailboxState where
  inboxes : Queues ProcessId Pending
  onboarding : Dict ProcessId String
  projectReservations : Tally ProjectId
  reservedCount : Nat
  reservedBytes : Nat
  projectCounts : Tally ProjectId
  pendingCount : Nat
  pendingBytes : Nat
  pendingWakes : Dict ProcessId PendingWake
  wakeInFlight : Finset ProcessId
  taskReceipts : List TaskReceipt
  completionNotices : List NoticeReceipt
  transcript : Queues ProjectId AgentMessageRecord
  transcriptCount : Nat
  /-- The counter behind `AgentMessageId::next`. -/
  nextMessage : Nat

namespace AgentMessage

def bytes (m : AgentMessage) : Nat := m.body.utf8ByteSize

end AgentMessage

namespace PendingWake

/-- A fresh wake, with its backstop `MAX_WAKE_WAIT` out from `now`. -/
def armed (now : UInt64) : PendingWake := ⟨0, saturatingAdd now maxWakeWait⟩

def backstopDue (w : PendingWake) (now : UInt64) : Bool := w.backstopUnixMillis ≤ now

def refused (w : PendingWake) : PendingWake :=
  { w with attempts := if w.attempts < 255 then w.attempts + 1 else 255 }

end PendingWake

namespace MailboxState

/-- `AgentMailbox::new`. -/
def empty : MailboxState where
  inboxes := ∅
  onboarding := ∅
  projectReservations := ∅
  reservedCount := 0
  reservedBytes := 0
  projectCounts := ∅
  pendingCount := 0
  pendingBytes := 0
  pendingWakes := ∅
  wakeInFlight := ∅
  taskReceipts := []
  completionNotices := []
  transcript := ∅
  transcriptCount := 0
  nextMessage := 1

def inbox (s : MailboxState) (recipient : ProcessId) : List Pending := s.inboxes.queue recipient

def pendingWake (s : MailboxState) (recipient : ProcessId) : Option PendingWake :=
  AList.lookup recipient s.pendingWakes

def onboardingOf (s : MailboxState) (recipient : ProcessId) : Option String :=
  AList.lookup recipient s.onboarding

end MailboxState

end Soloist

/-! The delivery queue of the mailbox. Every operation runs under the one lock; an enqueue past a
ceiling is refused, and a reservation holds the place of a first message until it is queued. -/
namespace Soloist.MailboxState

def projectLen (s : MailboxState) (project : ProjectId) : Nat := s.projectCounts.count project

def reservedIn (s : MailboxState) (project : ProjectId) : Nat := s.projectReservations.count project

def armIfAbsent (wakes : Dict ProcessId PendingWake) (recipient : ProcessId) (now : UInt64) :
    Dict ProcessId PendingWake :=
  match AList.lookup recipient wakes with
  | some _ => wakes
  | none => AList.insert recipient (.armed now) wakes

def insertMessage (s : MailboxState) (now : UInt64) (project : ProjectId) (sender recipient : ProcessId)
    (kind : AgentMessageKind) (body : String) (todoId : Option TodoId) :
    MailboxState × AgentMessageDelivery :=
  let message : AgentMessage := ⟨s.nextMessage, project, sender, recipient, kind, body, todoId⟩
  ({ s with
      nextMessage := s.nextMessage + 1
      inboxes := s.inboxes.push recipient ⟨message, .queued⟩
      pendingCount := s.pendingCount + 1
      pendingBytes := s.pendingBytes + body.utf8ByteSize
      projectCounts := s.projectCounts.add project 1
      pendingWakes := armIfAbsent s.pendingWakes recipient now },
    ⟨message, .queued⟩)

def enqueue (s : MailboxState) (now : UInt64) (project : ProjectId) (sender recipient : ProcessId)
    (kind : AgentMessageKind) (body : String) (todoId : Option TodoId) :
    MailboxState × Except MailboxCapacityError AgentMessageDelivery :=
  if maxAgentMessageBytes < body.utf8ByteSize then (s, .error .messageTooLarge)
  else if maxPendingMessagesPerRecipient ≤ (s.inbox recipient).length then
    (s, .error .recipientQueueFull)
  else if maxPendingMessagesPerProject ≤ s.projectLen project + s.reservedIn project then
    (s, .error .projectQueueFull)
  else if maxPendingAgentMessages ≤ s.pendingCount + s.reservedCount then
    (s, .error .globalQueueFull)
  else if maxPendingAgentMessageBytes < s.pendingBytes + s.reservedBytes + body.utf8ByteSize then
    (s, .error .globalByteLimit)
  else
    let (s', delivery) := s.insertMessage now project sender recipient kind body todoId
    (s', .ok delivery)

def pushShared (project : ProjectId) (sender : ProcessId) (kind : AgentMessageKind) (body : String)
    (todoId : Option TodoId) (s : MailboxState) (recipient : ProcessId) :
    MailboxState × AgentMessageDelivery :=
  let message : AgentMessage := ⟨s.nextMessage, project, sender, recipient, kind, body, todoId⟩
  ({ s with
      nextMessage := s.nextMessage + 1
      inboxes := s.inboxes.push recipient ⟨message, .queued⟩ },
    ⟨message, .queued⟩)

def pushAll (project : ProjectId) (sender : ProcessId) (kind : AgentMessageKind) (body : String)
    (todoId : Option TodoId) : MailboxState → List ProcessId →
    MailboxState × List AgentMessageDelivery
  | s, [] => (s, [])
  | s, recipient :: rest =>
    let (s', delivery) := pushShared project sender kind body todoId s recipient
    let (s'', deliveries) := pushAll project sender kind body todoId s' rest
    (s'', delivery :: deliveries)

/-- The checks are made once, against the totals of the whole broadcast. -/
def enqueueMany (s : MailboxState) (now : UInt64) (project : ProjectId) (sender : ProcessId)
    (recipients : List ProcessId) (kind : AgentMessageKind) (body : String)
    (todoId : Option TodoId) :
    MailboxState × Except MailboxCapacityError (List AgentMessageDelivery) :=
  let addedBytes := body.utf8ByteSize * recipients.length
  if maxAgentMessageBytes < body.utf8ByteSize then (s, .error .messageTooLarge)
  else if recipients.any fun r => maxPendingMessagesPerRecipient ≤ (s.inbox r).length then
    (s, .error .recipientQueueFull)
  else if maxPendingMessagesPerProject <
      s.projectLen project + s.reservedIn project + recipients.length then
    (s, .error .projectQueueFull)
  else if maxPendingAgentMessages < s.pendingCount + s.reservedCount + recipients.length then
    (s, .error .globalQueueFull)
  else if maxPendingAgentMessageBytes < s.pendingBytes + s.reservedBytes + addedBytes then
    (s, .error .globalByteLimit)
  else
    let (s', deliveries) := pushAll project sender kind body todoId s recipients
    ({ s' with
        pendingCount := s'.pendingCount + recipients.length
        pendingBytes := s'.pendingBytes + addedBytes
        projectCounts := s'.projectCounts.add project recipients.length
        pendingWakes := recipients.foldl (fun wakes r => armIfAbsent wakes r now) s'.pendingWakes },
      .ok deliveries)

def reserveProjectSlot (s : MailboxState) (project : ProjectId) (bodyBytes : Nat) :
    MailboxState × Except MailboxCapacityError Unit :=
  if maxPendingMessagesPerProject ≤ s.projectLen project + s.reservedIn project then
    (s, .error .projectQueueFull)
  else if maxPendingAgentMessages ≤ s.pendingCount + s.reservedCount then
    (s, .error .globalQueueFull)
  else if maxPendingAgentMessageBytes < s.pendingBytes + s.reservedBytes + bodyBytes then
    (s, .error .globalByteLimit)
  else
    ({ s with
        projectReservations := s.projectReservations.add project 1
        reservedCount := s.reservedCount + 1
        reservedBytes := s.reservedBytes + bodyBytes }, .ok ())

/-- Natural subtraction saturates, as the source's does. -/
def cancelProjectReservation (s : MailboxState) (project : ProjectId) (bodyBytes : Nat) :
    MailboxState :=
  { s with
    projectReservations := s.projectReservations.dropOne project
    reservedCount := s.reservedCount - 1
    reservedBytes := s.reservedBytes - bodyBytes }

/-- The reservation is given back even when the inbox refuses the message. -/
def enqueueReserved (s : MailboxState) (now : UInt64) (project : ProjectId)
    (sender recipient : ProcessId) (kind : AgentMessageKind) (body : String)
    (todoId : Option TodoId) :
    MailboxState × Except MailboxCapacityError AgentMessageDelivery :=
  let s' := s.cancelProjectReservation project body.utf8ByteSize
  if maxPendingMessagesPerRecipient ≤ (s'.inbox recipient).length then
    (s', .error .recipientQueueFull)
  else
    let (s'', delivery) := s'.insertMessage now project sender recipient kind body todoId
    (s'', .ok delivery)

def find (s : MailboxState) (recipient : ProcessId) (id : AgentMessageId) : Option Pending :=
  (s.inbox recipient).find? fun pending => pending.message.id = id

def hasQueued (s : MailboxState) (recipient : ProcessId) : Bool :=
  (s.inbox recipient).any fun pending => pending.outcome = .queued

def armIfWaiting (s : MailboxState) (recipient : ProcessId) (now : UInt64) : MailboxState :=
  if s.hasQueued recipient || (s.onboardingOf recipient).isSome then
    { s with pendingWakes := AList.insert recipient (.armed now) s.pendingWakes }
  else s

def decrementPending (s : MailboxState) (message : AgentMessage) : MailboxState :=
  { s with
    pendingCount := s.pendingCount - 1
    pendingBytes := s.pendingBytes - message.bytes
    projectCounts := s.projectCounts.dropOne message.project }

/-- Append to a bounded ring, dropping the oldest at the ceiling. -/
def pushRing {α : Type} (ceiling : Nat) (ring : List α) (x : α) : List α :=
  (if ring.length = ceiling then ring.tail else ring) ++ [x]

def keepTaskReceipt (s : MailboxState) (m : AgentMessage) : MailboxState :=
  if m.kind = .task then
    { s with
      taskReceipts := pushRing maxTaskReceipts s.taskReceipts
        ⟨m.id, m.project, m.sender, m.recipient, m.todoId⟩ }
  else s

/-- Acknowledging a message a wake carried ends that wake. -/
def endWake (s : MailboxState) (recipient : ProcessId) (now : UInt64) : MailboxState :=
  { s with wakeInFlight := s.wakeInFlight.erase recipient }.armIfWaiting recipient now

def acknowledge (s : MailboxState) (now : UInt64) (recipient : ProcessId) (id : AgentMessageId) :
    MailboxState × Option AgentMessageDelivery :=
  match s.find recipient id with
  | none => (s, none)
  | some pending =>
    let rest := (s.inbox recipient).eraseP fun p => p.message.id = id
    let s := { s with inboxes := s.inboxes.keep recipient rest }
    let s := (s.decrementPending pending.message).keepTaskReceipt pending.message
    let s := if pending.outcome = .wakeSubmitted then s.endWake recipient now else s
    (s, some ⟨pending.message, .acknowledged⟩)

/-- A receipt is owed to its recipient, so only that recipient leaving retires it; a notice is
forgotten with either party. -/
def removeProcess (s : MailboxState) (process : ProcessId) : MailboxState :=
  let removed := s.inbox process
  let s := { s with inboxes := AList.erase process s.inboxes }
  let s := removed.foldl (fun s pending => s.decrementPending pending.message) s
  { s with
    onboarding := AList.erase process s.onboarding
    pendingWakes := AList.erase process s.pendingWakes
    wakeInFlight := s.wakeInFlight.erase process
    taskReceipts := s.taskReceipts.filter fun receipt => receipt.recipient ≠ process
    completionNotices := s.completionNotices.filter fun receipt =>
      receipt.reporter ≠ process ∧ receipt.recipient ≠ process }

def taskForCompletion (s : MailboxState) (project : ProjectId) (recipient : ProcessId)
    (id : AgentMessageId) : Option (ProcessId × Option TodoId) :=
  let pending := (s.inbox recipient).find? fun p =>
    p.message.id = id ∧ p.message.project = project ∧ p.message.kind = .task
  match pending with
  | some p => some (p.message.sender, p.message.todoId)
  | none =>
    let receipt := s.taskReceipts.find? fun r =>
      r.id = id ∧ r.project = project ∧ r.recipient = recipient
    receipt.map fun r => (r.sender, r.todoId)

end Soloist.MailboxState

/-! The bounded record of exchanges kept for display. It evicts its oldest entry where the queue
refuses, and an outcome moves in place on the entry that holds the message. -/
namespace Soloist

/-- The longest prefix of whole characters within `budget` bytes. -/
def takeBytes : Nat → List Char → List Char
  | _, [] => []
  | budget, c :: rest =>
    if c.utf8Size ≤ budget then c :: takeBytes (budget - c.utf8Size) rest else []

def truncateBody (body : String) : String × Bool :=
  if body.utf8ByteSize ≤ maxTranscriptBodyBytes then (body, false)
  else (String.ofList (takeBytes maxTranscriptBodyBytes body.toList), true)

namespace AgentMessageRecord

def id (r : AgentMessageRecord) : AgentMessageId := r.delivery.message.id

def withOutcome (r : AgentMessageRecord) (outcome : AgentMessageOutcome) : AgentMessageRecord :=
  { r with delivery := { r.delivery with outcome } }

def advance (id : AgentMessageId) (outcome : AgentMessageOutcome) :
    List AgentMessageRecord → List AgentMessageRecord
  | [] => []
  | r :: rest => if r.id = id then r.withOutcome outcome :: rest else r :: advance id outcome rest

end AgentMessageRecord

namespace MailboxState

def advanceRecordedOutcome (s : MailboxState) (project : ProjectId) (id : AgentMessageId)
    (outcome : AgentMessageOutcome) : MailboxState × Bool :=
  match AList.lookup project s.transcript with
  | none => (s, false)
  | some entries =>
    if entries.any fun r => r.id = id then
      ({ s with
          transcript :=
            AList.insert project (AgentMessageRecord.advance id outcome entries) s.transcript },
        true)
    else (s, false)

/-- The project holding the most entries, the lowest id breaking a tie. -/
def fullest (transcript : Queues ProjectId AgentMessageRecord) : Option ProjectId :=
  let better (best : Option (ProjectId × Nat)) (project : ProjectId) (length : Nat) :=
    match best with
    | none => some (project, length)
    | some (p, n) =>
      if n < length ∨ n = length ∧ project < p then some (project, length) else some (p, n)
  (transcript.foldl (fun best project entries => better best project entries.length) none).map
    Prod.fst

def evictFromFullest (s : MailboxState) : Option MailboxState :=
  match fullest s.transcript with
  | none => none
  | some victim =>
    match s.transcript.queue victim with
    | [] => none
    | _ :: rest =>
      some { s with
        transcript := s.transcript.keep victim rest
        transcriptCount := s.transcriptCount - 1 }

/-- Evict while over the ceiling. Every eviction counts one entry less, so the number of entries
counted is fuel enough. -/
def evictWhileOver : Nat → MailboxState → MailboxState
  | 0, s => s
  | fuel + 1, s =>
    if maxTranscriptEntries < s.transcriptCount then
      match s.evictFromFullest with
      | some s' => evictWhileOver fuel s'
      | none => s
    else s

def pushRecord (s : MailboxState) (record : AgentMessageRecord) : MailboxState :=
  let project := record.delivery.message.project
  let entries := s.transcript.queue project
  let replaced := decide (maxTranscriptEntriesPerProject ≤ entries.length)
  let kept := if replaced then entries.tail else entries
  let s := { s with
    transcript := AList.insert project (kept ++ [record]) s.transcript
    transcriptCount := if replaced then s.transcriptCount else s.transcriptCount + 1 }
  evictWhileOver s.transcriptCount s

def record (s : MailboxState) (now : UInt64) (delivery : AgentMessageDelivery) : MailboxState :=
  let (body, truncated) := truncateBody delivery.message.body
  s.pushRecord ⟨⟨{ delivery.message with body }, delivery.outcome⟩, now, truncated⟩

/-- A no-op when the entry has been evicted or was never recorded. -/
def recordOutcome (s : MailboxState) (project : ProjectId) (id : AgentMessageId)
    (outcome : AgentMessageOutcome) : MailboxState :=
  (s.advanceRecordedOutcome project id outcome).1

def forgetProject (s : MailboxState) (project : ProjectId) : MailboxState :=
  match AList.lookup project s.transcript with
  | none => s
  | some entries =>
    { s with
      transcript := AList.erase project s.transcript
      transcriptCount := s.transcriptCount - entries.length }

end MailboxState

end Soloist
