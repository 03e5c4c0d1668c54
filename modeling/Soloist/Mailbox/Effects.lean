import Soloist.Mailbox.Mailroom

/-! What each operation of the mailbox does to its state, said once: the refusals, the inboxes, and
the parts an operation leaves alone. -/
open List Option

namespace Soloist.MailboxState

section Enqueue
variable (s : MailboxState) (now : UInt64) (project : ProjectId) (sender recipient : ProcessId)
  (kind : AgentMessageKind) (body : String) (todoId : Option TodoId)

/-- An enqueue is refused without effect, or every ceiling leaves room for one more message. -/
theorem enqueue_cases :
    (∃ e, s.enqueue now project sender recipient kind body todoId = (s, .error e)) ∨
    (body.utf8ByteSize ≤ maxAgentMessageBytes ∧
      (s.inbox recipient).length < maxPendingMessagesPerRecipient ∧
      s.projectLen project + s.reservedIn project < maxPendingMessagesPerProject ∧
      s.pendingCount + s.reservedCount < maxPendingAgentMessages ∧
      s.pendingBytes + s.reservedBytes + body.utf8ByteSize ≤ maxPendingAgentMessageBytes ∧
      s.enqueue now project sender recipient kind body todoId =
        ((s.insertMessage now project sender recipient kind body todoId).1,
          .ok (s.insertMessage now project sender recipient kind body todoId).2)) := by
  unfold enqueue
  split_ifs with hsize hinbox hproject hglobal hbytes
  · exact .inl ⟨_, rfl⟩
  · exact .inl ⟨_, rfl⟩
  · exact .inl ⟨_, rfl⟩
  · exact .inl ⟨_, rfl⟩
  · exact .inl ⟨_, rfl⟩
  · exact .inr ⟨Nat.le_of_not_lt hsize, Nat.lt_of_not_le hinbox, Nat.lt_of_not_le hproject,
      Nat.lt_of_not_le hglobal, Nat.le_of_not_lt hbytes, rfl⟩

theorem inbox_insertMessage (i : ProcessId) :
    (s.insertMessage now project sender recipient kind body todoId).1.inbox i =
      if i = recipient then
        s.inbox recipient ++ [⟨⟨s.nextMessage, project, sender, recipient, kind, body, todoId⟩,
          .queued⟩]
      else s.inbox i := Queues.queue_push s.inboxes recipient i _

/-- The reservation goes back either way; the message is queued when its inbox has room. -/
theorem enqueueReserved_cases :
    (∃ e, s.enqueueReserved now project sender recipient kind body todoId =
      (s.cancelProjectReservation project body.utf8ByteSize, .error e)) ∨
    ((s.inbox recipient).length < maxPendingMessagesPerRecipient ∧
      s.enqueueReserved now project sender recipient kind body todoId =
        (((s.cancelProjectReservation project body.utf8ByteSize).insertMessage now project sender recipient
          kind body todoId).1,
          .ok ((s.cancelProjectReservation project body.utf8ByteSize).insertMessage now project sender
            recipient kind body todoId).2)) := by
  unfold enqueueReserved
  simp only
  split_ifs with hinbox
  · exact .inl ⟨_, rfl⟩
  · exact .inr ⟨Nat.lt_of_not_le hinbox, rfl⟩

end Enqueue

theorem reserveProjectSlot_cases (s : MailboxState) (project : ProjectId) (size : Nat) :
    (∃ e, s.reserveProjectSlot project size = (s, .error e)) ∨
    (s.projectLen project + s.reservedIn project < maxPendingMessagesPerProject ∧
      s.pendingCount + s.reservedCount < maxPendingAgentMessages ∧
      s.pendingBytes + s.reservedBytes + size ≤ maxPendingAgentMessageBytes ∧
      s.reserveProjectSlot project size =
        ({ s with
            projectReservations := s.projectReservations.add project 1
            reservedCount := s.reservedCount + 1
            reservedBytes := s.reservedBytes + size }, .ok ())) := by
  unfold reserveProjectSlot
  split_ifs with hproject hglobal hbytes
  · exact .inl ⟨_, rfl⟩
  · exact .inl ⟨_, rfl⟩
  · exact .inl ⟨_, rfl⟩
  · exact .inr ⟨Nat.lt_of_not_le hproject, Nat.lt_of_not_le hglobal, Nat.le_of_not_lt hbytes, rfl⟩

section EnqueueMany
variable (project : ProjectId) (sender : ProcessId) (kind : AgentMessageKind) (body : String)
  (todoId : Option TodoId)

def admitAll (s : MailboxState) (now : UInt64) (recipients : List ProcessId) :
    MailboxState × List AgentMessageDelivery :=
  let (s', deliveries) := pushAll project sender kind body todoId s recipients
  ({ s' with
      pendingCount := s'.pendingCount + recipients.length
      pendingBytes := s'.pendingBytes + body.utf8ByteSize * recipients.length
      projectCounts := s'.projectCounts.add project recipients.length
      pendingWakes := recipients.foldl (fun wakes r => armIfAbsent wakes r now) s'.pendingWakes },
    deliveries)

/-- A broadcast is refused without effect, or every ceiling leaves room for all of it. -/
theorem enqueueMany_cases (s : MailboxState) (now : UInt64) (recipients : List ProcessId) :
    (∃ e, s.enqueueMany now project sender recipients kind body todoId = (s, .error e)) ∨
    (body.utf8ByteSize ≤ maxAgentMessageBytes ∧
      (∀ r ∈ recipients, (s.inbox r).length < maxPendingMessagesPerRecipient) ∧
      s.projectLen project + s.reservedIn project + recipients.length ≤
        maxPendingMessagesPerProject ∧
      s.pendingCount + s.reservedCount + recipients.length ≤ maxPendingAgentMessages ∧
      s.pendingBytes + s.reservedBytes + body.utf8ByteSize * recipients.length ≤
        maxPendingAgentMessageBytes ∧
      s.enqueueMany now project sender recipients kind body todoId =
        ((admitAll project sender kind body todoId s now recipients).1,
          .ok (admitAll project sender kind body todoId s now recipients).2)) := by
  unfold enqueueMany
  simp only
  split_ifs with hsize hinbox hproject hglobal hbytes
  · exact .inl ⟨_, rfl⟩
  · exact .inl ⟨_, rfl⟩
  · exact .inl ⟨_, rfl⟩
  · exact .inl ⟨_, rfl⟩
  · exact .inl ⟨_, rfl⟩
  · refine .inr ⟨Nat.le_of_not_lt hsize, fun r hr => ?_, Nat.le_of_not_lt hproject,
      Nat.le_of_not_lt hglobal, Nat.le_of_not_lt hbytes, rfl⟩
    have hnot : ¬ maxPendingMessagesPerRecipient ≤ (s.inbox r).length := by
      intro h
      exact hinbox (List.any_eq_true.mpr ⟨r, hr, decide_eq_true h⟩)
    exact Nat.lt_of_not_le hnot

theorem pushAll_frame (rs : List ProcessId) (s : MailboxState) :
    ∃ inboxes next, (pushAll project sender kind body todoId s rs).1 =
      { s with inboxes := inboxes, nextMessage := next } := by
  induction rs generalizing s with
  | nil => exact ⟨s.inboxes, s.nextMessage, rfl⟩
  | cons r rest ih =>
    obtain ⟨inboxes, next, h⟩ := ih (pushShared project sender kind body todoId s r).1
    exact ⟨inboxes, next, h⟩

theorem inbox_pushShared (s : MailboxState) (r i : ProcessId) :
    (pushShared project sender kind body todoId s r).1.inbox i =
      if i = r then
        s.inbox r ++ [⟨⟨s.nextMessage, project, sender, r, kind, body, todoId⟩, .queued⟩]
      else s.inbox i := Queues.queue_push s.inboxes r i _

theorem nextMessage_pushAll (rs : List ProcessId) (s : MailboxState) :
    (pushAll project sender kind body todoId s rs).1.nextMessage = s.nextMessage + rs.length := by
  induction rs generalizing s with
  | nil => rfl
  | cons r rest ih =>
    have h := ih (pushShared project sender kind body todoId s r).1
    have hnext : (pushShared project sender kind body todoId s r).1.nextMessage =
      s.nextMessage + 1 := rfl
    simp only [pushAll, h, hnext, length_cons]
    omega

variable {rs : List ProcessId} {i : ProcessId}

theorem inbox_pushAll_of_notMem (hi : i ∉ rs) (s : MailboxState) :
    (pushAll project sender kind body todoId s rs).1.inbox i = s.inbox i := by
  induction rs generalizing s with
  | nil => rfl
  | cons r rest ih =>
    have hr : i ≠ r := fun h => hi (h ▸ (.head _))
    have hrest : i ∉ rest := fun h => hi (.tail _ h)
    have h := ih hrest (pushShared project sender kind body todoId s r).1
    rw [inbox_pushShared, if_neg hr] at h
    exact h

/-- Each of several distinct recipients receives one message, under an id of its own. -/
theorem inbox_pushAll (hrs : rs.Nodup) (hi : i ∈ rs) (s : MailboxState) :
    ∃ id : Nat, s.nextMessage ≤ id ∧ id < s.nextMessage + rs.length ∧
      (pushAll project sender kind body todoId s rs).1.inbox i =
        s.inbox i ++ [⟨⟨id, project, sender, i, kind, body, todoId⟩, .queued⟩] := by
  induction rs generalizing s with
  | nil => exact absurd hi (by simp)
  | cons r rest ih =>
    obtain ⟨hr, hrest⟩ := nodup_cons.mp hrs
    have hpush := inbox_pushShared project sender kind body todoId s r i
    have hnext : (pushShared project sender kind body todoId s r).1.nextMessage =
      s.nextMessage + 1 := rfl
    by_cases hir : i = r
    · subst hir
      have h := inbox_pushAll_of_notMem project sender kind body todoId hr
        (pushShared project sender kind body todoId s i).1
      rw [if_pos rfl] at hpush
      exact ⟨s.nextMessage, le_rfl, by simp, h.trans hpush⟩
    · have hmem : i ∈ rest := (mem_cons.mp hi).resolve_left hir
      obtain ⟨id, hle, hlt, h⟩ := ih hrest hmem (pushShared project sender kind body todoId s r).1
      rw [if_neg hir] at hpush
      rw [hpush] at h
      rw [hnext] at hle hlt
      exact ⟨id, by omega, by simp only [length_cons]; omega, h⟩

end EnqueueMany

theorem lookup_armIfAbsent (wakes : Dict ProcessId PendingWake) (r i : ProcessId) (now : UInt64) :
    AList.lookup i (armIfAbsent wakes r now) =
      if i = r then some ((AList.lookup r wakes).getD (.armed now)) else AList.lookup i wakes := by
  unfold armIfAbsent
  cases hr : AList.lookup r wakes with
  | some wake =>
    simp only [getD_some]
    split_ifs with h
    · rw [h, hr]
    · rfl
  | none =>
    simp only [getD_none, Dict.lookup_insert]

theorem lookup_foldl_armIfAbsent (now : UInt64) (rs : List ProcessId)
    (wakes : Dict ProcessId PendingWake) (i : ProcessId) :
    AList.lookup i (rs.foldl (fun wakes r => armIfAbsent wakes r now) wakes) =
      if i ∈ rs then some ((AList.lookup i wakes).getD (.armed now)) else AList.lookup i wakes := by
  induction rs generalizing wakes with
  | nil => rfl
  | cons r rest ih =>
    rw [foldl_cons, ih, lookup_armIfAbsent]
    by_cases hi : i = r
    · subst hi
      by_cases hrest : i ∈ rest
      · simp [hrest]
      · simp [hrest]
    · by_cases hrest : i ∈ rest
      · simp [hi, hrest]
      · simp [hi, hrest]

/-- What display and completion records may change, and nothing the queue or the wakes rest on. -/
def withTranscript (s : MailboxState) (transcript : Queues ProjectId AgentMessageRecord)
    (count : Nat) : MailboxState :=
  { s with transcript, transcriptCount := count }

theorem advanceRecordedOutcome_frame (s : MailboxState) (project : ProjectId)
    (id : AgentMessageId) (outcome : AgentMessageOutcome) :
    ∃ tr, (s.advanceRecordedOutcome project id outcome).1 =
      s.withTranscript tr s.transcriptCount := by
  unfold advanceRecordedOutcome
  split
  · exact ⟨s.transcript, rfl⟩
  · split_ifs
    · exact ⟨_, rfl⟩
    · exact ⟨s.transcript, rfl⟩

theorem advanceWoken_frame (woken : List (ProjectId × AgentMessageId)) (s : MailboxState) :
    ∃ tr, (s.advanceWoken woken).1 = s.withTranscript tr s.transcriptCount := by
  induction woken generalizing s with
  | nil => exact ⟨s.transcript, rfl⟩
  | cons e rest ih =>
    obtain ⟨tr, h⟩ := advanceRecordedOutcome_frame s e.1 e.2 .wakeSubmitted
    obtain ⟨tr', h'⟩ := ih (s.advanceRecordedOutcome e.1 e.2 .wakeSubmitted).1
    rw [h] at h'
    exact ⟨tr', (congrArg (fun s : MailboxState => (s.advanceWoken rest).1) h).trans h'⟩

variable {s : MailboxState}

theorem evictFromFullest_frame {s' : MailboxState} (h : s.evictFromFullest = some s') :
    ∃ tr n, s' = s.withTranscript tr n := by
  unfold evictFromFullest at h
  split at h
  · cases h
  · split at h
    · cases h
    · exact ⟨_, _, (some.inj h).symm⟩

theorem evictWhileOver_frame (fuel : Nat) (s : MailboxState) :
    ∃ tr n, evictWhileOver fuel s = s.withTranscript tr n := by
  induction fuel generalizing s with
  | zero => exact ⟨s.transcript, s.transcriptCount, rfl⟩
  | succ fuel ih =>
    unfold evictWhileOver
    split_ifs
    · cases hevict : s.evictFromFullest with
      | none => exact ⟨s.transcript, s.transcriptCount, rfl⟩
      | some s' =>
        obtain ⟨tr, n, hs'⟩ := evictFromFullest_frame hevict
        obtain ⟨tr', n', h⟩ := ih s'
        rw [hs'] at h
        exact ⟨tr', n', (congrArg (evictWhileOver fuel) hs').trans h⟩
    · exact ⟨s.transcript, s.transcriptCount, rfl⟩

theorem record_frame (s : MailboxState) (now : UInt64) (delivery : AgentMessageDelivery) :
    ∃ tr n, s.record now delivery = s.withTranscript tr n := by
  obtain ⟨tr, n, h⟩ := evictWhileOver_frame _ _
  exact ⟨tr, n, h⟩

theorem recordOutcome_frame (s : MailboxState) (project : ProjectId) (id : AgentMessageId)
    (outcome : AgentMessageOutcome) :
    ∃ tr n, s.recordOutcome project id outcome = s.withTranscript tr n := by
  obtain ⟨tr, h⟩ := advanceRecordedOutcome_frame s project id outcome
  exact ⟨tr, _, h⟩

theorem forgetProject_frame (s : MailboxState) (project : ProjectId) :
    ∃ tr n, s.forgetProject project = s.withTranscript tr n := by
  unfold forgetProject
  split
  · exact ⟨s.transcript, s.transcriptCount, rfl⟩
  · exact ⟨_, _, rfl⟩

def waiting (s : MailboxState) (r : ProcessId) : Bool :=
  s.hasQueued r || (s.onboardingOf r).isSome

theorem waiting_eq_false {r : ProcessId} :
    s.waiting r = false ↔ s.onboardingOf r = none ∧ s.queuedIds r = [] := by
  simp only [waiting, hasQueued, queuedIds, Bool.or_eq_false_iff, isSome_eq_false_iff,
    isNone_iff_eq_none, map_eq_nil_iff, filter_eq_nil_iff, List.any_eq_false]
  exact And.comm

/-- A claim takes the latch and all that waits, or finds nothing to take. -/
theorem claimWakeEnvelope_cases (s : MailboxState) (r : ProcessId) :
    ((r ∈ s.wakeInFlight ∨ s.waiting r = false) ∧ s.claimWakeEnvelope r = (s, none)) ∨
    (r ∉ s.wakeInFlight ∧ s.waiting r = true ∧
      s.claimWakeEnvelope r =
        ({ s with wakeInFlight := insert r s.wakeInFlight },
          some ⟨s.onboardingOf r, s.queuedIds r⟩)) := by
  by_cases hlatch : r ∈ s.wakeInFlight
  · exact .inl ⟨.inl hlatch, by simp only [claimWakeEnvelope, if_pos hlatch]⟩
  · cases hwaiting : s.waiting r with
    | false =>
      obtain ⟨hguide, hqueued⟩ := waiting_eq_false.mp hwaiting
      exact .inl ⟨.inr rfl, by simp [claimWakeEnvelope, hlatch, hguide, hqueued]⟩
    | true =>
      have hsome : ¬ ((s.onboardingOf r).isNone && (s.queuedIds r).isEmpty) = true := by
        intro h
        rw [Bool.and_eq_true, isNone_iff_eq_none, List.isEmpty_iff] at h
        rw [waiting_eq_false.mpr h] at hwaiting
        cases hwaiting
      exact .inr ⟨hlatch, rfl, by simp only [claimWakeEnvelope, if_neg hlatch, if_neg hsome]⟩

theorem markWakeSubmitted_frame (s : MailboxState) (recipient : ProcessId)
    (claimed : List AgentMessageId) :
    ∃ tr, (s.markWakeSubmitted recipient claimed).1 =
      { s with
        onboarding := AList.erase recipient s.onboarding
        pendingWakes := AList.erase recipient s.pendingWakes
        inboxes := s.inboxes.keep recipient ((s.inbox recipient).map (submitClaimed claimed))
        transcript := tr } := by
  obtain ⟨tr, h⟩ := advanceWoken_frame
    (((s.inbox recipient).filter fun p => p.outcome = .queued ∧ p.message.id ∈ claimed).map
      fun p => (p.message.project, p.message.id))
    { s with
      onboarding := AList.erase recipient s.onboarding
      pendingWakes := AList.erase recipient s.pendingWakes
      inboxes := s.inboxes.keep recipient ((s.inbox recipient).map (submitClaimed claimed)) }
  exact ⟨tr, h⟩

theorem inbox_keep (s : MailboxState) (r i : ProcessId) (xs : List Pending) :
    Queues.queue (s.inboxes.keep r xs) i = if i = r then xs else s.inbox i :=
  Queues.queue_keep s.inboxes r i xs

/-- Taking messages off the counters leaves everything else. -/
theorem foldl_decrementPending_frame (l : List Pending) (s : MailboxState) :
    ∃ count bytes counts, l.foldl (fun s p => s.decrementPending p.message) s =
      { s with pendingCount := count, pendingBytes := bytes, projectCounts := counts } := by
  induction l generalizing s with
  | nil => exact ⟨_, _, _, rfl⟩
  | cons p rest ih =>
    obtain ⟨count, bytes, counts, h⟩ := ih (s.decrementPending p.message)
    exact ⟨count, bytes, counts, h⟩

/-- A removal drops the process's own parts, the receipts it was owed and the notices it is party
to, and takes its messages off the counters. -/
theorem removeProcess_frame (s : MailboxState) (process : ProcessId) :
    ∃ count bytes counts, s.removeProcess process =
      { s with
        inboxes := AList.erase process s.inboxes
        pendingCount := count
        pendingBytes := bytes
        projectCounts := counts
        onboarding := AList.erase process s.onboarding
        pendingWakes := AList.erase process s.pendingWakes
        wakeInFlight := s.wakeInFlight.erase process
        taskReceipts := s.taskReceipts.filter fun receipt => receipt.recipient ≠ process
        completionNotices := s.completionNotices.filter fun receipt =>
          receipt.reporter ≠ process ∧ receipt.recipient ≠ process } := by
  obtain ⟨count, bytes, counts, hframe⟩ := foldl_decrementPending_frame (s.inbox process)
    { s with inboxes := AList.erase process s.inboxes }
  refine ⟨count, bytes, counts, ?_⟩
  unfold removeProcess
  simp only [hframe]

/-- The state an acknowledgement of `p` leaves, before the wake that carried it ends. -/
def withoutMessage (s : MailboxState) (recipient : ProcessId) (p : Pending) : MailboxState :=
  ({ s with
      inboxes := s.inboxes.keep recipient
        ((s.inbox recipient).eraseP fun q => q.message.id = p.message.id) }.decrementPending
    p.message).keepTaskReceipt p.message

variable {recipient : ProcessId} {id : AgentMessageId}

theorem acknowledge_of_find {p : Pending} (h : s.find recipient id = some p) (now : UInt64) :
    s.acknowledge now recipient id =
      (if p.outcome = .wakeSubmitted then (s.withoutMessage recipient p).endWake recipient now
        else s.withoutMessage recipient p, some ⟨p.message, .acknowledged⟩) := by
  have hid : p.message.id = id := by simpa using find?_some h
  simp only [acknowledge, h, withoutMessage, hid]

theorem withoutMessage_frame (s : MailboxState) (recipient : ProcessId) (p : Pending) :
    ∃ count bytes counts receipts, s.withoutMessage recipient p =
      { s with
        inboxes := s.inboxes.keep recipient
          ((s.inbox recipient).eraseP fun q => q.message.id = p.message.id)
        pendingCount := count
        pendingBytes := bytes
        projectCounts := counts
        taskReceipts := receipts } := by
  unfold withoutMessage keepTaskReceipt
  split_ifs
  · exact ⟨_, _, _, _, rfl⟩
  · exact ⟨_, _, _, _, rfl⟩

theorem acknowledge_of_find_none (h : s.find recipient id = none) (now : UInt64) :
    s.acknowledge now recipient id = (s, none) := by
  simp only [acknowledge, h]

end Soloist.MailboxState
