import Soloist.Mailbox.Effects

/-! A broadcast against the sends it stands for: the totals it checks up front agree with the checks
each of the sends would make. -/
open List

namespace Soloist.MailboxState

section Broadcast
variable (project : ProjectId) (sender : ProcessId) (kind : AgentMessageKind) (body : String)
  (todoId : Option TodoId) (now : UInt64)

def enqueueEach : MailboxState → List ProcessId →
    MailboxState × Except MailboxCapacityError (List AgentMessageDelivery)
  | s, [] => (s, .ok [])
  | s, recipient :: rest =>
    match s.enqueue now project sender recipient kind body todoId with
    | (s', .error e) => (s', .error e)
    | (s', .ok delivery) =>
      match enqueueEach s' rest with
      | (s'', .error e) => (s'', .error e)
      | (s'', .ok deliveries) => (s'', .ok (delivery :: deliveries))

/-- Every ceiling leaves room for one message to each of the recipients. -/
structure Room (s : MailboxState) (rs : List ProcessId) : Prop where
  message : body.utf8ByteSize ≤ maxAgentMessageBytes
  recipient : ∀ r ∈ rs, (s.inbox r).length < maxPendingMessagesPerRecipient
  project : s.projectLen project + s.reservedIn project + rs.length ≤ maxPendingMessagesPerProject
  global : s.pendingCount + s.reservedCount + rs.length ≤ maxPendingAgentMessages
  bytes : s.pendingBytes + s.reservedBytes + body.utf8ByteSize * rs.length ≤
    maxPendingAgentMessageBytes

variable {s : MailboxState} {rs : List ProcessId}

theorem enqueueMany_of_room (h : Room project body s rs) :
    s.enqueueMany now project sender rs kind body todoId =
      ((admitAll project sender kind body todoId s now rs).1,
        .ok (admitAll project sender kind body todoId s now rs).2) := by
  have hinbox : ¬ rs.any (fun r => maxPendingMessagesPerRecipient ≤ (s.inbox r).length) = true := by
    intro hany
    obtain ⟨r, hr, hfull⟩ := any_eq_true.mp hany
    exact Nat.not_le_of_lt (h.recipient r hr) (of_decide_eq_true hfull)
  unfold enqueueMany
  simp only
  rw [if_neg (Nat.not_lt_of_le h.message), if_neg hinbox, if_neg (Nat.not_lt_of_le h.project),
    if_neg (Nat.not_lt_of_le h.global), if_neg (Nat.not_lt_of_le h.bytes)]
  rfl

theorem enqueueMany_of_not_room (h : ¬ Room project body s rs) :
    ∃ e, s.enqueueMany now project sender rs kind body todoId = (s, .error e) := by
  rcases enqueueMany_cases project sender kind body todoId s now rs with
    herror | ⟨hmessage, hrecipient, hproject, hglobal, hbytes, -⟩
  · exact herror
  · exact absurd ⟨hmessage, hrecipient, hproject, hglobal, hbytes⟩ h

variable {r : ProcessId}

theorem enqueue_of_room (h : Room project body s (r :: rs)) :
    s.enqueue now project sender r kind body todoId =
      ((s.insertMessage now project sender r kind body todoId).1,
        .ok (s.insertMessage now project sender r kind body todoId).2) := by
  have hrecipient := h.recipient r (.head _)
  have hproject := h.project
  have hglobal := h.global
  have hbytes := h.bytes
  rw [length_cons] at hproject hglobal hbytes
  rw [Nat.mul_add, Nat.mul_one] at hbytes
  unfold enqueue
  rw [if_neg (Nat.not_lt_of_le h.message), if_neg (Nat.not_le_of_lt hrecipient), if_neg (by omega),
    if_neg (by omega), if_neg (by omega)]

/-- Room for all is room for the first, and room for the rest once it is queued. -/
theorem room_cons (hr : r ∉ rs) (hone : Room project body s [r]) :
    Room project body s (r :: rs) ↔
      Room project body (s.insertMessage now project sender r kind body todoId).1 rs := by
  have hcount := Tally.count_add s.projectCounts project project 1
  rw [if_pos rfl] at hcount
  have hlen : (s.insertMessage now project sender r kind body todoId).1.projectLen project =
    s.projectLen project + 1 := hcount
  have hinbox : ∀ i ∈ rs, (s.insertMessage now project sender r kind body todoId).1.inbox i = s.inbox i := by
    intro i hi
    rw [inbox_insertMessage, if_neg fun h : i = r => hr (h ▸ hi)]
  have hpending : (s.insertMessage now project sender r kind body todoId).1.pendingCount =
    s.pendingCount + 1 := rfl
  have hbytes : (s.insertMessage now project sender r kind body todoId).1.pendingBytes =
    s.pendingBytes + body.utf8ByteSize := rfl
  have hreserved : (s.insertMessage now project sender r kind body todoId).1.reservedIn project =
    s.reservedIn project := rfl
  have hreservedCount : (s.insertMessage now project sender r kind body todoId).1.reservedCount =
    s.reservedCount := rfl
  have hreservedBytes : (s.insertMessage now project sender r kind body todoId).1.reservedBytes =
    s.reservedBytes := rfl
  constructor
  · intro h
    have h3 := h.project
    have h4 := h.global
    have h5 := h.bytes
    rw [length_cons] at h3 h4 h5
    rw [Nat.mul_add, Nat.mul_one] at h5
    exact ⟨h.message, fun i hi => by
        rw [hinbox i hi]
        exact h.recipient i (.tail _ hi),
      by omega, by omega, by omega⟩
  · intro h
    have h3 := h.project
    have h4 := h.global
    have h5 := h.bytes
    refine ⟨h.message, fun i hi => ?_, ?_, ?_, ?_⟩
    · rcases mem_cons.mp hi with rfl | hi
      · exact hone.recipient i (.head _)
      · rw [← hinbox i hi]
        exact h.recipient i hi
    · rw [length_cons]
      omega
    · rw [length_cons]
      omega
    · rw [length_cons, Nat.mul_add, Nat.mul_one]
      omega

/-- Queueing depends on the inboxes and the id counter alone. -/
theorem pushAll_congr (rs : List ProcessId) {t : MailboxState} (hinboxes : t.inboxes = s.inboxes)
    (hnext : t.nextMessage = s.nextMessage) :
    (pushAll project sender kind body todoId t rs).1.inboxes =
        (pushAll project sender kind body todoId s rs).1.inboxes ∧
      (pushAll project sender kind body todoId t rs).1.nextMessage =
        (pushAll project sender kind body todoId s rs).1.nextMessage ∧
      (pushAll project sender kind body todoId t rs).2 =
        (pushAll project sender kind body todoId s rs).2 := by
  induction rs generalizing s t with
  | nil => exact ⟨hinboxes, hnext, rfl⟩
  | cons r rest ih =>
    have hpush : (pushShared project sender kind body todoId t r).1.inboxes =
        (pushShared project sender kind body todoId s r).1.inboxes := by
      simp only [pushShared, hinboxes, hnext]
    have hnext' : (pushShared project sender kind body todoId t r).1.nextMessage =
        (pushShared project sender kind body todoId s r).1.nextMessage := by
      simp only [pushShared, hnext]
    have hdelivery : (pushShared project sender kind body todoId t r).2 =
        (pushShared project sender kind body todoId s r).2 := by
      simp only [pushShared, hnext]
    obtain ⟨h1, h2, h3⟩ := ih hpush hnext'
    refine ⟨h1, h2, ?_⟩
    simp only [pushAll, h3, hdelivery]

/-- A broadcast queues its first message and is then the broadcast to the rest. -/
theorem admitAll_cons (s : MailboxState) (r : ProcessId) (rs : List ProcessId) :
    admitAll project sender kind body todoId s now (r :: rs) =
      ((admitAll project sender kind body todoId
          (s.insertMessage now project sender r kind body todoId).1 now rs).1,
        (s.insertMessage now project sender r kind body todoId).2 ::
          (admitAll project sender kind body todoId
            (s.insertMessage now project sender r kind body todoId).1 now rs).2) := by
  obtain ⟨inboxes, next, hframe⟩ := pushAll_frame project sender kind body todoId rs
    (s.insertMessage now project sender r kind body todoId).1
  obtain ⟨inboxes', next', hframe'⟩ := pushAll_frame project sender kind body todoId rs
    (pushShared project sender kind body todoId s r).1
  obtain ⟨hinboxes, hnext, hdeliveries⟩ := pushAll_congr project sender kind body todoId rs
    (s := (pushShared project sender kind body todoId s r).1)
    (t := (s.insertMessage now project sender r kind body todoId).1) rfl rfl
  rw [hframe, hframe'] at hinboxes hnext
  have hmul : body.utf8ByteSize * (rs.length + 1) =
    body.utf8ByteSize + body.utf8ByteSize * rs.length := by rw [Nat.mul_add]; omega
  have hlen : rs.length + 1 = 1 + rs.length := Nat.add_comm _ _
  simp only at hinboxes hnext
  simp only [admitAll, pushAll, hframe, hframe', hdeliveries, hinboxes, hnext, length_cons,
    foldl_cons, Prod.mk.injEq]
  simp only [pushShared, insertMessage, Tally.add_add, hmul, ← hlen, ← Nat.add_assoc, and_true]
  rw [Nat.add_right_comm]

theorem Room.head (h : Room project body s (r :: rs)) : Room project body s [r] := by
  have h3 := h.project
  have h4 := h.global
  have h5 := h.bytes
  rw [length_cons] at h3 h4 h5
  rw [Nat.mul_add, Nat.mul_one] at h5
  refine ⟨h.message, fun i hi => ?_, ?_, ?_, ?_⟩
  · rw [mem_singleton.mp hi]
    exact h.recipient r (.head _)
  · rw [length_singleton]
    omega
  · rw [length_singleton]
    omega
  · rw [length_singleton, Nat.mul_one]
    omega

theorem enqueue_room_cases (s : MailboxState) (r : ProcessId) :
    (∃ e, s.enqueue now project sender r kind body todoId = (s, .error e)) ∨
    Room project body s [r] := by
  rcases s.enqueue_cases now project sender r kind body todoId with
    herror | ⟨hmessage, hrecipient, hproject, hglobal, hbytes, -⟩
  · exact .inl herror
  · refine .inr ⟨hmessage, fun i hi => ?_, hproject, hglobal, ?_⟩
    · rw [mem_singleton.mp hi]
      exact hrecipient
    · rw [length_singleton, Nat.mul_one]
      exact hbytes

theorem admitAll_nil_insertMessage (s : MailboxState) (r : ProcessId) :
    admitAll project sender kind body todoId (s.insertMessage now project sender r kind body todoId).1 now
      [] = ((s.insertMessage now project sender r kind body todoId).1, []) := by
  simp [admitAll, pushAll, insertMessage, Tally.add_add]

/-- In sequence, the sends all succeed exactly where there is room for all of them, and then they
leave what the broadcast leaves. -/
theorem enqueueEach_cons (hnodup : (r :: rs).Nodup) (s : MailboxState) :
    (Room project body s (r :: rs) →
      enqueueEach project sender kind body todoId now s (r :: rs) =
        ((admitAll project sender kind body todoId s now (r :: rs)).1,
          .ok (admitAll project sender kind body todoId s now (r :: rs)).2)) ∧
    (¬ Room project body s (r :: rs) →
      ∃ s' e, enqueueEach project sender kind body todoId now s (r :: rs) = (s', .error e)) := by
  induction rs generalizing r s with
  | nil =>
    constructor
    · intro h
      rw [enqueueEach, enqueue_of_room project sender kind body todoId now h, admitAll_cons,
        admitAll_nil_insertMessage]
      rfl
    · intro h
      rcases enqueue_room_cases project sender kind body todoId now s r with ⟨e, he⟩ | hone
      · exact ⟨s, e, by rw [enqueueEach, he]⟩
      · exact absurd hone h
  | cons i rest ih =>
    obtain ⟨hr, hrest⟩ := nodup_cons.mp hnodup
    obtain ⟨hok, herror⟩ := ih hrest (s.insertMessage now project sender r kind body todoId).1
    constructor
    · intro h
      have hroom := (room_cons project sender kind body todoId now hr (h.head project body)).mp h
      rw [enqueueEach, enqueue_of_room project sender kind body todoId now h]
      simp only
      rw [hok hroom, admitAll_cons project sender kind body todoId now s r (i :: rest)]
    · intro h
      rcases enqueue_room_cases project sender kind body todoId now s r with ⟨e, he⟩ | hone
      · exact ⟨s, e, by rw [enqueueEach, he]⟩
      · have hroom := mt (room_cons project sender kind body todoId now hr hone).mpr h
        obtain ⟨s', e, he⟩ := herror hroom
        refine ⟨s', e, ?_⟩
        rw [enqueueEach, enqueue_of_room project sender kind body todoId now hone]
        simp only
        rw [he]

/-- Two states with the same mailbox: a counter of zero reads as an absent one. -/
structure SameMailbox (s t : MailboxState) : Prop where
  rest : t = { s with projectCounts := t.projectCounts }
  counts : ∀ q, t.projectLen q = s.projectLen q

/-- The stored totals and the body fit, whoever the message is for. -/
def Fits (s : MailboxState) : Prop := Room project body s []

/-- A broadcast to distinct recipients succeeds exactly when sending to each in turn does and, where
there is no recipient, the body and the totals fit. It then leaves what the sends leave, and a
refusal leaves the state it found. -/
theorem enqueueMany_eq_enqueueEach {rs : List ProcessId} (hnodup : rs.Nodup) (s : MailboxState) :
    ((∃ s' ds, s.enqueueMany now project sender rs kind body todoId = (s', .ok ds)) ↔
      (∃ s' ds, enqueueEach project sender kind body todoId now s rs = (s', .ok ds)) ∧
        (rs = [] → Fits project body s)) ∧
    (∀ s' ds, s.enqueueMany now project sender rs kind body todoId = (s', .ok ds) →
      ∃ t, enqueueEach project sender kind body todoId now s rs = (t, .ok ds) ∧
        SameMailbox t s' ∧ (rs ≠ [] → s' = t)) ∧
    (∀ s' e, s.enqueueMany now project sender rs kind body todoId = (s', .error e) → s' = s) := by
  by_cases hroom : Room project body s rs
  · have hmany := enqueueMany_of_room project sender kind body todoId now hroom
    rw [hmany]
    cases rs with
    | nil =>
      have hempty : admitAll project sender kind body todoId s now [] =
          ({ s with projectCounts := s.projectCounts.add project 0 }, []) := by
        simp [admitAll, pushAll]
      rw [hempty]
      refine ⟨⟨fun _ => ⟨⟨s, [], rfl⟩, fun _ => hroom⟩, fun _ => ⟨_, _, rfl⟩⟩, ?_, ?_⟩
      · intro s' ds h
        cases h
        refine ⟨s, rfl, ⟨rfl, fun q => ?_⟩, fun h => absurd rfl h⟩
        have hcount := Tally.count_add s.projectCounts project q 0
        simp only [projectLen, hcount]
        split_ifs with hq
        · rw [hq]
          rfl
        · rfl
      · intro s' e h
        cases h
    | cons r rest =>
      have heach := (enqueueEach_cons project sender kind body todoId now hnodup s).1 hroom
      rw [heach]
      refine ⟨⟨fun _ => ⟨⟨_, _, rfl⟩, fun h => by cases h⟩, fun _ => ⟨_, _, rfl⟩⟩, ?_, ?_⟩
      · intro s' ds h
        cases h
        exact ⟨_, rfl, ⟨rfl, fun _ => rfl⟩, fun _ => rfl⟩
      · intro s' e h
        cases h
  · obtain ⟨e, hmany⟩ := enqueueMany_of_not_room project sender kind body todoId now hroom
    rw [hmany]
    refine ⟨⟨?_, ?_⟩, ?_, ?_⟩
    · rintro ⟨s', ds, h⟩
      cases h
    · rintro ⟨⟨s', ds, heach⟩, hfits⟩
      cases rs with
      | nil => exact absurd (hfits rfl) hroom
      | cons r rest =>
        obtain ⟨t, e', herror⟩ :=
          (enqueueEach_cons project sender kind body todoId now hnodup s).2 hroom
        rw [herror] at heach
        cases heach
    · intro s' ds h
      cases h
    · intro s' e' h
      cases h
      rfl

end Broadcast

/-- Three recipients in one project, one of whom holds a message already. -/
theorem enqueueMany_eq_enqueueEach_roster : ∃ s' t ds,
    ((empty.enqueue 0 1 1 2 .direct "hi" none).1).enqueueMany 5 1 1 [2, 3, 4] .direct "all" none =
        (s', .ok ds) ∧
      enqueueEach 1 1 .direct "all" none 5 (empty.enqueue 0 1 1 2 .direct "hi" none).1 [2, 3, 4] =
        (t, .ok ds) ∧ s' = t := by
  have h := @enqueueMany_eq_enqueueEach 1 1 .direct "all" none 5 [2, 3, 4] (by decide)
    (empty.enqueue 0 1 1 2 .direct "hi" none).1
  obtain ⟨t, heach, -, hsame⟩ := h.2.1 _ _ rfl
  exact ⟨_, t, _, rfl, heach, hsame (by decide)⟩

private theorem exists_utf8ByteSize (n : Nat) : ∃ text : String, text.utf8ByteSize = n := by
  induction n with
  | zero => exact ⟨"", rfl⟩
  | succ n ih =>
    obtain ⟨text, htext⟩ := ih
    refine ⟨text.push 'a', ?_⟩
    rw [String.utf8ByteSize_push, htext]
    rfl

/-- To nobody, an oversized body is refused, and no send of it would be. -/
theorem enqueueMany_nobody : ∃ body : String,
    empty.enqueueMany 0 1 1 [] .direct body none = (empty, .error .messageTooLarge) ∧
      enqueueEach 1 1 .direct body none 0 empty [] = (empty, .ok []) := by
  obtain ⟨body, hsize⟩ := exists_utf8ByteSize (maxAgentMessageBytes + 1)
  refine ⟨body, ?_, rfl⟩
  have hlarge : maxAgentMessageBytes < body.utf8ByteSize := by omega
  unfold enqueueMany
  rw [if_pos hlarge]

end Soloist.MailboxState
