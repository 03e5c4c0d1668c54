import Soloist.Mailbox.Effects

/-! The mailbox's redundant counters are what a recount of the inboxes and of the outstanding
reservations gives, and no ceiling is passed. -/
open List Option

namespace Soloist

inductive Measure
  | messages
  | bytes
  | ofProject (project : ProjectId)

namespace Measure

def weight : Measure → ProjectId → Nat → Nat
  | messages, _, _ => 1
  | bytes, _, size => size
  | ofProject p, project, _ => if project = p then 1 else 0

def cap : Measure → Nat
  | messages => maxPendingAgentMessages
  | bytes => maxPendingAgentMessageBytes
  | ofProject _ => maxPendingMessagesPerProject

def ofMessage (μ : Measure) (m : AgentMessage) : Nat := μ.weight m.project m.bytes

def ofPending (μ : Measure) (p : Pending) : Nat := μ.ofMessage p.message

def ofPrepared (μ : Measure) (f : Prepared) : Nat := μ.weight f.project f.prompt.utf8ByteSize

end Measure

namespace MailboxState

def stored (s : MailboxState) : Measure → Nat
  | .messages => s.pendingCount
  | .bytes => s.pendingBytes
  | .ofProject p => s.projectLen p

def reserved (s : MailboxState) : Measure → Nat
  | .messages => s.reservedCount
  | .bytes => s.reservedBytes
  | .ofProject p => s.reservedIn p

def recount (s : MailboxState) (μ : Measure) : Nat := s.inboxes.weigh μ.ofPending

section Admit
variable (s : MailboxState) (now : UInt64) (project : ProjectId) (sender recipient : ProcessId)
  (kind : AgentMessageKind) (body : String) (todoId : Option TodoId)

theorem stored_insertMessage (μ : Measure) :
    (s.insertMessage now project sender recipient kind body todoId).1.stored μ =
      s.stored μ + μ.weight project body.utf8ByteSize := by
  cases μ with
  | messages => rfl
  | bytes => rfl
  | ofProject p =>
    have hcount := Tally.count_add s.projectCounts project p 1
    simp only [stored, projectLen, insertMessage, Measure.weight, hcount]
    by_cases hp : p = project
    · simp [hp]
    · simp [hp, Ne.symm hp]

theorem recount_insertMessage (μ : Measure) :
    (s.insertMessage now project sender recipient kind body todoId).1.recount μ =
      s.recount μ + μ.weight project body.utf8ByteSize := by
  have hpush := Queues.weigh_push μ.ofPending s.inboxes recipient
    ⟨⟨s.nextMessage, project, sender, recipient, kind, body, todoId⟩, .queued⟩
  simpa only [recount, insertMessage, Measure.ofPending, Measure.ofMessage, AgentMessage.bytes] using hpush

end Admit

section AdmitAll
variable (project : ProjectId) (sender : ProcessId) (kind : AgentMessageKind) (body : String)
  (todoId : Option TodoId)

theorem recount_pushAll (μ : Measure) (rs : List ProcessId) (s : MailboxState) :
    (pushAll project sender kind body todoId s rs).1.recount μ =
      s.recount μ + μ.weight project body.utf8ByteSize * rs.length := by
  induction rs generalizing s with
  | nil => simp [pushAll]
  | cons r rest ih =>
    have hpush : (pushShared project sender kind body todoId s r).1.recount μ =
        s.recount μ + μ.weight project body.utf8ByteSize := by
      have h := Queues.weigh_push μ.ofPending s.inboxes r
        ⟨⟨s.nextMessage, project, sender, r, kind, body, todoId⟩, .queued⟩
      simpa only [recount, pushShared, Measure.ofPending, Measure.ofMessage,
        AgentMessage.bytes] using h
    have hrest := ih (pushShared project sender kind body todoId s r).1
    simp only [pushAll, hrest, hpush, length_cons, Nat.mul_add]
    omega

theorem recount_admitAll (μ : Measure) (s : MailboxState) (now : UInt64) (rs : List ProcessId) :
    (admitAll project sender kind body todoId s now rs).1.recount μ =
      s.recount μ + μ.weight project body.utf8ByteSize * rs.length :=
  recount_pushAll project sender kind body todoId μ rs s

theorem stored_admitAll (μ : Measure) (s : MailboxState) (now : UInt64) (rs : List ProcessId) :
    (admitAll project sender kind body todoId s now rs).1.stored μ =
      s.stored μ + μ.weight project body.utf8ByteSize * rs.length := by
  obtain ⟨inboxes, next, h⟩ := pushAll_frame project sender kind body todoId rs s
  cases μ with
  | messages => simp [admitAll, stored, h, Measure.weight]
  | bytes => simp [admitAll, stored, h, Measure.weight]
  | ofProject p =>
    have hcount := Tally.count_add s.projectCounts project p rs.length
    simp only [stored, projectLen, admitAll, h, Measure.weight, hcount]
    by_cases hp : p = project
    · simp [hp]
    · simp [hp, Ne.symm hp]

theorem reserved_admitAll (μ : Measure) (s : MailboxState) (now : UInt64) (rs : List ProcessId) :
    (admitAll project sender kind body todoId s now rs).1.reserved μ = s.reserved μ := by
  obtain ⟨inboxes, next, h⟩ := pushAll_frame project sender kind body todoId rs s
  cases μ <;> simp [admitAll, reserved, reservedIn, h]

end AdmitAll

theorem reserved_insertMessage (s : MailboxState) (now : UInt64) (project : ProjectId)
    (sender recipient : ProcessId) (kind : AgentMessageKind) (body : String)
    (todoId : Option TodoId) (μ : Measure) :
    (s.insertMessage now project sender recipient kind body todoId).1.reserved μ = s.reserved μ := by
  cases μ <;> rfl

theorem reserved_cancel (s : MailboxState) (f : Prepared) (μ : Measure) :
    (s.cancelProjectReservation f.project f.prompt.utf8ByteSize).reserved μ =
      s.reserved μ - μ.ofPrepared f := by
  cases μ with
  | messages => rfl
  | bytes => rfl
  | ofProject p =>
    have hcount := Tally.count_dropOne s.projectReservations f.project p
    simp only [reserved, reservedIn, cancelProjectReservation, hcount, Measure.ofPrepared,
      Measure.weight]
    by_cases hp : p = f.project
    · simp [hp]
    · simp [hp, Ne.symm hp]

theorem stored_cancel (s : MailboxState) (project : ProjectId) (size : Nat) (μ : Measure) :
    (s.cancelProjectReservation project size).stored μ = s.stored μ := by
  cases μ <;> rfl

theorem stored_decrementPending (s : MailboxState) (m : AgentMessage) (μ : Measure) :
    (s.decrementPending m).stored μ = s.stored μ - μ.ofMessage m := by
  cases μ with
  | messages => rfl
  | bytes => rfl
  | ofProject p =>
    have hcount := Tally.count_dropOne s.projectCounts m.project p
    simp only [stored, projectLen, decrementPending, hcount, Measure.ofMessage, Measure.weight]
    by_cases hp : p = m.project
    · simp [hp]
    · simp [hp, Ne.symm hp]

theorem stored_foldl_decrementPending (l : List Pending) (s : MailboxState) (μ : Measure) :
    (l.foldl (fun s p => s.decrementPending p.message) s).stored μ =
      s.stored μ - (l.map μ.ofPending).sum := by
  induction l generalizing s with
  | nil => simp
  | cons p rest ih =>
    have h := ih (s.decrementPending p.message)
    rw [stored_decrementPending] at h
    simp only [foldl_cons, map_cons, sum_cons, h, Measure.ofPending]
    omega

theorem acknowledge_counts {s : MailboxState} {recipient : ProcessId} {id : AgentMessageId}
    {p : Pending} (h : s.find recipient id = some p) (now : UInt64) (μ : Measure) :
    (s.acknowledge now recipient id).1.stored μ = s.stored μ - μ.ofPending p ∧
      (s.acknowledge now recipient id).1.reserved μ = s.reserved μ ∧
      (s.acknowledge now recipient id).1.inboxes =
        s.inboxes.keep recipient ((s.inbox recipient).eraseP fun q => q.message.id = id) := by
  have hstored := stored_decrementPending s p.message μ
  simp only [acknowledge, h, keepTaskReceipt, endWake, armIfWaiting]
  split_ifs <;> exact ⟨by cases μ <;> exact hstored, by cases μ <;> rfl, rfl⟩

theorem removeProcess_counts (s : MailboxState) (process : ProcessId) (μ : Measure) :
    (s.removeProcess process).stored μ =
        s.stored μ - ((s.inbox process).map μ.ofPending).sum ∧
      (s.removeProcess process).reserved μ = s.reserved μ ∧
      (s.removeProcess process).inboxes = AList.erase process s.inboxes := by
  have hstored := stored_foldl_decrementPending (s.inbox process)
    { s with inboxes := AList.erase process s.inboxes } μ
  obtain ⟨count, bytes, counts, hframe⟩ := s.removeProcess_frame process
  constructor
  · cases μ <;> exact hstored
  · rw [hframe]
    exact ⟨by cases μ <;> rfl, rfl⟩

end MailboxState

namespace Mailroom

def recountReserved (m : Mailroom) (μ : Measure) : Nat :=
  Dict.total (fun _ f => μ.ofPrepared f) m.prepared

/-- Every counter agrees with its recount, and every ceiling holds, reservations included. -/
structure Balanced (m : Mailroom) : Prop where
  pending : ∀ μ, m.state.stored μ = m.state.recount μ
  reserved : ∀ μ, m.state.reserved μ = m.recountReserved μ
  within : ∀ μ, m.state.stored μ + m.state.reserved μ ≤ μ.cap
  inbox : ∀ r, (m.state.inbox r).length ≤ maxPendingMessagesPerRecipient
  message : ∀ r, ∀ p ∈ m.state.inbox r, p.message.bytes ≤ maxAgentMessageBytes
  prompt : ∀ call f, AList.lookup call m.prepared = some f →
    f.prompt.utf8ByteSize ≤ maxAgentMessageBytes

theorem balanced_empty : empty.Balanced where
  pending μ := by cases μ <;> rfl
  reserved μ := by cases μ <;> rfl
  within μ := by cases μ <;> simp [empty, MailboxState.empty, MailboxState.stored,
    MailboxState.reserved, MailboxState.projectLen, MailboxState.reservedIn]
  inbox r := by simp [empty, MailboxState.empty, MailboxState.inbox]
  message r := by simp [empty, MailboxState.empty, MailboxState.inbox]
  prompt call f h := by simp [empty] at h

variable {m : Mailroom}

theorem Balanced.congr {n : Mailroom} (hm : m.Balanced)
    (hstored : ∀ μ, n.state.stored μ = m.state.stored μ)
    (hreserved : ∀ μ, n.state.reserved μ = m.state.reserved μ)
    (hinboxes : n.state.inboxes = m.state.inboxes) (hprepared : n.prepared = m.prepared) :
    n.Balanced := by
  have hinbox : ∀ r, n.state.inbox r = m.state.inbox r := fun r =>
    congrArg (fun d : Queues ProcessId Pending => d.queue r) hinboxes
  constructor
  · intro μ
    rw [hstored, hm.pending, MailboxState.recount, MailboxState.recount, hinboxes]
  · intro μ
    rw [hreserved, hm.reserved, recountReserved, recountReserved, hprepared]
  · intro μ
    rw [hstored, hreserved]
    exact hm.within μ
  · intro r
    rw [hinbox]
    exact hm.inbox r
  · intro r
    rw [hinbox]
    exact hm.message r
  · rw [hprepared]
    exact hm.prompt

variable {project : ProjectId} {body : String}

theorem Balanced.insertMessage (hm : m.Balanced) (now : UInt64)
    (sender : ProcessId) {recipient : ProcessId} (kind : AgentMessageKind)
    (todoId : Option TodoId) (hsize : body.utf8ByteSize ≤ maxAgentMessageBytes)
    (hinbox : (m.state.inbox recipient).length < maxPendingMessagesPerRecipient)
    (hroom : ∀ μ, m.state.stored μ + m.state.reserved μ + μ.weight project body.utf8ByteSize ≤
      μ.cap) :
    Balanced { m with
      state := (m.state.insertMessage now project sender recipient kind body todoId).1 } := by
  have hbox := m.state.inbox_insertMessage now project sender recipient kind body todoId
  constructor
  · intro μ
    have h := hm.pending μ
    rw [MailboxState.stored_insertMessage, MailboxState.recount_insertMessage]
    omega
  · intro μ
    rw [MailboxState.reserved_insertMessage]
    exact hm.reserved μ
  · intro μ
    have h := hroom μ
    rw [MailboxState.stored_insertMessage, MailboxState.reserved_insertMessage]
    omega
  · intro r
    have h := hm.inbox r
    rw [hbox]
    split_ifs
    · rw [List.length_append, length_singleton]
      omega
    · exact h
  · intro r p hp
    rw [hbox] at hp
    split_ifs at hp with hr
    · rcases mem_append.mp hp with hp | hp
      · exact hm.message recipient p hp
      · rw [mem_singleton.mp hp]
        exact hsize
    · exact hm.message r p hp
  · exact hm.prompt

variable {rs : List ProcessId}

theorem Balanced.admitAll (hm : m.Balanced) (now : UInt64)
    (sender : ProcessId) (hrs : rs.Nodup) (kind : AgentMessageKind)
    (todoId : Option TodoId) (hsize : body.utf8ByteSize ≤ maxAgentMessageBytes)
    (hinbox : ∀ r ∈ rs, (m.state.inbox r).length < maxPendingMessagesPerRecipient)
    (hroom : ∀ μ, m.state.stored μ + m.state.reserved μ +
      μ.weight project body.utf8ByteSize * rs.length ≤ μ.cap) :
    Balanced { m with
      state := (MailboxState.admitAll project sender kind body todoId m.state now rs).1 } := by
  constructor
  · intro μ
    have h := hm.pending μ
    rw [MailboxState.stored_admitAll, MailboxState.recount_admitAll]
    omega
  · intro μ
    rw [MailboxState.reserved_admitAll]
    exact hm.reserved μ
  · intro μ
    have h := hroom μ
    rw [MailboxState.stored_admitAll, MailboxState.reserved_admitAll]
    omega
  · intro r
    have h := hm.inbox r
    by_cases hr : r ∈ rs
    · obtain ⟨id, -, -, hbox⟩ :=
        MailboxState.inbox_pushAll project sender kind body todoId hrs hr m.state
      have hlt := hinbox r hr
      have hlen := congrArg List.length hbox
      rw [List.length_append, length_singleton] at hlen
      exact hlen.trans_le hlt
    · exact (MailboxState.inbox_pushAll_of_notMem project sender kind body todoId hr m.state) ▸ h
  · intro r p hp
    by_cases hr : r ∈ rs
    · obtain ⟨id, -, -, hbox⟩ :=
        MailboxState.inbox_pushAll project sender kind body todoId hrs hr m.state
      have hp' := hbox ▸ hp
      rcases mem_append.mp hp' with hp | hp
      · exact hm.message r p hp
      · rw [mem_singleton.mp hp]
        exact hsize
    · have hbox := MailboxState.inbox_pushAll_of_notMem project sender kind body todoId hr m.state
      exact hm.message r p (hbox ▸ hp)
  · exact hm.prompt

theorem Balanced.enqueue (hm : m.Balanced) (now : UInt64) (project : ProjectId)
    (sender recipient : ProcessId) (kind : AgentMessageKind) (body : String)
    (todoId : Option TodoId) :
    Balanced { m with
      state := (m.state.enqueue now project sender recipient kind body todoId).1 } := by
  rcases m.state.enqueue_cases now project sender recipient kind body todoId with
    ⟨e, h⟩ | ⟨hsize, hinbox, hproject, hglobal, hbytes, h⟩
  · rw [h]
    exact hm
  · rw [h]
    refine hm.insertMessage now sender kind todoId hsize hinbox fun μ => ?_
    cases μ with
    | messages => exact hglobal
    | bytes => exact hbytes
    | ofProject p =>
      have hp := hm.within (.ofProject p)
      simp only [Measure.weight]
      split_ifs with heq
      · subst heq
        exact hproject
      · exact hp

theorem Balanced.enqueueMany (hm : m.Balanced) (now : UInt64) (project : ProjectId)
    (sender : ProcessId) (hrs : rs.Nodup) (kind : AgentMessageKind) (body : String)
    (todoId : Option TodoId) :
    Balanced { m with
      state := (m.state.enqueueMany now project sender rs kind body todoId).1 } := by
  rcases MailboxState.enqueueMany_cases project sender kind body todoId m.state now rs with
    ⟨e, h⟩ | ⟨hsize, hinbox, hproject, hglobal, hbytes, h⟩
  · rw [h]
    exact hm
  · rw [h]
    refine hm.admitAll now sender hrs kind todoId hsize hinbox fun μ => ?_
    cases μ with
    | messages =>
      simp only [Measure.weight, Nat.one_mul]
      exact hglobal
    | bytes => exact hbytes
    | ofProject p =>
      have hp := hm.within (.ofProject p)
      simp only [Measure.weight]
      split_ifs with heq
      · subst heq
        rw [Nat.one_mul]
        exact hproject
      · rw [Nat.zero_mul]
        exact hp

variable {call : Nat} {f : Prepared}

variable (hm : m.Balanced)
include hm

theorem Balanced.reserve
    (hcall : AList.lookup call m.prepared = none)
    (hsize : f.prompt.utf8ByteSize ≤ maxAgentMessageBytes)
    (hproject : m.state.projectLen f.project + m.state.reservedIn f.project <
      maxPendingMessagesPerProject)
    (hglobal : m.state.pendingCount + m.state.reservedCount < maxPendingAgentMessages)
    (hbytes : m.state.pendingBytes + m.state.reservedBytes + f.prompt.utf8ByteSize ≤
      maxPendingAgentMessageBytes) :
    Balanced
      { state := { m.state with
          projectReservations := m.state.projectReservations.add f.project 1
          reservedCount := m.state.reservedCount + 1
          reservedBytes := m.state.reservedBytes + f.prompt.utf8ByteSize }
        prepared := AList.insert call f m.prepared
        submissions := m.submissions } := by
  have hcount := Tally.count_add m.state.projectReservations f.project
  constructor
  · intro μ
    have h := hm.pending μ
    cases μ <;> exact h
  · intro μ
    have h := hm.reserved μ
    have htotal := Dict.total_insert (fun _ f => μ.ofPrepared f) m.prepared call f
    rw [hcall, elim_none, Nat.add_zero] at htotal
    rw [recountReserved, htotal]
    rw [recountReserved] at h
    rw [← h]
    cases μ with
    | messages => rfl
    | bytes => rfl
    | ofProject p =>
      simp only [MailboxState.reserved, MailboxState.reservedIn, hcount, Measure.ofPrepared,
        Measure.weight]
      by_cases hp : p = f.project
      · simp [hp]
      · simp [hp, Ne.symm hp]
  · intro μ
    have h := hm.within μ
    cases μ with
    | messages => exact hglobal
    | bytes =>
      simp only [MailboxState.stored, MailboxState.reserved, Measure.cap]
      omega
    | ofProject p =>
      simp only [MailboxState.stored, MailboxState.reserved, MailboxState.reservedIn, hcount,
        Measure.cap] at h ⊢
      split_ifs with hp
      · subst hp
        exact hproject
      · exact h
  · exact hm.inbox
  · exact hm.message
  · intro i g hg
    rw [Dict.lookup_insert] at hg
    split_ifs at hg with hi
    · cases hg
      exact hsize
    · exact hm.prompt i g hg

theorem Balanced.prepared_le (hf : AList.lookup call m.prepared = some f)
    (μ : Measure) : μ.ofPrepared f ≤ m.state.reserved μ := by
  rw [hm.reserved]
  exact Dict.le_total (fun _ f => μ.ofPrepared f) hf

theorem Balanced.cancel (hf : AList.lookup call m.prepared = some f) :
    Balanced { m with
      state := m.state.cancelProjectReservation f.project f.prompt.utf8ByteSize
      prepared := AList.erase call m.prepared } := by
  constructor
  · intro μ
    rw [MailboxState.stored_cancel]
    exact hm.pending μ
  · intro μ
    have h := hm.reserved μ
    have htotal := Dict.total_erase (fun _ f => μ.ofPrepared f) m.prepared call
    rw [hf, elim_some] at htotal
    rw [MailboxState.reserved_cancel, h]
    exact Nat.sub_eq_of_eq_add htotal.symm
  · intro μ
    have h := hm.within μ
    rw [MailboxState.stored_cancel, MailboxState.reserved_cancel]
    omega
  · exact hm.inbox
  · exact hm.message
  · intro i g hg
    rw [Dict.lookup_erase] at hg
    split_ifs at hg
    exact hm.prompt i g hg

theorem Balanced.enqueueReserved (now : UInt64)
    (hf : AList.lookup call m.prepared = some f) (recipient : ProcessId) :
    Balanced { m with
      state := (m.state.enqueueReserved now f.project f.sender recipient .task f.prompt
        f.todoId).1
      prepared := AList.erase call m.prepared } := by
  have hcancel := hm.cancel hf
  rcases m.state.enqueueReserved_cases now f.project f.sender recipient .task f.prompt f.todoId with
    ⟨e, h⟩ | ⟨hinbox, h⟩
  · rw [h]
    exact hcancel
  · rw [h]
    refine hcancel.insertMessage now f.sender .task f.todoId (hm.prompt call f hf) hinbox fun μ => ?_
    have hle := hm.prepared_le hf μ
    have hwithin := hm.within μ
    rw [MailboxState.stored_cancel, MailboxState.reserved_cancel]
    rw [Measure.ofPrepared] at hle ⊢
    omega

theorem Balanced.inbox_le (r : ProcessId) (μ : Measure) :
    ((m.state.inbox r).map μ.ofPending).sum ≤ m.state.stored μ := by
  rw [hm.pending]
  exact Queues.queue_le_weigh μ.ofPending m.state.inboxes r

theorem Balanced.pending_le {r : ProcessId} {p : Pending}
    (hp : p ∈ m.state.inbox r) (μ : Measure) : μ.ofPending p ≤ m.state.stored μ := by
  rw [hm.pending]
  exact Queues.le_weigh μ.ofPending hp

/-- Where an inbox loses messages, the counters lose exactly their share. -/
theorem Balanced.shrink {t : MailboxState} (r : ProcessId) (rest : List Pending)
    (taken : Measure → Nat) (hstored : ∀ μ, t.stored μ = m.state.stored μ - taken μ)
    (hreserved : ∀ μ, t.reserved μ = m.state.reserved μ)
    (hinbox : ∀ i, t.inbox i = if i = r then rest else m.state.inbox i)
    (hrest : List.Sublist rest (m.state.inbox r))
    (hrecount : ∀ μ, t.recount μ + taken μ = m.state.recount μ) :
    Balanced { m with state := t } := by
  constructor
  · intro μ
    have h := hm.pending μ
    have hcount := hrecount μ
    rw [hstored]
    simp only
    omega
  · intro μ
    rw [hreserved]
    exact hm.reserved μ
  · intro μ
    have h := hm.within μ
    rw [hstored, hreserved]
    omega
  · intro i
    rw [hinbox]
    split_ifs
    · exact hrest.length_le.trans (hm.inbox r)
    · exact hm.inbox i
  · intro i p hp
    rw [hinbox] at hp
    split_ifs at hp
    · exact hm.message r p (hrest.subset hp)
    · exact hm.message i p hp
  · exact hm.prompt

theorem Balanced.acknowledge (now : UInt64) (r : ProcessId)
    (id : AgentMessageId) : Balanced { m with state := (m.state.acknowledge now r id).1 } := by
  cases hfind : m.state.find r id with
  | none =>
    rw [MailboxState.acknowledge_of_find_none hfind]
    exact hm
  | some p =>
    have hcounts := MailboxState.acknowledge_counts hfind now
    have hboxes := (hcounts .messages).2.2
    refine hm.shrink r ((m.state.inbox r).eraseP fun q => q.message.id = id)
      (fun μ => μ.ofPending p) (fun μ => (hcounts μ).1) (fun μ => (hcounts μ).2.1) (fun i => ?_) eraseP_sublist fun μ => ?_
    · rw [MailboxState.inbox, hboxes]
      exact Queues.queue_keep _ _ _ _
    · have hkeep := Queues.weigh_keep μ.ofPending m.state.inboxes r
        ((m.state.inbox r).eraseP fun q => q.message.id = id)
      have hsum := Queues.sum_eraseP μ.ofPending hfind
      rw [MailboxState.recount, hboxes, MailboxState.recount]
      rw [MailboxState.inbox] at hsum hkeep ⊢
      omega

theorem Balanced.removeProcess (process : ProcessId) :
    Balanced { m with state := m.state.removeProcess process } := by
  have hcounts := m.state.removeProcess_counts process
  have hboxes := (hcounts .messages).2.2
  refine hm.shrink process [] (fun μ => ((m.state.inbox process).map μ.ofPending).sum)
    (fun μ => (hcounts μ).1) (fun μ => (hcounts μ).2.1) (fun i => ?_) (nil_sublist _)
    fun μ => ?_
  · rw [MailboxState.inbox, hboxes]
    exact Queues.queue_erase _ _ _
  · rw [MailboxState.recount, hboxes]
    exact Queues.weigh_erase μ.ofPending m.state.inboxes process

/-- Carrying messages changes their outcome and nothing that is counted. -/
theorem Balanced.mark (r : ProcessId) (claimed : List AgentMessageId)
    (submissions : Slots Waker Submission) :
    Balanced { m with
      state := (m.state.markWakeSubmitted r claimed).1
      submissions := submissions } := by
  obtain ⟨tr, h⟩ := m.state.markWakeSubmitted_frame r claimed
  have hmessage : ∀ p, (MailboxState.submitClaimed claimed p).message = p.message := by
    intro p
    unfold MailboxState.submitClaimed
    split_ifs <;> rfl
  have hsame : ∀ w : AgentMessage → Nat,
      ((m.state.inbox r).map (MailboxState.submitClaimed claimed)).map (fun p => w p.message) =
        (m.state.inbox r).map fun p => w p.message := by
    intro w
    rw [List.map_map]
    exact map_congr_left fun p _ => congrArg w (hmessage p)
  rw [h]
  constructor
  · intro μ
    have hkeep := Queues.weigh_keep μ.ofPending m.state.inboxes r
      ((m.state.inbox r).map (MailboxState.submitClaimed claimed))
    have hsum : (((m.state.inbox r).map (MailboxState.submitClaimed claimed)).map
        μ.ofPending).sum = ((m.state.inbox r).map μ.ofPending).sum :=
      congrArg List.sum (hsame μ.ofMessage)
    have hpending := hm.pending μ
    have hrecount : (m.state.inboxes.keep r
        ((m.state.inbox r).map (MailboxState.submitClaimed claimed))).weigh μ.ofPending =
        m.state.recount μ := by
      rw [MailboxState.recount]
      rw [MailboxState.inbox] at hkeep hsum ⊢
      omega
    cases μ <;> exact hpending.trans hrecount.symm
  · intro μ
    have h := hm.reserved μ
    cases μ <;> exact h
  · intro μ
    have h := hm.within μ
    cases μ <;> exact h
  · intro i
    simp only [MailboxState.inbox, Queues.queue_keep]
    split_ifs
    · rw [length_map]
      exact hm.inbox r
    · exact hm.inbox i
  · intro i p hp
    simp only [MailboxState.inbox, Queues.queue_keep] at hp
    split_ifs at hp
    · obtain ⟨q, hq, hqp⟩ := List.mem_map.mp hp
      rw [← hqp, hmessage]
      exact hm.message r q hq
    · exact hm.message i p hp
  · exact hm.prompt

theorem Balanced.step {m' : Mailroom} {op : MailboxOp} (h : m.step op = some m') :
    m'.Balanced := by
  cases op with
  | enqueue now project sender recipient kind body todoId =>
    cases h
    exact hm.enqueue now project sender recipient kind body todoId
  | enqueueMany now project sender recipients kind body todoId =>
    simp only [Mailroom.step] at h
    split_ifs at h with hnodup
    cases h
    exact hm.enqueueMany now project sender hnodup kind body todoId
  | reserve call first =>
    simp only [Mailroom.step] at h
    split_ifs at h with hfree
    obtain ⟨hcall, hsize⟩ := not_or.mp hfree
    rcases m.state.reserveProjectSlot_cases first.project first.prompt.utf8ByteSize with
      ⟨e, he⟩ | ⟨hproject, hglobal, hbytes, he⟩
    · rw [he] at h
      cases h
      exact hm
    · rw [he] at h
      cases h
      exact hm.reserve (by simpa using hcall) (Nat.le_of_not_lt hsize) hproject hglobal hbytes
  | cancel call =>
    obtain ⟨first, hfirst, rfl⟩ := map_eq_some_iff.mp h
    exact hm.cancel hfirst
  | enqueueReserved now call recipient =>
    obtain ⟨first, hfirst, rfl⟩ := map_eq_some_iff.mp h
    exact hm.enqueueReserved now hfirst recipient
  | queueOnboarding now process guide =>
    cases h
    exact hm.congr (fun μ => by cases μ <;> rfl) (fun μ => by cases μ <;> rfl) rfl rfl
  | claim waker recipient =>
    simp only [Mailroom.step, MailboxState.claimWakeEnvelope] at h
    split_ifs at h
    · cases h
      exact hm
    · cases h
      exact hm
    · cases h
      exact hm.congr (fun μ => by cases μ <;> rfl) (fun μ => by cases μ <;> rfl) rfl rfl
  | mark waker =>
    obtain ⟨sub, -, rfl⟩ := map_eq_some_iff.mp h
    exact hm.mark sub.recipient sub.claim.claimed _
  | release waker =>
    obtain ⟨sub, -, rfl⟩ := map_eq_some_iff.mp h
    exact hm.congr (fun μ => by cases μ <;> rfl) (fun μ => by cases μ <;> rfl) rfl rfl
  | wakeFailed recipient =>
    cases h
    unfold MailboxState.recordWakeFailure
    split
    · exact hm
    · exact hm.congr (fun μ => by cases μ <;> rfl) (fun μ => by cases μ <;> rfl) rfl rfl
  | observeNonIdle now recipient =>
    cases h
    simp only [MailboxState.observeNonIdle, MailboxState.endWake, MailboxState.armIfWaiting]
    split_ifs
    · exact hm.congr (fun μ => by cases μ <;> rfl) (fun μ => by cases μ <;> rfl) rfl rfl
    · exact hm.congr (fun μ => by cases μ <;> rfl) (fun μ => by cases μ <;> rfl) rfl rfl
    · exact hm
  | acknowledge now recipient id =>
    cases h
    exact hm.acknowledge now recipient id
  | removeProcess process =>
    cases h
    exact hm.removeProcess process
  | forgetProject project =>
    obtain ⟨tr, n, hframe⟩ := m.state.forgetProject_frame project
    cases h
    rw [hframe]
    exact hm.congr (fun μ => by cases μ <;> rfl) (fun μ => by cases μ <;> rfl) rfl rfl
  | record now delivery =>
    obtain ⟨tr, n, hframe⟩ := m.state.record_frame now delivery
    cases h
    rw [hframe]
    exact hm.congr (fun μ => by cases μ <;> rfl) (fun μ => by cases μ <;> rfl) rfl rfl
  | recordOutcome project id outcome =>
    obtain ⟨tr, n, hframe⟩ := m.state.recordOutcome_frame project id outcome
    cases h
    rw [hframe]
    exact hm.congr (fun μ => by cases μ <;> rfl) (fun μ => by cases μ <;> rfl) rfl rfl
  | recordCompletionNotice reporter taskMessage notice =>
    cases h
    exact hm.congr (fun μ => by cases μ <;> rfl) (fun μ => by cases μ <;> rfl) rfl rfl

omit hm

def pendingMessages (m : Mailroom) : List AgentMessage := m.state.inboxes.contents.map (·.message)

/-- The first messages whose places are reserved. -/
def outstanding (m : Mailroom) : List Prepared := m.prepared.values

/-- The stored counters are the recounted ones, and no ceiling is passed. -/
structure Accounted (m : Mailroom) : Prop where
  pendingCount : m.state.pendingCount = m.pendingMessages.length
  pendingBytes : m.state.pendingBytes = (m.pendingMessages.map AgentMessage.bytes).sum
  projectLen : ∀ q, m.state.projectLen q = m.pendingMessages.countP (·.project = q)
  reservedCount : m.state.reservedCount = m.outstanding.length
  reservedBytes : m.state.reservedBytes = (m.outstanding.map (·.prompt.utf8ByteSize)).sum
  reservedIn : ∀ q, m.state.reservedIn q = m.outstanding.countP (·.project = q)
  recipientCap : ∀ r, (m.state.inbox r).length ≤ maxPendingMessagesPerRecipient
  projectCap : ∀ q, m.state.projectLen q + m.state.reservedIn q ≤ maxPendingMessagesPerProject
  globalCap : m.state.pendingCount + m.state.reservedCount ≤ maxPendingAgentMessages
  byteCap : m.state.pendingBytes + m.state.reservedBytes ≤ maxPendingAgentMessageBytes
  messageCap : ∀ msg ∈ m.pendingMessages, msg.bytes ≤ maxAgentMessageBytes

theorem recount_eq (m : Mailroom) (μ : Measure) :
    m.state.recount μ = (m.pendingMessages.map μ.ofMessage).sum := by
  rw [MailboxState.recount, Queues.weigh_eq_contents, pendingMessages, List.map_map]
  rfl

theorem recountReserved_eq (m : Mailroom) (μ : Measure) :
    m.recountReserved μ = (m.outstanding.map μ.ofPrepared).sum :=
  Dict.total_eq_values μ.ofPrepared m.prepared

theorem Balanced.accounted (hm : m.Balanced) : m.Accounted := by
  have hpending : ∀ μ, m.state.stored μ = (m.pendingMessages.map μ.ofMessage).sum := fun μ =>
    (hm.pending μ).trans (m.recount_eq μ)
  have hreserved : ∀ μ, m.state.reserved μ = (m.outstanding.map μ.ofPrepared).sum := fun μ =>
    (hm.reserved μ).trans (m.recountReserved_eq μ)
  constructor
  · have h : m.state.pendingCount = (m.pendingMessages.map fun _ => 1).sum := hpending .messages
    simpa using h
  · exact hpending .bytes
  · intro q
    have h := hpending (.ofProject q)
    have hcount := Queues.sum_indicator (fun msg : AgentMessage => decide (msg.project = q))
      m.pendingMessages
    simp only [decide_eq_true_eq] at hcount
    exact h.trans hcount
  · have h : m.state.reservedCount = (m.outstanding.map fun _ => 1).sum := hreserved .messages
    simpa using h
  · exact hreserved .bytes
  · intro q
    have h := hreserved (.ofProject q)
    have hcount := Queues.sum_indicator (fun f : Prepared => decide (f.project = q)) m.outstanding
    simp only [decide_eq_true_eq] at hcount
    exact h.trans hcount
  · exact hm.inbox
  · exact fun q => hm.within (.ofProject q)
  · exact hm.within .messages
  · exact hm.within .bytes
  · intro msg hmsg
    obtain ⟨p, hp, hpm⟩ := List.mem_map.mp hmsg
    obtain ⟨r, hr⟩ := Queues.mem_contents.mp hp
    rw [← hpm]
    exact hm.message r p hr

/-- What an operation takes off a counter is there to be taken. -/
def Covered (m : Mailroom) : MailboxOp → Prop
  | .cancel call | .enqueueReserved _ call _ => ∀ first, AList.lookup call m.prepared = some first →
      1 ≤ m.state.reservedIn first.project ∧ 1 ≤ m.state.reservedCount ∧
        first.prompt.utf8ByteSize ≤ m.state.reservedBytes
  | .acknowledge _ r id => ∀ p, m.state.find r id = some p →
      1 ≤ m.state.pendingCount ∧ p.message.bytes ≤ m.state.pendingBytes ∧
        1 ≤ m.state.projectLen p.message.project
  | .removeProcess r =>
      (m.state.inbox r).length ≤ m.state.pendingCount ∧
        ((m.state.inbox r).map (·.message.bytes)).sum ≤ m.state.pendingBytes ∧
        ∀ q, (m.state.inbox r).countP (·.message.project = q) ≤ m.state.projectLen q
  | _ => True

theorem Balanced.covered_reserved (hm : m.Balanced) (hf : AList.lookup call m.prepared = some f) :
    1 ≤ m.state.reservedIn f.project ∧ 1 ≤ m.state.reservedCount ∧
      f.prompt.utf8ByteSize ≤ m.state.reservedBytes := by
  have hproject := hm.prepared_le hf (.ofProject f.project)
  simp only [Measure.ofPrepared, Measure.weight, if_true] at hproject
  exact ⟨hproject, hm.prepared_le hf .messages, hm.prepared_le hf .bytes⟩

theorem Balanced.covered (hm : m.Balanced) (op : MailboxOp) : m.Covered op := by
  cases op with
  | cancel call => exact fun f hf => hm.covered_reserved hf
  | enqueueReserved now call recipient => exact fun f hf => hm.covered_reserved hf
  | acknowledge now r id =>
    intro p hp
    have hmem := mem_of_find?_eq_some hp
    have hproject := hm.pending_le hmem (.ofProject p.message.project)
    simp only [Measure.ofPending, Measure.ofMessage, Measure.weight, if_true] at hproject
    exact ⟨hm.pending_le hmem .messages, hm.pending_le hmem .bytes, hproject⟩
  | removeProcess r =>
    refine ⟨?_, hm.inbox_le r .bytes, fun q => ?_⟩
    · have h : ((m.state.inbox r).map fun _ => 1).sum ≤ m.state.pendingCount :=
        hm.inbox_le r .messages
      simpa using h
    · have hcount := Queues.sum_indicator (fun p : Pending => decide (p.message.project = q))
        (m.state.inbox r)
      simp only [decide_eq_true_eq] at hcount
      exact hcount.symm.trans_le (hm.inbox_le r (.ofProject q))
  | _ => trivial

/-- In every run of the mailbox's operations the counters are the recounts, no ceiling is passed,
and nothing is taken off a counter that does not hold it. -/
theorem accounted_run {es : List MailboxOp} {m : Mailroom}
    (hrun : mailroomMachine.run .empty es = some m) :
    m.Accounted ∧ mailroomMachine.Along Covered .empty es := by
  have hstep : ∀ s e t, s.Balanced → mailroomMachine.step s e = some t → t.Balanced :=
    fun s e t hs ht => hs.step ht
  constructor
  · exact (Machine.invariant_run hstep balanced_empty hrun).accounted
  · exact Machine.along_of_invariant (G := fun _ _ => True) (fun s e t _ => hstep s e t)
      (fun s e _ hs => hs.covered e) balanced_empty
      (Machine.along_of_forall (fun _ _ => trivial) _ es)

/-- A reserved first message, a direct one, an acknowledgement and a removal. -/
theorem accounted_run_spawn : ∃ es m,
    es = [.reserve 1 ⟨1, 1, "go", none⟩, .enqueue 0 1 1 2 .direct "hi" none,
      .enqueueReserved 5 1 3, .acknowledge 7 2 1, .removeProcess 3] ∧
    mailroomMachine.run .empty es = some m ∧ m.state.pendingCount = 0 ∧
    m.Accounted ∧ mailroomMachine.Along Covered .empty es := by
  refine ⟨_, _, rfl, rfl, ?_, accounted_run rfl⟩
  decide

end Mailroom

end Soloist
