import Soloist.Mailbox.Letterbox

/-! Where what the mailbox holds comes from: each queued message, receipt and transcript entry after
an operation was there before it, or is what the operation itself puts there. -/
open List
open Option hiding or_assoc

namespace Soloist

/-! ### Messages posted -/

namespace MailboxState

section Post
variable (project : ProjectId) (sender : ProcessId) (kind : AgentMessageKind) (body : String)
  (todoId : Option TodoId)

/-- The deliveries of a broadcast carry the next ids in turn. -/
theorem pushAll_ids (rs : List ProcessId) (s : MailboxState) :
    (pushAll project sender kind body todoId s rs).2.map (fun d => d.message.id) =
      List.range' s.nextMessage rs.length := by
  induction rs generalizing s with
  | nil => rfl
  | cons r rest ih =>
    have h := ih (pushShared project sender kind body todoId s r).1
    exact congrArg (List.cons s.nextMessage) h

theorem pushAll_deliveries (rs : List ProcessId) (s : MailboxState) :
    ∀ d ∈ (pushAll project sender kind body todoId s rs).2,
      d.outcome = .queued ∧ d.message.project = project ∧ d.message.recipient ∈ rs := by
  induction rs generalizing s with
  | nil =>
    intro d hd
    cases hd
  | cons r rest ih =>
    intro d hd
    rcases mem_cons.mp hd with hd | hd
    · subst hd
      exact ⟨rfl, rfl, (.head _)⟩
    · obtain ⟨houtcome, hproject, hmem⟩ := ih (pushShared project sender kind body todoId s r).1 d hd
      exact ⟨houtcome, hproject, .tail _ hmem⟩

/-- After a broadcast an inbox holds what it held and the deliveries made to it. -/
theorem mem_inbox_pushAll (rs : List ProcessId) (s : MailboxState) (i : ProcessId) (p : Pending) :
    p ∈ (pushAll project sender kind body todoId s rs).1.inbox i ↔
      p ∈ s.inbox i ∨ ∃ d ∈ (pushAll project sender kind body todoId s rs).2,
        d.message.recipient = i ∧ p = ⟨d.message, .queued⟩ := by
  induction rs generalizing s with
  | nil => simp [pushAll]
  | cons r rest ih =>
    have hrest := ih (pushShared project sender kind body todoId s r).1
    have hpush := inbox_pushShared project sender kind body todoId s r i
    have hlist : (pushAll project sender kind body todoId s (r :: rest)).2 =
        (pushShared project sender kind body todoId s r).2 ::
          (pushAll project sender kind body todoId
            (pushShared project sender kind body todoId s r).1 rest).2 := rfl
    have hinbox : (pushAll project sender kind body todoId s (r :: rest)).1.inbox i =
        (pushAll project sender kind body todoId
          (pushShared project sender kind body todoId s r).1 rest).1.inbox i := rfl
    rw [hinbox, hrest, hlist]
    by_cases hi : i = r
    · subst hi
      rw [hpush, if_pos rfl]
      simp [pushShared, or_assoc]
    · have hne : ¬ r = i := fun h => hi h.symm
      rw [hpush, if_neg hi]
      simp [pushShared, hne]

end Post

end MailboxState

namespace MailboxOp

def posted (m : Mailroom) : MailboxOp → List AgentMessageDelivery
  | .enqueue now project sender recipient kind body todoId =>
    match (m.state.enqueue now project sender recipient kind body todoId).2 with
    | .ok d => [d]
    | .error _ => []
  | .enqueueMany now project sender recipients kind body todoId =>
    match (m.state.enqueueMany now project sender recipients kind body todoId).2 with
    | .ok ds => ds
    | .error _ => []
  | .enqueueReserved now call recipient =>
    match AList.lookup call m.prepared with
    | none => []
    | some first =>
      match (m.state.enqueueReserved now first.project first.sender recipient .task first.prompt
        first.todoId).2 with
      | .ok d => [d]
      | .error _ => []
  | _ => []

section Posted
variable {m : Mailroom} {now : UInt64} {project : ProjectId} {sender recipient : ProcessId}
  {recipients : List ProcessId} {kind : AgentMessageKind} {body : String} {todoId : Option TodoId}
  {call : Nat} {first : Prepared} {d : AgentMessageDelivery} {ds : List AgentMessageDelivery}

theorem posted_enqueue
    (hok : (m.state.enqueue now project sender recipient kind body todoId).2 = .ok d) :
    (enqueue now project sender recipient kind body todoId).posted m = [d] := by
  simp [posted, hok]

theorem posted_enqueueMany
    (hok : (m.state.enqueueMany now project sender recipients kind body todoId).2 = .ok ds) :
    (enqueueMany now project sender recipients kind body todoId).posted m = ds := by
  simp [posted, hok]

theorem posted_enqueueReserved (hfirst : AList.lookup call m.prepared = some first)
    (hok : (m.state.enqueueReserved now first.project first.sender recipient .task first.prompt
      first.todoId).2 = .ok d) :
    (enqueueReserved now call recipient).posted m = [d] := by
  simp [posted, hfirst, hok]

end Posted

end MailboxOp

/-- What a step that queues messages does: new ids in turn, and each message in the inbox of its
recipient behind what was there. -/
structure Posts (s s' : MailboxState) (ds : List AgentMessageDelivery) : Prop where
  ids : ds.map (fun d => d.message.id) = List.range' s.nextMessage ds.length
  next : s'.nextMessage = s.nextMessage + ds.length
  queued : ∀ d ∈ ds, d.outcome = .queued
  inbox : ∀ r p, p ∈ s'.inbox r ↔
    p ∈ s.inbox r ∨ ∃ d ∈ ds, d.message.recipient = r ∧ p = ⟨d.message, .queued⟩
  receipts : s'.taskReceipts = s.taskReceipts
  notices : s'.completionNotices = s.completionNotices
  transcript : s'.transcript = s.transcript

namespace Posts

theorem refl (s : MailboxState) : Posts s s [] where
  ids := rfl
  next := rfl
  queued := by simp
  inbox r p := by simp
  receipts := rfl
  notices := rfl
  transcript := rfl

variable {s s' : MailboxState} {ds : List AgentMessageDelivery}

theorem minted (h : Posts s s' ds) {d : AgentMessageDelivery} (hd : d ∈ ds) :
    s.nextMessage ≤ d.message.id ∧ d.message.id < s'.nextMessage := by
  have hmem : d.message.id ∈ List.range' s.nextMessage ds.length := by
    rw [← h.ids]
    exact List.mem_map_of_mem hd
  rw [h.next]
  exact mem_range'_1.mp hmem

/-- Giving a reservation back changes nothing that a post speaks of. -/
theorem of_cancelled {project : ProjectId} {size : Nat}
    (h : Posts (s.cancelProjectReservation project size) s' ds) : Posts s s' ds :=
  ⟨h.ids, h.next, h.queued, h.inbox, h.receipts, h.notices, h.transcript⟩

end Posts

namespace MailboxState
variable (s : MailboxState) (now : UInt64) (project : ProjectId) (sender : ProcessId)
  (kind : AgentMessageKind) (body : String) (todoId : Option TodoId)

theorem posts_insertMessage (recipient : ProcessId) :
    Posts s (s.insertMessage now project sender recipient kind body todoId).1
      [(s.insertMessage now project sender recipient kind body todoId).2] where
  ids := rfl
  next := rfl
  queued := by simp [insertMessage]
  inbox r p := by
    rw [inbox_insertMessage]
    by_cases hr : r = recipient
    · subst hr
      simp [insertMessage]
    · have hne : ¬ recipient = r := fun h => hr h.symm
      simp [insertMessage, hr, hne]
  receipts := rfl
  notices := rfl
  transcript := rfl

theorem posts_admitAll (rs : List ProcessId) :
    Posts s (admitAll project sender kind body todoId s now rs).1
      (admitAll project sender kind body todoId s now rs).2 := by
  obtain ⟨inboxes, next, hframe⟩ := pushAll_frame project sender kind body todoId rs s
  have hids := pushAll_ids project sender kind body todoId rs s
  have hlength : (admitAll project sender kind body todoId s now rs).2.length = rs.length := by
    have h := congrArg List.length hids
    rw [length_map, length_range'] at h
    exact h
  constructor
  · rw [hlength]
    exact hids
  · rw [hlength]
    exact nextMessage_pushAll project sender kind body todoId rs s
  · intro d hd
    exact (pushAll_deliveries project sender kind body todoId rs s d hd).1
  · intro r p
    exact mem_inbox_pushAll project sender kind body todoId rs s r p
  · have h := congrArg (fun s : MailboxState => s.taskReceipts) hframe
    exact h
  · have h := congrArg (fun s : MailboxState => s.completionNotices) hframe
    exact h
  · have h := congrArg (fun s : MailboxState => s.transcript) hframe
    exact h

end MailboxState

namespace Mailroom
variable {m m' : Mailroom}

variable {now : UInt64}

variable {project : ProjectId} {recipient sender : ProcessId} {kind : AgentMessageKind}
  {body : String} {todoId : Option TodoId}

theorem posts_enqueue
    (h : m.step (.enqueue now project sender recipient kind body todoId) = some m') :
    Posts m.state m'.state
      ((MailboxOp.enqueue now project sender recipient kind body todoId).posted m) := by
  cases h
  rcases m.state.enqueue_cases now project sender recipient kind body todoId with
    ⟨e, he⟩ | ⟨-, -, -, -, -, he⟩
  · simp only [MailboxOp.posted, he]
    exact .refl _
  · simp only [MailboxOp.posted, he]
    exact m.state.posts_insertMessage now project sender kind body todoId recipient

theorem posts_enqueueMany {recipients : List ProcessId}
    (h : m.step (.enqueueMany now project sender recipients kind body todoId) = some m') :
    Posts m.state m'.state
      ((MailboxOp.enqueueMany now project sender recipients kind body todoId).posted m) := by
  simp only [Mailroom.step] at h
  split_ifs at h
  cases h
  rcases MailboxState.enqueueMany_cases project sender kind body todoId m.state now recipients with
    ⟨e, he⟩ | ⟨-, -, -, -, -, he⟩
  · simp only [MailboxOp.posted, he]
    exact .refl _
  · simp only [MailboxOp.posted, he]
    exact m.state.posts_admitAll now project sender kind body todoId recipients

theorem posts_enqueueReserved {call : Nat}
    (h : m.step (.enqueueReserved now call recipient) = some m') :
    Posts m.state m'.state ((MailboxOp.enqueueReserved now call recipient).posted m) := by
  obtain ⟨first, hfirst, rfl⟩ := map_eq_some_iff.mp h
  rcases m.state.enqueueReserved_cases now first.project first.sender recipient .task first.prompt
    first.todoId with ⟨e, he⟩ | ⟨-, he⟩
  · simp only [MailboxOp.posted, hfirst, he]
    exact Posts.of_cancelled (.refl _)
  · simp only [MailboxOp.posted, hfirst, he]
    exact Posts.of_cancelled <| (m.state.cancelProjectReservation first.project first.prompt.utf8ByteSize).posts_insertMessage now
      first.project first.sender .task first.prompt first.todoId recipient

end Mailroom

/-! ### Inboxes -/

theorem Letterbox.inbox_step {b b' : Letterbox} {act : LetterboxAct} (h : b.step act = some b') :
    b'.inbox = match act with
      | .deliver _ message => b.inbox ++ [⟨message, .queued⟩]
      | .mark w => b.inbox.map (MailboxState.submitClaimed ((b.claims w).elim [] WakeClaim.claimed))
      | .acknowledge _ id => b.inbox.eraseP fun p => p.message.id = id
      | .remove => []
      | _ => b.inbox := by
  cases act with
  | deliver now message => cases h; rfl
  | brief now guide => cases h; rfl
  | claim w =>
    simp only [Letterbox.step] at h
    split_ifs at h
    cases h
    rfl
  | mark w =>
    obtain ⟨c, hc, rfl⟩ := map_eq_some_iff.mp h
    simp only [hc, elim_some]
  | release w =>
    obtain ⟨c, -, rfl⟩ := map_eq_some_iff.mp h
    rfl
  | refuse => cases h; rfl
  | nonIdle now =>
    simp only [Letterbox.step, Letterbox.endWake, Letterbox.armIfWaiting] at h
    split_ifs at h <;> cases h <;> rfl
  | acknowledge now id =>
    obtain ⟨p, hp, rfl⟩ := map_eq_some_iff.mp h
    have hid : p.message.id = id := by simpa using find?_some hp
    simp only [Letterbox.discard, Letterbox.endWake, Letterbox.armIfWaiting, hid]
    split_ifs <;> rfl
  | remove => cases h; rfl

namespace MailboxOp

def isPost : MailboxOp → Bool
  | .enqueue .. | .enqueueMany .. | .enqueueReserved .. => true
  | _ => false

/-- What an operation makes of a message it leaves in the inbox of `r`. -/
def touch (m : Mailroom) (r : ProcessId) (q : Pending) : MailboxOp → Pending
  | .mark w =>
    match m.submissions w with
    | some sub =>
      if sub.recipient = r then MailboxState.submitClaimed sub.claim.claimed q else q
    | none => q
  | _ => q

theorem touch_message (m : Mailroom) (r : ProcessId) (q : Pending) (op : MailboxOp) :
    (op.touch m r q).message = q.message := by
  cases op with
  | mark w =>
    unfold touch MailboxState.submitClaimed
    dsimp only
    split
    · split_ifs <;> rfl
    · rfl
  | _ => rfl

end MailboxOp

namespace Mailroom
variable {m m' : Mailroom} {op : MailboxOp} {r : ProcessId}

/-- An operation that posts nothing leaves an inbox as it touches it, less a message acknowledged
or all of a process removed. -/
theorem inbox_unposted (h : m.step op = some m') (hpost : op.isPost = false) :
    m'.state.inbox r = (m.state.inbox r).map (fun q => op.touch m r q) ∨
      (∃ now id, op = .acknowledge now r id ∧
        m'.state.inbox r = (m.state.inbox r).eraseP fun p => p.message.id = id) ∨
      op = .removeProcess r ∧ m'.state.inbox r = [] := by
  have hsame : ∀ op : MailboxOp, (∀ w, op ≠ .mark w) →
      (m.state.inbox r).map (fun q => op.touch m r q) = m.state.inbox r := by
    intro op hop
    have hid : ∀ q, op.touch m r q = q := by
      intro q
      cases op with
      | mark w => exact absurd rfl (hop w)
      | _ => rfl
    exact map_id'' hid _
  rcases letterbox_step r h with hbox | ⟨act, hacts, -, hstep⟩
  · have hinbox : m'.state.inbox r = m.state.inbox r := congrArg Letterbox.inbox hbox
    by_cases hmark : ∃ w, op = .mark w
    · obtain ⟨w, rfl⟩ := hmark
      obtain ⟨sub, hsub, -⟩ := map_eq_some_iff.mp h
      by_cases hr : sub.recipient = r
      · have hmarked := letterbox_mark r hsub h
        rw [if_pos hr] at hmarked
        have hmap := Letterbox.inbox_step hmarked
        have hclaim : (m.letterbox r).claims w = some sub.claim := by
          rw [← hr]
          exact claimsOf_eq_some.mpr hsub
        simp only [hclaim, elim_some] at hmap
        refine .inl (Eq.trans hmap ?_)
        simp only [MailboxOp.touch, hsub, if_pos hr]
        rfl
      · refine .inl (hinbox.trans ?_)
        simp [MailboxOp.touch, hsub, hr]
    · refine .inl (hinbox.trans (hsame op fun w hw => hmark ⟨w, hw⟩).symm)
  · have hmap := Letterbox.inbox_step hstep
    cases hacts with
    | enqueue | enqueueMany | enqueueReserved => cases hpost
    | @mark w =>
      obtain ⟨sub, hsub, -⟩ := map_eq_some_iff.mp h
      obtain ⟨c, hc, -⟩ := map_eq_some_iff.mp hstep
      have hclaim := claimsOf_eq_some.mp hc
      rw [hsub] at hclaim
      cases hclaim
      refine .inl (Eq.trans hmap ?_)
      simp only [hc, elim_some, MailboxOp.touch, hsub, if_true]
      rfl
    | @acknowledge now id => exact .inr (.inl ⟨now, id, rfl, hmap⟩)
    | removeProcess => exact .inr (.inr ⟨rfl, hmap⟩)
    | _ => exact .inl (Eq.trans hmap (hsame _ fun w hw => by cases hw).symm)

theorem posts_of_isPost (h : m.step op = some m') (hpost : op.isPost = true) :
    Posts m.state m'.state (op.posted m) := by
  cases op with
  | enqueue => exact posts_enqueue h
  | enqueueMany => exact posts_enqueueMany h
  | enqueueReserved => exact posts_enqueueReserved h
  | _ => cases hpost

theorem touch_of_isPost (hpost : op.isPost = true) (q : Pending) : op.touch m r q = q := by
  cases op with
  | mark w => cases hpost
  | _ => rfl

theorem inbox_source (h : m.step op = some m') {p : Pending} (hp : p ∈ m'.state.inbox r) :
    (∃ q ∈ m.state.inbox r, p = op.touch m r q) ∨
      ∃ d ∈ op.posted m, d.message.recipient = r ∧ p = ⟨d.message, .queued⟩ := by
  cases hpost : op.isPost with
  | true =>
    rcases ((posts_of_isPost h hpost).inbox r p).mp hp with hp | hd
    · exact .inl ⟨p, hp, (touch_of_isPost hpost p).symm⟩
    · exact .inr hd
  | false =>
    rcases inbox_unposted h hpost with hmap | ⟨now, id, hop, herase⟩ | ⟨-, hempty⟩
    · rw [hmap] at hp
      obtain ⟨q, hq, hqp⟩ := List.mem_map.mp hp
      exact .inl ⟨q, hq, hqp.symm⟩
    · rw [herase] at hp
      refine .inl ⟨p, mem_of_mem_eraseP hp, ?_⟩
      rw [hop]
      rfl
    · rw [hempty] at hp
      cases hp

theorem inbox_kept (h : m.step op = some m') {q : Pending} (hq : q ∈ m.state.inbox r) :
    op.touch m r q ∈ m'.state.inbox r ∨ (∃ now, op = .acknowledge now r q.message.id) ∨
      op = .removeProcess r := by
  cases hpost : op.isPost with
  | true =>
    rw [touch_of_isPost hpost]
    exact .inl (((posts_of_isPost h hpost).inbox r q).mpr (.inl hq))
  | false =>
    rcases inbox_unposted h hpost with hmap | ⟨now, id, hop, herase⟩ | ⟨hop, -⟩
    · rw [hmap]
      exact .inl (List.mem_map_of_mem hq)
    · by_cases hid : q.message.id = id
      · rw [← hid] at hop
        exact .inr (.inl ⟨now, hop⟩)
      · have htouch : op.touch m r q = q := by rw [hop]; rfl
        refine .inl ?_
        rw [herase, htouch]
        have hneg : ¬ decide (q.message.id = id) = true := by simpa using hid
        exact (mem_eraseP_of_neg (p := fun p : Pending => decide (p.message.id = id)) hneg).mpr
          hq
    · exact .inr (.inr hop)

end Mailroom

/-! ### Operations on the wakes and the reservations -/

/-- What is queued, kept and recorded is as it was. -/
structure SameRecords (s s' : MailboxState) : Prop where
  receipts : s'.taskReceipts = s.taskReceipts
  notices : s'.completionNotices = s.completionNotices
  transcript : s'.transcript = s.transcript

namespace MailboxOp

def isWakeOnly : MailboxOp → Bool
  | .reserve .. | .cancel .. | .queueOnboarding .. | .claim .. | .release .. | .wakeFailed ..
  | .observeNonIdle .. => true
  | _ => false

end MailboxOp

variable {m m' : Mailroom} {op : MailboxOp}

theorem Mailroom.sameRecords_of_isWakeOnly (h : m.step op = some m') (hop : op.isWakeOnly = true) :
    SameRecords m.state m'.state := by
  cases op with
  | reserve call first =>
    simp only [Mailroom.step] at h
    split_ifs at h
    rcases m.state.reserveProjectSlot_cases first.project first.prompt.utf8ByteSize with
      ⟨e, he⟩ | ⟨-, -, -, he⟩
    · rw [he] at h
      cases h
      exact ⟨rfl, rfl, rfl⟩
    · rw [he] at h
      cases h
      exact ⟨rfl, rfl, rfl⟩
  | cancel call =>
    obtain ⟨first, -, rfl⟩ := map_eq_some_iff.mp h
    exact ⟨rfl, rfl, rfl⟩
  | queueOnboarding now process guide =>
    cases h
    exact ⟨rfl, rfl, rfl⟩
  | claim waker recipient =>
    simp only [Mailroom.step] at h
    split_ifs at h
    rcases m.state.claimWakeEnvelope_cases recipient with ⟨-, hclaim⟩ | ⟨-, -, hclaim⟩
    · rw [hclaim] at h
      cases h
      exact ⟨rfl, rfl, rfl⟩
    · rw [hclaim] at h
      cases h
      exact ⟨rfl, rfl, rfl⟩
  | release waker =>
    obtain ⟨sub, -, rfl⟩ := map_eq_some_iff.mp h
    exact ⟨rfl, rfl, rfl⟩
  | wakeFailed recipient =>
    cases h
    simp only [MailboxState.recordWakeFailure]
    split <;> exact ⟨rfl, rfl, rfl⟩
  | observeNonIdle now recipient =>
    cases h
    simp only [MailboxState.observeNonIdle, MailboxState.endWake, MailboxState.armIfWaiting]
    split_ifs <;> exact ⟨rfl, rfl, rfl⟩
  | _ => cases hop

/-! ### The transcript -/

namespace AgentMessageRecord

theorem advance_eq_map {entries : List AgentMessageRecord} (h : (entries.map id).Nodup)
    (i : AgentMessageId) (o : AgentMessageOutcome) :
    advance i o entries = entries.map fun r => if r.id = i then r.withOutcome o else r := by
  induction entries with
  | nil => rfl
  | cons r rest ih =>
    obtain ⟨hr, hrest⟩ := nodup_cons.mp h
    unfold advance
    rw [map_cons]
    split_ifs with hi
    · have hother : ∀ x ∈ rest, (if x.id = i then x.withOutcome o else x) = x := by
        intro x hx
        have hne : x.id ≠ i := fun hxi => hr (List.mem_map.mpr ⟨x, hx, hxi.trans hi.symm⟩)
        exact if_neg hne
      rw [map_congr_left hother, List.map_id']
    · rw [ih hrest]

end AgentMessageRecord

namespace MailboxState

def FiledOnce (s : MailboxState) : Prop :=
  ∀ project, ((s.transcript.queue project).map AgentMessageRecord.id).Nodup

variable {s : MailboxState}

theorem queue_advanceRecordedOutcome (hs : s.FiledOnce) (project q : ProjectId)
    (id : AgentMessageId) (o : AgentMessageOutcome) :
    (s.advanceRecordedOutcome project id o).1.transcript.queue q =
      (s.transcript.queue q).map fun r => if q = project ∧ r.id = id then r.withOutcome o else r := by
  have hsame : ∀ entries : List AgentMessageRecord, (∀ r ∈ entries, ¬ (q = project ∧ r.id = id)) →
      entries.map (fun r => if q = project ∧ r.id = id then r.withOutcome o else r) = entries := by
    intro entries hne
    have hid : ∀ r ∈ entries,
        (if q = project ∧ r.id = id then r.withOutcome o else r) = r := fun r hr => if_neg (hne r hr)
    rw [map_congr_left hid, List.map_id']
  unfold advanceRecordedOutcome
  cases hlook : AList.lookup project s.transcript with
  | none =>
    refine (hsame _ fun r hr hq => ?_).symm
    rw [hq.1, Queues.queue, hlook] at hr
    cases hr
  | some entries =>
    have hqueue : s.transcript.queue project = entries := by rw [Queues.queue, hlook]; rfl
    dsimp only
    split_ifs with hany
    · rw [Queues.queue_insert]
      split_ifs with hq
      · have hnodup := hs project
        rw [hqueue] at hnodup
        rw [AgentMessageRecord.advance_eq_map hnodup, hq, hqueue]
        simp
      · simp [hq]
    · refine (hsame _ fun r hr hq => ?_).symm
      rw [hq.1, hqueue] at hr
      exact hany (List.any_eq_true.mpr ⟨r, hr, decide_eq_true hq.2⟩)

variable {s' : MailboxState}

theorem FiledOnce.map (hs : s.FiledOnce) {f : ProjectId → AgentMessageRecord → AgentMessageRecord}
    (hf : ∀ q r, (f q r).id = r.id)
    (h : ∀ q, s'.transcript.queue q = (s.transcript.queue q).map (f q)) : s'.FiledOnce := by
  intro q
  have hids : ((s.transcript.queue q).map (f q)).map AgentMessageRecord.id =
      (s.transcript.queue q).map AgentMessageRecord.id := by
    rw [List.map_map]
    exact map_congr_left fun r _ => hf q r
  rw [h q, hids]
  exact hs q

theorem id_ite_withOutcome (c : Prop) [Decidable c] (r : AgentMessageRecord)
    (o : AgentMessageOutcome) : (if c then r.withOutcome o else r).id = r.id := by
  split_ifs <;> rfl

theorem queue_advanceWoken (hs : s.FiledOnce) (woken : List (ProjectId × AgentMessageId))
    (q : ProjectId) :
    (s.advanceWoken woken).1.transcript.queue q =
      (s.transcript.queue q).map fun r =>
        if (q, r.id) ∈ woken then r.withOutcome .wakeSubmitted else r := by
  induction woken generalizing s with
  | nil => simp [advanceWoken]
  | cons e rest ih =>
    have hfirst := queue_advanceRecordedOutcome hs e.1
    have hnext : (s.advanceRecordedOutcome e.1 e.2 .wakeSubmitted).1.FiledOnce :=
      hs.map (fun q r => id_ite_withOutcome _ r _) fun q => hfirst q e.2 .wakeSubmitted
    have hrest := ih hnext
    have hstep : (s.advanceWoken (e :: rest)).1 =
        ((s.advanceRecordedOutcome e.1 e.2 .wakeSubmitted).1.advanceWoken rest).1 := rfl
    rw [hstep, hrest, hfirst, List.map_map]
    refine map_congr_left fun r _ => ?_
    obtain ⟨project, id⟩ := e
    simp only [Function.comp_apply, id_ite_withOutcome, mem_cons, Prod.mk.injEq]
    by_cases hfirst : q = project ∧ r.id = id
    · simp [hfirst, AgentMessageRecord.withOutcome]
    · simp [hfirst]

theorem sublist_evictFromFullest (h : s.evictFromFullest = some s') (q : ProjectId) :
    List.Sublist (s'.transcript.queue q) (s.transcript.queue q) := by
  unfold evictFromFullest at h
  split at h
  · cases h
  next victim _ =>
    split at h
    · cases h
    next head rest hqueue =>
      cases h
      dsimp only
      rw [Queues.queue_keep]
      split_ifs with hq
      · rw [hq, hqueue]
        exact sublist_cons_self head rest
      · exact List.Sublist.refl _

theorem sublist_evictWhileOver (fuel : Nat) (s : MailboxState) (q : ProjectId) :
    List.Sublist ((evictWhileOver fuel s).transcript.queue q) (s.transcript.queue q) := by
  induction fuel generalizing s with
  | zero => exact List.Sublist.refl _
  | succ fuel ih =>
    unfold evictWhileOver
    split_ifs
    · split
      next s' hevict => exact (ih s').trans (sublist_evictFromFullest hevict q)
      · exact List.Sublist.refl _
    · exact List.Sublist.refl _

def entryOf (now : UInt64) (d : AgentMessageDelivery) : AgentMessageRecord :=
  ⟨⟨{ d.message with body := (truncateBody d.message.body).1 }, d.outcome⟩, now,
    (truncateBody d.message.body).2⟩

theorem sublist_record (s : MailboxState) (now : UInt64) (d : AgentMessageDelivery)
    (q : ProjectId) :
    List.Sublist ((s.record now d).transcript.queue q)
      (s.transcript.queue q ++ if q = d.message.project then [entryOf now d] else []) := by
  unfold record pushRecord
  dsimp only
  refine (sublist_evictWhileOver _ _ q).trans ?_
  dsimp only
  rw [Queues.queue_insert]
  by_cases hq : q = d.message.project
  · rw [if_pos hq, if_pos hq, hq]
    refine List.Sublist.append ?_ (List.Sublist.refl _)
    split_ifs
    · exact tail_sublist _
    · exact List.Sublist.refl _
  · rw [if_neg hq, if_neg hq, append_nil]

theorem queue_forgetProject (s : MailboxState) (project q : ProjectId) :
    (s.forgetProject project).transcript.queue q =
      if q = project then [] else s.transcript.queue q := by
  unfold forgetProject
  cases hlook : AList.lookup project s.transcript with
  | none =>
    split_ifs with hq
    · rw [hq, Queues.queue, hlook]
      rfl
    · rfl
  | some entries => exact Queues.queue_erase s.transcript project q

end MailboxState

namespace MailboxOp

def woken (m : Mailroom) (w : Waker) : List (ProjectId × AgentMessageId) :=
  match m.submissions w with
  | some sub =>
    ((m.state.inbox sub.recipient).filter fun p =>
      p.outcome = .queued ∧ p.message.id ∈ sub.claim.claimed).map
      fun p => (p.message.project, p.message.id)
  | none => []

/-- What an operation makes of an entry it leaves in the transcript of `q`. -/
def refile (m : Mailroom) (q : ProjectId) (r : AgentMessageRecord) :
    MailboxOp → AgentMessageRecord
  | .mark w => if (q, r.id) ∈ woken m w then r.withOutcome .wakeSubmitted else r
  | .recordOutcome project id outcome =>
    if q = project ∧ r.id = id then r.withOutcome outcome else r
  | _ => r

def filed (q : ProjectId) : MailboxOp → List AgentMessageRecord
  | .record now d => if q = d.message.project then [MailboxState.entryOf now d] else []
  | _ => []

theorem refile_message (m : Mailroom) (q : ProjectId) (r : AgentMessageRecord) (op : MailboxOp) :
    (op.refile m q r).delivery.message = r.delivery.message := by
  cases op with
  | mark w =>
    unfold refile
    dsimp only
    split_ifs <;> rfl
  | recordOutcome project id outcome =>
    unfold refile
    dsimp only
    split_ifs <;> rfl
  | _ => rfl

end MailboxOp

namespace Mailroom
variable {m m' : Mailroom} {op : MailboxOp}

variable {q : ProjectId}

theorem transcript_of_same (h : m'.state.transcript = m.state.transcript)
    (hrefile : ∀ r, op.refile m q r = r) (hfiled : op.filed q = []) :
    List.Sublist (m'.state.transcript.queue q)
      ((m.state.transcript.queue q).map (fun r => op.refile m q r) ++ op.filed q) := by
  rw [h, hfiled, append_nil, map_id'' hrefile]

/-- Each transcript after an operation is drawn from what the operation made of its entries and the
one it added. -/
theorem transcript_step (hfiled : m.state.FiledOnce) (h : m.step op = some m') (q : ProjectId) :
    List.Sublist (m'.state.transcript.queue q)
      ((m.state.transcript.queue q).map (fun r => op.refile m q r) ++ op.filed q) := by
  cases op with
  | enqueue => exact transcript_of_same (posts_enqueue h).transcript (fun _ => rfl) rfl
  | enqueueMany => exact transcript_of_same (posts_enqueueMany h).transcript (fun _ => rfl) rfl
  | enqueueReserved =>
    exact transcript_of_same (posts_enqueueReserved h).transcript (fun _ => rfl) rfl
  | reserve | cancel | queueOnboarding | claim | release | wakeFailed | observeNonIdle =>
    exact transcript_of_same (sameRecords_of_isWakeOnly h rfl).transcript (fun _ => rfl) rfl
  | mark w =>
    obtain ⟨sub, hsub, rfl⟩ := map_eq_some_iff.mp h
    have hqueue := MailboxState.queue_advanceWoken (s := { m.state with
      onboarding := AList.erase sub.recipient m.state.onboarding
      pendingWakes := AList.erase sub.recipient m.state.pendingWakes
      inboxes := m.state.inboxes.keep sub.recipient
        ((m.state.inbox sub.recipient).map (MailboxState.submitClaimed sub.claim.claimed)) })
      hfiled (MailboxOp.woken m w) q
    have hwoken : MailboxOp.woken m w =
        ((m.state.inbox sub.recipient).filter fun p =>
          p.outcome = .queued ∧ p.message.id ∈ sub.claim.claimed).map
          fun p => (p.message.project, p.message.id) := by
      simp only [MailboxOp.woken, hsub]
    simp only [MailboxOp.filed, append_nil, MailboxOp.refile]
    rw [← hqueue]
    simp only [MailboxState.markWakeSubmitted, hwoken]
    exact List.Sublist.refl _
  | acknowledge now recipient id =>
    cases h
    refine transcript_of_same ?_ (fun _ => rfl) rfl
    cases hfind : m.state.find recipient id with
    | none => rw [MailboxState.acknowledge_of_find_none hfind]
    | some p =>
      obtain ⟨count, bytes, counts, receipts, hframe⟩ := m.state.withoutMessage_frame recipient p
      rw [MailboxState.acknowledge_of_find hfind, hframe]
      simp only [MailboxState.endWake, MailboxState.armIfWaiting]
      split_ifs <;> rfl
  | removeProcess process =>
    obtain ⟨count, bytes, counts, hframe⟩ := m.state.removeProcess_frame process
    cases h
    exact transcript_of_same (by rw [hframe]) (fun _ => rfl) rfl
  | forgetProject project =>
    cases h
    simp only [MailboxState.queue_forgetProject, MailboxOp.filed, append_nil]
    split_ifs
    · exact nil_sublist _
    · have hid : (m.state.transcript.queue q).map
          (fun r => (MailboxOp.forgetProject project).refile m q r) =
          m.state.transcript.queue q := map_id'' (fun _ => rfl) _
      rw [hid]
  | record now d =>
    cases h
    have hid : (m.state.transcript.queue q).map (fun r => (MailboxOp.record now d).refile m q r) =
        m.state.transcript.queue q := map_id'' (fun _ => rfl) _
    rw [hid]
    exact m.state.sublist_record now d q
  | recordOutcome project id outcome =>
    cases h
    have hqueue := MailboxState.queue_advanceRecordedOutcome hfiled project q id outcome
    simp only [MailboxOp.filed, append_nil, MailboxOp.refile]
    rw [← hqueue]
    exact List.Sublist.refl _
  | recordCompletionNotice =>
    cases h
    exact transcript_of_same rfl (fun _ => rfl) rfl

theorem transcript_source (hfiled : m.state.FiledOnce) (h : m.step op = some m')
    {e : AgentMessageRecord} (he : e ∈ m'.state.transcript.queue q) :
    (∃ r ∈ m.state.transcript.queue q, e = op.refile m q r) ∨
      ∃ now d, op = .record now d ∧ q = d.message.project ∧ e = MailboxState.entryOf now d := by
  rcases mem_append.mp ((transcript_step hfiled h q).subset he) with he | he
  · obtain ⟨r, hr, hre⟩ := List.mem_map.mp he
    exact .inl ⟨r, hr, hre.symm⟩
  · cases op with
    | record now d =>
      simp only [MailboxOp.filed] at he
      split_ifs at he with hq
      · exact .inr ⟨now, d, rfl, hq, mem_singleton.mp he⟩
      · cases he
    | _ => cases he

theorem FiledOnce.step (hfiled : m.state.FiledOnce) (h : m.step op = some m')
    (hfresh : ∀ now d, op = .record now d →
      ∀ r ∈ m.state.transcript.queue d.message.project, r.id ≠ d.message.id) :
    m'.state.FiledOnce := by
  intro q
  have hsub := (transcript_step hfiled h q).map AgentMessageRecord.id
  refine List.Nodup.sublist hsub ?_
  have hids : ((m.state.transcript.queue q).map fun r => op.refile m q r).map AgentMessageRecord.id =
      (m.state.transcript.queue q).map AgentMessageRecord.id := by
    rw [List.map_map]
    exact map_congr_left fun r _ => congrArg AgentMessage.id (op.refile_message m q r)
  rw [map_append, hids]
  cases op with
  | record now d =>
    simp only [MailboxOp.filed]
    split_ifs with hq
    · rw [hq, nodup_append]
      refine ⟨hfiled _, by simp, ?_⟩
      intro i hi j hj hij
      obtain ⟨r, hr, hri⟩ := List.mem_map.mp hi
      have hj' : j = d.message.id := by simpa [MailboxState.entryOf, AgentMessageRecord.id] using hj
      exact hfresh now d rfl r hr (hri.trans (hij.trans hj'))
    · simpa using hfiled q
  | _ => simpa [MailboxOp.filed] using hfiled q

end Mailroom

/-! ### Receipts -/

def AgentMessage.receipt (m : AgentMessage) : TaskReceipt :=
  ⟨m.id, m.project, m.sender, m.recipient, m.todoId⟩

namespace MailboxState

theorem mem_pushRing {α : Type} {ceiling : Nat} {ring : List α} {x y : α}
    (h : y ∈ pushRing ceiling ring x) : y ∈ ring ∨ y = x := by
  unfold pushRing at h
  rcases mem_append.mp h with h | h
  · split_ifs at h
    · exact .inl (mem_of_mem_tail h)
    · exact .inl h
  · exact .inr (mem_singleton.mp h)

theorem receipts_acknowledge (s : MailboxState) (now : UInt64) (r : ProcessId)
    (id : AgentMessageId) {x : TaskReceipt} (hx : x ∈ (s.acknowledge now r id).1.taskReceipts) :
    x ∈ s.taskReceipts ∨ ∃ p ∈ s.inbox r, x = p.message.receipt := by
  cases hfind : s.find r id with
  | none =>
    rw [acknowledge_of_find_none hfind] at hx
    exact .inl hx
  | some p =>
    have hmem : p ∈ s.inbox r := mem_of_find?_eq_some hfind
    have hkept : ∀ t : MailboxState,
        (if p.outcome = .wakeSubmitted then t.endWake r now else t).taskReceipts =
          t.taskReceipts := by
      intro t
      simp only [endWake, armIfWaiting]
      split_ifs <;> rfl
    rw [acknowledge_of_find hfind] at hx
    simp only [hkept, withoutMessage, keepTaskReceipt] at hx
    split_ifs at hx
    · rcases mem_pushRing hx with hx | hx
      · exact .inl hx
      · exact .inr ⟨p, hmem, hx⟩
    · exact .inl hx

end MailboxState

namespace Mailroom
variable {m m' : Mailroom} {op : MailboxOp}

theorem receipts_source (h : m.step op = some m') {x : TaskReceipt}
    (hx : x ∈ m'.state.taskReceipts) :
    x ∈ m.state.taskReceipts ∨ ∃ r, ∃ p ∈ m.state.inbox r, x = p.message.receipt := by
  cases op with
  | enqueue => exact .inl ((posts_enqueue h).receipts ▸ hx)
  | enqueueMany => exact .inl ((posts_enqueueMany h).receipts ▸ hx)
  | enqueueReserved => exact .inl ((posts_enqueueReserved h).receipts ▸ hx)
  | acknowledge now r id =>
    cases h
    rcases m.state.receipts_acknowledge now r id hx with hx | ⟨p, hp, hx⟩
    · exact .inl hx
    · exact .inr ⟨r, p, hp, hx⟩
  | removeProcess process =>
    obtain ⟨count, bytes, counts, hframe⟩ := m.state.removeProcess_frame process
    cases h
    rw [hframe] at hx
    exact .inl (mem_filter.mp hx).1
  | reserve | cancel | queueOnboarding | claim | release | wakeFailed | observeNonIdle =>
    exact .inl ((sameRecords_of_isWakeOnly h rfl).receipts ▸ hx)
  | mark waker =>
    obtain ⟨sub, -, rfl⟩ := map_eq_some_iff.mp h
    obtain ⟨tr, hframe⟩ := m.state.markWakeSubmitted_frame sub.recipient sub.claim.claimed
    rw [hframe] at hx
    exact .inl hx
  | forgetProject project =>
    obtain ⟨tr, n, hframe⟩ := m.state.forgetProject_frame project
    cases h
    rw [hframe] at hx
    exact .inl hx
  | record now delivery =>
    obtain ⟨tr, n, hframe⟩ := m.state.record_frame now delivery
    cases h
    rw [hframe] at hx
    exact .inl hx
  | recordOutcome project id outcome =>
    obtain ⟨tr, n, hframe⟩ := m.state.recordOutcome_frame project id outcome
    cases h
    rw [hframe] at hx
    exact .inl hx
  | recordCompletionNotice =>
    cases h
    exact .inl hx

end Mailroom

def MailboxOp.renote (notices : List NoticeReceipt) : MailboxOp → List NoticeReceipt
  | .recordCompletionNotice reporter task notice =>
    MailboxState.pushRing maxCompletionNotices notices ⟨reporter, task, notice.id, notice.recipient⟩
  | .removeProcess process => notices.filter fun receipt =>
      receipt.reporter ≠ process ∧ receipt.recipient ≠ process
  | _ => notices

theorem Mailroom.completionNotices_step (h : m.step op = some m') :
    m'.state.completionNotices = op.renote m.state.completionNotices := by
  cases op with
  | enqueue => exact (Mailroom.posts_enqueue h).notices
  | enqueueMany => exact (Mailroom.posts_enqueueMany h).notices
  | enqueueReserved => exact (Mailroom.posts_enqueueReserved h).notices
  | reserve | cancel | queueOnboarding | claim | release | wakeFailed | observeNonIdle =>
    exact (Mailroom.sameRecords_of_isWakeOnly h rfl).notices
  | mark waker =>
    obtain ⟨sub, -, rfl⟩ := map_eq_some_iff.mp h
    obtain ⟨tr, hframe⟩ := m.state.markWakeSubmitted_frame sub.recipient sub.claim.claimed
    rw [hframe]
    rfl
  | acknowledge now r id =>
    cases h
    cases hfind : m.state.find r id with
    | none =>
      rw [MailboxState.acknowledge_of_find_none hfind]
      rfl
    | some p =>
      obtain ⟨count, bytes, counts, receipts, hframe⟩ := m.state.withoutMessage_frame r p
      rw [MailboxState.acknowledge_of_find hfind, hframe]
      simp only [MailboxState.endWake, MailboxState.armIfWaiting]
      split_ifs <;> rfl
  | removeProcess process =>
    obtain ⟨count, bytes, counts, hframe⟩ := m.state.removeProcess_frame process
    cases h
    rw [hframe]
    rfl
  | forgetProject project =>
    obtain ⟨tr, n, hframe⟩ := m.state.forgetProject_frame project
    cases h
    rw [hframe]
    rfl
  | record now delivery =>
    obtain ⟨tr, n, hframe⟩ := m.state.record_frame now delivery
    cases h
    rw [hframe]
    rfl
  | recordOutcome project id outcome =>
    obtain ⟨tr, n, hframe⟩ := m.state.recordOutcome_frame project id outcome
    cases h
    rw [hframe]
    rfl
  | recordCompletionNotice =>
    cases h
    rfl

end Soloist
