import Soloist.Mailbox.Correspondence

/-! Whether a transcript entry shows the state its message is in. The mailbox and the transcript
are written one after the other, and an update that comes before its entry is lost. -/
open List Option Slots

namespace Soloist

/-! ### One message of the mailbox -/

variable {r : ProcessId} {p : Pending}

theorem MailboxState.inbox_acknowledge {s : MailboxState} {id : AgentMessageId}
    (hp : s.find r id = some p) (now : UInt64) :
    (s.acknowledge now r id).1.inbox r = (s.inbox r).eraseP fun q => q.message.id = id := by
  have hid : p.message.id = id := by simpa using find?_some hp
  have hbox := s.letterbox_withoutMessage Slots.empty r r p
  rw [if_pos rfl, hid] at hbox
  have hinbox : (s.withoutMessage r p).inbox r = (s.inbox r).eraseP fun q => q.message.id = id :=
    congrArg Letterbox.inbox hbox
  rw [acknowledge_of_find hp]
  unfold endWake armIfWaiting
  split_ifs <;> exact hinbox

namespace Mailroom
variable {m m' : Mailroom} {op : MailboxOp} {r : ProcessId} {id : AgentMessageId}

variable {p : Pending}

theorem Numbered.find_eq_some (hm : m.Numbered) :
    m.state.find r id = some p ↔ p ∈ m.state.inbox r ∧ p.message.id = id := by
  constructor
  · intro h
    exact ⟨mem_of_find?_eq_some h, by simpa using find?_some h⟩
  · rintro ⟨hp, hid⟩
    cases hfind : m.state.find r id with
    | none =>
      have hnone := find?_eq_none.mp hfind p hp
      simp [hid] at hnone
    | some q =>
      have hq : q ∈ m.state.inbox r := mem_of_find?_eq_some hfind
      have hqid : q.message.id = id := by simpa using find?_some hfind
      rw [inj_on_of_nodup_map (hm r).1 hq hp (hqid.trans hid.symm)]

theorem find_eq_none : m.state.find r id = none ↔ ∀ p ∈ m.state.inbox r, p.message.id ≠ id := by
  unfold MailboxState.find
  rw [find?_eq_none]
  simp

def Takes (r : ProcessId) (id : AgentMessageId) : MailboxOp → Prop
  | .acknowledge _ r' id' => r' = r ∧ id' = id
  | .removeProcess r' => r' = r
  | _ => False

theorem find_source (hm : m.Numbered) (h : m.step op = some m') (hid : id < m.state.nextMessage)
    (hp : m'.state.find r id = some p) : ∃ q, m.state.find r id = some q ∧ p = op.touch m r q := by
  obtain ⟨hmem, hpid⟩ := (hm.step h).find_eq_some.mp hp
  rcases inbox_source h hmem with ⟨q, hq, hpq⟩ | ⟨d, hd, -, hpd⟩
  · refine ⟨q, hm.find_eq_some.mpr ⟨hq, ?_⟩, hpq⟩
    rw [hpq, op.touch_message] at hpid
    exact hpid
  · rw [hpd] at hpid
    have hnew := ((mints h).new d hd).1
    rw [hpid] at hnew
    exact absurd hid (Nat.not_lt.mpr hnew)

theorem find_none_step (hm : m.Numbered) (h : m.step op = some m')
    (hid : id < m.state.nextMessage) (hnone : m.state.find r id = none) :
    m'.state.find r id = none := by
  cases hfind : m'.state.find r id with
  | none => rfl
  | some p =>
    obtain ⟨q, hq, -⟩ := find_source hm h hid hfind
    rw [hnone] at hq
    cases hq

/-- A message posted before an operation is where it was, as the operation touches it, unless the
operation takes it. -/
theorem find_step (hm : m.Numbered) (h : m.step op = some m') (hid : id < m.state.nextMessage)
    (hop : ¬ Takes r id op) :
    m'.state.find r id = (m.state.find r id).map fun p => op.touch m r p := by
  cases hfind : m.state.find r id with
  | some q =>
    obtain ⟨hq, hqid⟩ := hm.find_eq_some.mp hfind
    refine (hm.step h).find_eq_some.mpr ⟨?_, by rw [op.touch_message]; exact hqid⟩
    rcases inbox_kept h hq with hkept | ⟨now, htakes⟩ | htakes
    · exact hkept
    · rw [htakes] at hop
      exact absurd ⟨rfl, hqid⟩ hop
    · rw [htakes] at hop
      exact absurd rfl hop
  | none => exact find_none_step hm h hid hfind

theorem find_acknowledged (hm : m.Numbered) {now : UInt64}
    (h : m.step (.acknowledge now r id) = some m') (hp : m.state.find r id = some p) :
    m'.state.find r id = none := by
  have hinbox : m'.state.inbox r = (m.state.inbox r).eraseP fun q => q.message.id = id := by
    cases h
    exact MailboxState.inbox_acknowledge hp now
  obtain ⟨hmem, hpid⟩ := hm.find_eq_some.mp hp
  obtain ⟨taken, before, after, -, htaken, hsplit, herase⟩ :=
    exists_of_eraseP (p := fun q : Pending => decide (q.message.id = id)) hmem
      (decide_eq_true hpid)
  have hnodup : ((m.state.inbox r).map fun q => q.message.id).Nodup := (hm r).1
  rw [hsplit, map_append, map_cons, nodup_middle, ← map_append] at hnodup
  refine find_eq_none.mpr fun q hq hqid => ?_
  rw [hinbox, herase] at hq
  refine (nodup_cons.mp hnodup).1 (List.mem_map.mpr ⟨q, hq, ?_⟩)
  rw [hqid, of_decide_eq_true htaken]

theorem mem_woken {w : Waker} {sub : Submission} (hsub : m.submissions w = some sub)
    (hp : p ∈ m.state.inbox sub.recipient) (hqueued : p.outcome = .queued)
    (hclaimed : p.message.id ∈ sub.claim.claimed) :
    (p.message.project, p.message.id) ∈ MailboxOp.woken m w := by
  unfold MailboxOp.woken
  rw [hsub]
  refine List.mem_map.mpr ⟨p, mem_filter.mpr ⟨hp, ?_⟩, rfl⟩
  simp [hqueued, hclaimed]

def Spares (m : Mailroom) (id : AgentMessageId) : MailboxOp → Prop
  | .acknowledge _ _ i => i ≠ id
  | .removeProcess r => m.state.find r id = none
  | .mark w => id ∉ (MailboxOp.woken m w).map Prod.snd
  | .record _ d => d.message.id ≠ id
  | .recordOutcome _ i _ => i ≠ id
  | _ => True

theorem touch_of_spares (hop : Spares m id op) (hp : p ∈ m.state.inbox r)
    (hpid : p.message.id = id) : op.touch m r p = p := by
  cases op with
  | mark w =>
    unfold MailboxOp.touch
    dsimp only
    split
    next sub hsub =>
      split_ifs with hr
      · refine if_neg fun hclaimed => hop (List.mem_map.mpr ⟨_, mem_woken hsub ?_ hclaimed.1 hclaimed.2, hpid⟩)
        rw [hr]
        exact hp
      · rfl
    · rfl
  | _ => rfl

theorem find_spared (hm : m.Numbered) (h : m.step op = some m') (hid : id < m.state.nextMessage)
    (hop : Spares m id op) : m'.state.find r id = m.state.find r id := by
  cases hfind : m.state.find r id with
  | none => exact find_none_step hm h hid hfind
  | some p =>
    obtain ⟨hp, hpid⟩ := hm.find_eq_some.mp hfind
    have htakes : ¬ Takes r id op := by
      intro htakes
      cases op with
      | acknowledge now r' i => exact hop htakes.2
      | removeProcess r' =>
        rw [Spares, show r' = r from htakes, hfind] at hop
        cases hop
      | _ => exact htakes
    rw [find_step hm h hid htakes, hfind, map_some, touch_of_spares hop hp hpid]

theorem entries_spared (hfiled : m.state.FiledOnce) (h : m.step op = some m')
    (hop : Spares m id op) {q : ProjectId} {e : AgentMessageRecord}
    (he : e ∈ m'.state.transcript.queue q) (heid : e.id = id) : e ∈ m.state.transcript.queue q := by
  rcases transcript_source hfiled h he with ⟨r, hr, her⟩ | ⟨now, d, hrecord, -, hed⟩
  · have hrid : r.id = id := by
      rw [← heid, her]
      exact congrArg AgentMessage.id (op.refile_message m q r).symm
    have hsame : op.refile m q r = r := by
      cases op with
      | mark w =>
        exact if_neg fun hwoken => hop (List.mem_map.mpr ⟨_, hwoken, hrid⟩)
      | recordOutcome project i outcome => exact if_neg fun hi => hop (hi.2.symm.trans hrid)
      | _ => rfl
    rw [her, hsame]
    exact hr
  · rw [hrecord] at hop
    rw [hed] at heid
    exact absurd heid hop

end Mailroom

theorem MailboxOp.queued_of_touch {m : Mailroom} (op : MailboxOp)
    (h : (op.touch m r p).outcome = .queued) : p.outcome = .queued := by
  cases op with
  | mark w =>
    unfold touch MailboxState.submitClaimed at h
    dsimp only at h
    split at h
    · split_ifs at h
      · assumption
      · assumption
    · exact h
  | _ => exact h

/-! ### Submissions in progress -/

/-- The waker whose submission an operation begins or ends. -/
def MailboxOp.waker : MailboxOp → Option Waker
  | .claim w _ | .mark w | .release w => some w
  | _ => none

namespace Mailroom
variable {m m' : Mailroom} {op : MailboxOp} {w : Waker} {r : ProcessId}

theorem submissions_of_ne (h : m.step op = some m') (hw : op.waker ≠ some w) :
    m'.submissions w = m.submissions w := by
  cases op with
  | claim v recipient =>
    have hne : w ≠ v := fun hwv => hw (congrArg some hwv.symm)
    simp only [step] at h
    split_ifs at h
    split at h
    · cases h
      exact put_of_ne hne
    · cases h
      rfl
  | mark v | release v =>
    have hne : w ≠ v := fun hwv => hw (congrArg some hwv.symm)
    obtain ⟨sub, -, hm'⟩ := map_eq_some_iff.mp h
    rw [← hm']
    exact if_neg hne
  | enqueueMany =>
    simp only [step] at h
    split_ifs at h
    cases h
    rfl
  | reserve =>
    simp only [step] at h
    split_ifs at h
    split at h <;> cases h <;> rfl
  | cancel | enqueueReserved =>
    obtain ⟨first, -, hm'⟩ := map_eq_some_iff.mp h
    rw [← hm']
  | _ =>
    cases h
    rfl

theorem submissions_claim (h : m.step (.claim w r) = some m')
    (hclaim : (m.state.claimWakeEnvelope r).2.isSome = true) :
    ∃ onboarding, m'.submissions w = some ⟨r, ⟨onboarding, m.state.queuedIds r⟩⟩ := by
  simp only [step] at h
  split_ifs at h
  rcases m.state.claimWakeEnvelope_cases r with ⟨-, hrefused⟩ | ⟨-, -, hclaimed⟩
  · rw [hrefused] at hclaim
    cases hclaim
  · rw [hclaimed] at h
    cases h
    exact ⟨_, put_self⟩

end Mailroom

/-! ### The calls of one message -/

def MailCall.acknowledgement : MailCall → Option AgentMessageDelivery
  | .acknowledged d => some d
  | _ => none

def MailCall.unsent : MailCall → List AgentMessageDelivery
  | .dispatching d =>
    match d.stage with
    | .fresh | .idle | .claimed => d.head :: d.rest
    | .settled | .recorded => d.rest
  | .recording _ d => [d]
  | _ => []

namespace Facade

def outcomeOf (s : Facade) (x : Header) : Option AgentMessageOutcome :=
  match s.room.state.find x.recipient x.id with
  | some p => some p.outcome
  | none => s.left x.id

/-- A send or a broadcast of the message has still to record it. -/
def Unrecorded (s : Facade) (id : AgentMessageId) : Prop := ∃ c < s.nextCall, id ∈ s.idsAt c

def Acknowledging (s : Facade) (id : AgentMessageId) : Prop :=
  ∃ c < s.nextCall, ∃ d ∈ (s.calls c).bind MailCall.acknowledgement, d.message.id = id

instance (s : Facade) (id : AgentMessageId) : Decidable (s.Unrecorded id) :=
  inferInstanceAs (Decidable (∃ c < s.nextCall, id ∈ s.idsAt c))

instance (s : Facade) (id : AgentMessageId) : Decidable (s.Acknowledging id) :=
  inferInstanceAs (Decidable
    (∃ c < s.nextCall, ∃ d ∈ (s.calls c).bind MailCall.acknowledgement, d.message.id = id))

/-- The acknowledgement whose outcome a step writes to the transcript. -/
def filesAcknowledgement (s : Facade) : FacadeEvent → Option AgentMessageDelivery
  | .proceed c _ => (s.calls c).bind MailCall.acknowledgement
  | _ => none

def submits (s : Facade) : FacadeEvent → Option Waker
  | .proceed c env =>
    match s.calls c with
    | some (.dispatching d) => if d.stage = .claimed ∧ env.accepted then some (.call c) else none
    | some (.poking _ .claimed) => if env.accepted then some (.call c) else none
    | _ => none
  | .errand env =>
    match s.errands with
    | .settle _ :: _ => if env.accepted then some .reactor else none
    | _ => none
  | _ => none

def attemptOf (s : Facade) : Waker → Option AgentMessageDelivery
  | .call c =>
    match s.calls c with
    | some (.dispatching d) => some d.head
    | _ => none
  | .reactor => none

def marked (s : Facade) (w : Waker) : List AgentMessageId :=
  (MailboxOp.woken s.room w).map Prod.snd

/-- While the message is still to be recorded, no acknowledgement files its outcome and no wake
carries it but the one of its own send; and that wake is marked with the message where it was
queued, or taken from there by an acknowledgement that has still to file its outcome. -/
def RecordsFirst (id : AgentMessageId) (s : Facade) (e : FacadeEvent) : Prop :=
  s.Unrecorded id →
    (∀ d ∈ s.filesAcknowledgement e, d.message.id ≠ id) ∧
    ∀ w ∈ s.submits e,
      (id ∈ s.marked w → ∃ d ∈ s.attemptOf w, d.message.id = id) ∧
      ∀ d ∈ s.attemptOf w, d.message.id = id →
        (s.room.state.find d.message.recipient id).isSome ∨ s.Acknowledging id

instance (id : AgentMessageId) (s : Facade) (e : FacadeEvent) : Decidable (RecordsFirst id s e) :=
  inferInstanceAs (Decidable (s.Unrecorded id →
    (∀ d ∈ s.filesAcknowledgement e, d.message.id ≠ id) ∧
    ∀ w ∈ s.submits e,
      (id ∈ s.marked w → ∃ d ∈ s.attemptOf w, d.message.id = id) ∧
      ∀ d ∈ s.attemptOf w, d.message.id = id →
        (s.room.state.find d.message.recipient id).isSome ∨ s.Acknowledging id))

/-! ### What a send holds -/

section Sends
variable {s t : Facade} {c : Nat} {env : Surroundings} {call call' : MailCall}

theorem Opens.unsent (h : Opens s call) : call.unsent = [] ∧ call.acknowledgement = none := by
  cases h <;> exact ⟨rfl, rfl⟩

theorem Dispatch.unsent_next (d : Dispatch) : d.next.unsent = d.rest := by
  unfold Dispatch.next
  cases d.rest with
  | cons head rest => rfl
  | nil =>
    dsimp only
    split <;> rfl

theorem Dispatch.toRecord_next (d : Dispatch) : d.next.toRecord = d.rest := by
  unfold Dispatch.next
  cases d.rest with
  | cons head rest => rfl
  | nil =>
    dsimp only
    split <;> rfl

theorem Turn.unsent (h : Turn s c env call t) : ∃ call', t.calls = s.calls.put c call' ∧
    ∀ d ∈ call'.unsent, d ∈ call.unsent ∨ d.outcome = .queued := by
  cases h with
  | silent h =>
    refine ⟨_, rfl, fun d hd => .inl ?_⟩
    cases h with
    | staged x stage hold hnew =>
      rcases hold with hold | hold <;> rcases hnew with hnew | hnew <;>
        simp only [MailCall.unsent, hold, hnew, mem_cons] at hd ⊢ <;>
        first | exact hd | exact .inr hd
    | _ => cases hd
  | performs hroom h =>
    refine ⟨_, rfl, fun d hd => ?_⟩
    cases h with
    | claimed x hstage | recorded x now hstage | released x hstage | submitted x hstage haccepted =>
      simp only [MailCall.unsent, hstage, mem_cons] at hd ⊢
      first | exact .inl hd | exact .inl (.inr hd)
    | placed spawn worker first x hfirst hplaced =>
      have hposted := MailboxOp.posted_enqueueReserved hfirst hplaced
      refine .inr ((Mailroom.posts_of_isPost hroom rfl).queued d ?_)
      rw [hposted]
      exact hd
    | _ => cases hd
  | announces h =>
    refine ⟨_, rfl, fun d hd => .inl ?_⟩
    cases h with
    | delivered x hstage e he =>
      rw [Dispatch.unsent_next] at hd
      simpa only [MailCall.unsent, hstage] using hd
    | _ => cases hd
  | arranges h =>
    refine ⟨_, rfl, fun d hd => ?_⟩
    cases h with
    | completed r outcome board call' hprojects hcall =>
      rcases hcall with hcall | hcall <;> rw [hcall] at hd <;> cases hd
    | nested spawn worker parents call' hcall =>
      rcases hcall with hcall | hcall <;> rw [hcall] at hd <;> cases hd
    | _ => cases hd
  | queued draft members recipient x room haddressee hmember hok hroom =>
    refine ⟨_, rfl, fun d hd => ?_⟩
    have hposted := MailboxOp.posted_enqueue hok
    refine .inr ((Mailroom.posts_of_isPost hroom rfl).queued d ?_)
    rw [hposted]
    exact hd
  | queuedAll draft members ds room call' haddressee hok hroom hcall =>
    have hposted := MailboxOp.posted_enqueueMany hok
    refine ⟨_, rfl, fun x hx => .inr ((Mailroom.posts_of_isPost hroom rfl).queued x ?_)⟩
    rw [hposted]
    rcases hcall with ⟨-, hcall⟩ | ⟨d, rest, hds, hcall⟩
    · rw [hcall] at hx
      cases hx
    · rw [hcall] at hx
      rw [hds]
      exact hx
  | _ => exact ⟨_, rfl, fun d hd => by cases hd⟩

/-- A send that has claimed its wake holds the claim, and the claim names its message unless it was
taken before. -/
structure Sending (s : Facade) : Prop where
  unsent : ∀ c call, s.calls c = some call → ∀ d ∈ call.unsent, d.outcome = .queued
  claimed : ∀ c x, s.calls c = some (.dispatching x) → x.stage = .claimed →
    ∃ sub, s.room.submissions (.call c) = some sub ∧ sub.recipient = x.head.message.recipient ∧
      ∀ p, s.room.state.find x.head.message.recipient x.head.message.id = some p →
        p.outcome = .queued → x.head.message.id ∈ sub.claim.claimed

theorem sending_init : Sending .init where
  unsent c call hcall := by cases hcall
  claimed c x hcall := by cases hcall

theorem Turn.room_step (h : Turn s c env call t) : t.room = s.room ∨
    ∃ op, s.room.step op = some t.room ∧ (op.waker = none ∨ op.waker = some (.call c)) := by
  cases h with
  | performs hroom h =>
    refine .inr ⟨_, hroom, ?_⟩
    cases h with
    | claimed | submitted | released | pokeClaimed | pokeSubmitted | pokeReleased => exact .inr rfl
    | _ => exact .inl rfl
  | queued draft members recipient d room haddressee hmember hok hroom =>
    exact .inr ⟨_, hroom, .inl rfl⟩
  | queuedAll draft members ds room call' haddressee hok hroom hcall =>
    exact .inr ⟨_, hroom, .inl rfl⟩
  | acknowledged recipient id now d room hok hroom => exact .inr ⟨_, hroom, .inl rfl⟩
  | _ => exact .inl rfl

theorem ErrandTurn.room_step {rest : List Errand} {e : Errand} (h : ErrandTurn s env rest e t) :
    t.calls = s.calls ∧ (t.room = s.room ∨
      ∃ op, s.room.step op = some t.room ∧ (op.waker = none ∨ op.waker = some .reactor)) := by
  cases h with
  | performs new he hnew hop hroom =>
    refine ⟨rfl, .inr ⟨_, hroom, ?_⟩⟩
    cases hop with
    | claim | mark | release => exact .inr rfl
    | _ => exact .inl rfl
  | removes id hroom => exact ⟨rfl, .inr ⟨_, hroom, .inl rfl⟩⟩
  | forgets id hroom => exact ⟨rfl, .inr ⟨_, hroom, .inl rfl⟩⟩
  | _ => exact ⟨rfl, .inl rfl⟩

variable {x : Dispatch}

theorem Turn.claims (h : Turn s c env call t) (hcall : t.calls c = some (.dispatching x))
    (hstage : x.stage = .claimed) :
    ∃ y, call = .dispatching y ∧ x.head = y.head ∧
      (s.room.state.claimWakeEnvelope x.head.message.recipient).2.isSome = true ∧
      s.room.step (.claim (.call c) x.head.message.recipient) = some t.room := by
  have hmoved : ∀ {call' : MailCall}, (s.calls.put c call') c = some (.dispatching x) →
      call' = .dispatching x := by
    intro call' h
    rw [put_self] at h
    exact some.inj h
  cases h with
  | silent h =>
    have hx := hmoved hcall
    cases h with
    | staged y stage hold hnew =>
      cases hx
      rcases hnew with hnew | hnew <;> rw [hnew] at hstage <;> cases hstage
    | _ => cases hx
  | performs hroom h =>
    have hx := hmoved hcall
    cases h with
    | claimed y hidle hclaim =>
      cases hx
      exact ⟨y, rfl, rfl, hclaim, hroom⟩
    | _ => cases hx <;> cases hstage
  | announces h =>
    have hx := hmoved hcall
    cases h with
    | delivered y hrecorded e he =>
      unfold Dispatch.next at hx
      split at hx
      · cases hx
        cases hstage
      · split at hx <;> cases hx
    | _ => cases hx
  | arranges h =>
    have hx := hmoved hcall
    cases h with
    | completed r outcome board call' hprojects hcall' =>
      rcases hcall' with hcall' | hcall' <;> rw [hcall'] at hx <;> cases hx
    | nested spawn worker parents call' hcall' =>
      rcases hcall' with hcall' | hcall' <;> rw [hcall'] at hx <;> cases hx
    | _ => cases hx
  | queued =>
    cases hmoved hcall
    cases hstage
  | queuedAll draft members ds room call' haddressee hok hroom hcall' =>
    have hx := hmoved hcall
    rcases hcall' with ⟨-, hcall'⟩ | ⟨d, rest, -, hcall'⟩
    · rw [hcall'] at hx
      cases hx
    · rw [hcall'] at hx
      cases hx
      cases hstage
  | _ => cases hmoved hcall

theorem head_minted (hs : Corresponds s) (hcall : s.calls c = some (.dispatching x)) :
    x.head.message.id < s.room.state.nextMessage := by
  refine hs.minted x.head.message.header (.inr ⟨c, ?_⟩)
  simp [headersAt, hcall, MailCall.headers, MailCall.deliveries, Dispatch.deliveries]

variable (hs : Sending s)
include hs

variable (hcorr : Corresponds s)
include hcorr

theorem Sending.claim_kept
    (hcall : s.calls c = some (.dispatching x)) (hstage : x.stage = .claimed)
    (hroom : t.room = s.room ∨
      ∃ op, s.room.step op = some t.room ∧ op.waker ≠ some (.call c)) :
    ∃ sub, t.room.submissions (.call c) = some sub ∧ sub.recipient = x.head.message.recipient ∧
      ∀ p, t.room.state.find x.head.message.recipient x.head.message.id = some p →
        p.outcome = .queued → x.head.message.id ∈ sub.claim.claimed := by
  obtain ⟨sub, hsub, hrecipient, hnamed⟩ := hs.claimed c x hcall hstage
  rcases hroom with hroom | ⟨op, hroom, hwaker⟩
  · rw [hroom]
    exact ⟨sub, hsub, hrecipient, hnamed⟩
  · refine ⟨sub, (Mailroom.submissions_of_ne hroom hwaker).trans hsub, hrecipient, ?_⟩
    intro p hp hqueued
    obtain ⟨q, hq, hpq⟩ := Mailroom.find_source hcorr.numbered hroom (head_minted hcorr hcall) hp
    refine hnamed q hq ?_
    rw [hpq] at hqueued
    exact op.queued_of_touch hqueued

theorem Sending.of_unmoved (hcalls : t.calls = s.calls)
    (hroom : t.room = s.room ∨
      ∃ op, s.room.step op = some t.room ∧ ∀ c, op.waker ≠ some (.call c)) : Sending t where
  unsent c call hcall := hs.unsent c call (hcalls ▸ hcall)
  claimed c x hcall hstage := by
    refine hs.claim_kept hcorr (hcalls ▸ hcall) hstage ?_
    rcases hroom with hroom | ⟨op, hroom, hwaker⟩
    · exact .inl hroom
    · exact .inr ⟨op, hroom, hwaker c⟩

theorem Sending.of_begun
    (hcalls : t.calls = s.calls.put s.nextCall call) (hroom : t.room = s.room) (hunsent : call.unsent = []) (hnew : ∀ x, call ≠ .dispatching x) :
    Sending t where
  unsent c call' hcall := by
    rw [hcalls] at hcall
    rcases put_eq_some.mp hcall with ⟨-, hcall⟩ | ⟨-, hcall⟩
    · rw [← hcall, hunsent]
      simp
    · exact hs.unsent c call' hcall
  claimed c x hcall hstage := by
    rw [hcalls] at hcall
    rcases put_eq_some.mp hcall with ⟨-, hcall⟩ | ⟨-, hcall⟩
    · exact absurd hcall (hnew x)
    · exact hs.claim_kept hcorr hcall hstage (.inl hroom)

theorem Sending.turn (hcall : s.calls c = some call)
    (h : Turn s c env call t) : Sending t := by
  obtain ⟨call', hcalls, hunsent⟩ := h.unsent
  constructor
  · intro i y hy d hd
    rw [hcalls] at hy
    rcases put_eq_some.mp hy with ⟨-, hy⟩ | ⟨-, hy⟩
    · rw [← hy] at hd
      rcases hunsent d hd with hd | hd
      · exact hs.unsent c call hcall d hd
      · exact hd
    · exact hs.unsent i y hy d hd
  · intro i x hx hstage
    by_cases hi : i = c
    · subst hi
      obtain ⟨y, hy, hhead, hclaim, hroom⟩ := h.claims hx hstage
      obtain ⟨onboarding, hsub⟩ := Mailroom.submissions_claim hroom hclaim
      refine ⟨_, hsub, rfl, fun p hp hqueued => ?_⟩
      have hminted := head_minted hcorr (hcall.trans (congrArg some hy))
      rw [← hhead] at hminted
      obtain ⟨q, hq, hpq⟩ := Mailroom.find_source hcorr.numbered hroom hminted hp
      obtain ⟨hmem, hqid⟩ := hcorr.numbered.find_eq_some.mp hq
      rw [← hqid]
      refine List.mem_map.mpr ⟨q, mem_filter.mpr ⟨hmem, ?_⟩, rfl⟩
      rw [hpq] at hqueued
      exact decide_eq_true hqueued
    · rw [hcalls, put_of_ne hi] at hx
      refine hs.claim_kept hcorr hx hstage ?_
      rcases h.room_step with hroom | ⟨op, hroom, hwaker⟩
      · exact .inl hroom
      · refine .inr ⟨op, hroom, ?_⟩
        rcases hwaker with hwaker | hwaker <;> rw [hwaker]
        · exact fun h => by cases h
        · intro h
          cases h
          exact hi rfl

theorem Sending.step {e : FacadeEvent}
    (h : s.step e = some t) : Sending t := by
  cases step_cases h with
  | opens hopens =>
    refine hs.of_begun hcorr rfl rfl hopens.unsent.1 fun x hx => ?_
    rw [hx] at hopens
    cases hopens
  | closes id hlive => exact hs.of_begun hcorr rfl rfl rfl fun x hx => by cases hx
  | proceeds hcall h => exact hs.turn hcorr hcall h
  | errands hnext h =>
    obtain ⟨hcalls, hroom⟩ := h.room_step
    refine hs.of_unmoved hcorr hcalls ?_
    rcases hroom with hroom | ⟨op, hroom, hwaker⟩
    · exact .inl hroom
    · refine .inr ⟨op, hroom, fun c => ?_⟩
      rcases hwaker with hwaker | hwaker <;> rw [hwaker] <;> exact fun h => by cases h
  | _ => exact hs.of_unmoved hcorr rfl (.inl rfl)

omit hcorr

omit hs

end Sends

/-! ### What is shown of a message -/

section Shown
variable {s t : Facade} {id : AgentMessageId} {c : Nat} {env : Surroundings}
  {call call' : MailCall}

/-- What the transcript holds and what is still to be recorded of a message is the state it is in,
but for an acknowledgement that has still to file its outcome. -/
structure Shown (id : AgentMessageId) (s : Facade) : Prop where
  held : ∀ c call, s.calls c = some call → ∀ d ∈ call.toRecord, d.message.id = id →
    s.Acknowledging id ∨ s.outcomeOf d.message.header = some d.outcome
  entry : ∀ q, ∀ e ∈ s.room.state.transcript.queue q, e.id = id →
    s.Acknowledging id ∨ s.outcomeOf e.delivery.message.header = some e.delivery.outcome
  acked : ∀ c d, s.calls c = some (.acknowledged d) → d.message.id = id →
    d.outcome = .acknowledged ∧ s.room.state.find d.message.recipient id = none ∧
      s.outcomeOf d.message.header = some .acknowledged

theorem shown_init : Shown id .init where
  held c call hcall := by cases hcall
  entry q e he := by cases he
  acked c d hcall := by cases hcall

theorem Fresh.acknowledging_iff (hs : s.Fresh) :
    s.Acknowledging id ↔ ∃ c d, s.calls c = some (.acknowledged d) ∧ d.message.id = id := by
  constructor
  · rintro ⟨c, -, d, hd, hid⟩
    obtain ⟨call, hcall, hack⟩ := bind_eq_some_iff.mp hd
    cases call with
    | acknowledged x =>
      cases hack
      exact ⟨c, d, hcall, hid⟩
    | _ => cases hack
  · rintro ⟨c, d, hcall, hid⟩
    refine ⟨c, ?_, d, ?_, hid⟩
    · by_contra hc
      rw [hs c (Nat.not_lt.mp hc)] at hcall
      cases hcall
    · rw [hcall]
      rfl

theorem Fresh.unrecorded_iff (hs : s.Fresh) :
    s.Unrecorded id ↔ ∃ c call, s.calls c = some call ∧ ∃ d ∈ call.toRecord, d.message.id = id := by
  constructor
  · rintro ⟨c, -, hid⟩
    unfold idsAt at hid
    cases hcall : s.calls c with
    | none =>
      rw [hcall] at hid
      cases hid
    | some call =>
      rw [hcall] at hid
      exact ⟨c, call, hcall, List.mem_map.mp hid⟩
  · rintro ⟨c, call, hcall, hid⟩
    refine ⟨c, ?_, ?_⟩
    · by_contra hc
      rw [hs c (Nat.not_lt.mp hc)] at hcall
      cases hcall
    · unfold idsAt
      rw [hcall]
      exact List.mem_map.mpr hid

variable {d : AgentMessageDelivery}

theorem knows_of_toRecord (hcall : s.calls c = some call) (hd : d ∈ call.toRecord) :
    s.Knows d.message.header := by
  refine .inr ⟨c, ?_⟩
  rw [headersAt, hcall, elim_some]
  refine mem_append_left _ (List.mem_map_of_mem (f := fun d : AgentMessageDelivery => d.message.header) ?_)
  exact call.mem_deliveries_of_toRecord hd

theorem knows_of_acknowledged (hcall : s.calls c = some (.acknowledged d)) :
    s.Knows d.message.header := by
  refine .inr ⟨c, ?_⟩
  simp [headersAt, hcall, MailCall.headers, MailCall.deliveries]

/-- The acknowledgements of the message that have still to file their outcome stay the same. -/
def SameAcknowledgements (id : AgentMessageId) (s t : Facade) : Prop :=
  ∀ c d, d.message.id = id →
    (t.calls c = some (.acknowledged d) ↔ s.calls c = some (.acknowledged d))

theorem SameAcknowledgements.acknowledging (h : SameAcknowledgements id s t) (hs : s.Fresh)
    (ht : t.Fresh) (hack : s.Acknowledging id) : t.Acknowledging id := by
  obtain ⟨c, d, hcall, hid⟩ := hs.acknowledging_iff.mp hack
  exact ht.acknowledging_iff.mpr ⟨c, d, (h c d hid).mpr hcall, hid⟩

theorem Shown.of_kept (h : Shown id s) (hs : s.Fresh) (ht : t.Fresh)
    (hacks : SameAcknowledgements id s t)
    (hout : ∀ x, s.Knows x → x.id = id → t.outcomeOf x = s.outcomeOf x)
    (hgone : ∀ x, s.Knows x → x.id = id → s.room.state.find x.recipient id = none →
      t.room.state.find x.recipient id = none)
    (hentry : ∀ q, ∀ e ∈ t.room.state.transcript.queue q, e.id = id →
      e ∈ s.room.state.transcript.queue q ∨ t.Acknowledging id ∨
        t.outcomeOf e.delivery.message.header = some e.delivery.outcome)
    (hheld : ∀ c call', t.calls c = some call' → ∀ d ∈ call'.toRecord, d.message.id = id →
      (∃ call, s.calls c = some call ∧ d ∈ call.toRecord) ∨ t.Acknowledging id ∨
        t.outcomeOf d.message.header = some d.outcome) : Shown id t where
  held c call' hcall' d hd hid := by
    rcases hheld c call' hcall' d hd hid with ⟨call, hcall, hmem⟩ | hnew
    · rcases h.held c call hcall d hmem hid with hack | hsame
      · exact .inl (hacks.acknowledging hs ht hack)
      · rw [hout _ (knows_of_toRecord hcall hmem) hid]
        exact .inr hsame
    · exact hnew
  entry q e he hid := by
    rcases hentry q e he hid with hold | hnew
    · rcases h.entry q e hold hid with hack | hsame
      · exact .inl (hacks.acknowledging hs ht hack)
      · rw [hout _ (.inl (.entry hold)) hid]
        exact .inr hsame
    · exact hnew
  acked c d hcall hid := by
    have hold := (hacks c d hid).mp hcall
    have hknown := knows_of_acknowledged hold
    obtain ⟨houtcome, hnone, hsame⟩ := h.acked c d hold hid
    refine ⟨houtcome, hgone _ hknown hid hnone, ?_⟩
    rw [hout _ hknown hid]
    exact hsame

/-- The mailbox does nothing to the message. -/
structure RoomKept (id : AgentMessageId) (s t : Facade) : Prop where
  outcome : ∀ x, s.Knows x → x.id = id → t.outcomeOf x = s.outcomeOf x
  gone : ∀ x, s.Knows x → x.id = id → s.room.state.find x.recipient id = none →
    t.room.state.find x.recipient id = none
  entries : ∀ q, ∀ e ∈ t.room.state.transcript.queue q, e.id = id →
    e ∈ s.room.state.transcript.queue q

theorem RoomKept.of_same (hroom : t.room = s.room) (hleft : t.left id = s.left id) :
    RoomKept id s t where
  outcome x _ hid := by
    subst hid
    unfold outcomeOf
    rw [hroom, hleft]
  gone x _ _ hnone := by rwa [hroom]
  entries q e he _ := by rwa [hroom] at he

variable {op : MailboxOp}

theorem RoomKept.of_spares (hcorr : Corresponds s) (hroom : s.room.step op = some t.room)
    (hop : Mailroom.Spares s.room id op) (hleft : t.left id = s.left id) : RoomKept id s t where
  outcome x hx hid := by
    subst hid
    unfold outcomeOf
    rw [Mailroom.find_spared hcorr.numbered hroom (hcorr.minted x hx) hop, hleft]
  gone x hx hid hnone := by
    subst hid
    exact Mailroom.find_none_step hcorr.numbered hroom (hcorr.minted x hx) hnone
  entries q e he hid := Mailroom.entries_spared hcorr.filed hroom hop he hid

def KeepsRecords (call call' : MailCall) : Prop := call'.toRecord ⊆ call.toRecord

theorem Silent.keepsRecords (h : Silent s call call') :
    KeepsRecords call call' ∧ call.acknowledgement = none ∧ call'.acknowledgement = none := by
  cases h with
  | staged x stage hold hnew =>
    refine ⟨fun d hd => ?_, rfl, rfl⟩
    rcases hold with hold | hold <;> rcases hnew with hnew | hnew <;>
      simpa [MailCall.toRecord, hold, hnew] using hd
  | _ => exact ⟨nil_subset _, rfl, rfl⟩

theorem Announces.keepsRecords {e : MailEvent} (h : Announces call e call') :
    KeepsRecords call call' ∧ call.acknowledgement = none ∧ call'.acknowledgement = none := by
  cases h with
  | delivered x hstage e he =>
    refine ⟨fun d hd => ?_, rfl, ?_⟩
    · rw [Dispatch.toRecord_next] at hd
      simpa only [MailCall.toRecord, hstage, if_true] using hd
    · unfold Dispatch.next
      split
      · rfl
      · split <;> rfl
  | _ => exact ⟨nil_subset _, rfl, rfl⟩

theorem Arranges.keepsRecords {tracker : Dict ProcessId (Option AgentActivity)}
    {parents : Dict ProcessId ProcessId} {board : Board}
    (h : Arranges s call tracker parents board call') :
    KeepsRecords call call' ∧ call.acknowledgement = none ∧ call'.acknowledgement = none := by
  cases h with
  | completed r outcome board call' hprojects hcall =>
    rcases hcall with rfl | rfl <;> exact ⟨nil_subset _, rfl, rfl⟩
  | nested spawn worker parents call' hcall =>
    rcases hcall with rfl | rfl <;> exact ⟨nil_subset _, rfl, rfl⟩
  | _ => exact ⟨nil_subset _, rfl, rfl⟩

theorem sameAcknowledgements_of_moved (hcall : ∀ d, s.calls c = some (.acknowledged d) →
      d.message.id ≠ id) (hcall' : ∀ d, call' = .acknowledged d → d.message.id ≠ id)
    (hcalls : t.calls = s.calls.put c call') : SameAcknowledgements id s t := by
  intro i d hid
  rw [hcalls]
  constructor
  · intro h
    rcases put_eq_some.mp h with ⟨-, h⟩ | ⟨-, h⟩
    · exact absurd hid (hcall' d h)
    · exact h
  · intro h
    by_cases hi : i = c
    · rw [hi] at h
      exact absurd hid (hcall d h)
    · rw [put_of_ne hi]
      exact h

theorem Shown.of_moved (h : Shown id s) (hs : s.Fresh) (ht : t.Fresh)
    (hroom : RoomKept id s t) (hcall : s.calls c = some call)
    (hcalls : t.calls = s.calls.put c call') (hack : ∀ d, call = .acknowledged d → d.message.id ≠ id)
    (hack' : ∀ d, call' = .acknowledged d → d.message.id ≠ id)
    (hrecords : ∀ d ∈ call'.toRecord, d.message.id = id → d ∈ call.toRecord ∨
      t.Acknowledging id ∨ t.outcomeOf d.message.header = some d.outcome) : Shown id t := by
  refine h.of_kept hs ht (sameAcknowledgements_of_moved (fun d hd => ?_) hack' hcalls) hroom.outcome
    hroom.gone (fun q e he hid => .inl (hroom.entries q e he hid)) fun i x hx d hd hid => ?_
  · rw [hcall] at hd
    exact hack d (some.inj hd)
  · rw [hcalls] at hx
    rcases put_eq_some.mp hx with ⟨hi, hx⟩ | ⟨-, hx⟩
    · rw [← hx] at hd
      rcases hrecords d hd hid with hold | hnew
      · exact .inl ⟨call, by rw [hi]; exact hcall, hold⟩
      · exact .inr hnew
    · exact .inl ⟨x, hx, hd⟩

variable {x : Header}

theorem outcomeOf_of_find {p : Pending} (hp : s.room.state.find x.recipient x.id = some p) :
    s.outcomeOf x = some p.outcome := by
  rw [outcomeOf, hp]

theorem outcomeOf_posted (hcorr : Corresponds s) (hroom : s.room.step op = some t.room)
    (hpost : op.isPost = true) (hd : d ∈ op.posted s.room) :
    t.outcomeOf d.message.header = some d.outcome := by
  have hposts := Mailroom.posts_of_isPost hroom hpost
  have hmem := (hposts.inbox d.message.recipient ⟨d.message, .queued⟩).mpr (.inr ⟨d, hd, rfl, rfl⟩)
  have hfind : t.room.state.find d.message.recipient d.message.id = some ⟨d.message, .queued⟩ :=
    (hcorr.numbered.step hroom).find_eq_some.mpr ⟨hmem, rfl⟩
  simp only [outcomeOf, AgentMessage.header, hfind, hposts.queued d hd]

variable {w : Waker}

theorem exists_of_marked (s : Facade) (h : id ∈ s.marked w) :
    ∃ p, (∃ sub, s.room.submissions w = some sub ∧ p ∈ s.room.state.inbox sub.recipient ∧
      p.message.id ∈ sub.claim.claimed) ∧ p.outcome = .queued ∧ p.message.id = id ∧
      (p.message.project, id) ∈ MailboxOp.woken s.room w := by
  obtain ⟨⟨project, i⟩, hwoken, hi⟩ := List.mem_map.mp h
  cases hi
  have hmem := hwoken
  unfold MailboxOp.woken at hmem
  split at hmem
  next sub hsub =>
    obtain ⟨p, hp, hpair⟩ := List.mem_map.mp hmem
    cases hpair
    obtain ⟨hinbox, hcarried⟩ := mem_filter.mp hp
    obtain ⟨hqueued, hclaimed⟩ := of_decide_eq_true hcarried
    exact ⟨p, ⟨sub, hsub, hinbox, hclaimed⟩, hqueued, rfl, hwoken⟩
  · cases hmem

theorem Shown.of_marked (h : Shown id s) (hcorr : Corresponds s)
    (hroom : s.room.step (.mark w) = some t.room) (hid : id ∈ s.marked w)
    (hacks : SameAcknowledgements id s t)
    (hheld : ∀ c call', t.calls c = some call' → ∀ d ∈ call'.toRecord, d.message.id = id →
      d.outcome = .wakeSubmitted ∧ s.Knows d.message.header) : Shown id t := by
  obtain ⟨p, ⟨sub, hsub, hp, hclaimed⟩, hqueued, hpid, hwoken⟩ := s.exists_of_marked hid
  have hfind : t.room.state.find sub.recipient id = some { p with outcome := .wakeSubmitted } := by
    refine (hcorr.numbered.step hroom).find_eq_some.mpr ⟨?_, hpid⟩
    have htouch : (MailboxOp.mark w).touch s.room sub.recipient p =
        { p with outcome := .wakeSubmitted } := by
      simp [MailboxOp.touch, hsub, MailboxState.submitClaimed, hqueued, hclaimed]
    rcases Mailroom.inbox_kept hroom hp with hkept | ⟨now, hop⟩ | hop
    · rwa [htouch] at hkept
    · cases hop
    · cases hop
  have hheader : ∀ x, s.Knows x → x.id = id → x = p.message.header := fun x hx hxid =>
    hcorr.agree x _ hx (.inl (.pending hp)) (hxid.trans hpid.symm)
  have hplaced : p.message.recipient = sub.recipient := hcorr.placed _ p hp
  have hout : ∀ x, s.Knows x → x.id = id → t.outcomeOf x = some .wakeSubmitted := by
    intro x hx hxid
    rw [hheader x hx hxid]
    simp only [outcomeOf, AgentMessage.header, hplaced, hpid, hfind]
  constructor
  · intro c call' hcall' d hd hdid
    obtain ⟨houtcome, hknown⟩ := hheld c call' hcall' d hd hdid
    rw [houtcome]
    exact .inr (hout _ hknown hdid)
  · intro q e he heid
    rcases Mailroom.transcript_source hcorr.filed hroom he with ⟨r, hr, her⟩ | ⟨now, d, hop, -, -⟩
    · have hmessage : e.delivery.message = r.delivery.message := by rw [her, MailboxOp.refile_message]
      have hrid : r.id = id := by
        rw [← heid]
        exact congrArg AgentMessage.id hmessage.symm
      have hknown := hheader _ (.inl (.entry hr)) hrid
      have hproject : q = p.message.project := by
        rw [← hcorr.shelved q r hr]
        exact congrArg Header.project hknown
      have hrefiled : e = r.withOutcome .wakeSubmitted := by
        rw [her, hproject]
        refine if_pos ?_
        rw [hrid]
        exact hwoken
      have hshown := hout _ (.inl (.entry hr)) hrid
      rw [hrefiled]
      exact .inr hshown
    · cases hop
  · intro c d hcall hdid
    have hold := (hacks c d hdid).mp hcall
    have hrecipient : d.message.recipient = sub.recipient := by
      rw [← hplaced]
      exact congrArg Header.recipient (hheader _ (knows_of_acknowledged hold) hdid)
    have hnone := (h.acked c d hold hdid).2.1
    rw [hrecipient, hcorr.numbered.find_eq_some.mpr ⟨hp, hpid⟩] at hnone
    cases hnone

/-- An operation that neither takes a message nor touches it. -/
theorem outcomeOf_of_untouched (hcorr : Corresponds s) (hroom : s.room.step op = some t.room)
    (hleft : t.left x.id = s.left x.id) (htakes : ¬ Mailroom.Takes x.recipient x.id op)
    (htouch : ∀ p, op.touch s.room x.recipient p = p) (hx : s.Knows x) :
    t.outcomeOf x = s.outcomeOf x := by
  have hfind := Mailroom.find_step hcorr.numbered hroom (hcorr.minted x hx) htakes
  simp only [htouch, Option.map_id'] at hfind
  unfold outcomeOf
  rw [hfind, hleft]

variable {r : ProcessId} {now : UInt64}

theorem Shown.of_acknowledged (h : Shown id s) (ht : t.Fresh) (hcorr : Corresponds s)
    (hok : (s.room.state.acknowledge now r id).2 = some d)
    (hroom : s.room.step (.acknowledge now r id) = some t.room)
    (hcalls : t.calls = s.calls.put c (.acknowledged d))
    (hleft : t.left = s.left.put id d.outcome) : Shown id t := by
  obtain ⟨p, ⟨hp, hpid⟩, hd⟩ := MailboxState.mem_of_acknowledge hok
  have hack : t.Acknowledging id := by
    refine ht.acknowledging_iff.mpr ⟨c, d, ?_, ?_⟩
    · rw [hcalls, put_self]
    · rw [hd]
      exact hpid
  have hfind := hcorr.numbered.find_eq_some.mpr ⟨hp, hpid⟩
  have hgone := Mailroom.find_acknowledged hcorr.numbered hroom hfind
  have hleave : t.left id = some .acknowledged := by
    rw [hleft, put_self, hd]
  have hminted : id < s.room.state.nextMessage := by
    rw [← hpid]
    exact hcorr.minted p.message.header (.inl (.pending hp))
  refine ⟨fun _ _ _ _ _ _ => .inl hack, fun _ _ _ _ => .inl hack, ?_⟩
  intro i x hx hxid
  rw [hcalls] at hx
  rcases put_eq_some.mp hx with ⟨-, hx⟩ | ⟨-, hx⟩
  · cases hx
    have hrecipient := hcorr.placed r p hp
    rw [hd]
    simp only [outcomeOf, AgentMessage.header, hrecipient, hpid, hgone, hleave, and_self]
  · obtain ⟨houtcome, hnone, -⟩ := h.acked i x hx hxid
    have hstill := Mailroom.find_none_step hcorr.numbered hroom hminted hnone
    simp only [outcomeOf, AgentMessage.header, hxid, hstill, hleave, houtcome, and_self]

theorem Shown.of_filed (h : Shown id s) (hcorr : Corresponds s)
    (hcall : s.calls c = some (.acknowledged d)) (hdid : d.message.id = id)
    (hroom : s.room.step (.recordOutcome d.message.project id d.outcome) = some t.room)
    (hcalls : t.calls = s.calls.put c (.announcing d)) (hleft : t.left = s.left)
    (hrecorded : ∀ c call, s.calls c = some call → ∀ x ∈ call.toRecord, x.message.id ≠ id) :
    Shown id t := by
  obtain ⟨houtcome, hnone, hstate⟩ := h.acked c d hcall hdid
  have hknown := knows_of_acknowledged hcall
  have hout : ∀ x, s.Knows x → x.id = id → t.outcomeOf x = s.outcomeOf x := fun x hx _ =>
    outcomeOf_of_untouched hcorr hroom (by rw [hleft]) (fun htakes => htakes) (fun _ => rfl) hx
  constructor
  · intro i call' hcall' x hx hxid
    rw [hcalls] at hcall'
    rcases put_eq_some.mp hcall' with ⟨-, hcall'⟩ | ⟨-, hcall'⟩
    · rw [← hcall'] at hx
      cases hx
    · exact absurd hxid (hrecorded i call' hcall' x hx)
  · intro q e he heid
    rcases Mailroom.transcript_source hcorr.filed hroom he with ⟨r, hr, her⟩ | ⟨now, y, hop, -, -⟩
    · have hmessage : e.delivery.message = r.delivery.message := by rw [her, MailboxOp.refile_message]
      have hrid : r.id = id := by
        rw [← heid]
        exact congrArg AgentMessage.id hmessage.symm
      have hheader := hcorr.agree _ _ (.inl (.entry hr)) hknown (hrid.trans hdid.symm)
      have hproject : q = d.message.project := by
        rw [← hcorr.shelved q r hr]
        exact congrArg Header.project hheader
      have hrefiled : e = r.withOutcome d.outcome := by
        rw [her]
        exact if_pos ⟨hproject, hrid⟩
      have hshown : t.outcomeOf r.delivery.message.header = some d.outcome := by
        rw [hout _ (.inl (.entry hr)) hrid, hheader, hstate, houtcome]
      rw [hrefiled]
      exact .inr hshown
    · cases hop
  · intro i x hx hxid
    rw [hcalls] at hx
    rcases put_eq_some.mp hx with ⟨-, hx⟩ | ⟨-, hx⟩
    · cases hx
    · obtain ⟨hxoutcome, hxnone, hxstate⟩ := h.acked i x hx hxid
      have hxknown := knows_of_acknowledged hx
      refine ⟨hxoutcome, ?_, ?_⟩
      · rw [← hxid] at hxnone ⊢
        exact Mailroom.find_none_step hcorr.numbered hroom (hcorr.minted _ hxknown) hxnone
      · rw [hout _ hxknown hxid]
        exact hxstate

theorem RoomKept.of_removed (hcorr : Corresponds s)
    (hroom : s.room.step (.removeProcess r) = some t.room) (hleft : t.left = s.leave r) :
    RoomKept id s t := by
  have hempty : t.room.state.find r id = none := by
    refine Mailroom.find_eq_none.mpr fun p hp => ?_
    have hinbox : t.room.state.inbox r = [] := by
      have hbox := s.room.state.letterbox_removeProcess Slots.empty r r
      rw [if_pos rfl] at hbox
      have hremoved : t.room.state = s.room.state.removeProcess r := by
        rw [← some.inj hroom]
      rw [hremoved]
      exact congrArg Letterbox.inbox (some.inj hbox)
    rw [hinbox] at hp
    cases hp
  constructor
  · intro x hx hxid
    by_cases hr : x.recipient = r
    · unfold outcomeOf
      rw [hr, hxid, hempty, hleft]
      rfl
    · have htakes : ¬ Mailroom.Takes x.recipient x.id (.removeProcess r) := fun h => hr h.symm
      have hother : s.room.state.find r x.id = none := by
        cases hp : s.room.state.find r x.id with
        | none => rfl
        | some p =>
          obtain ⟨hmem, hpid⟩ := hcorr.numbered.find_eq_some.mp hp
          have hheader := hcorr.agree _ _ (.inl (.pending hmem)) hx hpid
          refine absurd ?_ hr
          rw [← hcorr.placed r p hmem]
          exact (congrArg Header.recipient hheader).symm
      have hleave : t.left x.id = s.left x.id := by
        rw [hleft, leave, hother]
      exact outcomeOf_of_untouched hcorr hroom hleave htakes (fun _ => rfl) hx
  · intro x hx hxid hnone
    rw [← hxid] at hnone ⊢
    exact Mailroom.find_none_step hcorr.numbered hroom (hcorr.minted x hx) hnone
  · intro q e he _
    rcases Mailroom.transcript_source hcorr.filed hroom he with ⟨x, hx, hex⟩ | ⟨now, d, hop, -, -⟩
    · rw [hex]
      exact hx
    · cases hop

theorem Shown.of_still (h : Shown id s) (hs : s.Fresh) (ht : t.Fresh)
    (hcall : s.calls c = some call) (hcalls : t.calls = s.calls.put c call')
    (hroom : RoomKept id s t) (hkeeps : KeepsRecords call call' ∧ call.acknowledgement = none ∧
      call'.acknowledgement = none) : Shown id t := by
  obtain ⟨hrecords, hack, hack'⟩ := hkeeps
  refine h.of_moved hs ht hroom hcall hcalls ?_ ?_ fun d hd _ => .inl (hrecords hd)
  · intro d hd
    rw [hd] at hack
    cases hack
  · intro d hd
    rw [hd] at hack'
    cases hack'

theorem Shown.of_recorded (h : Shown id s) (hs : s.Fresh) (ht : t.Fresh) (hcorr : Corresponds s)
    (hcall : s.calls c = some call)
    (hcalls : t.calls = s.calls.put c call') (hroom : s.room.step (.record now d) = some t.room)
    (hleft : t.left = s.left) (hd : d ∈ call.toRecord) (hkeeps : KeepsRecords call call' ∧
      call.acknowledgement = none ∧ call'.acknowledgement = none) : Shown id t := by
  obtain ⟨hrecords, hack, hack'⟩ := hkeeps
  have hacks : SameAcknowledgements id s t := by
    refine sameAcknowledgements_of_moved (fun x hx => ?_) (fun x hx => ?_) hcalls
    · rw [hcall] at hx
      rw [some.inj hx] at hack
      cases hack
    · rw [hx] at hack'
      cases hack'
  have hout : ∀ x, s.Knows x → x.id = id → t.outcomeOf x = s.outcomeOf x := fun x hx _ =>
    outcomeOf_of_untouched hcorr hroom (by rw [hleft]) (fun htakes => htakes) (fun _ => rfl) hx
  refine h.of_kept hs ht hacks hout ?_ ?_ ?_
  · intro x hx hxid hnone
    rw [← hxid] at hnone ⊢
    exact Mailroom.find_none_step hcorr.numbered hroom (hcorr.minted x hx) hnone
  · intro q e he heid
    rcases Mailroom.transcript_source hcorr.filed hroom he with ⟨r, hr, her⟩ | ⟨now', y, hop, -, hed⟩
    · rw [her]
      exact .inl hr
    · -- the new entry shows what the send held
      cases hop
      rw [hed] at heid ⊢
      refine .inr ?_
      rcases h.held c call hcall d hd heid with hold | hold
      · exact .inl (hacks.acknowledging hs ht hold)
      · exact .inr ((hout _ (knows_of_toRecord hcall hd) heid).trans hold)
  · intro i x hx y hy _
    rw [hcalls] at hx
    rcases put_eq_some.mp hx with ⟨hi, hx⟩ | ⟨-, hx⟩
    · rw [← hx] at hy
      exact .inl ⟨call, by rw [hi]; exact hcall, hrecords hy⟩
    · exact .inl ⟨x, hx, hy⟩

theorem Shown.of_submitted (h : Shown id s) (hs : s.Fresh) (ht : t.Fresh) (hsend : Sending s)
    (hcorr : Corresponds s)
    {x : Dispatch} (hfirst : RecordsFirst id s (.proceed c env))
    (haccepted : env.accepted = true) (hcall : s.calls c = some (.dispatching x))
    (hstage : x.stage = .claimed) (hroom : s.room.step (.mark (.call c)) = some t.room)
    (hcalls : t.calls = s.calls.put c
      (.dispatching { x with head := ⟨x.head.message, .wakeSubmitted⟩, stage := .settled }))
    (hleft : t.left = s.left) : Shown id t := by
  have hacks : SameAcknowledgements id s t :=
    sameAcknowledgements_of_moved (fun d hd => by rw [hcall] at hd; cases hd)
      (fun d hd => by cases hd) hcalls
  have hsubmits : s.submits (.proceed c env) = some (.call c) := by
    simp [submits, hcall, hstage, haccepted]
  have hattempt : s.attemptOf (.call c) = some x.head := by
    simp [attemptOf, hcall]
  have hold : (MailCall.dispatching x).toRecord = x.head :: x.rest := by
    simp [MailCall.toRecord, hstage]
  have hhead : x.head ∈ (MailCall.dispatching x).toRecord := by
    rw [hold]
    exact .head _
  by_cases hid : id ∈ s.marked (.call c)
  · have hown : ∀ i call', s.calls i = some call' → ∀ d ∈ call'.toRecord, d.message.id = id →
        x.head.message.id = id := by
      intro i call' hcall' d hd hdid
      have hunrecorded : s.Unrecorded id := hs.unrecorded_iff.mpr ⟨i, call', hcall', d, hd, hdid⟩
      obtain ⟨y, hy, hyid⟩ := ((hfirst hunrecorded).2 _ hsubmits).1 hid
      rw [hattempt] at hy
      cases hy
      exact hyid
    have hids : s.idsAt c = x.head.message.id :: x.rest.map fun d => d.message.id := by
      simp [idsAt, hcall, MailCall.idsToRecord, hold]
    refine h.of_marked hcorr hroom hid hacks fun i call' hcall' d hd hdid => ?_
    rw [hcalls] at hcall'
    rcases put_eq_some.mp hcall' with ⟨-, hcall'⟩ | ⟨hi, hcall'⟩
    · rw [← hcall'] at hd
      rcases mem_cons.mp hd with hd | hd
      · have hknown := knows_of_toRecord hcall hhead
        rw [hd]
        exact ⟨rfl, hknown⟩
      · have hmem : d ∈ (MailCall.dispatching x).toRecord := by
          rw [hold]
          exact .tail _ hd
        have hhid := hown c _ hcall d hmem hdid
        have hnodup := hcorr.once c
        rw [hids, hhid, ← hdid] at hnodup
        exact absurd (List.mem_map_of_mem hd) (nodup_cons.mp hnodup).1
    · have hhid := hown i call' hcall' d hd hdid
      have hati : id ∈ s.idsAt i := by
        rw [idsAt, hcall', elim_some, ← hdid]
        exact List.mem_map_of_mem hd
      have hatc : id ∈ s.idsAt c := by
        rw [hids, hhid]
        exact .head _
      exact absurd (hcorr.apart i c id hati hatc) hi
  · refine h.of_moved hs ht (.of_spares hcorr hroom hid (by rw [hleft])) hcall hcalls
      (fun d hd => by cases hd) (fun d hd => by cases hd) fun d hd hdid => ?_
    rcases mem_cons.mp hd with hd | hd
    · -- the send's own message: not marked, so an acknowledgement has taken it
      rw [hd] at hdid
      have hunrecorded : s.Unrecorded id := hs.unrecorded_iff.mpr ⟨c, _, hcall, x.head, hhead, hdid⟩
      have hwhere := ((hfirst hunrecorded).2 _ hsubmits).2 x.head hattempt hdid
      have hacking : s.Acknowledging id := by
        rcases hwhere with hfound | hacking
        · rcases h.held c _ hcall x.head hhead hdid with hacking | hstate
          · exact hacking
          · obtain ⟨p, hp⟩ := isSome_iff_exists.mp hfound
            have hqueued : x.head.outcome = .queued :=
              hsend.unsent c _ hcall x.head (by simp [MailCall.unsent, hstage])
            have hpqueued : p.outcome = .queued := by
              have hfind : s.room.state.find x.head.message.header.recipient
                  x.head.message.header.id = some p := by
                rw [← hp]
                exact congrArg _ hdid
              rw [outcomeOf_of_find hfind, hqueued] at hstate
              exact some.inj hstate
            obtain ⟨sub, hsub, hrecipient, hnamed⟩ := hsend.claimed c x hcall hstage
            rw [hdid] at hnamed
            have hclaimed := hnamed p hp hpqueued
            obtain ⟨hmem, hpid⟩ := hcorr.numbered.find_eq_some.mp hp
            rw [← hrecipient] at hmem
            rw [← hpid] at hclaimed
            refine absurd (List.mem_map.mpr ⟨_, Mailroom.mem_woken hsub hmem hpqueued hclaimed, hpid⟩)
              hid
        · exact hacking
      exact .inr (.inl (hacks.acknowledging hs ht hacking))
    · refine .inl ?_
      rw [hold]
      exact .tail _ hd

/-- A step that moves no call and does nothing to the message. -/
theorem Shown.of_unmoved (h : Shown id s) (hs : s.Fresh) (ht : t.Fresh)
    (hcalls : t.calls = s.calls) (hkept : RoomKept id s t) : Shown id t := by
  have hacks : SameAcknowledgements id s t := by
    intro c d _
    rw [hcalls]
  refine h.of_kept hs ht hacks hkept.outcome hkept.gone
    (fun q e he heid => .inl (hkept.entries q e he heid)) fun c call' hcall' d hd _ => ?_
  exact .inl ⟨call', hcalls ▸ hcall', hd⟩

variable {e : FacadeEvent}

variable (h : Shown id s)
include h

/-- A wake of a decision or of the reactor, which sends no message that is still to be recorded. -/
theorem Shown.of_poked (hs : s.Fresh) (ht : t.Fresh) (hcorr : Corresponds s)
    (hfirst : RecordsFirst id s e) (hsubmits : s.submits e = some w)
    (hattempt : s.attemptOf w = none) (hroom : s.room.step (.mark w) = some t.room)
    (hacks : SameAcknowledgements id s t) (hleft : t.left = s.left)
    (hheld : ∀ c call', t.calls c = some call' → ∀ d ∈ call'.toRecord,
      ∃ call, s.calls c = some call ∧ d ∈ call.toRecord) : Shown id t := by
  by_cases hid : id ∈ s.marked w
  · refine h.of_marked hcorr hroom hid hacks fun c call' hcall' d hd hdid => ?_
    obtain ⟨call, hcall, hmem⟩ := hheld c call' hcall' d hd
    have hunrecorded : s.Unrecorded id := hs.unrecorded_iff.mpr ⟨c, call, hcall, d, hmem, hdid⟩
    obtain ⟨x, hx, -⟩ := ((hfirst hunrecorded).2 w hsubmits).1 hid
    rw [hattempt] at hx
    cases hx
  · have hkept : RoomKept id s t := .of_spares hcorr hroom hid (by rw [hleft])
    refine h.of_kept hs ht hacks hkept.outcome hkept.gone
      (fun q e he heid => .inl (hkept.entries q e he heid)) fun c call' hcall' d hd _ => ?_
    exact .inl (hheld c call' hcall' d hd)

theorem Shown.performs (hs : s.Fresh) (ht : t.Fresh) (hsend : Sending s)
    (hcorr : Corresponds s) (hfirst : RecordsFirst id s (.proceed c env))
    (hcall : s.calls c = some call) (hroom : s.room.step op = some t.room)
    (hop : Performs s c env call op call') (hcalls : t.calls = s.calls.put c call')
    (hleft : t.left = s.left) : Shown id t := by
  have hspared : Mailroom.Spares s.room id op → RoomKept id s t := fun hspares =>
    .of_spares hcorr hroom hspares (by rw [hleft])
  cases hop with
  | claimed x hstage | released x hstage =>
    refine h.of_still hs ht hcall hcalls (hspared trivial) ⟨?_, rfl, rfl⟩
    simp [KeepsRecords, MailCall.toRecord, hstage]
  | submitted x hstage haccepted =>
    exact h.of_submitted hs ht hsend hcorr hfirst haccepted hcall hstage hroom hcalls hleft
  | recorded x now hstage =>
    refine h.of_recorded hs ht hcorr hcall hcalls hroom hleft ?_ ⟨?_, rfl, rfl⟩
    · simp [MailCall.toRecord, hstage]
    · simp [KeepsRecords, MailCall.toRecord, hstage]
  | taskRecorded worker d now =>
    exact h.of_recorded hs ht hcorr hcall hcalls hroom hleft (.head _)
      ⟨nil_subset _, rfl, rfl⟩
  | outcomeRecorded d =>
    by_cases hdid : d.message.id = id
    · have hfiles : s.filesAcknowledgement (.proceed c env) = some d := by
        simp [filesAcknowledgement, hcall, MailCall.acknowledgement]
      have hrecorded : ¬ s.Unrecorded id := fun hunrecorded =>
        (hfirst hunrecorded).1 d hfiles hdid
      refine h.of_filed hcorr hcall hdid (hdid ▸ hroom) hcalls hleft fun i y hy x hx hxid => ?_
      exact hrecorded (hs.unrecorded_iff.mpr ⟨i, y, hy, x, hx, hxid⟩)
    · refine h.of_moved hs ht (hspared hdid) hcall hcalls (fun x hx => ?_) (fun x hx => ?_) ?_
      · cases hx
        exact hdid
      · cases hx
      · intro x hx
        cases hx
  | placed spawn worker first d hfirst' hplaced =>
    refine h.of_moved hs ht (hspared trivial) hcall hcalls (fun x hx => by cases hx)
      (fun x hx => by cases hx) fun x hx _ => .inr (.inr ?_)
    refine outcomeOf_posted hcorr hroom rfl ?_
    rw [MailboxOp.posted_enqueueReserved hfirst' hplaced]
    exact hx
  | pokeSubmitted process haccepted =>
    refine h.of_poked hs ht hcorr hfirst ?_ ?_ hroom ?_ hleft fun i y hy d hd => ?_
    · simp [submits, hcall, haccepted]
    · simp [attemptOf, hcall]
    · exact sameAcknowledgements_of_moved (fun x hx => by rw [hcall] at hx; cases hx)
        (fun x hx => by cases hx) hcalls
    · rw [hcalls] at hy
      rcases put_eq_some.mp hy with ⟨-, hy⟩ | ⟨-, hy⟩
      · rw [← hy] at hd
        cases hd
      · exact ⟨y, hy, hd⟩
  | _ =>
    exact h.of_still hs ht hcall hcalls (hspared trivial) ⟨nil_subset _, rfl, rfl⟩

theorem Shown.turn (hs : s.Fresh) (ht : t.Fresh) (hsend : Sending s)
    (hcorr : Corresponds s)
    (hfirst : RecordsFirst id s (.proceed c env))
    (hcall : s.calls c = some call) (hturn : Turn s c env call t) : Shown id t := by
  cases hturn with
  | silent hsilent => exact h.of_still hs ht hcall rfl (.of_same rfl rfl) hsilent.keepsRecords
  | announces hannounces => exact h.of_still hs ht hcall rfl (.of_same rfl rfl) hannounces.keepsRecords
  | arranges harranges => exact h.of_still hs ht hcall rfl (.of_same rfl rfl) harranges.keepsRecords
  | registered l =>
    exact h.of_still hs ht hcall rfl (.of_same rfl rfl) ⟨nil_subset _, rfl, rfl⟩
  | unregistered project i ids hlive =>
    exact h.of_still hs ht hcall rfl (.of_same rfl rfl) ⟨nil_subset _, rfl, rfl⟩
  | acknowledged r i now d room hok hroom =>
    by_cases hi : i = id
    · subst hi
      exact h.of_acknowledged ht hcorr hok hroom rfl rfl
    · obtain ⟨p, ⟨-, hpid⟩, hd⟩ := MailboxState.mem_of_acknowledge hok
      have hroom' : RoomKept id s { s.setCall c (.acknowledged d) with
          room, left := s.left.put i d.outcome } :=
        .of_spares hcorr hroom hi (put_of_ne fun hid => hi hid.symm)
      refine h.of_moved hs ht hroom' hcall rfl (fun x hx => by cases hx) ?_
        fun x hx => by cases hx
      intro x hx
      cases hx
      rw [hd]
      exact fun hxid => hi (hpid.symm.trans hxid)
  | queued draft members recipient d room haddressee hmember hok hroom =>
    refine h.of_moved hs ht (.of_spares hcorr hroom trivial rfl) hcall rfl (fun x hx => by cases hx)
      (fun x hx => by cases hx) fun x hx _ => .inr (.inr ?_)
    refine outcomeOf_posted hcorr hroom rfl ?_
    rw [MailboxOp.posted_enqueue hok]
    exact hx
  | queuedAll draft members ds room call' haddressee hok hroom hcall' =>
    have hnone : ∀ d, call' ≠ .acknowledged d := by
      rintro d rfl
      rcases hcall' with ⟨-, hcall'⟩ | ⟨x, rest, -, hcall'⟩ <;> cases hcall'
    refine h.of_moved hs ht (.of_spares hcorr hroom trivial rfl) hcall rfl (fun x hx => by cases hx)
      (fun x hx => absurd hx (hnone x)) fun x hx _ => .inr (.inr ?_)
    refine outcomeOf_posted hcorr hroom rfl ?_
    rw [MailboxOp.posted_enqueueMany hok]
    rcases hcall' with ⟨-, hcall'⟩ | ⟨y, rest, hds, hcall'⟩
    · rw [hcall'] at hx
      cases hx
    · rw [hcall'] at hx
      rw [hds]
      exact hx
  | performs hroom hop => exact h.performs hs ht hsend hcorr hfirst hcall hroom hop rfl rfl

theorem Shown.errand (hs : s.Fresh) (ht : t.Fresh) (hcorr : Corresponds s)
    {e : Errand} {rest : List Errand} (hfirst : RecordsFirst id s (.errand env))
    (hnext : s.errands = e :: rest) (hturn : ErrandTurn s env rest e t) : Shown id t := by
  cases hturn with
  | plans | announces => exact h.of_unmoved hs ht rfl (.of_same rfl rfl)
  | performs new he hnew hop hroom hmark =>
    cases hop with
    | mark =>
      obtain ⟨⟨r, hsettle⟩, haccepted⟩ := hmark rfl
      refine h.of_poked hs ht hcorr hfirst ?_ rfl hroom (fun _ _ _ => Iff.rfl) rfl
        fun c call' hcall' d hd => ⟨call', hcall', hd⟩
      simp [submits, hnext, hsettle, haccepted]
    | _ => exact h.of_unmoved hs ht rfl (.of_spares hcorr hroom trivial rfl)
  | removes r hroom => exact h.of_unmoved hs ht rfl (.of_removed hcorr hroom rfl)
  | forgets q hroom => exact h.of_unmoved hs ht rfl (.of_spares hcorr hroom trivial rfl)

/-- A step begins a call that has nothing to record and acknowledges nothing yet. -/
theorem Shown.of_begun (hs : s.Fresh) (ht : t.Fresh)
    (hcalls : t.calls = s.calls.put s.nextCall call) (hroom : t.room = s.room)
    (hleft : t.left = s.left) (hrecord : call.toRecord = []) (hack : call.acknowledgement = none) :
    Shown id t := by
  have hkept : RoomKept id s t := .of_same hroom (by rw [hleft])
  have hacks : SameAcknowledgements id s t := by
    refine sameAcknowledgements_of_moved (fun d hd => ?_) (fun d hd => ?_) hcalls
    · rw [hs _ le_rfl] at hd
      cases hd
    · rw [hd] at hack
      cases hack
  refine h.of_kept hs ht hacks hkept.outcome hkept.gone
    (fun q e he heid => .inl (hkept.entries q e he heid)) fun c call' hcall' d hd _ => ?_
  rw [hcalls] at hcall'
  rcases put_eq_some.mp hcall' with ⟨-, hcall'⟩ | ⟨-, hcall'⟩
  · rw [← hcall', hrecord] at hd
    cases hd
  · exact .inl ⟨call', hcall', hd⟩

theorem Shown.step (hsend : Sending s) (hcorr : Corresponds s)
    (hfirst : RecordsFirst id s e) (hstep : s.step e = some t) : Shown id t := by
  have hs := hcorr.fresh
  have ht := (hcorr.step hstep).fresh
  cases step_cases hstep with
  | opens hopens =>
    have hrecord : ∀ {call : MailCall}, Opens s call → call.toRecord = [] := by
      intro call hopens
      cases hopens <;> rfl
    exact h.of_begun hs ht rfl rfl rfl (hrecord hopens) hopens.unsent.2
  | closes i hlive => exact h.of_begun hs ht rfl rfl rfl rfl rfl
  | proceeds hcall hturn => exact h.turn hs ht hsend hcorr hfirst hcall hturn
  | errands hnext hturn => exact h.errand hs ht hcorr hfirst hnext hturn
  | _ => exact h.of_unmoved hs ht rfl (.of_same rfl rfl)

omit h

/-- Once no acknowledgement of a message has its outcome still to file, an entry retained for it
shows the state it is in. -/
theorem transcript_current (hs : facadeMachine.ReachableUnder (RecordsFirst id) s)
    (hfiled : ¬ s.Acknowledging id) :
    ∀ q, ∀ e ∈ s.room.state.transcript.queue q, e.id = id →
      s.outcomeOf e.delivery.message.header = some e.delivery.outcome := by
  have hinv : Corresponds s ∧ Sending s ∧ Shown id s := by
    refine hs.invariant (P := fun s => Corresponds s ∧ Sending s ∧ Shown id s) ?_ ?_
    · intro u hu
      rw [hu]
      exact ⟨corresponds_init, sending_init, shown_init⟩
    · rintro u e v hfirst ⟨hcorr, hsend, hshown⟩ hstep
      exact ⟨hcorr.step hstep, hsend.step hcorr hstep, hshown.step hsend hcorr hfirst hstep⟩
  obtain ⟨-, -, hshown⟩ := hinv
  intro q e he heid
  rcases hshown.entry q e he heid with hack | hstate
  · exact absurd hack hfiled
  · exact hstate

end Shown

/-! ### Runs -/

def MailCall.hasReturned : MailCall → Bool
  | .returned _ => true
  | _ => false

/-- Every call has returned, and the reactor has answered every event. -/
def Settled (s : Facade) : Prop :=
  (∀ c < s.nextCall, (s.calls c).all MailCall.hasReturned = true) ∧ s.errands = [] ∧
    s.bus = ⟨[], false⟩

instance (s : Facade) : Decidable s.Settled :=
  inferInstanceAs (Decidable ((∀ c < s.nextCall, (s.calls c).all MailCall.hasReturned = true) ∧
    s.errands = [] ∧ s.bus = ⟨[], false⟩))

def proceeds (c n : Nat) (env : Surroundings := {}) : List FacadeEvent :=
  List.replicate n (.proceed c env)

def drains (n : Nat) : List FacadeEvent := (List.replicate n [.receive, .errand {}]).flatten

def lead : Caller := ⟨some 1, some 1⟩

def worker : Caller := ⟨some 1, some 2⟩

/-- The lead, process 1, spawns a worker, process 2, with the task that is message 1. -/
def spawned : List FacadeEvent :=
  [.openProject, .launch 1 .agent "lead"] ++ proceeds 0 3 ++
  [.spawn lead none ⟨"claude", some "do it", none, false⟩] ++ proceeds 1 8 { project := some 1 }

def enqueued : List FacadeEvent :=
  spawned ++ [.send lead 2 "hi" none] ++ proceeds 2 1 { project := some 1 } ++
  proceeds 2 1 { order := [2, 1] } ++ proceeds 2 5

theorem transcript_current_acknowledged :
    ∃ s, facadeMachine.ReachableUnder (RecordsFirst 2) s ∧
      ∃ e ∈ s.room.state.transcript.queue 1, e.id = 2 ∧ e.delivery.outcome = .acknowledged ∧
        s.outcomeOf e.delivery.message.header = some e.delivery.outcome := by
  obtain ⟨s, hs, hfiled, e, he, heid, houtcome⟩ :=
    facadeMachine.exists_reachableUnder_of_run (G := RecordsFirst 2) rfl
      (enqueued ++ proceeds 2 3 ++ [.acknowledge worker 2] ++ proceeds 3 3) (by decide)
      (fun s => ¬ s.Acknowledging 2 ∧ ∃ e ∈ s.room.state.transcript.queue 1,
        e.id = 2 ∧ e.delivery.outcome = .acknowledged) (by decide)
  exact ⟨s, hs, e, he, heid, houtcome, transcript_current hs hfiled 1 e he heid⟩

/-- The worker acknowledges the message before its send records it: the transcript shows it queued
for good. -/
theorem transcript_stale :
    ∃ s, facadeMachine.Reachable s ∧ s.Settled ∧
      ∃ e ∈ s.room.state.transcript.queue 1,
        s.outcomeOf e.delivery.message.header = some .acknowledged ∧
          e.delivery.outcome = .queued :=
  facadeMachine.exists_reachable_of_run rfl
    (enqueued ++ [.acknowledge worker 2] ++ proceeds 3 3 ++ proceeds 2 3 ++ drains 3) _ (by decide)

end Facade

end Soloist
