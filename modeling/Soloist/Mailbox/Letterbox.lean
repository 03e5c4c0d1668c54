import Soloist.Mailbox.Effects

/-! One recipient's part of the mailbox: its inbox, its onboarding, the wake it is owed, the
in-flight latch and the submissions in progress for it. Every operation of the mailbox acts on each
recipient's part by itself, as one of nine acts or not at all. -/
open Option

namespace Soloist

structure Letterbox where
  inbox : List Pending
  onboarding : Option String
  wake : Option PendingWake
  inFlight : Bool
  claims : Slots Waker WakeClaim

inductive LetterboxAct
  | deliver (now : UInt64) (message : AgentMessage)
  | brief (now : UInt64) (guide : String)
  | claim (waker : Waker)
  | mark (waker : Waker)
  | release (waker : Waker)
  | refuse
  | nonIdle (now : UInt64)
  | acknowledge (now : UInt64) (id : AgentMessageId)
  | remove

namespace Letterbox

def waiting (b : Letterbox) : Bool :=
  (b.inbox.any fun p => p.outcome = .queued) || b.onboarding.isSome

def queuedIds (b : Letterbox) : List AgentMessageId :=
  (b.inbox.filter fun p => p.outcome = .queued).map fun p => p.message.id

def armIfWaiting (b : Letterbox) (now : UInt64) : Letterbox :=
  if b.waiting then { b with wake := some (.armed now) } else b

def endWake (b : Letterbox) (now : UInt64) : Letterbox :=
  { b with inFlight := false }.armIfWaiting now

def discard (b : Letterbox) (now : UInt64) (p : Pending) : Letterbox :=
  let b := { b with inbox := b.inbox.eraseP fun q => q.message.id = p.message.id }
  if p.outcome = .wakeSubmitted then b.endWake now else b

def step (b : Letterbox) : LetterboxAct → Option Letterbox
  | .deliver now message =>
    some { b with
      inbox := b.inbox ++ [⟨message, .queued⟩]
      wake := some (b.wake.getD (.armed now)) }
  | .brief now guide => some { b with onboarding := some guide, wake := some (.armed now) }
  | .claim waker =>
    if b.waiting ∧ ¬ b.inFlight ∧ b.claims waker = none then
      some { b with
        inFlight := true
        claims := b.claims.put waker ⟨b.onboarding, b.queuedIds⟩ }
    else none
  | .mark waker =>
    (b.claims waker).map fun c =>
      { b with
        inbox := b.inbox.map (MailboxState.submitClaimed c.claimed)
        onboarding := none
        wake := none
        claims := b.claims.erase waker }
  | .release waker =>
    (b.claims waker).map fun _ => { b with inFlight := false, claims := b.claims.erase waker }
  | .refuse => some { b with wake := b.wake.map PendingWake.refused }
  | .nonIdle now => if b.inFlight then some (b.endWake now) else none
  | .acknowledge now id => (b.inbox.find? fun p => p.message.id = id).map (b.discard now)
  | .remove => some { b with inbox := [], onboarding := none, wake := none, inFlight := false }

end Letterbox

def claimsOf (subs : Slots Waker Submission) (r : ProcessId) : Slots Waker WakeClaim := fun w =>
  (subs w).bind fun sub => if sub.recipient = r then some sub.claim else none

section ClaimsOf
variable {subs : Slots Waker Submission} {w : Waker} {sub : Submission} {r : ProcessId}

theorem claimsOf_eq_some {c : WakeClaim} :
    claimsOf subs r w = some c ↔ subs w = some ⟨r, c⟩ := by
  unfold claimsOf
  rw [bind_eq_some_iff]
  constructor
  · rintro ⟨⟨i, c'⟩, hw, hc⟩
    split_ifs at hc with hi
    cases hc
    cases hi
    exact hw
  · intro hw
    exact ⟨⟨r, c⟩, hw, if_pos rfl⟩

theorem claimsOf_put (hfree : subs w = none) :
    claimsOf (subs.put w sub) r =
      if sub.recipient = r then (claimsOf subs r).put w sub.claim else claimsOf subs r := by
  funext i
  unfold claimsOf
  by_cases hi : i = w
  · subst hi
    split_ifs with hr
    · simp [hr]
    · simp [hr, hfree]
  · split_ifs with hr
    · simp [Slots.put_of_ne hi]
    · simp [Slots.put_of_ne hi]

theorem claimsOf_erase (hw : subs w = some sub) :
    claimsOf (subs.erase w) r =
      if sub.recipient = r then (claimsOf subs r).erase w else claimsOf subs r := by
  funext i
  by_cases hr : sub.recipient = r
  · rw [if_pos hr]
    by_cases hi : i = w
    · simp [claimsOf, Slots.erase, hi]
    · simp [claimsOf, Slots.erase, hi]
  · rw [if_neg hr]
    by_cases hi : i = w
    · simp [claimsOf, Slots.erase, hi, hw, hr]
    · simp [claimsOf, Slots.erase, hi]

end ClaimsOf

def MailboxState.letterbox (s : MailboxState) (claims : Slots Waker WakeClaim) (r : ProcessId) :
    Letterbox where
  inbox := s.inbox r
  onboarding := s.onboardingOf r
  wake := s.pendingWake r
  inFlight := decide (r ∈ s.wakeInFlight)
  claims := claims

def Mailroom.letterbox (m : Mailroom) (r : ProcessId) : Letterbox :=
  m.state.letterbox (claimsOf m.submissions r) r

namespace MailboxState
variable (s : MailboxState) (claims : Slots Waker WakeClaim) (i : ProcessId)

theorem letterbox_insertMessage (now : UInt64) (project : ProjectId) (sender recipient : ProcessId)
    (kind : AgentMessageKind) (body : String) (todoId : Option TodoId) :
    some ((s.insertMessage now project sender recipient kind body todoId).1.letterbox claims i) =
      if i = recipient then
        (s.letterbox claims i).step (.deliver now
          ⟨s.nextMessage, project, sender, recipient, kind, body, todoId⟩)
      else some (s.letterbox claims i) := by
  have hinbox := s.inbox_insertMessage now project sender recipient kind body todoId i
  have hwake := lookup_armIfAbsent s.pendingWakes recipient i now
  unfold letterbox
  rw [hinbox]
  split_ifs with hi
  · subst hi
    simp only [insertMessage, pendingWake, Letterbox.step, hwake, if_true]
    rfl
  · simp only [insertMessage, pendingWake, hwake, if_neg hi]
    rfl

theorem letterbox_admitAll (now : UInt64) (project : ProjectId) (sender : ProcessId)
    {rs : List ProcessId} (hrs : rs.Nodup) (kind : AgentMessageKind) (body : String)
    (todoId : Option TodoId) :
    (i ∉ rs ∧ (admitAll project sender kind body todoId s now rs).1.letterbox claims i =
      s.letterbox claims i) ∨
    (i ∈ rs ∧ ∃ id : Nat, s.nextMessage ≤ id ∧ id < s.nextMessage + rs.length ∧
      (s.letterbox claims i).step
        (.deliver now ⟨id, project, sender, i, kind, body, todoId⟩) =
      some ((admitAll project sender kind body todoId s now rs).1.letterbox claims i)) := by
  obtain ⟨inboxes, next, hframe⟩ := pushAll_frame project sender kind body todoId rs s
  have hwake := lookup_foldl_armIfAbsent now rs s.pendingWakes i
  by_cases hi : i ∈ rs
  · obtain ⟨id, hle, hlt, hbox⟩ := inbox_pushAll project sender kind body todoId hrs hi s
    have hinbox : (admitAll project sender kind body todoId s now rs).1.inbox i =
      s.inbox i ++ [⟨⟨id, project, sender, i, kind, body, todoId⟩, .queued⟩] := hbox
    refine .inr ⟨hi, id, hle, hlt, ?_⟩
    unfold letterbox
    rw [hinbox]
    simp only [admitAll, hframe, pendingWake, Letterbox.step, hwake, if_pos hi]
    rfl
  · have hbox := inbox_pushAll_of_notMem project sender kind body todoId hi s
    have hinbox : (admitAll project sender kind body todoId s now rs).1.inbox i = s.inbox i := hbox
    refine .inl ⟨hi, ?_⟩
    unfold letterbox
    rw [hinbox]
    simp only [admitAll, hframe, pendingWake, hwake, if_neg hi]
    rfl

theorem letterbox_armIfWaiting (r : ProcessId) (now : UInt64) :
    (s.armIfWaiting r now).letterbox claims i =
      if i = r then (s.letterbox claims i).armIfWaiting now else s.letterbox claims i := by
  by_cases hi : i = r
  · subst hi
    have hwaiting : (s.letterbox claims i).waiting =
      (s.hasQueued i || (s.onboardingOf i).isSome) := rfl
    rw [if_pos rfl]
    unfold armIfWaiting Letterbox.armIfWaiting
    rw [hwaiting]
    split_ifs
    · simp [letterbox, pendingWake, inbox, onboardingOf]
    · rfl
  · rw [if_neg hi]
    unfold armIfWaiting
    split_ifs
    · simp [letterbox, pendingWake, inbox, onboardingOf, hi]
    · rfl

theorem letterbox_endWake (r : ProcessId) (now : UInt64) :
    (s.endWake r now).letterbox claims i =
      if i = r then (s.letterbox claims i).endWake now else s.letterbox claims i := by
  have h := letterbox_armIfWaiting { s with wakeInFlight := s.wakeInFlight.erase r } claims i r now
  have hlatch : letterbox { s with wakeInFlight := s.wakeInFlight.erase r } claims i =
      if i = r then { s.letterbox claims i with inFlight := false } else s.letterbox claims i := by
    by_cases hi : i = r
    · simp [letterbox, hi, inbox, onboardingOf, pendingWake]
    · simp [letterbox, hi, inbox, onboardingOf, pendingWake]
  unfold endWake
  rw [h, hlatch]
  split_ifs
  · rfl
  · rfl

theorem letterbox_observeNonIdle (r : ProcessId) (now : UInt64) :
    (s.observeNonIdle now r).letterbox claims i = s.letterbox claims i ∨
      i = r ∧ (s.letterbox claims i).step (.nonIdle now) =
        some ((s.observeNonIdle now r).letterbox claims i) := by
  unfold observeNonIdle
  split_ifs with hlatch
  · rw [letterbox_endWake]
    split_ifs with hi
    · subst hi
      have hflight : (s.letterbox claims i).inFlight = true := decide_eq_true hlatch
      exact .inr ⟨rfl, by simp only [Letterbox.step, hflight, if_true]⟩
    · exact .inl rfl
  · exact .inl rfl

theorem letterbox_withoutMessage (r : ProcessId) (p : Pending) :
    (s.withoutMessage r p).letterbox claims i =
      if i = r then
        { s.letterbox claims i with
          inbox := (s.inbox i).eraseP fun q => q.message.id = p.message.id }
      else s.letterbox claims i := by
  obtain ⟨count, bytes, counts, receipts, hframe⟩ := s.withoutMessage_frame r p
  have hbox := s.inbox_keep r i ((s.inbox r).eraseP fun q => q.message.id = p.message.id)
  rw [hframe]
  by_cases hi : i = r
  · subst hi
    rw [if_pos rfl] at hbox ⊢
    simp only [letterbox, inbox, onboardingOf, pendingWake] at hbox ⊢
    rw [hbox]
  · rw [if_neg hi] at hbox ⊢
    simp only [letterbox, inbox, onboardingOf, pendingWake] at hbox ⊢
    rw [hbox]

theorem letterbox_acknowledge (r : ProcessId) (now : UInt64) (id : AgentMessageId) :
    (s.acknowledge now r id).1.letterbox claims i = s.letterbox claims i ∨
      i = r ∧ (s.letterbox claims i).step (.acknowledge now id) =
        some ((s.acknowledge now r id).1.letterbox claims i) := by
  cases hfind : s.find r id with
  | none =>
    rw [acknowledge_of_find_none hfind]
    exact .inl rfl
  | some p =>
    have hrest := s.letterbox_withoutMessage claims i r p
    rw [acknowledge_of_find hfind]
    by_cases hi : i = r
    · subst hi
      have hfind' : (s.letterbox claims i).inbox.find? (fun q => q.message.id = id) = some p := hfind
      rw [if_pos rfl] at hrest
      refine .inr ⟨rfl, ?_⟩
      simp only [Letterbox.step, hfind', map_some, Letterbox.discard]
      split_ifs
      · rw [letterbox_endWake, if_pos rfl, hrest]
        rfl
      · rw [hrest]
        rfl
    · rw [if_neg hi] at hrest
      refine .inl ?_
      split_ifs
      · rw [letterbox_endWake, if_neg hi, hrest]
      · rw [hrest]

theorem letterbox_removeProcess (r : ProcessId) :
    some ((s.removeProcess r).letterbox claims i) =
      if i = r then (s.letterbox claims i).step .remove else some (s.letterbox claims i) := by
  obtain ⟨count, bytes, counts, hframe⟩ := s.removeProcess_frame r
  have hbox := Queues.queue_erase s.inboxes r i
  rw [hframe]
  by_cases hi : i = r
  · subst hi
    rw [if_pos rfl] at hbox ⊢
    simp [letterbox, inbox, onboardingOf, pendingWake, hbox, Letterbox.step]
  · rw [if_neg hi] at hbox ⊢
    simp [letterbox, inbox, onboardingOf, pendingWake, hbox, hi]

theorem letterbox_mark (r : ProcessId) (claimed : List AgentMessageId) :
    (s.markWakeSubmitted r claimed).1.letterbox claims i =
      if i = r then
        { s.letterbox claims i with
          inbox := (s.inbox i).map (submitClaimed claimed)
          onboarding := none
          wake := none }
      else s.letterbox claims i := by
  obtain ⟨tr, hframe⟩ := s.markWakeSubmitted_frame r claimed
  have hbox := s.inbox_keep r i ((s.inbox r).map (submitClaimed claimed))
  rw [hframe]
  by_cases hi : i = r
  · rw [if_pos hi] at hbox ⊢
    subst hi
    simp only [letterbox, inbox, onboardingOf, pendingWake, AList.lookup_erase] at hbox ⊢
    rw [hbox]
  · rw [if_neg hi] at hbox ⊢
    simp only [letterbox, inbox, onboardingOf, pendingWake, Dict.lookup_erase, if_neg hi] at hbox ⊢
    rw [hbox]

theorem letterbox_queueOnboarding (r : ProcessId) (now : UInt64) (guide : String) :
    some ((s.queueOnboarding now r guide).letterbox claims i) =
      if i = r then (s.letterbox claims i).step (.brief now guide)
      else some (s.letterbox claims i) := by
  by_cases hi : i = r
  · subst hi
    simp [letterbox, queueOnboarding, inbox, onboardingOf, pendingWake, Letterbox.step]
    rfl
  · simp [letterbox, queueOnboarding, inbox, onboardingOf, pendingWake, hi]
    rfl

theorem letterbox_recordWakeFailure (r : ProcessId) :
    some ((s.recordWakeFailure r).letterbox claims i) =
      if i = r then (s.letterbox claims i).step .refuse else some (s.letterbox claims i) := by
  unfold recordWakeFailure
  cases hr : s.pendingWake r with
  | none =>
    by_cases hi : i = r
    · subst hi
      simp [letterbox, hr, Letterbox.step]
    · rw [if_neg hi]
  | some wake =>
    by_cases hi : i = r
    · subst hi
      simp [letterbox, inbox, onboardingOf, Letterbox.step, hr]
      simp [pendingWake]
    · simp [letterbox, inbox, onboardingOf, pendingWake, hi]

end MailboxState

inductive MailboxOp.ActsOn (r : ProcessId) : MailboxOp → LetterboxAct → Prop
  | enqueue {now project sender kind body todoId message} :
    ActsOn r (.enqueue now project sender r kind body todoId) (.deliver now message)
  | enqueueMany {now project sender recipients kind body todoId message} (h : r ∈ recipients) :
    ActsOn r (.enqueueMany now project sender recipients kind body todoId) (.deliver now message)
  | enqueueReserved {now call message} :
    ActsOn r (.enqueueReserved now call r) (.deliver now message)
  | queueOnboarding {now guide} : ActsOn r (.queueOnboarding now r guide) (.brief now guide)
  | claim {waker} : ActsOn r (.claim waker r) (.claim waker)
  | mark {waker} : ActsOn r (.mark waker) (.mark waker)
  | release {waker} : ActsOn r (.release waker) (.release waker)
  | wakeFailed : ActsOn r (.wakeFailed r) .refuse
  | observeNonIdle {now} : ActsOn r (.observeNonIdle now r) (.nonIdle now)
  | acknowledge {now id} : ActsOn r (.acknowledge now r id) (.acknowledge now id)
  | removeProcess : ActsOn r (.removeProcess r) .remove

/-- A delivered message carries an id minted between two values of the counter. -/
def LetterboxAct.Minted (low high : Nat) : LetterboxAct → Prop
  | .deliver _ message => low ≤ message.id ∧ message.id < high
  | _ => True

namespace Mailroom
variable {m m' : Mailroom} (r : ProcessId)

variable {waker : Waker}

theorem letterbox_claim {recipient : ProcessId} (h : m.step (.claim waker recipient) = some m') :
    m'.letterbox r = m.letterbox r ∨
      r = recipient ∧ (m.letterbox r).step (.claim waker) = some (m'.letterbox r) := by
  simp only [Mailroom.step] at h
  split_ifs at h with hfree
  have hnone : m.submissions waker = none := by simpa using hfree
  rcases m.state.claimWakeEnvelope_cases recipient with ⟨-, hclaim⟩ | ⟨hlatch, hwaiting, hclaim⟩
  · rw [hclaim] at h
    cases h
    exact .inl rfl
  · rw [hclaim] at h
    cases h
    have hput := @claimsOf_put m.submissions waker
      ⟨recipient, ⟨m.state.onboardingOf recipient, m.state.queuedIds recipient⟩⟩ r hnone
    by_cases hr : r = recipient
    · subst hr
      rw [if_pos rfl] at hput
      have hguard : (m.letterbox r).waiting = true ∧ ¬ (m.letterbox r).inFlight = true ∧
          (m.letterbox r).claims waker = none := by
        refine ⟨hwaiting, ?_, ?_⟩
        · simp [Mailroom.letterbox, MailboxState.letterbox, hlatch]
        · simp [Mailroom.letterbox, MailboxState.letterbox, claimsOf, hnone]
      refine .inr ⟨rfl, (if_pos hguard).trans (congrArg some ?_)⟩
      simp only [Mailroom.letterbox, MailboxState.letterbox, hput]
      simp [MailboxState.inbox, MailboxState.onboardingOf, MailboxState.pendingWake,
        Letterbox.queuedIds, MailboxState.queuedIds]
    · rw [if_neg (Ne.symm hr)] at hput
      refine .inl ?_
      simp only [Mailroom.letterbox, MailboxState.letterbox, hput]
      simp [MailboxState.inbox, MailboxState.onboardingOf, MailboxState.pendingWake, hr]

theorem letterbox_mark {sub : Submission} (hsub : m.submissions waker = some sub)
    (h : m.step (.mark waker) = some m') :
    if sub.recipient = r then (m.letterbox r).step (.mark waker) = some (m'.letterbox r)
    else m'.letterbox r = m.letterbox r := by
  obtain ⟨sub', hsub', rfl⟩ := map_eq_some_iff.mp h
  cases hsub.symm.trans hsub'
  have herase := @claimsOf_erase m.submissions waker sub r hsub
  have hbox := fun claims => m.state.letterbox_mark claims r sub.recipient sub.claim.claimed
  split_ifs with hr
  · rw [if_pos hr] at herase
    subst hr
    have hclaim : (m.letterbox sub.recipient).claims waker = some sub.claim :=
      claimsOf_eq_some.mpr hsub
    refine (congrArg (Option.map _) hclaim).trans (congrArg some ?_)
    simp only [Mailroom.letterbox, hbox, herase, if_true]
    rfl
  · rw [if_neg hr] at herase
    simp only [Mailroom.letterbox, hbox, herase, if_neg (Ne.symm hr)]

theorem letterbox_release (h : m.step (.release waker) = some m') :
    m'.letterbox r = m.letterbox r ∨
      (m.letterbox r).step (.release waker) = some (m'.letterbox r) := by
  obtain ⟨sub, hsub, rfl⟩ := map_eq_some_iff.mp h
  have herase := @claimsOf_erase m.submissions waker sub r hsub
  by_cases hr : sub.recipient = r
  · rw [if_pos hr] at herase
    subst hr
    have hclaim : (m.letterbox sub.recipient).claims waker = some sub.claim :=
      claimsOf_eq_some.mpr hsub
    refine .inr ((congrArg (Option.map _) hclaim).trans (congrArg some ?_))
    simp only [Mailroom.letterbox, herase]
    simp [MailboxState.letterbox, MailboxState.releaseWakeClaim, MailboxState.inbox,
      MailboxState.onboardingOf, MailboxState.pendingWake]
  · rw [if_neg hr] at herase
    refine .inl ?_
    simp only [Mailroom.letterbox, herase]
    simp [MailboxState.letterbox, MailboxState.releaseWakeClaim, MailboxState.inbox,
      MailboxState.onboardingOf, MailboxState.pendingWake, Ne.symm hr]

variable {op : MailboxOp}

theorem nextMessage_le (h : m.step op = some m') : m.state.nextMessage ≤ m'.state.nextMessage := by
  cases op with
  | enqueue now project sender recipient kind body todoId =>
    cases h
    rcases m.state.enqueue_cases now project sender recipient kind body todoId with
      ⟨e, he⟩ | ⟨-, -, -, -, -, he⟩
    · rw [he]
    · rw [he]
      exact Nat.le_succ _
  | enqueueMany now project sender recipients kind body todoId =>
    simp only [Mailroom.step] at h
    split_ifs at h
    cases h
    rcases MailboxState.enqueueMany_cases project sender kind body todoId m.state now recipients with
      ⟨e, he⟩ | ⟨-, -, -, -, -, he⟩
    · rw [he]
    · have hnext := MailboxState.nextMessage_pushAll project sender kind body todoId recipients
        m.state
      rw [he]
      exact (Nat.le_add_right _ _).trans_eq hnext.symm
  | reserve call first =>
    simp only [Mailroom.step] at h
    split_ifs at h
    rcases m.state.reserveProjectSlot_cases first.project first.prompt.utf8ByteSize with
      ⟨e, he⟩ | ⟨-, -, -, he⟩
    · rw [he] at h
      cases h
      exact le_rfl
    · rw [he] at h
      cases h
      exact le_rfl
  | cancel call =>
    obtain ⟨first, -, rfl⟩ := map_eq_some_iff.mp h
    exact le_rfl
  | enqueueReserved now call recipient =>
    obtain ⟨first, -, rfl⟩ := map_eq_some_iff.mp h
    rcases m.state.enqueueReserved_cases now first.project first.sender recipient .task first.prompt
      first.todoId with ⟨e, he⟩ | ⟨-, he⟩
    · rw [he]
      exact le_rfl
    · rw [he]
      exact Nat.le_succ _
  | claim waker recipient =>
    simp only [Mailroom.step] at h
    split_ifs at h
    rcases m.state.claimWakeEnvelope_cases recipient with ⟨-, hclaim⟩ | ⟨-, -, hclaim⟩
    · rw [hclaim] at h
      cases h
      exact le_rfl
    · rw [hclaim] at h
      cases h
      exact le_rfl
  | mark waker =>
    obtain ⟨sub, -, rfl⟩ := map_eq_some_iff.mp h
    obtain ⟨tr, hframe⟩ := m.state.markWakeSubmitted_frame sub.recipient sub.claim.claimed
    rw [hframe]
  | release waker =>
    obtain ⟨sub, -, rfl⟩ := map_eq_some_iff.mp h
    exact le_rfl
  | acknowledge now recipient id =>
    cases h
    cases hfind : m.state.find recipient id with
    | none => rw [MailboxState.acknowledge_of_find_none hfind]
    | some p =>
      obtain ⟨count, bytes, counts, receipts, hframe⟩ := m.state.withoutMessage_frame recipient p
      rw [MailboxState.acknowledge_of_find hfind, hframe]
      simp only [MailboxState.endWake, MailboxState.armIfWaiting]
      split_ifs <;> exact le_rfl
  | removeProcess process =>
    obtain ⟨count, bytes, counts, hframe⟩ := m.state.removeProcess_frame process
    cases h
    rw [hframe]
  | forgetProject project =>
    obtain ⟨tr, n, hframe⟩ := m.state.forgetProject_frame project
    cases h
    rw [hframe]
    exact le_rfl
  | record now delivery =>
    obtain ⟨tr, n, hframe⟩ := m.state.record_frame now delivery
    cases h
    rw [hframe]
    exact le_rfl
  | recordOutcome project id outcome =>
    obtain ⟨tr, n, hframe⟩ := m.state.recordOutcome_frame project id outcome
    cases h
    rw [hframe]
    exact le_rfl
  | observeNonIdle now recipient =>
    cases h
    simp only [MailboxState.observeNonIdle, MailboxState.endWake, MailboxState.armIfWaiting]
    split_ifs <;> exact le_rfl
  | wakeFailed recipient =>
    cases h
    unfold MailboxState.recordWakeFailure
    split <;> exact le_rfl
  | _ =>
    cases h
    exact le_rfl

theorem letterbox_step (h : m.step op = some m') :
    m'.letterbox r = m.letterbox r ∨
      ∃ act, op.ActsOn r act ∧ act.Minted m.state.nextMessage m'.state.nextMessage ∧
        (m.letterbox r).step act = some (m'.letterbox r) := by
  cases op with
  | enqueue now project sender recipient kind body todoId =>
    cases h
    rcases m.state.enqueue_cases now project sender recipient kind body todoId with
      ⟨e, he⟩ | ⟨-, -, -, -, -, he⟩
    · exact .inl (by rw [he])
    · have hbox := m.state.letterbox_insertMessage (claimsOf m.submissions r) r now project sender recipient
        kind body todoId
      by_cases hr : r = recipient
      · subst hr
        rw [if_pos rfl] at hbox
        refine .inr ⟨_, .enqueue, ?_, by rw [he]; exact hbox.symm⟩
        rw [he]
        exact ⟨le_rfl, Nat.lt_succ_self _⟩
      · rw [if_neg hr] at hbox
        exact .inl (by rw [he]; exact some.inj hbox)
  | enqueueMany now project sender recipients kind body todoId =>
    simp only [Mailroom.step] at h
    split_ifs at h with hnodup
    cases h
    rcases MailboxState.enqueueMany_cases project sender kind body todoId m.state now recipients with
      ⟨e, he⟩ | ⟨-, -, -, -, -, he⟩
    · exact .inl (by rw [he])
    · rcases m.state.letterbox_admitAll (claimsOf m.submissions r) r now project sender hnodup kind
        body todoId with ⟨-, hbox⟩ | ⟨hmem, id, hle, hlt, hbox⟩
      · exact .inl (by rw [he]; exact hbox)
      · have hnext := MailboxState.nextMessage_pushAll project sender kind body todoId recipients
          m.state
        refine .inr ⟨_, .enqueueMany hmem, ?_, by rw [he]; exact hbox⟩
        rw [he]
        exact ⟨hle, hlt.trans_eq hnext.symm⟩
  | reserve call first =>
    simp only [Mailroom.step] at h
    split_ifs at h
    rcases m.state.reserveProjectSlot_cases first.project first.prompt.utf8ByteSize with
      ⟨e, he⟩ | ⟨-, -, -, he⟩
    · rw [he] at h
      cases h
      exact .inl rfl
    · rw [he] at h
      cases h
      exact .inl rfl
  | cancel call =>
    obtain ⟨first, -, rfl⟩ := map_eq_some_iff.mp h
    exact .inl rfl
  | enqueueReserved now call recipient =>
    obtain ⟨first, -, rfl⟩ := map_eq_some_iff.mp h
    rcases m.state.enqueueReserved_cases now first.project first.sender recipient .task first.prompt
      first.todoId with ⟨e, he⟩ | ⟨-, he⟩
    · exact .inl (by rw [he]; rfl)
    · have hbox := (m.state.cancelProjectReservation first.project
        first.prompt.utf8ByteSize).letterbox_insertMessage (claimsOf m.submissions r) r now first.project
        first.sender recipient .task first.prompt first.todoId
      by_cases hr : r = recipient
      · subst hr
        rw [if_pos rfl] at hbox
        refine .inr ⟨_, .enqueueReserved, ?_, by rw [he]; exact hbox.symm⟩
        rw [he]
        exact ⟨le_rfl, Nat.lt_succ_self _⟩
      · rw [if_neg hr] at hbox
        exact .inl (by rw [he]; exact some.inj hbox)
  | queueOnboarding now process guide =>
    cases h
    have hbox := m.state.letterbox_queueOnboarding (claimsOf m.submissions r) r process now guide
    by_cases hr : r = process
    · subst hr
      rw [if_pos rfl] at hbox
      exact .inr ⟨.brief now guide, .queueOnboarding, trivial, hbox.symm⟩
    · rw [if_neg hr] at hbox
      exact .inl (some.inj hbox)
  | claim waker recipient =>
    rcases letterbox_claim r h with hbox | ⟨rfl, hbox⟩
    · exact .inl hbox
    · exact .inr ⟨_, .claim, trivial, hbox⟩
  | mark waker =>
    obtain ⟨sub, hsub, -⟩ := map_eq_some_iff.mp h
    have hbox := letterbox_mark r hsub h
    split_ifs at hbox
    · exact .inr ⟨_, .mark, trivial, hbox⟩
    · exact .inl hbox
  | release waker => exact (letterbox_release r h).imp id fun hbox => ⟨_, .release, trivial, hbox⟩
  | wakeFailed recipient =>
    cases h
    have hbox := m.state.letterbox_recordWakeFailure (claimsOf m.submissions r) r recipient
    by_cases hr : r = recipient
    · subst hr
      rw [if_pos rfl] at hbox
      exact .inr ⟨.refuse, .wakeFailed, trivial, hbox.symm⟩
    · rw [if_neg hr] at hbox
      exact .inl (some.inj hbox)
  | observeNonIdle now recipient =>
    cases h
    rcases m.state.letterbox_observeNonIdle (claimsOf m.submissions r) r recipient now with
      hbox | ⟨rfl, hbox⟩
    · exact .inl hbox
    · exact .inr ⟨.nonIdle now, .observeNonIdle, trivial, hbox⟩
  | acknowledge now recipient id =>
    cases h
    rcases m.state.letterbox_acknowledge (claimsOf m.submissions r) r recipient now id with
      hbox | ⟨rfl, hbox⟩
    · exact .inl hbox
    · exact .inr ⟨.acknowledge now id, .acknowledge, trivial, hbox⟩
  | removeProcess process =>
    cases h
    have hbox := m.state.letterbox_removeProcess (claimsOf m.submissions r) r process
    by_cases hr : r = process
    · subst hr
      rw [if_pos rfl] at hbox
      exact .inr ⟨.remove, .removeProcess, trivial, hbox.symm⟩
    · rw [if_neg hr] at hbox
      exact .inl (some.inj hbox)
  | forgetProject project =>
    obtain ⟨tr, n, hframe⟩ := m.state.forgetProject_frame project
    cases h
    exact .inl (by rw [hframe]; rfl)
  | record now delivery =>
    obtain ⟨tr, n, hframe⟩ := m.state.record_frame now delivery
    cases h
    exact .inl (by rw [hframe]; rfl)
  | recordOutcome project id outcome =>
    obtain ⟨tr, n, hframe⟩ := m.state.recordOutcome_frame project id outcome
    cases h
    exact .inl (by rw [hframe]; rfl)
  | recordCompletionNotice reporter taskMessage notice =>
    cases h
    exact .inl rfl

end Mailroom

end Soloist
