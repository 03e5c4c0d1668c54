import Soloist.Mailbox.Wakes

/-! The wake discipline over whole runs of the mailbox. -/
namespace Soloist.Mailroom

/-- The messages of every inbox carry distinct, minted ids. -/
def Numbered (m : Mailroom) : Prop := ∀ r, (m.letterbox r).Numbered m.state.nextMessage

theorem numbered_empty : empty.Numbered := fun _ => ⟨List.nodup_nil, by
  simp [letterbox, MailboxState.letterbox, empty, MailboxState.empty, MailboxState.inbox]⟩

variable {m m' : Mailroom} {op : MailboxOp}

theorem Numbered.step (hm : m.Numbered) (h : m.step op = some m') : m'.Numbered := by
  intro r
  have hle := nextMessage_le h
  rcases letterbox_step r h with hbox | ⟨act, -, hminted, hact⟩
  · rw [hbox]
    exact Letterbox.numbered_mono (hm r) hle
  · exact (hm r).step hle hminted hact

def Quiet (m : Mailroom) (r : ProcessId) : Prop :=
  ∀ w sub, m.submissions w = some sub → sub.recipient ≠ r

variable {r : ProcessId}

theorem Quiet.letterbox (h : m.Quiet r) : (m.letterbox r).Quiet := by
  intro w
  cases hw : (m.letterbox r).claims w with
  | none => rfl
  | some c => exact absurd rfl (h w ⟨r, c⟩ (claimsOf_eq_some.mp hw))

/-! ### No stranded message -/

/-- What waits for a recipient is owed a wake or has one in flight, and no two submissions for one
recipient are in progress. -/
structure WakesKept (m : Mailroom) : Prop where
  owed : ∀ r, m.state.waiting r = true →
    (m.state.pendingWake r).isSome = true ∨ r ∈ m.state.wakeInFlight
  single : ∀ w w' sub sub', m.submissions w = some sub → m.submissions w' = some sub' →
    sub.recipient = sub'.recipient → w = w'

/-- A message or an onboarding leaves the queue by submission only as part of the envelope that was
submitted. -/
def SubmitsOnlyClaimed (m : Mailroom) (op : MailboxOp) : Prop :=
  ∀ m', m.step op = some m' → ∀ r,
    (∀ p ∈ m.state.inbox r, p.outcome = .queued → ∀ q ∈ m'.state.inbox r,
      q.message.id = p.message.id → q.outcome ≠ .queued →
      ∃ w sub, op = .mark w ∧ m.submissions w = some sub ∧ sub.recipient = r ∧
        p.message.id ∈ sub.claim.claimed) ∧
    (∀ guide, m.state.onboardingOf r = some guide → m'.state.onboardingOf r = none →
      op = .removeProcess r ∨ ∃ w sub, op = .mark w ∧ m.submissions w = some sub ∧
        sub.recipient = r ∧ sub.claim.onboarding = some guide)

/-- While a submission for a recipient is in progress, no step clears its latch and none queues an
onboarding for it. -/
def LeavesClaims (m : Mailroom) : MailboxOp → Prop
  | .queueOnboarding _ r _ | .removeProcess r => m.Quiet r
  | .observeNonIdle _ r => r ∈ m.state.wakeInFlight → m.Quiet r
  | .acknowledge _ r id => ∀ p, m.state.find r id = some p → p.outcome = .wakeSubmitted → m.Quiet r
  | _ => True

variable {act : LetterboxAct}

theorem LeavesClaims.undisturbed (h : m.LeavesClaims op) (hacts : op.ActsOn r act) {b : Letterbox}
    (hact : (m.letterbox r).step act = some b) : (m.letterbox r).Undisturbed act := by
  cases hacts with
  | queueOnboarding => exact Quiet.letterbox h
  | removeProcess => exact Quiet.letterbox h
  | observeNonIdle =>
    simp only [Letterbox.step] at hact
    split_ifs at hact with hflight
    exact Quiet.letterbox (h (of_decide_eq_true hflight))
  | acknowledge => exact fun p hp hcarried => Quiet.letterbox (h p hp hcarried)
  | _ => trivial

def AllKept (m : Mailroom) : Prop := m.Numbered ∧ ∀ r, (m.letterbox r).Kept

theorem allKept_empty : empty.AllKept :=
  ⟨numbered_empty, fun _ => .of_quiet (fun _ => rfl) fun h => by
    simp [Letterbox.waiting, letterbox, MailboxState.letterbox, empty, MailboxState.empty,
      MailboxState.inbox, MailboxState.onboardingOf] at h⟩

theorem AllKept.step (hm : m.AllKept) (hop : m.LeavesClaims op) (h : m.step op = some m') :
    m'.AllKept := by
  refine ⟨hm.1.step h, fun r => ?_⟩
  rcases letterbox_step r h with hbox | ⟨act, hacts, -, hact⟩
  · rw [hbox]
    exact hm.2 r
  · exact (hm.2 r).step (hop.undisturbed hacts hact) hact

theorem AllKept.wakesKept (hm : m.AllKept) : m.WakesKept where
  owed r h := ((hm.2 r).owed h).imp (fun h => h) fun hflight => of_decide_eq_true hflight.1
  single w w' sub sub' hw hw' heq :=
    (hm.2 sub.recipient).single w w' sub.claim sub'.claim (claimsOf_eq_some.mpr hw)
      (claimsOf_eq_some.mpr (heq ▸ hw'))

theorem AllKept.submitsOnlyClaimed (hm : m.AllKept) (op : MailboxOp) : m.SubmitsOnlyClaimed op := by
  intro m' h r
  rcases letterbox_step r h with hbox | ⟨act, hacts, -, hact⟩
  · have hinbox : m'.state.inbox r = m.state.inbox r := congrArg Letterbox.inbox hbox
    have honboarding : m'.state.onboardingOf r = m.state.onboardingOf r :=
      congrArg Letterbox.onboarding hbox
    constructor
    · intro p hp hqueued q hq hid hcarried
      rw [hinbox] at hq
      exact absurd (List.inj_on_of_nodup_map (hm.1 r).1 hq hp hid ▸ hqueued) hcarried
    · intro guide hguide hnone
      rw [honboarding, hguide] at hnone
      cases hnone
  · constructor
    · intro p hp hqueued q hq hid hcarried
      obtain ⟨w, c, rfl, hw, hclaimed⟩ :=
        (hm.1 r).carried_by_mark hact hp hqueued hq hid hcarried
      cases hacts
      exact ⟨w, ⟨r, c⟩, rfl, claimsOf_eq_some.mp hw, rfl, hclaimed⟩
    · intro guide hguide hnone
      rcases (hm.2 r).briefed_by_mark hact hguide hnone with rfl | ⟨w, c, rfl, hw, hc⟩
      · cases hacts
        exact .inl rfl
      · cases hacts
        exact .inr ⟨w, ⟨r, c⟩, rfl, claimsOf_eq_some.mp hw, rfl, hc⟩

/-- No message is stranded in a run that takes no latch from under a submission in progress and
queues no onboarding behind one. -/
theorem wakes_kept {es : List MailboxOp} {m : Mailroom}
    (hguard : mailroomMachine.Along LeavesClaims .empty es)
    (hrun : mailroomMachine.run .empty es = some m) :
    m.WakesKept ∧ mailroomMachine.Along SubmitsOnlyClaimed .empty es := by
  have hstep : ∀ s e t, s.LeavesClaims e → s.AllKept → mailroomMachine.step s e = some t →
    t.AllKept := fun s e t he hs ht => hs.step he ht
  constructor
  · exact (Machine.invariant_along hstep allKept_empty hguard hrun).wakesKept
  · exact Machine.along_of_invariant hstep (fun s e _ hs => hs.submitsOnlyClaimed e) allKept_empty
      hguard

theorem wakes_kept_acknowledged : ∃ es m,
    es = [.enqueue 0 1 1 2 .direct "hi" none, .claim (.call 1) 2, .mark (.call 1),
      .acknowledge 5 2 1] ∧
    mailroomMachine.run .empty es = some m ∧
    m.WakesKept ∧ mailroomMachine.Along SubmitsOnlyClaimed .empty es := by
  refine ⟨_, _, rfl, rfl, wakes_kept ?_ rfl⟩
  refine ⟨trivial, fun _ h1 => ⟨trivial, fun _ h2 => ⟨trivial, fun _ h3 => ⟨?_, fun _ _ => trivial⟩⟩⟩⟩
  cases h1
  cases h2
  cases h3
  intro p hp hcarried w sub hw
  obtain ⟨hne, hw⟩ := Slots.erase_eq_some.mp hw
  rcases Slots.put_eq_some.mp hw with ⟨heq, -⟩ | ⟨-, hnone⟩
  · exact absurd heq hne
  · cases hnone

/-- A latch cleared under a submission strands the next message, and an onboarding queued behind one
is dropped with it. -/
theorem wakes_not_kept :
    (∃ m, mailroomMachine.run .empty
        [.enqueue 0 1 1 2 .direct "one" none, .claim (.call 1) 2, .observeNonIdle 5 2,
          .enqueue 7 1 1 2 .direct "two" none, .mark (.call 1)] = some m ∧
      ¬ m.WakesKept) ∧
    ¬ mailroomMachine.Along SubmitsOnlyClaimed .empty
        [.enqueue 0 1 1 2 .direct "one" none, .claim (.call 1) 2, .queueOnboarding 5 2 "guide",
          .mark (.call 1)] := by
  constructor
  · refine ⟨_, rfl, fun h => ?_⟩
    have howed := h.owed 2 (by decide)
    revert howed
    decide
  · intro h
    obtain ⟨h4, -⟩ := ((h.2 _ rfl).2 _ rfl).2 _ rfl
    obtain ⟨-, hguide⟩ := h4 _ rfl 2
    rcases hguide "guide" (by decide) (by decide) with hop | ⟨w, sub, hop, hw, -, hclaim⟩
    · cases hop
    · cases hop
      cases hw
      revert hclaim
      decide
/-! ### The latch can be released -/

/-- Where the latch is set, a submission is in progress or the inbox holds a message whose
acknowledgement clears it. -/
def LatchReleasable (m : Mailroom) : Prop :=
  ∀ r, r ∈ m.state.wakeInFlight →
    (∃ w sub, m.submissions w = some sub ∧ sub.recipient = r) ∨
    ∃ p ∈ m.state.inbox r, p.outcome = .wakeSubmitted ∧
      ∀ now, r ∉ (m.state.acknowledge now r p.message.id).1.wakeInFlight

/-- A mark that ends the last submission in progress for a recipient under the latch finds in the
inbox a claimed message still queued, or a message carried before. -/
def CarriesMessage (m : Mailroom) : MailboxOp → Prop
  | .mark w => ∀ sub, m.submissions w = some sub → sub.recipient ∈ m.state.wakeInFlight →
      (∀ i other, i ≠ w → m.submissions i = some other → other.recipient ≠ sub.recipient) →
      ∃ p ∈ m.state.inbox sub.recipient,
        p.outcome = .wakeSubmitted ∨ p.outcome = .queued ∧ p.message.id ∈ sub.claim.claimed
  | _ => True

theorem Numbered.acknowledge_clears (hm : m.Numbered) {p : Pending} (hp : p ∈ m.state.inbox r)
    (hcarried : p.outcome = .wakeSubmitted) (now : UInt64) :
    r ∉ (m.state.acknowledge now r p.message.id).1.wakeInFlight := by
  have hfind : m.state.find r p.message.id = some p := by
    cases hq : m.state.find r p.message.id with
    | none =>
      have hne := List.find?_eq_none.mp hq p hp
      simp at hne
    | some q =>
      have hid : q.message.id = p.message.id := by simpa using List.find?_some hq
      exact congrArg some (List.inj_on_of_nodup_map (hm r).1 (List.mem_of_find?_eq_some hq) hp hid)
  rw [MailboxState.acknowledge_of_find hfind, if_pos hcarried]
  simp only [MailboxState.endWake, MailboxState.armIfWaiting]
  split_ifs
  · exact Finset.notMem_erase r _
  · exact Finset.notMem_erase r _

theorem Numbered.latchReleasable_iff (hm : m.Numbered) :
    m.LatchReleasable ↔ ∀ r, (m.letterbox r).Releasable := by
  refine forall_congr' fun r => ?_
  have hflight : (m.letterbox r).inFlight = true ↔ r ∈ m.state.wakeInFlight := decide_eq_true_iff
  rw [Letterbox.Releasable, hflight]
  refine imp_congr_right fun _ => or_congr ?_ ?_
  · constructor
    · intro ⟨w, ⟨i, c⟩, hw, hi⟩
      cases hi
      exact ⟨w, c, claimsOf_eq_some.mpr hw⟩
    · intro ⟨w, c, hw⟩
      exact ⟨w, ⟨r, c⟩, claimsOf_eq_some.mp hw, rfl⟩
  · constructor
    · intro ⟨p, hp, hcarried, _⟩
      exact ⟨p, hp, hcarried⟩
    · intro ⟨p, hp, hcarried⟩
      exact ⟨p, hp, hcarried, hm.acknowledge_clears hp hcarried⟩

theorem CarriesMessage.letterbox (h : m.CarriesMessage op) (hacts : op.ActsOn r act) :
    (m.letterbox r).CarriesMessage act := by
  cases hacts with
  | mark =>
    intro c hw hflight halone
    refine h ⟨r, c⟩ (claimsOf_eq_some.mp hw) (of_decide_eq_true hflight) fun i other hi hother => ?_
    intro (heq : other.recipient = r)
    have hclaim : claimsOf m.submissions r i = some other.claim := by
      rw [claimsOf_eq_some, hother, ← heq]
    cases (halone i hi).symm.trans hclaim
  | _ => trivial

theorem Numbered.latchReleasable_step_iff (hm : m.Numbered) (h : m.LatchReleasable) :
    (∀ m', m.step op = some m' → m'.LatchReleasable) ↔ m.CarriesMessage op := by
  have hbox := hm.latchReleasable_iff.mp h
  constructor
  · intro hkeeps
    cases op with
    | mark w =>
      intro sub hsub hflight halone
      have hstep : m.step (.mark w) = some { m with
        state := (m.state.markWakeSubmitted sub.recipient sub.claim.claimed).1
        submissions := m.submissions.erase w } := congrArg (Option.map _) hsub
      have hnext := (hm.step hstep).latchReleasable_iff.mp (hkeeps _ hstep) sub.recipient
      have hact := letterbox_mark sub.recipient hsub hstep
      rw [if_pos rfl] at hact
      refine ((hbox sub.recipient).step_iff (hm sub.recipient) hact).mp hnext sub.claim
        (claimsOf_eq_some.mpr hsub) (decide_eq_true hflight) fun i hi => ?_
      cases hclaim : (m.letterbox sub.recipient).claims i with
      | none => rfl
      | some c => exact absurd rfl (halone i ⟨sub.recipient, c⟩ hi (claimsOf_eq_some.mp hclaim))
    | _ => trivial
  · intro hcarries m' hstep
    rw [(hm.step hstep).latchReleasable_iff]
    intro r
    rcases letterbox_step r hstep with hsame | ⟨act, hacts, -, hact⟩
    · rw [hsame]
      exact hbox r
    · exact ((hbox r).step_iff (hm r) hact).mpr (hcarries.letterbox hacts)

/-- The latch is releasable throughout exactly the runs whose every final mark carries a message. -/
theorem latch_releasable_iff (es : List MailboxOp) :
    mailroomMachine.Throughout LatchReleasable .empty es ↔
      mailroomMachine.Along CarriesMessage .empty es := by
  refine Machine.throughout_iff_along (I := Numbered) (fun s e t hs ht => hs.step ht)
    (fun s e hs h => hs.latchReleasable_step_iff h) numbered_empty ?_
  intro r hr
  simp [empty, MailboxState.empty] at hr

/-- A wake that carried only an onboarding leaves the latch set with nothing to acknowledge. -/
theorem latch_not_releasable : ∃ m,
    mailroomMachine.run .empty
      [.queueOnboarding 0 2 "guide", .claim .reactor 2, .mark .reactor,
        .enqueue 5 1 1 2 .direct "hi" none] = some m ∧
    2 ∈ m.state.wakeInFlight ∧ (∀ w, m.submissions w = none) ∧
    (∀ p ∈ m.state.inbox 2, p.outcome = .queued) ∧ ¬ m.LatchReleasable := by
  have hquiet : ∀ w, Slots.erase (Slots.put Slots.empty Waker.reactor
      (⟨2, ⟨some "guide", []⟩⟩ : Submission)) Waker.reactor w = none := by
    intro w
    cases w <;> rfl
  refine ⟨_, rfl, by decide, hquiet, by decide, fun h => ?_⟩
  rcases h 2 (by decide) with ⟨w, sub, hw, -⟩ | ⟨p, hp, hcarried, -⟩
  · cases (hquiet w).symm.trans hw
  · revert p
    decide

/-! ### A fresh wake budget -/

/-- The operation queues a message for `r` at the instant `now`. -/
inductive Accepts (m : Mailroom) : MailboxOp → UInt64 → ProcessId → Prop
  | enqueue {now project sender r kind body todoId d}
    (h : (m.state.enqueue now project sender r kind body todoId).2 = .ok d) :
    Accepts m (.enqueue now project sender r kind body todoId) now r
  | enqueueMany {now project sender recipients kind body todoId ds r}
    (h : (m.state.enqueueMany now project sender recipients kind body todoId).2 = .ok ds)
    (hr : r ∈ recipients) :
    Accepts m (.enqueueMany now project sender recipients kind body todoId) now r
  | enqueueReserved {now call r first d} (hfirst : AList.lookup call m.prepared = some first)
    (h : (m.state.enqueueReserved now first.project first.sender r .task first.prompt
      first.todoId).2 = .ok d) :
    Accepts m (.enqueueReserved now call r) now r

/-- The wake a message finds owed is its own: with nothing else waiting it is a fresh one. -/
def FreshBudget (m : Mailroom) (op : MailboxOp) : Prop :=
  ∀ now r, m.Accepts op now r → m.state.waiting r = false →
    ∀ m', m.step op = some m' → m'.state.pendingWake r = some (.armed now)

/-- No acknowledgement takes the last thing a recipient waits for from under the wake owed for
it. -/
def TakesWakeAlong (m : Mailroom) : MailboxOp → Prop
  | .acknowledge _ r id => ∀ p, m.state.find r id = some p → p.outcome = .queued →
      m.state.pendingWake r = none ∨ (m.state.onboardingOf r).isSome = true ∨
        ∃ q ∈ (m.state.inbox r).eraseP (fun q => q.message.id = id), q.outcome = .queued
  | _ => True

theorem TakesWakeAlong.letterbox (h : m.TakesWakeAlong op) (hacts : op.ActsOn r act) :
    (m.letterbox r).TakesWakeAlong act := by
  cases hacts with
  | acknowledge => exact h
  | _ => trivial

def WakesWanted (m : Mailroom) : Prop := m.Numbered ∧ ∀ r, (m.letterbox r).WakeWanted

theorem WakesWanted.step (hm : m.WakesWanted) (hop : m.TakesWakeAlong op)
    (h : m.step op = some m') : m'.WakesWanted := by
  refine ⟨hm.1.step h, fun r => ?_⟩
  rcases letterbox_step r h with hbox | ⟨act, hacts, -, hact⟩
  · rw [hbox]
    exact hm.2 r
  · exact (hm.2 r).step (hm.1 r) (hop.letterbox hacts) hact

/-- A queued message arms a wake where none was owed. -/
theorem Accepts.pendingWake {now : UInt64} (h : m.Accepts op now r) (hstep : m.step op = some m') :
    m'.state.pendingWake r = some ((m.state.pendingWake r).getD (.armed now)) := by
  cases h with
  | @enqueue now project sender r kind body todoId d h =>
    cases hstep
    rcases m.state.enqueue_cases now project sender r kind body todoId with
      ⟨e, he⟩ | ⟨-, -, -, -, -, he⟩
    · rw [he] at h
      cases h
    · have hwake := MailboxState.lookup_armIfAbsent m.state.pendingWakes r r now
      rw [if_pos rfl] at hwake
      rw [he]
      exact hwake
  | @enqueueMany now project sender recipients kind body todoId ds r h hr =>
    simp only [Mailroom.step] at hstep
    split_ifs at hstep
    cases hstep
    rcases MailboxState.enqueueMany_cases project sender kind body todoId m.state now recipients with
      ⟨e, he⟩ | ⟨-, -, -, -, -, he⟩
    · rw [he] at h
      cases h
    · obtain ⟨inboxes, next, hframe⟩ :=
        MailboxState.pushAll_frame project sender kind body todoId recipients m.state
      have hwake := MailboxState.lookup_foldl_armIfAbsent now recipients m.state.pendingWakes r
      rw [if_pos hr] at hwake
      rw [he]
      simp only [MailboxState.pendingWake, MailboxState.admitAll, hframe]
      exact hwake
  | @enqueueReserved now call r first d hfirst h =>
    obtain ⟨first', hfirst', rfl⟩ := Option.map_eq_some_iff.mp hstep
    cases hfirst.symm.trans hfirst'
    rcases m.state.enqueueReserved_cases now first.project first.sender r .task first.prompt
      first.todoId with ⟨e, he⟩ | ⟨-, he⟩
    · rw [he] at h
      cases h
    · have hwake := MailboxState.lookup_armIfAbsent m.state.pendingWakes r r now
      rw [if_pos rfl] at hwake
      rw [he]
      exact hwake

theorem WakesWanted.freshBudget (hm : m.WakesWanted) (op : MailboxOp) : m.FreshBudget op := by
  intro now r haccepts hwaiting m' hstep
  have hnone : m.state.pendingWake r = none := by
    cases hwake : m.state.pendingWake r with
    | none => rfl
    | some wake =>
      have hwanted := hm.2 r (congrArg Option.isSome hwake)
      cases hwaiting.symm.trans hwanted
  rw [haccepts.pendingWake hstep, hnone]
  rfl

/-- A message for a recipient that waits for nothing else is owed a fresh wake, in every run whose
acknowledgements leave no wake behind. -/
theorem fresh_budget {es : List MailboxOp}
    (hguard : mailroomMachine.Along TakesWakeAlong .empty es) :
    mailroomMachine.Along FreshBudget .empty es := by
  have hempty : empty.WakesWanted := ⟨numbered_empty, fun r h => by cases h⟩
  exact Machine.along_of_invariant (fun s e t he hs ht => hs.step he ht)
    (fun s e _ hs => hs.freshBudget e) hempty hguard

/-- Two messages acknowledged after a wake carried them. -/
theorem fresh_budget_carried : ∃ es,
    es = [.enqueue 0 1 1 2 .direct "one" none, .claim .reactor 2, .mark .reactor,
      .acknowledge 5 2 1, .enqueue 900 1 1 2 .direct "two" none] ∧
    mailroomMachine.Along FreshBudget .empty es := by
  refine ⟨_, rfl, fresh_budget ⟨trivial, fun _ h1 => ⟨trivial, fun _ h2 => ⟨trivial, fun _ h3 =>
    ⟨?_, fun _ _ => ⟨trivial, fun _ _ => trivial⟩⟩⟩⟩⟩⟩
  cases h1
  cases h2
  cases h3
  intro p hp hqueued
  cases hp
  cases hqueued

/-- An attempt refused for an acknowledged message is charged to the next one. -/
theorem budget_not_fresh : ∃ m,
    mailroomMachine.run .empty
      [.enqueue 0 1 1 2 .direct "one" none, .wakeFailed 2, .acknowledge 5 2 1] = some m ∧
    m.Accepts (.enqueue 1000 1 1 2 .direct "two" none) 1000 2 ∧ m.state.waiting 2 = false ∧
    (∃ m', m.step (.enqueue 1000 1 1 2 .direct "two" none) = some m' ∧
      m'.state.pendingWake 2 = some ⟨1, 120000⟩) ∧
    ¬ m.FreshBudget (.enqueue 1000 1 1 2 .direct "two" none) := by
  refine ⟨_, rfl, .enqueue rfl, by decide, ⟨_, rfl, by decide⟩, fun h => ?_⟩
  have hwake := h 1000 2 (.enqueue rfl) (by decide) _ rfl
  revert hwake
  decide

end Soloist.Mailroom
