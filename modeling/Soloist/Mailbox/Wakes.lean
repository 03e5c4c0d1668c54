import Soloist.Mailbox.Letterbox

/-! The wake discipline of one letterbox, carried over to every recipient of the mailbox: what
waits is owed a wake or carried by one, the in-flight latch can be released again, and a new
message gets a wake of its own. -/
open List Option

namespace Soloist

namespace Letterbox
variable {b b' : Letterbox} {act : LetterboxAct}

def Quiet (b : Letterbox) : Prop := ∀ w, b.claims w = none

/-- The messages carry distinct ids, all minted. -/
def Numbered (b : Letterbox) (next : Nat) : Prop :=
  (b.inbox.map fun p => p.message.id).Nodup ∧ ∀ p ∈ b.inbox, p.message.id < next

theorem waiting_iff :
    b.waiting = true ↔ (∃ p ∈ b.inbox, p.outcome = .queued) ∨ b.onboarding.isSome = true := by
  simp [waiting, List.any_eq_true]

/-- Ending a wake arms the next one exactly when something waits. -/
theorem endWake_eq (now : UInt64) :
    b.endWake now = { b with
      inFlight := false
      wake := if b.waiting then some (.armed now) else b.wake } := by
  have hwaiting : ({ b with inFlight := false } : Letterbox).waiting = b.waiting := rfl
  unfold endWake armIfWaiting
  rw [hwaiting]
  split_ifs
  · rfl
  · rfl

theorem discard_eq (now : UInt64) (p : Pending) :
    (b.discard now p).inbox = b.inbox.eraseP (fun q => q.message.id = p.message.id) ∧
      (b.discard now p).onboarding = b.onboarding ∧ (b.discard now p).claims = b.claims ∧
      (b.discard now p).inFlight = (b.inFlight && p.outcome ≠ .wakeSubmitted) ∧
      (b.discard now p).wake =
        if p.outcome = .wakeSubmitted ∧ (b.discard now p).waiting then some (.armed now)
        else b.wake := by
  unfold discard
  by_cases hp : p.outcome = .wakeSubmitted
  · simp only [hp, if_true, endWake_eq]
    simp [waiting]
  · simp [hp]

variable {high low : Nat}

theorem numbered_mono (h : b.Numbered low) (hle : low ≤ high) : b.Numbered high :=
  ⟨h.1, fun p hp => (h.2 p hp).trans_le hle⟩

theorem submitClaimed_message (claimed : List AgentMessageId) (p : Pending) :
    (MailboxState.submitClaimed claimed p).message = p.message := by
  unfold MailboxState.submitClaimed
  split_ifs
  · rfl
  · rfl

theorem Numbered.step (h : b.Numbered low) (hle : low ≤ high) (hminted : act.Minted low high)
    (hstep : b.step act = some b') : b'.Numbered high := by
  have hhigh := numbered_mono h hle
  cases act with
  | deliver now message =>
    cases hstep
    constructor
    · rw [map_append, nodup_append]
      refine ⟨h.1, by simp, ?_⟩
      intro i hi j hj hij
      obtain ⟨p, hp, hpi⟩ := List.mem_map.mp hi
      have hlt := h.2 p hp
      have hlow := hminted.1
      simp only [map_cons, map_nil, mem_singleton] at hj
      rw [hpi, hij, hj] at hlt
      exact absurd hlt (Nat.not_lt_of_le hlow)
    · intro p hp
      rcases mem_append.mp hp with hp | hp
      · exact hhigh.2 p hp
      · rw [mem_singleton.mp hp]
        exact hminted.2
  | brief now guide =>
    cases hstep
    exact hhigh
  | claim w =>
    simp only [Letterbox.step] at hstep
    split_ifs at hstep
    cases hstep
    exact hhigh
  | mark w =>
    obtain ⟨c, -, rfl⟩ := map_eq_some_iff.mp hstep
    have hids : (b.inbox.map (MailboxState.submitClaimed c.claimed)).map (fun p => p.message.id) =
        b.inbox.map fun p => p.message.id := by
      rw [List.map_map]
      exact map_congr_left fun p _ => congrArg AgentMessage.id (submitClaimed_message _ p)
    constructor
    · simp only [hids]
      exact h.1
    · intro p hp
      obtain ⟨q, hq, hqp⟩ := List.mem_map.mp hp
      rw [← hqp, submitClaimed_message]
      exact hhigh.2 q hq
  | release w =>
    obtain ⟨c, -, rfl⟩ := map_eq_some_iff.mp hstep
    exact hhigh
  | refuse =>
    cases hstep
    exact hhigh
  | nonIdle now =>
    simp only [Letterbox.step, endWake_eq] at hstep
    split_ifs at hstep <;> cases hstep <;> exact hhigh
  | acknowledge now id =>
    obtain ⟨p, -, rfl⟩ := map_eq_some_iff.mp hstep
    have hinbox := (discard_eq (b := b) now p).1
    have hsub : List.Sublist (b.discard now p).inbox b.inbox := by
      rw [hinbox]
      exact eraseP_sublist
    exact ⟨h.1.sublist (hsub.map _), fun q hq => hhigh.2 q (hsub.subset hq)⟩
  | remove =>
    cases hstep
    exact ⟨nodup_nil, by simp⟩

variable {next : Nat}

variable {p q : Pending}

theorem Numbered.mem_eraseP (h : b.Numbered next) (hp : p ∈ b.inbox) (hq : q ∈ b.inbox)
    (hne : q ≠ p) : q ∈ b.inbox.eraseP fun x => x.message.id = p.message.id := by
  have hid : ¬ q.message.id = p.message.id := fun heq =>
    hne (inj_on_of_nodup_map h.1 hq hp heq)
  exact (mem_eraseP_of_neg (by simpa using hid)).mpr hq

/-! ### What waits is owed a wake or carried by one -/

/-- One submission at a time, under the latch, with the onboarding that is waiting; and what waits
is owed a wake, unless a submission that has ended left the latch set. -/
structure Kept (b : Letterbox) : Prop where
  single : ∀ w w' c c', b.claims w = some c → b.claims w' = some c' → w = w'
  latched : ∀ w c, b.claims w = some c → b.inFlight = true
  carries : ∀ w c, b.claims w = some c → c.onboarding = b.onboarding
  owed : b.waiting = true → b.wake.isSome = true ∨ b.inFlight = true ∧ b.Quiet

/-- The act neither takes the latch from under a submission in progress nor leaves an onboarding
behind it. -/
def Undisturbed (b : Letterbox) : LetterboxAct → Prop
  | .brief _ _ | .nonIdle _ | .remove => b.Quiet
  | .acknowledge _ id => ∀ p, b.inbox.find? (fun q => q.message.id = id) = some p →
      p.outcome = .wakeSubmitted → b.Quiet
  | _ => True

/-- Without a submission in progress, only the last field says anything. -/
theorem Kept.of_quiet (hquiet : b.Quiet)
    (howed : b.waiting = true → b.wake.isSome = true ∨ b.inFlight = true) : b.Kept where
  single w w' c c' h := by rw [hquiet w] at h; cases h
  latched w c h := by rw [hquiet w] at h; cases h
  carries w c h := by rw [hquiet w] at h; cases h
  owed h := (howed h).imp id fun hflight => ⟨hflight, hquiet⟩

theorem Kept.quiet_erase (hb : b.Kept) {w : Waker} {c : WakeClaim} (hw : b.claims w = some c)
    (i : Waker) : b.claims.erase w i = none := by
  cases hi : b.claims.erase w i with
  | none => rfl
  | some c' =>
    obtain ⟨hne, hi'⟩ := Slots.erase_eq_some.mp hi
    exact absurd (hb.single i w c' c hi' hw) hne

theorem Kept.step (hb : b.Kept) (hundisturbed : b.Undisturbed act)
    (hstep : b.step act = some b') : b'.Kept := by
  cases act with
  | deliver now message =>
    cases hstep
    exact ⟨hb.single, hb.latched, hb.carries, fun _ => .inl rfl⟩
  | brief now guide =>
    cases hstep
    exact .of_quiet hundisturbed fun _ => .inl rfl
  | claim w =>
    simp only [Letterbox.step] at hstep
    split_ifs at hstep with hguard
    obtain ⟨hwaiting, hlatch, hfree⟩ := hguard
    cases hstep
    have hquiet : b.Quiet := by
      intro i
      cases hi : b.claims i with
      | none => rfl
      | some c => exact absurd (hb.latched i c hi) hlatch
    have honly : ∀ i c, b.claims.put w ⟨b.onboarding, b.queuedIds⟩ i = some c →
        i = w ∧ c.onboarding = b.onboarding := by
      intro i c hi
      rcases Slots.put_eq_some.mp hi with ⟨hiw, hc⟩ | ⟨-, hi⟩
      · rw [← hc]
        exact ⟨hiw, rfl⟩
      · rw [hquiet i] at hi
        cases hi
    constructor
    · intro i j c c' hi hj
      exact (honly i c hi).1.trans (honly j c' hj).1.symm
    · intro i c _
      rfl
    · intro i c hi
      exact (honly i c hi).2
    · intro _
      rcases hb.owed hwaiting with hwake | ⟨hflight, -⟩
      · exact .inl hwake
      · exact absurd hflight hlatch
  | mark w =>
    obtain ⟨c, hw, rfl⟩ := map_eq_some_iff.mp hstep
    exact .of_quiet (hb.quiet_erase hw) fun _ => .inr (hb.latched w c hw)
  | release w =>
    obtain ⟨c, hw, rfl⟩ := map_eq_some_iff.mp hstep
    refine .of_quiet (hb.quiet_erase hw) fun hwaiting => ?_
    rcases hb.owed hwaiting with hwake | ⟨-, hquiet⟩
    · exact .inl hwake
    · rw [hquiet w] at hw
      cases hw
  | refuse =>
    cases hstep
    refine ⟨hb.single, hb.latched, hb.carries, fun hwaiting => ?_⟩
    have h := hb.owed hwaiting
    rw [isSome_map]
    exact h
  | nonIdle now =>
    simp only [Letterbox.step, endWake_eq] at hstep
    split_ifs at hstep with hflight hwaiting
    · cases hstep
      exact .of_quiet hundisturbed fun _ => .inl rfl
    · cases hstep
      exact .of_quiet hundisturbed fun h => absurd h hwaiting
  | acknowledge now id =>
    obtain ⟨p, hp, rfl⟩ := map_eq_some_iff.mp hstep
    obtain ⟨hinbox, honboarding, hclaims, hflight, hwake⟩ := discard_eq (b := b) now p
    by_cases hcarried : p.outcome = .wakeSubmitted
    · have hquiet := hundisturbed p hp hcarried
      refine .of_quiet (by rw [Quiet, hclaims]; exact hquiet) fun hwaiting => .inl ?_
      rw [hwake, if_pos ⟨hcarried, hwaiting⟩]
      rfl
    · have hsame : (b.discard now p).inFlight = b.inFlight := by
        rw [hflight]
        simp [hcarried]
      have hwake' : (b.discard now p).wake = b.wake := by
        rw [hwake, if_neg fun h => hcarried h.1]
      constructor
      · rw [hclaims]
        exact hb.single
      · rw [hclaims, hsame]
        exact hb.latched
      · rw [hclaims, honboarding]
        exact hb.carries
      · intro hwaiting
        rw [hwake', hsame, Quiet, hclaims]
        refine hb.owed (waiting_iff.mpr ?_)
        refine (waiting_iff.mp hwaiting).imp ?_ fun h => honboarding ▸ h
        rintro ⟨q, hq, hqueued⟩
        rw [hinbox] at hq
        exact ⟨q, eraseP_sublist.subset hq, hqueued⟩
  | remove =>
    cases hstep
    exact .of_quiet hundisturbed fun h => by simp [waiting] at h

theorem Numbered.carried_by_mark (hn : b.Numbered next) (hstep : b.step act = some b')
    (hp : p ∈ b.inbox) (hqueued : p.outcome = .queued) (hq : q ∈ b'.inbox)
    (hid : q.message.id = p.message.id) (hcarried : q.outcome ≠ .queued) :
    ∃ w c, act = .mark w ∧ b.claims w = some c ∧ p.message.id ∈ c.claimed := by
  have hsame : q ∉ b.inbox := fun hmem =>
    hcarried (inj_on_of_nodup_map hn.1 hmem hp hid ▸ hqueued)
  cases act with
  | mark w =>
    obtain ⟨c, hw, rfl⟩ := map_eq_some_iff.mp hstep
    obtain ⟨x, hx, hxq⟩ := List.mem_map.mp hq
    have hxp : x = p := by
      refine inj_on_of_nodup_map hn.1 hx hp ?_
      rw [← hid, ← hxq, submitClaimed_message]
    refine ⟨w, c, rfl, hw, ?_⟩
    by_cases hclaimed : p.message.id ∈ c.claimed
    · exact hclaimed
    · rw [hxp, MailboxState.submitClaimed, if_neg fun h => hclaimed h.2] at hxq
      exact absurd (hxq ▸ hqueued) hcarried
  | deliver now message =>
    cases hstep
    rcases mem_append.mp hq with hmem | hmem
    · exact absurd hmem hsame
    · rw [mem_singleton.mp hmem] at hcarried
      exact absurd rfl hcarried
  | brief now guide =>
    cases hstep
    exact absurd hq hsame
  | claim w =>
    simp only [Letterbox.step] at hstep
    split_ifs at hstep
    cases hstep
    exact absurd hq hsame
  | release w =>
    obtain ⟨c, -, rfl⟩ := map_eq_some_iff.mp hstep
    exact absurd hq hsame
  | refuse =>
    cases hstep
    exact absurd hq hsame
  | nonIdle now =>
    simp only [Letterbox.step, endWake_eq] at hstep
    split_ifs at hstep <;> cases hstep <;> exact absurd hq hsame
  | acknowledge now id =>
    obtain ⟨x, -, rfl⟩ := map_eq_some_iff.mp hstep
    rw [(discard_eq now x).1] at hq
    exact absurd (eraseP_sublist.subset hq) hsame
  | remove =>
    cases hstep
    cases hq

theorem Kept.briefed_by_mark (hb : b.Kept) (hstep : b.step act = some b') {guide : String}
    (hguide : b.onboarding = some guide) (hnone : b'.onboarding = none) :
    act = .remove ∨ ∃ w c, act = .mark w ∧ b.claims w = some c ∧ c.onboarding = some guide := by
  cases act with
  | mark w =>
    obtain ⟨c, hw, rfl⟩ := map_eq_some_iff.mp hstep
    exact .inr ⟨w, c, rfl, hw, (hb.carries w c hw).trans hguide⟩
  | remove => exact .inl rfl
  | deliver now message =>
    cases hstep
    cases hguide.symm.trans hnone
  | brief now guide =>
    cases hstep
    cases hnone
  | claim w =>
    simp only [Letterbox.step] at hstep
    split_ifs at hstep
    cases hstep
    cases hguide.symm.trans hnone
  | release w =>
    obtain ⟨c, -, rfl⟩ := map_eq_some_iff.mp hstep
    cases hguide.symm.trans hnone
  | refuse =>
    cases hstep
    cases hguide.symm.trans hnone
  | nonIdle now =>
    simp only [Letterbox.step, endWake_eq] at hstep
    split_ifs at hstep <;> cases hstep <;> cases hguide.symm.trans hnone
  | acknowledge now id =>
    obtain ⟨x, -, rfl⟩ := map_eq_some_iff.mp hstep
    rw [(discard_eq now x).2.1] at hnone
    cases hguide.symm.trans hnone

/-! ### The latch can be released -/

/-- The latch stands for a submission in progress or for a message whose acknowledgement clears
it. -/
def Releasable (b : Letterbox) : Prop :=
  b.inFlight = true →
    (∃ w c, b.claims w = some c) ∨ ∃ p ∈ b.inbox, p.outcome = .wakeSubmitted

/-- A mark that ends the last submission in progress under the latch still finds a message to carry,
or one that a wake carried before. -/
def CarriesMessage (b : Letterbox) : LetterboxAct → Prop
  | .mark w => ∀ c, b.claims w = some c → b.inFlight = true →
      (∀ i, i ≠ w → b.claims i = none) →
      ∃ p ∈ b.inbox, p.outcome = .wakeSubmitted ∨ p.outcome = .queued ∧ p.message.id ∈ c.claimed
  | _ => True

/-- After a mark the carried messages are those carried before and the claimed ones found queued. -/
theorem exists_submitClaimed {claimed : List AgentMessageId} {l : List Pending} :
    (∃ p ∈ l.map (MailboxState.submitClaimed claimed), p.outcome = .wakeSubmitted) ↔
      ∃ p ∈ l, p.outcome = .wakeSubmitted ∨ p.outcome = .queued ∧ p.message.id ∈ claimed := by
  have hone : ∀ p, (MailboxState.submitClaimed claimed p).outcome = .wakeSubmitted ↔
      p.outcome = .wakeSubmitted ∨ p.outcome = .queued ∧ p.message.id ∈ claimed := by
    intro p
    unfold MailboxState.submitClaimed
    split_ifs with h
    · simp [h]
    · constructor
      · exact .inl
      · exact fun h' => h'.resolve_right h
  simp only [List.mem_map, exists_exists_and_eq_and, hone]

theorem Releasable.step_iff (hn : b.Numbered next) (hb : b.Releasable)
    (hstep : b.step act = some b') : b'.Releasable ↔ b.CarriesMessage act := by
  cases act with
  | mark w =>
    obtain ⟨c, hw, rfl⟩ := map_eq_some_iff.mp hstep
    constructor
    · intro h c' hw' hflight halone
      cases hw.symm.trans hw'
      rcases h hflight with ⟨i, d, hi⟩ | hcarried
      · obtain ⟨hne, hi⟩ := Slots.erase_eq_some.mp hi
        rw [halone i hne] at hi
        cases hi
      · exact exists_submitClaimed.mp hcarried
    · intro h hflight
      by_cases halone : ∀ i, i ≠ w → b.claims i = none
      · exact .inr (exists_submitClaimed.mpr (h c hw hflight halone))
      · push Not at halone
        obtain ⟨i, hne, hi⟩ := halone
        obtain ⟨d, hd⟩ := ne_none_iff_exists'.mp hi
        exact .inl ⟨i, d, Slots.erase_eq_some.mpr ⟨hne, hd⟩⟩
  | deliver now message =>
    cases hstep
    refine ⟨fun _ => trivial, fun _ hflight => (hb hflight).imp id ?_⟩
    intro ⟨p, hp, hcarried⟩
    exact ⟨p, mem_append_left _ hp, hcarried⟩
  | brief now guide =>
    cases hstep
    exact ⟨fun _ => trivial, fun _ => hb⟩
  | claim w =>
    simp only [Letterbox.step] at hstep
    split_ifs at hstep
    cases hstep
    exact ⟨fun _ => trivial, fun _ _ => .inl ⟨w, _, Slots.put_self⟩⟩
  | release w =>
    obtain ⟨c, -, rfl⟩ := map_eq_some_iff.mp hstep
    exact ⟨fun _ => trivial, fun _ hflight => by cases hflight⟩
  | refuse =>
    cases hstep
    exact ⟨fun _ => trivial, fun _ => hb⟩
  | nonIdle now =>
    simp only [Letterbox.step, endWake_eq] at hstep
    split_ifs at hstep <;> cases hstep <;>
      exact ⟨fun _ => trivial, fun _ hflight => by cases hflight⟩
  | acknowledge now id =>
    obtain ⟨p, hp, rfl⟩ := map_eq_some_iff.mp hstep
    obtain ⟨hinbox, -, hclaims, hinflight, -⟩ := discard_eq (b := b) now p
    have hmem := mem_of_find?_eq_some hp
    refine ⟨fun _ => trivial, fun _ hflight => ?_⟩
    rw [hinflight, Bool.and_eq_true, decide_eq_true_eq] at hflight
    rw [hclaims, hinbox]
    -- The removed message was not carried, so a carried one is still there.
    refine (hb hflight.1).imp (fun h => h) fun ⟨q, hq, hcarried⟩ => ⟨q, ?_, hcarried⟩
    have hne : q ≠ p := fun h => hflight.2 (h ▸ hcarried)
    exact hn.mem_eraseP hmem hq hne
  | remove =>
    cases hstep
    exact ⟨fun _ => trivial, fun _ hflight => by cases hflight⟩

/-! ### A new message gets a wake of its own -/

/-- No acknowledgement leaves a wake behind for a recipient that nothing waits for any more. -/
def TakesWakeAlong (b : Letterbox) : LetterboxAct → Prop
  | .acknowledge _ id => ∀ p, b.inbox.find? (fun q => q.message.id = id) = some p →
      p.outcome = .queued → b.wake = none ∨ b.onboarding.isSome = true ∨
        ∃ q ∈ b.inbox.eraseP (fun q => q.message.id = id), q.outcome = .queued
  | _ => True

def WakeWanted (b : Letterbox) : Prop := b.wake.isSome = true → b.waiting = true

theorem WakeWanted.step (hn : b.Numbered next) (hb : b.WakeWanted) (htakes : b.TakesWakeAlong act)
    (hstep : b.step act = some b') : b'.WakeWanted := by
  cases act with
  | deliver now message =>
    cases hstep
    exact fun _ => waiting_iff.mpr (.inl ⟨_, mem_append_right _ (.head _), rfl⟩)
  | brief now guide =>
    cases hstep
    exact fun _ => waiting_iff.mpr (.inr rfl)
  | claim w =>
    simp only [Letterbox.step] at hstep
    split_ifs at hstep
    cases hstep
    exact hb
  | mark w =>
    obtain ⟨c, -, rfl⟩ := map_eq_some_iff.mp hstep
    intro h
    cases h
  | release w =>
    obtain ⟨c, -, rfl⟩ := map_eq_some_iff.mp hstep
    exact hb
  | refuse =>
    cases hstep
    intro h
    rw [isSome_map] at h
    exact hb h
  | nonIdle now =>
    simp only [Letterbox.step, endWake_eq] at hstep
    split_ifs at hstep with hflight hwaiting
    · cases hstep
      exact fun _ => hwaiting
    · cases hstep
      exact hb
  | acknowledge now id =>
    obtain ⟨p, hp, rfl⟩ := map_eq_some_iff.mp hstep
    obtain ⟨hinbox, honboarding, -, -, hwake⟩ := discard_eq (b := b) now p
    have hid : p.message.id = id := by simpa using find?_some hp
    have hmem := mem_of_find?_eq_some hp
    intro h
    by_cases hwaiting : (b.discard now p).waiting = true
    · exact hwaiting
    · rw [hwake, if_neg fun h' => hwaiting h'.2] at h
      refine absurd (waiting_iff.mpr ?_) hwaiting
      rw [hinbox, honboarding]
      by_cases hout : p.outcome = .queued
      · rw [hid]
        rcases htakes p hp hout with hnone | hguide | hother
        · rw [hnone] at h
          cases h
        · exact .inr hguide
        · exact .inl hother
      · refine (waiting_iff.mp (hb h)).imp ?_ fun h => h
        rintro ⟨q, hq, hqueued⟩
        exact ⟨q, hn.mem_eraseP hmem hq fun heq => hout (heq ▸ hqueued), hqueued⟩
  | remove =>
    cases hstep
    intro h
    cases h

end Letterbox

end Soloist
