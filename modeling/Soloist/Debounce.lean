import Mathlib.Data.List.Infix
import Soloist.Machine
import Soloist.Supervisor.RestartPolicy

/-! A quiet-window debouncer: a burst of triggers becomes one action, due once the window has passed
since the last trigger or, with a ceiling, once the burst has lasted that long. -/
open List Option

namespace Soloist

structure Debouncer where
  quiet : ℕ
  /-- The longest a burst may postpone its action. -/
  ceiling : Option ℕ
  burstBegan : Option Instant
  lastTrigger : Option Instant
  pending : Bool
  deriving DecidableEq, Repr

namespace Debouncer

def new (quiet : ℕ) : Debouncer := ⟨quiet, none, none, none, false⟩

def bounded (quiet ceiling : ℕ) : Debouncer := { new quiet with ceiling := some ceiling }

def trigger (d : Debouncer) (now : Instant) : Debouncer :=
  { d with
    burstBegan := (d.burstBegan.filter fun _ => d.pending).or (some now)
    lastTrigger := some now
    pending := true }

def dueAt (d : Debouncer) : Option Instant := do
  let last ← d.lastTrigger.filter fun _ => d.pending
  let quietAt := last + d.quiet
  match d.ceiling, d.burstBegan with
  | some ceiling, some began => return min quietAt (began + ceiling)
  | _, _ => return quietAt

def takeIfDue (d : Debouncer) (now : Instant) : Debouncer × Bool :=
  match d.dueAt with
  | some due => if due ≤ now then ({ d with pending := false }, true) else (d, false)
  | none => (d, false)

structure Bursting (d : Debouncer) (quiet ceiling : ℕ) (began last : Instant) : Prop where
  quiet : d.quiet = quiet
  ceiling : d.ceiling = some ceiling
  began : d.burstBegan = some began
  last : d.lastTrigger = some last
  pending : d.pending = true

variable {d : Debouncer} {quiet ceiling : ℕ} {began last now : Instant}

variable (h : d.Bursting quiet ceiling began last)
include h

theorem Bursting.dueAt :
    d.dueAt = some (min (last + quiet) (began + ceiling)) := by
  unfold Debouncer.dueAt
  rw [h.last, h.pending, h.ceiling, h.began, h.quiet]
  rfl

theorem Bursting.takeIfDue (now : Instant) :
    (min (last + quiet) (began + ceiling) ≤ now ∧ (d.takeIfDue now).2 = true ∧
        (d.takeIfDue now).1.dueAt = none) ∨
      (now < min (last + quiet) (began + ceiling) ∧ d.takeIfDue now = (d, false)) := by
  unfold Debouncer.takeIfDue
  rw [h.dueAt]
  dsimp only
  by_cases hdue : min (last + quiet) (began + ceiling) ≤ now
  · rw [if_pos hdue]
    refine .inl ⟨hdue, rfl, ?_⟩
    unfold Debouncer.dueAt
    simp
  · rw [if_neg hdue]
    exact .inr ⟨Nat.lt_of_not_le hdue, rfl⟩

/-- A later trigger moves the quiet window and leaves the ceiling where it is. -/
theorem Bursting.trigger (now : Instant) :
    (d.trigger now).Bursting quiet ceiling began now where
  quiet := h.quiet
  ceiling := h.ceiling
  began := by
    unfold Debouncer.trigger
    dsimp only
    rw [h.began, h.pending]
    rfl
  last := rfl
  pending := rfl

omit h

theorem bursting_bounded (quiet ceiling : ℕ) (now : Instant) :
    ((bounded quiet ceiling).trigger now).Bursting quiet ceiling now now :=
  ⟨rfl, rfl, rfl, rfl, rfl⟩

theorem bursting_of_idle (hq : d.quiet = quiet) (hc : d.ceiling = some ceiling)
    (hp : d.pending = false) (now : Instant) :
    (d.trigger now).Bursting quiet ceiling now now where
  quiet := hq
  ceiling := hc
  began := by
    unfold Debouncer.trigger
    dsimp only
    rw [hp]
    cases d.burstBegan with
    | none => rfl
    | some began => rfl
  last := rfl
  pending := rfl

theorem dueAt_of_idle (h : d.pending = false) : d.dueAt = none := by
  unfold Debouncer.dueAt
  simp [h]

end Debouncer

/-- Triggers that one action answers, in order, and the polls made since the first of them that did
not act. -/
structure Burst where
  first : Instant
  later : List Instant
  early : List Instant
  deriving DecidableEq, Repr

namespace Burst

def triggers (b : Burst) : List Instant := b.first :: b.later

def last (b : Burst) : Instant := b.later.getLastD b.first

def deadline (quiet ceiling : ℕ) (b : Burst) : Instant :=
  min (b.last + quiet) (b.first + ceiling)

end Burst

inductive DebounceEvent
  | trigger (now : Instant)
  | poll (now : Instant)
  deriving DecidableEq, Repr

def DebounceEvent.trigger? : DebounceEvent → Option Instant
  | .trigger now => some now
  | .poll _ => none

/-- A debouncer, the burst that has not been answered yet, and the actions so far: the instant of
each and what it answered, if anything. -/
structure Debouncing where
  debouncer : Debouncer
  now : Instant
  burst : Option Burst
  actions : List (Instant × Option Burst)
  deriving DecidableEq, Repr

namespace Debouncing

def triggered (s : Debouncing) (now : Instant) : Debouncing :=
  { s with
    debouncer := s.debouncer.trigger now
    now
    burst := some (s.burst.elim ⟨now, [], []⟩ fun b => { b with later := b.later ++ [now] }) }

def polled (s : Debouncing) (now : Instant) : Debouncing :=
  match s.debouncer.takeIfDue now with
  | (debouncer, true) =>
    { debouncer, now, burst := none, actions := s.actions ++ [(now, s.burst)] }
  | (debouncer, false) =>
    { s with
      debouncer, now
      burst := s.burst.map fun b => { b with early := b.early ++ [now] } }

/-- The clock never goes back. -/
def step (s : Debouncing) : DebounceEvent → Option Debouncing
  | .trigger now => if s.now ≤ now then some (s.triggered now) else none
  | .poll now => if s.now ≤ now then some (s.polled now) else none

def start (quiet ceiling : ℕ) : Debouncing := ⟨.bounded quiet ceiling, 0, none, []⟩

def triggers (s : Debouncing) : List Instant :=
  (s.actions.map Prod.snd ++ [s.burst]).flatMap fun burst => burst.elim [] Burst.triggers

end Debouncing

def debouncing (quiet ceiling : ℕ) : Machine Debouncing DebounceEvent :=
  ⟨fun s => s = .start quiet ceiling, Debouncing.step⟩

namespace Debouncing
variable {quiet ceiling : ℕ} {s t : Debouncing} {b : Burst} {now : Instant}

/-- What the debouncer keeps of the burst, and what each poll found. -/
structure Kept (quiet ceiling : ℕ) (s : Debouncing) : Prop where
  idle : s.burst = none → s.debouncer.quiet = quiet ∧ s.debouncer.ceiling = some ceiling ∧
    s.debouncer.pending = false
  bursting : ∀ b, s.burst = some b →
    s.debouncer.Bursting quiet ceiling b.first b.last ∧ b.last ≤ s.now ∧
      ∀ p ∈ b.early, p < b.deadline quiet ceiling
  acted : ∀ a ∈ s.actions, ∃ b, a.2 = some b ∧ b.deadline quiet ceiling ≤ a.1 ∧
    ∀ p ∈ b.early, p < b.deadline quiet ceiling

theorem kept_start : (start quiet ceiling).Kept quiet ceiling where
  idle _ := ⟨rfl, rfl, rfl⟩
  bursting b hb := by cases hb
  acted _ ha := absurd ha not_mem_nil

theorem polled_idle (hs : s.Kept quiet ceiling) (hnone : s.burst = none) :
    s.polled now = { s with now } := by
  have hidle := Debouncer.dueAt_of_idle (hs.idle hnone).2.2
  have hleft : s.debouncer.takeIfDue now = (s.debouncer, false) := by
    unfold Debouncer.takeIfDue
    rw [hidle]
  unfold polled
  rw [hleft]
  simp only [hnone, map_none]

theorem polled_due (hs : s.Kept quiet ceiling) (hb : s.burst = some b)
    (hdue : b.deadline quiet ceiling ≤ now) :
    s.polled now =
      ⟨{ s.debouncer with pending := false }, now, none, s.actions ++ [(now, some b)]⟩ := by
  have htaken : s.debouncer.takeIfDue now = ({ s.debouncer with pending := false }, true) := by
    unfold Debouncer.takeIfDue
    rw [(hs.bursting b hb).1.dueAt]
    exact if_pos hdue
  unfold polled
  rw [htaken]
  simp only [hb]

theorem polled_early (hs : s.Kept quiet ceiling) (hb : s.burst = some b)
    (hearly : now < b.deadline quiet ceiling) :
    s.polled now = { s with now, burst := some { b with early := b.early ++ [now] } } := by
  have hleft : s.debouncer.takeIfDue now = (s.debouncer, false) := by
    unfold Debouncer.takeIfDue
    rw [(hs.bursting b hb).1.dueAt]
    exact if_neg (Nat.not_le_of_lt hearly)
  unfold polled
  rw [hleft]
  simp only [hb, map_some]

/-- The three things that can happen. -/
inductive Turn (quiet ceiling : ℕ) (s : Debouncing) : DebounceEvent → Debouncing → Prop
  | began (now : Instant) (hnone : s.burst = none) :
    Turn quiet ceiling s (.trigger now)
      { s with debouncer := s.debouncer.trigger now, now, burst := some ⟨now, [], []⟩ }
  | joined (now : Instant) (b : Burst) (hb : s.burst = some b) :
    Turn quiet ceiling s (.trigger now)
      { s with
        debouncer := s.debouncer.trigger now
        now
        burst := some { b with later := b.later ++ [now] } }
  | idle (now : Instant) (hnone : s.burst = none) : Turn quiet ceiling s (.poll now) { s with now }
  | acted (now : Instant) (b : Burst) (hb : s.burst = some b)
    (hdue : b.deadline quiet ceiling ≤ now) :
    Turn quiet ceiling s (.poll now)
      ⟨{ s.debouncer with pending := false }, now, none, s.actions ++ [(now, some b)]⟩
  | early (now : Instant) (b : Burst) (hb : s.burst = some b)
    (hearly : now < b.deadline quiet ceiling) :
    Turn quiet ceiling s (.poll now)
      { s with now, burst := some { b with early := b.early ++ [now] } }

variable {e : DebounceEvent}

theorem turn_of_step (hs : s.Kept quiet ceiling) (h : s.step e = some t) :
    s.now ≤ t.now ∧ s.Turn quiet ceiling e t := by
  cases e with
  | trigger now =>
    obtain ⟨hnow, ht⟩ := ite_none_right_eq_some.mp h
    cases ht
    refine ⟨hnow, ?_⟩
    unfold triggered
    cases hb : s.burst with
    | none => exact .began now hb
    | some b => exact .joined now b hb
  | poll now =>
    obtain ⟨hnow, ht⟩ := ite_none_right_eq_some.mp h
    cases ht
    cases hb : s.burst with
    | none =>
      rw [polled_idle hs hb]
      exact ⟨hnow, .idle now hb⟩
    | some b =>
      by_cases hdue : b.deadline quiet ceiling ≤ now
      · rw [polled_due hs hb hdue]
        exact ⟨hnow, .acted now b hb hdue⟩
      · have hearly := Nat.lt_of_not_le hdue
        rw [polled_early hs hb hearly]
        exact ⟨hnow, .early now b hb hearly⟩

/-- A trigger never brings the deadline forward. -/
theorem deadline_joined (h : b.last ≤ now) :
    b.deadline quiet ceiling ≤
      ({ b with later := b.later ++ [now] } : Burst).deadline quiet ceiling := by
  have hlast : ({ b with later := b.later ++ [now] } : Burst).last = now := by
    unfold Burst.last
    simp
  have hquiet : b.last + quiet ≤ now + quiet := Nat.add_le_add_right h quiet
  unfold Burst.deadline
  rw [hlast]
  exact Nat.le_min.mpr ⟨(Nat.min_le_left _ _).trans hquiet, Nat.min_le_right _ _⟩

theorem Kept.turn (hs : s.Kept quiet ceiling) (hnow : s.now ≤ t.now)
    (h : s.Turn quiet ceiling e t) : t.Kept quiet ceiling := by
  cases h with
  | began now hnone =>
    obtain ⟨hq, hc, hp⟩ := hs.idle hnone
    refine ⟨fun h => absurd h (some_ne_none _), fun b hb => ?_, hs.acted⟩
    cases hb
    exact ⟨Debouncer.bursting_of_idle hq hc hp now, Nat.le_refl now,
      fun p hp => absurd hp not_mem_nil⟩
  | joined now b hb =>
    obtain ⟨hbursting, hlast, hearly⟩ := hs.bursting b hb
    refine ⟨fun h => absurd h (some_ne_none _), fun b' hb' => ?_, hs.acted⟩
    cases hb'
    have hnew : ({ b with later := b.later ++ [now] } : Burst).last = now := by
      unfold Burst.last
      simp
    refine ⟨?_, hnew.le, fun p hp => ?_⟩
    · rw [hnew]
      exact hbursting.trigger now
    · have hmoved : b.deadline quiet ceiling ≤ _ := deadline_joined (hlast.trans hnow)
      exact (hearly p hp).trans_le hmoved
  | idle now hnone =>
    refine ⟨hs.idle, fun b hb => ?_, hs.acted⟩
    cases hnone.symm.trans hb
  | acted now b hb hdue =>
    obtain ⟨hbursting, hlast, hearly⟩ := hs.bursting b hb
    refine ⟨fun _ => ⟨hbursting.quiet, hbursting.ceiling, rfl⟩, ?_, fun a ha => ?_⟩
    · intro b' hb'
      cases hb'
    · rcases mem_append.mp ha with ha | ha
      · exact hs.acted a ha
      · cases mem_singleton.mp ha
        exact ⟨b, rfl, hdue, hearly⟩
  | early now b hb hnotDue =>
    obtain ⟨hbursting, hlast, hearly⟩ := hs.bursting b hb
    refine ⟨fun h => absurd h (some_ne_none _), fun b' hb' => ?_, hs.acted⟩
    cases hb'
    refine ⟨hbursting, hlast.trans hnow, fun p hp => ?_⟩
    rcases mem_append.mp hp with hp | hp
    · exact hearly p hp
    · cases mem_singleton.mp hp
      exact hnotDue

theorem Kept.dueAt (hs : s.Kept quiet ceiling) :
    s.debouncer.dueAt = s.burst.map (Burst.deadline quiet ceiling) := by
  cases hb : s.burst with
  | none => exact Debouncer.dueAt_of_idle (hs.idle hb).2.2
  | some b => exact (hs.bursting b hb).1.dueAt

theorem Turn.triggers (h : s.Turn quiet ceiling e t) :
    t.triggers = s.triggers ++ e.trigger?.toList := by
  unfold Debouncing.triggers
  cases h with
  | began now hnone => simp [hnone, Burst.triggers, DebounceEvent.trigger?]
  | joined now b hb => simp [hb, Burst.triggers, DebounceEvent.trigger?]
  | idle now hnone => simp [DebounceEvent.trigger?]
  | acted now b hb hdue => simp [hb, DebounceEvent.trigger?]
  | early now b hb hearly => simp [hb, Burst.triggers, DebounceEvent.trigger?]

/-- What becomes of the burst `b` of `s`: one action after `s` answers it with whatever joined it,
or it is open, and every poll since came before its deadline. -/
def Followed (quiet ceiling : ℕ) (s : Debouncing) (b : Burst) (es : List DebounceEvent)
    (t : Debouncing) : Prop :=
  (∃ more time b', t.actions = s.actions ++ more ∧ (time, some b') ∈ more ∧
    b.triggers <+: b'.triggers) ∨
  t.actions = s.actions ∧ ∃ b', t.burst = some b' ∧ b.triggers <+: b'.triggers ∧
    ∀ now, .poll now ∈ es → now < b'.deadline quiet ceiling

theorem Followed.turn {es : List DebounceEvent} {u : Debouncing}
    (hb : s.Followed quiet ceiling b es t) (ht : t.Kept quiet ceiling) (hnow : t.now ≤ u.now)
    (h : t.Turn quiet ceiling e u) : s.Followed quiet ceiling b (es ++ [e]) u := by
  obtain ⟨more, time, b', hactions, hmem, hprefix⟩ | ⟨hactions, b', hb', hprefix, hpolls⟩ := hb
  · have hgrows : ∃ new, u.actions = t.actions ++ new := by
      cases h with
      | acted now b hb hdue => exact ⟨[(now, some b)], rfl⟩
      | _ => exact ⟨[], (append_nil _).symm⟩
    obtain ⟨new, hnew⟩ := hgrows
    refine .inl ⟨more ++ new, time, b', ?_, mem_append_left _ hmem, hprefix⟩
    rw [hnew, hactions, append_assoc]
  · cases h with
    | began now hnone => cases hnone.symm.trans hb'
    | idle now hnone => cases hnone.symm.trans hb'
    | joined now b₁ hb₁ =>
      cases hb₁.symm.trans hb'
      refine .inr ⟨hactions, _, rfl, hprefix.trans ⟨[now], rfl⟩, fun p hp => ?_⟩
      have hmoved : b'.deadline quiet ceiling ≤ _ :=
        deadline_joined ((ht.bursting b' hb').2.1.trans hnow)
      rcases mem_append.mp hp with hp | hp
      · exact (hpolls p hp).trans_le hmoved
      · cases mem_singleton.mp hp
    | acted now b₁ hb₁ hdue =>
      cases hb₁.symm.trans hb'
      exact .inl ⟨[(now, some b')], now, b', congrArg (· ++ _) hactions, mem_singleton_self _,
        hprefix⟩
    | early now b₁ hb₁ hearly =>
      cases hb₁.symm.trans hb'
      refine .inr ⟨hactions, _, rfl, hprefix, fun p hp => ?_⟩
      rcases mem_append.mp hp with hp | hp
      · exact hpolls p hp
      · cases mem_singleton.mp hp
        exact hearly

/-- In every run each trigger is in exactly one burst, in order; each action answers one burst, at
the first poll that is not before its deadline; and an open burst is answered unless all polls come
before its deadline, which is what the debouncer tells its caller to wait for. -/
theorem debounce_answers {es : List DebounceEvent}
    (hrun : (debouncing quiet ceiling).run (start quiet ceiling) es = some s) :
    s.triggers = es.filterMap DebounceEvent.trigger? ∧
      (∀ a ∈ s.actions, ∃ b, a.2 = some b ∧ b.deadline quiet ceiling ≤ a.1 ∧
        ∀ now ∈ b.early, now < b.deadline quiet ceiling) ∧
      s.debouncer.dueAt = s.burst.map (Burst.deadline quiet ceiling) ∧
      ∀ b es' t, s.burst = some b → (debouncing quiet ceiling).run s es' = some t →
        s.Followed quiet ceiling b es' t := by
  have hkept : s.Kept quiet ceiling ∧ s.triggers = es.filterMap DebounceEvent.trigger? := by
    refine Machine.invariant_history (M := debouncing quiet ceiling)
      (I := fun es s => s.Kept quiet ceiling ∧ s.triggers = es.filterMap DebounceEvent.trigger?)
      ⟨kept_start, rfl⟩ ?_ hrun
    intro es s e t _ hs hstep
    obtain ⟨hnow, hturn⟩ := turn_of_step hs.1 hstep
    refine ⟨hs.1.turn hnow hturn, ?_⟩
    rw [hturn.triggers, hs.2, List.filterMap_append]
    cases e with
    | trigger now => rfl
    | poll now => rfl
  refine ⟨hkept.2, hkept.1.acted, hkept.1.dueAt, fun b es' t hb hrun' => ?_⟩
  have hfollowed : t.Kept quiet ceiling ∧ s.Followed quiet ceiling b es' t := by
    refine Machine.invariant_history (M := debouncing quiet ceiling)
      (I := fun es' t => t.Kept quiet ceiling ∧ s.Followed quiet ceiling b es' t) ?_ ?_ hrun'
    · refine ⟨hkept.1, .inr ⟨rfl, b, hb, List.prefix_rfl, fun now h => ?_⟩⟩
      exact absurd h List.not_mem_nil
    · intro es t e u _ ht hstep
      obtain ⟨hnow, hturn⟩ := turn_of_step ht.1 hstep
      exact ⟨ht.1.turn hnow hturn, ht.2.turn ht.1 hnow hturn⟩
  exact hfollowed.2

/-- Two triggers that keep a burst open to its ceiling, and one poll after it. -/
theorem debounce_answers_late_poll :
    ∃ s, (debouncing 3 4).run (start 3 4) [.trigger 1, .poll 3, .trigger 3, .poll 9] = some s ∧
      s.triggers = [1, 3] ∧ s.actions = [(9, some ⟨1, [3], [3]⟩)] := by
  have hrun : (debouncing 3 4).run (start 3 4) [.trigger 1, .poll 3, .trigger 3, .poll 9] =
      some _ := rfl
  exact ⟨_, hrun, (debounce_answers hrun).1, rfl⟩

/-- Nothing acts between polls: the action may come after the deadline, and there may be none. -/
theorem action_waits_for_poll :
    (∃ s b, (debouncing 1 2).run (start 1 2) [.trigger 0, .poll 9] = some s ∧
      s.actions = [(9, some b)] ∧ b.deadline 1 2 = 1) ∧
    ∃ s, (debouncing 1 2).run (start 1 2) [.trigger 0] = some s ∧ s.actions = [] :=
  ⟨⟨_, ⟨0, [], []⟩, rfl, rfl, rfl⟩, ⟨_, rfl, rfl⟩⟩

end Debouncing

end Soloist
