import Soloist.Agents.System

/-! Whose run an agent's recorded activity belongs to. The terminal's counter and title outlive a
relaunch, and the classifier is reset only by a tick that finds the process not running. -/
open Option

namespace Soloist

/-- The evidence a rule asks for, as the current child has shown it. -/
def ManagedProcess.shown (p : ManagedProcess) : IdleStrategy → Bool
  | .outputDelta => 0 < p.printed
  | .titleStability | .titleStatus => p.titled

namespace AgentSystem

/-- A running agent with a recorded activity has shown its evidence in the current run. -/
def CurrentRun (s : AgentSystem) : Prop :=
  ∀ id p c, s.registry.lookup id = some p → p.isRunning = true → s.tracker.lookup id = some c →
    c.current ≠ none → p.shown c.strategy = true

/-- An agent comes up with its classifier reset, and a sample that starts a running agent's
classification has its evidence from the current child. -/
def OfThisRun (s : AgentSystem) : AgentEvent → Prop
  | .run id => ∀ p, s.registry.lookup id = some p → p.point = .spawned →
      ∀ c, s.tracker.lookup id = some c → c.current = none
  | .sample _ =>
    match s.sampler with
    | .sampled _ id signals _ => ∀ p, s.registry.lookup id = some p → p.isRunning = true →
        ∀ c, s.tracker.lookup id = some c → c.current = none →
          c.strategy.hasEvidence signals = true → p.shown c.strategy = true
    | _ => True
  | _ => True

end AgentSystem

namespace ManagedProcess

/-- Until its child is announced a process is starting, and a child not announced has shown
nothing. -/
structure Sound (p : ManagedProcess) : Prop where
  starting : p.point = .top ∨ p.point = .spawning → p.status = .starting
  silent : p.point = .spawned → p.printed = 0 ∧ p.titled = false

variable {p p' : ManagedProcess} {e : AgentEvent}

theorem sound_new : new.Sound where
  starting := by
    rintro (h | h) <;> cases h
  silent := by
    intro h
    cases h

theorem sound_moved {status : ProcStatus} {point : ActorPoint}
    (h : point = .top ∨ point = .spawning → status = .starting) (hspawned : point ≠ .spawned) :
    (p.moved status point).Sound where
  starting := h
  silent := by
    intro hpoint
    exact absurd hpoint hspawned

theorem Sound.advance (hp : p.Sound) (h : p.advance e = some p') : p'.Sound := by
  cases e with
  | start id =>
    simp only [ManagedProcess.advance, ite_none_left_eq_some, Option.some.injEq] at h
    obtain ⟨-, rfl⟩ := h
    exact sound_moved (fun _ => rfl) (by simp)
  | markRestart id signals overflow =>
    simp only [ManagedProcess.advance, ite_none_right_eq_some, Option.some.injEq] at h
    obtain ⟨htop, rfl⟩ := h
    exact sound_moved (fun _ => hp.starting (.inl htop)) (by simp)
  | cycle id =>
    simp only [ManagedProcess.advance, ite_none_right_eq_some, Option.some.injEq] at h
    obtain ⟨-, rfl⟩ := h
    exact sound_moved (fun _ => rfl) (by simp)
  | spawn id =>
    simp only [ManagedProcess.advance, ite_none_right_eq_some, Option.some.injEq] at h
    obtain ⟨-, rfl⟩ := h
    refine ⟨?_, fun _ => ⟨rfl, rfl⟩⟩
    rintro (htop | hspawning)
    · cases htop
    · cases hspawning
  | output id data signals overflow =>
    simp only [ManagedProcess.advance, ite_none_right_eq_some, Option.some.injEq] at h
    obtain ⟨hpoint, rfl⟩ := h
    refine ⟨hp.starting, fun hspawned => ?_⟩
    have hsame : p.point = .spawned := hspawned
    rw [hsame] at hpoint
    obtain h | h := hpoint <;> cases h
  | halt | spawnFailed | run | exit | stop | stopped | restart | panic | exhaust =>
    simp only [ManagedProcess.advance, ite_none_right_eq_some, Option.some.injEq] at h
    obtain ⟨-, rfl⟩ := h
    exact sound_moved (by simp) (by simp)
  | register | launch | launchStart | track | record | clear | remove | removeTerminal | tick |
    sample | samplerPanic => cases h

/-- Only an announced child makes a process running, and only the next one takes back what it has
shown. -/
theorem Sound.advance_running (hp : p.Sound) (h : p.advance e = some p')
    (hrun : p'.isRunning = true) :
    (∃ id, e = .run id ∧ p.point = .spawned ∧ p' = p.moved .running .selecting) ∨
      p.isRunning = true ∧ ∀ strategy, p.shown strategy = true → p'.shown strategy = true := by
  cases e with
  | run id =>
    simp only [ManagedProcess.advance, ite_none_right_eq_some, Option.some.injEq] at h
    obtain ⟨hpoint, rfl⟩ := h
    exact .inl ⟨id, rfl, hpoint, rfl⟩
  | output id data signals overflow =>
    simp only [ManagedProcess.advance, ite_none_right_eq_some, Option.some.injEq] at h
    obtain ⟨-, rfl⟩ := h
    refine .inr ⟨hrun, fun strategy hshown => ?_⟩
    cases strategy with
    | outputDelta =>
      have hprinted : 0 < p.printed := of_decide_eq_true hshown
      exact decide_eq_true (Nat.lt_of_lt_of_le hprinted (Nat.le_add_right _ _))
    | titleStability | titleStatus =>
      have htitled : p.titled = true := hshown
      show (p.titled || _) = true
      rw [htitled, Bool.true_or]
  | markRestart id signals overflow =>
    simp only [ManagedProcess.advance, ite_none_right_eq_some, Option.some.injEq] at h
    obtain ⟨-, rfl⟩ := h
    exact .inr ⟨hrun, fun _ hshown => hshown⟩
  | spawn id =>
    simp only [ManagedProcess.advance, ite_none_right_eq_some, Option.some.injEq] at h
    obtain ⟨hpoint, rfl⟩ := h
    have hstarting : p.status = .starting := hp.starting (.inr hpoint)
    have hrunning : p.status = .running := of_decide_eq_true hrun
    rw [hstarting] at hrunning
    cases hrunning
  | exit id success =>
    simp only [ManagedProcess.advance, ite_none_right_eq_some, Option.some.injEq] at h
    obtain ⟨-, rfl⟩ := h
    have hrunning := of_decide_eq_true hrun
    cases success <;> cases hrunning
  | start id =>
    simp only [ManagedProcess.advance, ite_none_left_eq_some, Option.some.injEq] at h
    obtain ⟨-, rfl⟩ := h
    cases of_decide_eq_true hrun
  | halt | spawnFailed | stop | stopped | restart | cycle | panic | exhaust =>
    simp only [ManagedProcess.advance, ite_none_right_eq_some, Option.some.injEq] at h
    obtain ⟨-, rfl⟩ := h
    cases of_decide_eq_true hrun
  | register | launch | launchStart | track | record | clear | remove | removeTerminal | tick |
    sample | samplerPanic => cases h

end ManagedProcess

namespace AgentSystem
variable {s t : AgentSystem} {id : ProcessId} {e : AgentEvent}

/-- Every registered process is where its actor can have taken it. -/
def Sound (s : AgentSystem) : Prop :=
  ∀ id p, s.registry.lookup id = some p → p.Sound

/-- What runs after a step ran before it, and has shown at least as much. -/
def RunsOn (s t : AgentSystem) : Prop :=
  ∀ id p', t.registry.lookup id = some p' → p'.isRunning = true →
    ∃ p, s.registry.lookup id = some p ∧ p.isRunning = true ∧
      ∀ strategy, p.shown strategy = true → p'.shown strategy = true

def RecordsLess (s t : AgentSystem) : Prop :=
  ∀ id c', t.tracker.lookup id = some c' → c'.current ≠ none →
    ∃ c, s.tracker.lookup id = some c ∧ c.current ≠ none ∧ c.strategy = c'.strategy

theorem CurrentRun.of (hs : s.CurrentRun) (hruns : s.RunsOn t) (hrecords : s.RecordsLess t) :
    t.CurrentRun := by
  intro id p' c' hp' hrun hc' hcurrent
  obtain ⟨p, hp, hrunning, hshown⟩ := hruns id p' hp' hrun
  obtain ⟨c, hc, hold, hstrategy⟩ := hrecords id c' hc' hcurrent
  rw [← hstrategy]
  exact hshown _ (hs id p c hp hrunning hc hold)

theorem runsOn_refl (s : AgentSystem) : s.RunsOn s :=
  fun _ p hp hrun => ⟨p, hp, hrun, fun _ hshown => hshown⟩

theorem sound_new : new.Sound := by
  intro id p h
  cases h

theorem Sound.insert (hs : s.Sound) {p : ManagedProcess} (hp : p.Sound)
    (h : t.registry = AList.insert id p s.registry) : t.Sound := by
  intro i p' hp'
  rw [h, Dict.lookup_insert] at hp'
  split_ifs at hp'
  · exact some.inj hp' ▸ hp
  · exact hs i p' hp'

theorem Sound.advance (hs : s.Sound) (h : s.advance id e = some t) : t.Sound := by
  obtain ⟨p, hp, hmap⟩ := bind_eq_some_iff.mp h
  obtain ⟨p', hadvance, rfl⟩ := map_eq_some_iff.mp hmap
  exact hs.insert ((hs id p hp).advance hadvance) rfl

/-- A registered process is stopped, so nothing new is running. -/
theorem runsOn_register (h : t.registry = AList.insert id .new s.registry) : s.RunsOn t := by
  intro i p' hp' hrun
  rw [h, Dict.lookup_insert] at hp'
  split_ifs at hp'
  · cases hp'
    cases of_decide_eq_true hrun
  · exact ⟨p', hp', hrun, fun _ hshown => hshown⟩

/-- Every step but that of an announced child leaves what runs running. -/
theorem Sound.runsOn_advance (hs : s.Sound) (h : s.advance id e = some t)
    (hother : ∀ id', e ≠ .run id') : s.RunsOn t := by
  obtain ⟨p, hp, hmap⟩ := bind_eq_some_iff.mp h
  obtain ⟨p', hadvance, rfl⟩ := map_eq_some_iff.mp hmap
  intro i q hq hrun
  have hlookup : (if i = id then some p' else s.registry.lookup i) = some q := by
    rw [← Dict.lookup_insert]
    exact hq
  split_ifs at hlookup with hi
  · cases hlookup
    obtain ⟨id', rfl, -⟩ | ⟨hrunning, hshown⟩ := (hs id p hp).advance_running hadvance hrun
    · exact absurd rfl (hother id')
    · exact ⟨p, hi ▸ hp, hrunning, hshown⟩
  · exact ⟨q, hlookup, hrun, fun _ hshown => hshown⟩

theorem recordsLess_of_tracker (h : t.tracker = s.tracker) : s.RecordsLess t := by
  intro i c hc hcurrent
  rw [h] at hc
  exact ⟨c, hc, hcurrent, rfl⟩

theorem tracker_advance (h : s.advance id e = some t) : t.tracker = s.tracker := by
  obtain ⟨p, -, hmap⟩ := bind_eq_some_iff.mp h
  obtain ⟨p', -, rfl⟩ := map_eq_some_iff.mp hmap
  rfl

/-- A classifier put in place without an activity. -/
theorem recordsLess_insert {c : Classifier} (hc : c.current = none)
    (h : t.tracker = AList.insert id c s.tracker) : s.RecordsLess t := by
  intro i c' hc' hcurrent
  rw [h, Dict.lookup_insert] at hc'
  split_ifs at hc'
  · cases hc'
    exact absurd hc hcurrent
  · exact ⟨c', hc', hcurrent, rfl⟩

theorem recordsLess_retain {keep : ProcessId → Bool} (h : t.tracker = s.tracker.retain keep) :
    s.RecordsLess t := by
  intro i c hc hcurrent
  rw [h, Dict.lookup_retain] at hc
  split_ifs at hc
  exact ⟨c, hc, hcurrent, rfl⟩

theorem Sound.run_iff (hs : s.Sound) (hcurrent : s.CurrentRun) :
    (∀ t, s.step (.run id) = some t → t.CurrentRun) ↔ s.OfThisRun (.run id) := by
  constructor
  · intro h p hp hpoint c hc
    have hadvance : p.advance (.run id) = some (p.moved .running .selecting) := if_pos hpoint
    have hnext := h _ (show s.advance id (.run id) = some _ by
      unfold AgentSystem.advance
      rw [hp, bind_some, hadvance, map_some])
    have hlookup : AList.lookup id (AList.insert id (p.moved .running .selecting) s.registry) =
        some (p.moved .running .selecting) := AList.lookup_insert s.registry
    by_contra hold
    have hshown := hnext id _ c hlookup rfl hc hold
    obtain ⟨hprinted, htitled⟩ := (hs id p hp).silent hpoint
    cases hstrategy : c.strategy with
    | outputDelta =>
      rw [hstrategy] at hshown
      have hpos : 0 < p.printed := of_decide_eq_true hshown
      omega
    | titleStability | titleStatus =>
      rw [hstrategy] at hshown
      have hset : p.titled = true := hshown
      rw [htitled] at hset
      cases hset
  · intro h t ht
    obtain ⟨p, hp, hmap⟩ := bind_eq_some_iff.mp ht
    obtain ⟨p', hadvance, rfl⟩ := map_eq_some_iff.mp hmap
    have hpoint : p.point = .spawned := by
      simp only [ManagedProcess.advance, ite_none_right_eq_some] at hadvance
      exact hadvance.1
    intro i q c hq hrun hc hcur
    have hlookup : (if i = id then some p' else s.registry.lookup i) = some q := by
      rw [← Dict.lookup_insert]
      exact hq
    split_ifs at hlookup with hi
    · subst hi
      exact absurd (h p hp hpoint c hc) hcur
    · exact hcurrent i q c hlookup hrun hc hcur

/-- Every sampling step but the one that classifies records nothing new. -/
theorem recordsLess_sample {tail : List String} (h : s.sampleNext tail = some t) :
    t.registry = s.registry ∧ (s.RecordsLess t ∨
      ∃ registry id signals rest, s.sampler = .sampled registry id signals rest) := by
  unfold sampleNext at h
  cases hsampler : s.sampler with
  | asleep =>
    rw [hsampler] at h
    cases h
  | listed tracked =>
    rw [hsampler] at h
    dsimp only at h
    split_ifs at h <;> cases h
    · exact ⟨rfl, .inl (recordsLess_of_tracker rfl)⟩
    · exact ⟨rfl, .inl (recordsLess_of_tracker rfl)⟩
  | snapping tracked =>
    rw [hsampler] at h
    cases h
    exact ⟨rfl, .inl (recordsLess_of_tracker rfl)⟩
  | snapped registry tracked =>
    rw [hsampler] at h
    cases h
    exact ⟨rfl, .inl (@recordsLess_retain s _ (fun id => id ∈ registry.keys) rfl)⟩
  | pruned registry tracked =>
    rw [hsampler] at h
    cases h
    exact ⟨rfl, .inl (recordsLess_of_tracker rfl)⟩
  | visiting registry rest =>
    rw [hsampler] at h
    cases rest with
    | nil =>
      cases h
      exact ⟨rfl, .inl (recordsLess_of_tracker rfl)⟩
    | cons id rest =>
      dsimp only at h
      split at h
      · cases h
        exact ⟨rfl, .inl (recordsLess_of_tracker rfl)⟩
      · split_ifs at h
        · split at h <;> cases h
          · exact ⟨rfl, .inl (recordsLess_of_tracker rfl)⟩
          · exact ⟨rfl, .inl (recordsLess_of_tracker rfl)⟩
        · cases h
          refine ⟨rfl, .inl ?_⟩
          cases hc : s.tracker.lookup id with
          | none => exact recordsLess_of_tracker rfl
          | some c => exact recordsLess_insert (c := c.reset) rfl rfl
  | sampled registry id signals rest =>
    rw [hsampler] at h
    cases h
    exact ⟨rfl, .inr ⟨registry, id, signals, rest, rfl⟩⟩

theorem runsOn_of_registry (h : t.registry = s.registry) : s.RunsOn t := by
  intro i p hp hrun
  rw [h] at hp
  exact ⟨p, hp, hrun, fun _ hshown => hshown⟩

theorem lookup_classified {d : Dict ProcessId Classifier} {signals : TerminalActivity}
    {i : ProcessId} {c' : Classifier}
    (h : AList.lookup i ((d.lookup id).elim d fun c => AList.insert id (c.observe signals).1 d) =
      some c') :
    d.lookup i = some c' ∨ i = id ∧ ∃ c, d.lookup id = some c ∧ c' = (c.observe signals).1 := by
  cases hc : d.lookup id with
  | none =>
    rw [hc] at h
    exact .inl h
  | some c =>
    rw [hc, elim_some, Dict.lookup_insert] at h
    split_ifs at h with hi
    · exact .inr ⟨hi, c, rfl, (some.inj h).symm⟩
    · exact .inl h

theorem CurrentRun.sample_iff (hs : s.CurrentRun) (tail : List String) :
    (∀ t, s.step (.sample tail) = some t → t.CurrentRun) ↔ s.OfThisRun (.sample tail) := by
  unfold OfThisRun
  by_cases hstage : ∃ registry id signals rest, s.sampler = .sampled registry id signals rest
  · obtain ⟨registry, id, signals, rest, hsampler⟩ := hstage
    have hstep : s.step (.sample tail) = some { s with
        tracker := (s.tracker.lookup id).elim s.tracker fun c =>
          AList.insert id (c.observe signals).1 s.tracker
        sampler := .visiting registry rest } := by
      show s.sampleNext tail = _
      unfold sampleNext
      rw [hsampler]
    rw [hsampler]
    constructor
    · intro h p hp hrun c hc _ hevidence
      have hlookup : AList.lookup id ((s.tracker.lookup id).elim s.tracker fun c =>
          AList.insert id (c.observe signals).1 s.tracker) = some (c.observe signals).1 := by
        rw [hc, elim_some, AList.lookup_insert]
      have hshown := h _ hstep id p _ hp hrun hlookup
        (Classifier.current_observe_of_evidence hevidence)
      rw [Classifier.strategy_observe] at hshown
      exact hshown
    · intro h t ht
      rw [hstep] at ht
      cases ht
      intro i p c' hp hrun hc' hcurrent
      obtain hold | ⟨rfl, c, hc, rfl⟩ := lookup_classified hc'
      · exact hs i p c' hp hrun hold hcurrent
      · rw [Classifier.strategy_observe]
        by_cases hnone : c.current = none
        · obtain hold | hevidence := Classifier.current_observe hcurrent
          · exact absurd hnone hold
          · exact h p hp hrun c hc hnone hevidence
        · exact hs i p c hp hrun hc hnone
  · refine iff_of_true (fun t ht => ?_) ?_
    · obtain ⟨hregistry, hless | hsampled⟩ := recordsLess_sample ht
      · exact hs.of (runsOn_of_registry hregistry) hless
      · exact absurd hsampled hstage
    · cases hsampler : s.sampler with
      | sampled registry id signals rest =>
        exact absurd ⟨registry, id, signals, rest, hsampler⟩ hstage
      | asleep | listed | snapping | snapped | pruned | visiting => trivial

theorem Sound.launchStart (hs : s.Sound) (accepted : Bool) (kind : Option AgentKind) :
    (s.launchStart id accepted kind).Sound ∧ s.RunsOn (s.launchStart id accepted kind) ∧
      (s.launchStart id accepted kind).tracker = s.tracker := by
  unfold AgentSystem.launchStart
  split_ifs
  · cases h : s.advance id (.start id) with
    | none => exact ⟨hs, runsOn_refl s, rfl⟩
    | some t =>
      have hsound : t.Sound := hs.advance h
      have hruns : s.RunsOn t := hs.runsOn_advance h (by simp)
      have htracker : t.tracker = s.tracker := tracker_advance h
      exact ⟨hsound, hruns, htracker⟩
  · exact ⟨hs, runsOn_refl s, rfl⟩

/-- Every step but an announced child and a sample carries on what was recorded of what ran. -/
theorem Sound.step (hs : s.Sound) (h : s.step e = some t) :
    t.Sound ∧ ((∃ id, e = .run id) ∨ (∃ tail, e = .sample tail) ∨
      s.RunsOn t ∧ s.RecordsLess t) := by
  cases e with
  | register | launch =>
    cases h
    exact ⟨hs.insert ManagedProcess.sound_new rfl,
      .inr (.inr ⟨runsOn_register rfl, recordsLess_of_tracker rfl⟩)⟩
  | launchStart id accepted =>
    simp only [AgentSystem.step] at h
    split at h
    next kind hcall =>
      cases h
      obtain ⟨hsound, hruns, htracker⟩ := hs.launchStart accepted kind
      exact ⟨hsound, .inr (.inr ⟨hruns, recordsLess_of_tracker htracker⟩)⟩
    next => cases h
  | track id =>
    simp only [AgentSystem.step] at h
    split at h
    next kind hcall =>
      cases h
      exact ⟨hs, .inr (.inr ⟨runsOn_of_registry rfl, recordsLess_insert rfl rfl⟩)⟩
    next => cases h
  | record id lead =>
    simp only [AgentSystem.step] at h
    split at h
    next hcall =>
      cases h
      exact ⟨hs, .inr (.inr ⟨runsOn_of_registry rfl, recordsLess_of_tracker rfl⟩)⟩
    next => cases h
  | run id => exact ⟨Sound.advance hs h, .inl ⟨id, rfl⟩⟩
  | start | markRestart | halt | spawn | spawnFailed | output | exit | stop | stopped | restart |
    cycle | panic | exhaust =>
    exact ⟨Sound.advance hs h, .inr (.inr ⟨hs.runsOn_advance h (by simp),
      recordsLess_of_tracker (tracker_advance h)⟩)⟩
  | clear id =>
    cases h
    exact ⟨hs, .inr (.inr ⟨runsOn_of_registry rfl, recordsLess_of_tracker rfl⟩)⟩
  | remove id =>
    simp only [AgentSystem.step, ite_none_right_eq_some, Option.some.injEq] at h
    obtain ⟨-, rfl⟩ := h
    have hold : ∀ i p, AList.lookup i (AList.erase id s.registry) = some p →
        s.registry.lookup i = some p := by
      intro i p hp
      rw [Dict.lookup_erase] at hp
      split_ifs at hp
      exact hp
    exact ⟨fun i p hp => hs i p (hold i p hp), .inr (.inr
      ⟨fun i p hp hrun => ⟨p, hold i p hp, hrun, fun _ hshown => hshown⟩,
        recordsLess_of_tracker rfl⟩)⟩
  | removeTerminal id =>
    simp only [AgentSystem.step, ite_none_left_eq_some, Option.some.injEq] at h
    obtain ⟨-, rfl⟩ := h
    exact ⟨hs, .inr (.inr ⟨runsOn_of_registry rfl, recordsLess_of_tracker rfl⟩)⟩
  | tick order =>
    simp only [AgentSystem.step] at h
    split at h
    · split_ifs at h
      cases h
      exact ⟨hs, .inr (.inr ⟨runsOn_of_registry rfl, recordsLess_of_tracker rfl⟩)⟩
    · cases h
  | sample tail =>
    have hregistry := (recordsLess_sample h).1
    exact ⟨fun i p hp => hs i p (hregistry ▸ hp), .inr (.inl ⟨tail, rfl⟩)⟩
  | samplerPanic =>
    simp only [AgentSystem.step] at h
    split at h
    · cases h
    · cases h
      exact ⟨hs, .inr (.inr ⟨runsOn_of_registry rfl, recordsLess_of_tracker rfl⟩)⟩

theorem Sound.step_iff (hs : s.Sound) (hcurrent : s.CurrentRun) :
    (∀ t, s.step e = some t → t.CurrentRun) ↔ s.OfThisRun e := by
  by_cases hrun : ∃ id, e = .run id
  · obtain ⟨id, rfl⟩ := hrun
    exact hs.run_iff hcurrent
  by_cases hsample : ∃ tail, e = .sample tail
  · obtain ⟨tail, rfl⟩ := hsample
    exact hcurrent.sample_iff tail
  · refine iff_of_true (fun t ht => ?_) ?_
    · obtain ⟨-, h | h | ⟨hruns, hless⟩⟩ := hs.step ht
      · exact absurd h hrun
      · exact absurd h hsample
      · exact hcurrent.of hruns hless
    · unfold OfThisRun
      split
      · exact absurd ⟨_, rfl⟩ hrun
      · exact absurd ⟨_, rfl⟩ hsample
      · trivial

theorem currentRun_new : new.CurrentRun := by
  intro id p c h
  cases h

end AgentSystem

/-- A running agent's recorded activity comes from its current run, in exactly the runs that bring
agents up with their classifier reset and start a classification on what the current child has
shown. -/
theorem activity_is_of_the_run (events : List AgentEvent) :
    agentMachine.Throughout AgentSystem.CurrentRun .new events ↔
      agentMachine.Along AgentSystem.OfThisRun .new events :=
  Machine.throughout_iff_along (I := AgentSystem.Sound) (fun _ _ _ hs hst => (hs.step hst).1)
    (fun _ _ hs hcurrent => hs.step_iff hcurrent) AgentSystem.sound_new
    AgentSystem.currentRun_new

/-- An agent comes up and prints; the next tick classifies it. -/
def agentWorking : List AgentEvent :=
  [.launch (some .claude), .launchStart 1 true, .track 1, .record 1 none, .markRestart 1 [] 0,
    .spawn 1, .run 1, .output 1 [65] [] 0, .tick [1], .sample [], .sample [], .sample [],
    .sample [], .sample [], .sample [], .sample []]

/-- The agent is restarted, and is running again before the next tick. -/
def restartedBetweenTicks : List AgentEvent :=
  [.restart 1, .cycle 1, .markRestart 1 [] 0, .spawn 1, .run 1]

theorem silent_agent_working :
    ¬ agentMachine.Throughout AgentSystem.CurrentRun .new
      (agentWorking ++ restartedBetweenTicks) := by
  intro h
  have hrun : (agentMachine.run .new (agentWorking ++ restartedBetweenTicks)).any (fun s =>
      (s.registry.lookup 1).any fun p => (s.tracker.lookup 1).any fun c =>
        p.isRunning && decide (c.current = some .working) && !p.shown c.strategy) = true := by
    decide
  obtain ⟨s, hs, hany⟩ := (Option.any_eq_true _ _).mp hrun
  obtain ⟨p, hp, hany⟩ := (Option.any_eq_true _ _).mp hany
  obtain ⟨c, hc, hstale⟩ := (Option.any_eq_true _ _).mp hany
  simp only [Bool.and_eq_true, decide_eq_true_eq, Bool.not_eq_true'] at hstale
  obtain ⟨⟨hrunning, hworking⟩, hsilent⟩ := hstale
  have hcurrent : s.CurrentRun := Machine.Throughout.run h hs
  have hshown := hcurrent 1 p c hp hrunning hc (by simp [hworking])
  rw [hsilent] at hshown
  cases hshown

end Soloist
