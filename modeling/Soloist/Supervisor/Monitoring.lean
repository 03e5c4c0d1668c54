import Soloist.Facade.Session
import Soloist.Supervisor.Handles

/-! The process group an entry is on and what the monitors found out about it, beside the fleet: an
actor records its child's group and clears it again, and the monitors report late. -/
open Option Slots

namespace Soloist

/-- The monitoring fields of a registry entry. -/
structure Reading where
  pgid : Option ℤ
  ports : List ℕ
  ready : Facade.Readiness
  deriving DecidableEq, Repr

namespace Reading

def unmonitored : Reading := ⟨none, [], .ungated⟩

/-- Clearing the group clears what was found out about it. -/
def setPgid (r : Reading) : Option ℤ → Reading
  | none => ⟨none, [], .ungated⟩
  | some pgid => { r with pgid := some pgid }

end Reading

namespace Pc

def holdsGroup : Pc → Bool
  | .spawned | .selecting | .exiting _ | .stopping | .restarting => true
  | _ => false

/-- The points right after the loop over the child. -/
def windsDown : Pc → Bool
  | .exiting _ | .stopping | .restarting => true
  | _ => false

def inner : Pc → Bool
  | .launching | .scheduled | .done => false
  | _ => true

end Pc

/-- What has become of the group of an actor's child. A panic of the inner task is handled by the
outer one, which reaps the group and then forces the entry to `Crashed`. -/
inductive GroupPhase
  | unrecorded
  | recorded
  | panicked
  | reaped
  deriving DecidableEq, Repr

namespace GroupPhase

def fits : GroupPhase → Pc → Bool
  | .unrecorded, _ => true
  | .recorded, pc => pc.holdsGroup
  | .panicked, pc | .reaped, pc => pc.inner

variable {phase : GroupPhase} {pc : Pc}

theorem ne_done_of_fits (h : phase.fits pc = true) (hphase : phase ≠ .unrecorded) : pc ≠ .done := by
  rintro rfl
  cases phase <;> simp [fits, Pc.holdsGroup, Pc.inner] at h hphase

theorem unrecorded_of_scheduled (h : phase.fits .scheduled = true) : phase = .unrecorded := by
  cases phase <;> simp [fits, Pc.holdsGroup, Pc.inner] at h ⊢

end GroupPhase

structure Monitored where
  fleet : Fleet
  readings : Slots ProcessId Reading
  phase : ActorId → GroupPhase

inductive MonitorEvent
  | fleet (act : FleetAct)
  | recordGroup (a : ActorId) (pgid : Option ℤ)
  | clearGroup (a : ActorId)
  | panic (a : ActorId)
  | reapPanicked (a : ActorId)
  | crashPanicked (a : ActorId)
  | setPorts (id : ProcessId) (pgid : ℤ) (ports : List ℕ)
  | setReady (id : ProcessId) (pgid : ℤ) (ready : Bool)

namespace Monitored

def empty : Monitored := ⟨.empty, Slots.empty, fun _ => .unrecorded⟩

/-- The group is recorded before `Running` and cleared before the status that follows the loop, and
a panicked actor does nothing more. -/
def allows (s : Monitored) : FleetAct → Bool
  | .advance a =>
    match s.fleet.actors a, s.phase a with
    | some x, .unrecorded => x.pc ≠ .spawned
    | some x, .recorded => !x.pc.windsDown
    | _, _ => false
  | .move _ (.childExit _) => true
  | .move a _ | .publish a => s.phase a = .unrecorded || s.phase a = .recorded
  | _ => true

/-- A registered entry keeps its fields, and a new one has none. -/
def setFleet (s : Monitored) (fleet : Fleet) : Monitored :=
  { s with
    fleet
    readings := fun id => (fleet.registry id).map fun _ => (s.readings id).getD .unmonitored }

def setGroup (s : Monitored) (a : ActorId) (x : Actor) (f : Reading → Reading)
    (phase : GroupPhase) : Monitored :=
  { s with readings := s.readings.modify x.process f, phase := Function.update s.phase a phase }

@[simp] theorem setGroup_phase (s : Monitored) (a : ActorId) (x : Actor) (f : Reading → Reading)
    (phase : GroupPhase) : (s.setGroup a x f phase).phase = Function.update s.phase a phase := rfl

/-- Only while the process is on the group the wait is probing, with whether anything changed. -/
def setReady (s : Monitored) (id : ProcessId) (pgid : ℤ) (ready : Bool) : Monitored × Bool :=
  let next := if ready then .ready else .waiting
  match s.readings id with
  | some r =>
    if r.pgid = some pgid ∧ r.ready ≠ next then
      ({ s with readings := s.readings.put id { r with ready := next } }, true)
    else (s, false)
  | none => (s, false)

/-- Only while the process is on the group that was scanned, with whether anything changed. -/
def setPorts (s : Monitored) (id : ProcessId) (pgid : ℤ) (ports : List ℕ) : Monitored × Bool :=
  match s.readings id with
  | some r =>
    if r.pgid = some pgid ∧ r.ports ≠ ports then
      ({ s with readings := s.readings.put id { r with ports } }, true)
    else (s, false)
  | none => (s, false)

def step [Sha256] (s : Monitored) : MonitorEvent → Option Monitored
  | .fleet act => if s.allows act then (s.fleet.step act).map s.setFleet else none
  | .recordGroup a pgid =>
    (s.fleet.actors a).bind fun x =>
      if x.pc = .spawned ∧ s.phase a = .unrecorded then
        some (s.setGroup a x (·.setPgid pgid) .recorded)
      else none
  | .clearGroup a =>
    (s.fleet.actors a).bind fun x =>
      if x.pc.windsDown ∧ s.phase a = .recorded then
        some (s.setGroup a x (·.setPgid none) .unrecorded)
      else none
  | .panic a =>
    (s.fleet.actors a).bind fun x =>
      if x.pc.inner ∧ (s.phase a = .unrecorded ∨ s.phase a = .recorded) then
        some { s with phase := Function.update s.phase a .panicked }
      else none
  | .reapPanicked a =>
    (s.fleet.actors a).bind fun x =>
      if s.phase a = .panicked then
        some (s.setGroup a x (fun r => if r.pgid.isSome then r.setPgid none else r) .reaped)
      else none
  | .crashPanicked a =>
    (s.fleet.actors a).bind fun x =>
      if s.phase a = .reaped then
        some { s with
          fleet := { s.fleet.setActor a { x with pc := .done, child := .none, outbox := none } with
            registry := s.fleet.registry.setStatus x.process .crashed none }
          phase := Function.update s.phase a .unrecorded }
      else none
  | .setPorts id pgid ports => some (s.setPorts id pgid ports).1
  | .setReady id pgid ready => some (s.setReady id pgid ready).1

structure Sound (s : Monitored) : Prop where
  owned : s.fleet.Owned
  keyed : ∀ id, (s.readings id).isSome = (s.fleet.registry id).isSome
  quiet : ∀ id r, s.readings id = some r → r.pgid = none → r.ports = [] ∧ r.ready = .ungated
  grouped : ∀ id r, s.readings id = some r → r.pgid ≠ none → ∃ a x,
    s.fleet.actors a = some x ∧ x.process = id ∧ (s.phase a = .recorded ∨ s.phase a = .panicked)
  fits : ∀ a x, s.fleet.actors a = some x → (s.phase a).fits x.pc = true
  fresh : ∀ a, s.fleet.actors a = none → s.phase a = .unrecorded

theorem sound_empty : Sound .empty := by
  constructor
  · exact Fleet.owned_empty
  all_goals simp [empty, Fleet.empty]

variable {s t : Monitored} {a : ActorId} {x y : Actor} {act : FleetAct} {id : ProcessId}

theorem allows_move {mv : ActorMove} (h : s.allows (.move a mv) = true) :
    (∃ st, mv = .childExit st) ∨ s.phase a = .unrecorded ∨ s.phase a = .recorded := by
  cases mv with
  | childExit st => exact .inl ⟨st, rfl⟩
  | _ => exact .inr (by simpa [allows] using h)

theorem fits_evolves (hfits : (s.phase a).fits x.pc = true) (hx : s.fleet.actors a = some x)
    (hallows : s.allows act = true) (h : x.Evolves s.fleet a act y) :
    (s.phase a).fits y.pc = true := by
  cases h with
  | same | published => exact hfits
  | toldStop | toldRestart | closed =>
    have hpc : ∀ msg, (x.trySend msg).pc = x.pc := fun msg => Actor.trySend_pc
    simpa [Actor.dropSender, hpc] using hfits
  | attached pc hpc =>
    rcases hpc with rfl | ⟨hscheduled, rfl, -⟩
    · exact hfits
    · rw [hscheduled] at hfits
      rw [GroupPhase.unrecorded_of_scheduled hfits]
      rfl
  | advanced target code next hout hpending =>
    cases hphase : s.phase a with
    | unrecorded => rfl
    | recorded =>
      have hstays : x.pc.windsDown = false := by simpa [allows, hx, hphase] using hallows
      rw [hphase] at hfits
      cases hpc : x.pc <;> rw [hpc] at hfits hstays hpending <;>
        simp [GroupPhase.fits, Pc.holdsGroup, Pc.windsDown, Pc.pending] at hfits hstays hpending
      rw [← hpending.2.2]
      rfl
    | panicked | reaped => simp [allows, hx, hphase] at hallows
  | moved mv _ hmoves =>
    rcases allows_move hallows with ⟨st, rfl⟩ | hphase | hphase
    · cases hmoves
      exact hfits
    · rw [hphase]
      rfl
    · rw [hphase] at hfits ⊢
      cases hmoves with
      | childExit => exact hfits
      | exit st hout hpc hchild => rfl
      | recvRestart | recvStop | disconnected => rfl
      | spawnTask hout hpc | poll hout hpc | drainStop rest hout hpc hbox
      | drainRestart r rest hout hpc hbox | drained hout hpc hbox | spawn captured hout hpc
      | spawnFailed hout hpc | reap hout hpc | cycle hout hpc =>
        rw [hpc] at hfits
        cases hfits

theorem Sound.live (h : s.Sound) (hx : s.fleet.actors a = some x)
    (hphase : s.phase a = .recorded ∨ s.phase a = .panicked) : x.Live := by
  refine GroupPhase.ne_done_of_fits (h.fits a x hx) ?_
  rcases hphase with hphase | hphase <;> simp [hphase]

theorem Sound.fleet [Sha256] (h : s.Sound) (hallows : s.allows act = true) {fleet : Fleet}
    (hstep : s.fleet.step act = some fleet) : (s.setFleet fleet).Sound := by
  have hforth : ∀ b z, s.fleet.actors b = some z →
      ∃ w, fleet.actors b = some w ∧ z.Evolves s.fleet b act w :=
    fun b z hz => Fleet.step_evolves h.owned hstep hz
  have hread : ∀ id r, (s.setFleet fleet).readings id = some r →
      s.readings id = some r ∨ r = .unmonitored := by
    intro id r hr
    obtain ⟨m, -, hr⟩ := map_eq_some_iff.mp hr
    cases hold : s.readings id with
    | none => exact .inr (by simpa [hold] using hr.symm)
    | some old => exact .inl (by simpa [hold] using hr)
  constructor
  · exact Fleet.owned_step h.owned hstep
  · intro id
    exact isSome_map
  · intro id r hr hnone
    rcases hread id r hr with hold | rfl
    · exact h.quiet id r hold hnone
    · exact ⟨rfl, rfl⟩
  · intro id r hr hgroup
    rcases hread id r hr with hold | rfl
    · obtain ⟨a, x, hx, hprocess, hphase⟩ := h.grouped id r hold hgroup
      obtain ⟨y, hy, hevolves⟩ := hforth a x hx
      exact ⟨a, y, hy, hevolves.process.trans hprocess, hphase⟩
    · exact absurd rfl hgroup
  · intro a y hy
    rcases Fleet.step_actor h.owned.manned hstep hy with ⟨x, hx, hevolves⟩ | ⟨r, source, -, rfl, -⟩
    · have hfits : (s.phase a).fits y.pc = true :=
        fits_evolves (h.fits a x hx) hx hallows hevolves
      exact hfits
    · have hnew : s.fleet.actors s.fleet.nextActor = none := by
        cases hx : s.fleet.actors s.fleet.nextActor with
        | none => rfl
        | some x => exact absurd (h.owned.actor_lt _ x hx) (Nat.lt_irrefl _)
      have hphase : (s.setFleet fleet).phase s.fleet.nextActor = .unrecorded := h.fresh _ hnew
      rw [hphase]
      rfl
  · intro a ha
    cases hx : s.fleet.actors a with
    | none => exact h.fresh a hx
    | some x =>
      obtain ⟨y, hy, -⟩ := hforth a x hx
      exact absurd (ha.symm.trans hy) (some_ne_none y).symm

/-- An actor changes the reading of its own process and its own phase, and leaves no group behind
that it does not account for. -/
theorem Sound.setGroup (h : s.Sound) (hx : s.fleet.actors a = some x) {f : Reading → Reading}
    {phase : GroupPhase} (hfits : phase.fits x.pc = true)
    (hquiet : ∀ r, (f r).pgid = none → (r.pgid = none → r.ports = [] ∧ r.ready = .ungated) →
      (f r).ports = [] ∧ (f r).ready = .ungated)
    (hgroup : ∀ r, (f r).pgid ≠ none → phase = .recorded) : (s.setGroup a x f phase).Sound := by
  constructor
  · exact h.owned
  · intro id
    refine Eq.trans ?_ (h.keyed id)
    simp only [Monitored.setGroup, Slots.modify]
    split_ifs
    · exact isSome_map
    · rfl
  · intro id r hr hnone
    obtain ⟨old, hold, rfl⟩ := modify_eq_some.mp hr
    split_ifs at hnone ⊢
    · exact hquiet old hnone (h.quiet id old hold)
    · exact h.quiet id old hold hnone
  · intro id r hr hne
    obtain ⟨old, hold, rfl⟩ := modify_eq_some.mp hr
    by_cases hid : id = x.process
    · rw [if_pos hid] at hne
      refine ⟨a, x, hx, hid.symm, .inl ?_⟩
      simp [hgroup old hne]
    · rw [if_neg hid] at hne
      obtain ⟨b, y, hy, hprocess, hphase⟩ := h.grouped id old hold hne
      have hba : b ≠ a := by
        rintro rfl
        obtain rfl : x = y := some.inj (hx.symm.trans hy)
        exact hid hprocess.symm
      refine ⟨b, y, hy, hprocess, ?_⟩
      simpa [hba] using hphase
  · intro b y hy
    by_cases hba : b = a
    · subst hba
      obtain rfl : x = y := some.inj (hx.symm.trans hy)
      simpa using hfits
    · simpa [hba] using h.fits b y hy
  · intro b hb
    have hba : b ≠ a := by
      rintro rfl
      exact absurd (hb.symm.trans hx) (some_ne_none x).symm
    simpa [hba] using h.fresh b hb

theorem Sound.put (h : s.Sound) {r r' : Reading} (hr : s.readings id = some r)
    (hpgid : r'.pgid = r.pgid) (hgroup : r.pgid ≠ none) :
    Sound { s with readings := s.readings.put id r' } := by
  constructor
  · exact h.owned
  · intro i
    rw [← h.keyed i]
    by_cases hi : i = id
    · simp [hi, hr]
    · exact congrArg _ (put_of_ne hi)
  · intro i q hq hnone
    rcases put_eq_some.mp hq with ⟨-, rfl⟩ | ⟨-, hq⟩
    · exact absurd (hpgid.symm.trans hnone) hgroup
    · exact h.quiet i q hq hnone
  · intro i q hq hne
    rcases put_eq_some.mp hq with ⟨rfl, rfl⟩ | ⟨-, hq⟩
    · exact h.grouped i r hr hgroup
    · exact h.grouped i q hq hne
  · exact h.fits
  · exact h.fresh

theorem setPorts_cases (s : Monitored) (id : ProcessId) (pgid : ℤ) (ports : List ℕ) :
    s.setPorts id pgid ports = (s, false) ∨ ∃ r, s.readings id = some r ∧ r.pgid = some pgid ∧
      s.setPorts id pgid ports =
        ({ s with readings := s.readings.put id { r with ports } }, true) := by
  unfold setPorts
  cases hr : s.readings id with
  | none => exact .inl rfl
  | some r =>
    dsimp only
    by_cases hguard : r.pgid = some pgid ∧ r.ports ≠ ports
    · rw [if_pos hguard]
      exact .inr ⟨r, rfl, hguard.1, rfl⟩
    · rw [if_neg hguard]
      exact .inl rfl

theorem setReady_cases (s : Monitored) (id : ProcessId) (pgid : ℤ) (ready : Bool) :
    s.setReady id pgid ready = (s, false) ∨ ∃ r next, s.readings id = some r ∧
      r.pgid = some pgid ∧ s.setReady id pgid ready =
        ({ s with readings := s.readings.put id { r with ready := next } }, true) := by
  unfold setReady
  dsimp only
  generalize (if ready then Facade.Readiness.ready else Facade.Readiness.waiting) = next
  cases hr : s.readings id with
  | none => exact .inl rfl
  | some r =>
    dsimp only
    by_cases hguard : r.pgid = some pgid ∧ r.ready ≠ next
    · rw [if_pos hguard]
      exact .inr ⟨r, next, rfl, hguard.1, rfl⟩
    · rw [if_neg hguard]
      exact .inl rfl

/-- The outer task forces a panicked actor's entry to `Crashed` once its group is gone. -/
theorem Sound.crashed (h : s.Sound) (hx : s.fleet.actors a = some x)
    (hphase : s.phase a = .reaped) : Sound { s with
      fleet := { s.fleet.setActor a { x with pc := .done, child := .none, outbox := none } with
        registry := s.fleet.registry.setStatus x.process .crashed none }
      phase := Function.update s.phase a .unrecorded } := by
  have hlive : x.Live := GroupPhase.ne_done_of_fits (h.fits a x hx) (by simp [hphase])
  constructor
  · refine h.owned.of_advance hx hlive rfl rfl ?_ (fun hdone => absurd rfl hdone) ?_ rfl rfl rfl
    · constructor
      · exact fun hdone => absurd rfl hdone
      · exact fun hchild => absurd rfl hchild
      · intro id source target code he
        cases he
    · exact iff_of_false Bool.false_ne_true fun hdone => hdone rfl
  · intro id
    rw [h.keyed id]
    simp only [Registry.setStatus, Slots.modify]
    split_ifs
    · exact isSome_map.symm
    · rfl
  · exact h.quiet
  · intro id r hr hne
    obtain ⟨b, y, hy, hprocess, hb⟩ := h.grouped id r hr hne
    have hba : b ≠ a := by
      rintro rfl
      rw [hphase] at hb
      simp at hb
    refine ⟨b, y, (put_of_ne hba).trans hy, hprocess, ?_⟩
    simpa [hba] using hb
  · intro b y hy
    rcases put_eq_some.mp hy with ⟨rfl, -⟩ | ⟨hba, hy⟩
    · simp [GroupPhase.fits]
    · simpa [hba] using h.fits b y hy
  · intro b hb
    by_cases hba : b = a
    · simp [hba]
    · have hnone : s.fleet.actors b = none := (put_of_ne hba).symm.trans hb
      simpa [hba] using h.fresh b hnone

theorem sound_step [Sha256] {e : MonitorEvent} (h : s.Sound) (hstep : s.step e = some t) :
    t.Sound := by
  cases e with
  | fleet act =>
    obtain ⟨hallows, hstep⟩ := ite_none_right_eq_some.mp hstep
    obtain ⟨fleet, hfleet, rfl⟩ := map_eq_some_iff.mp hstep
    exact h.fleet hallows hfleet
  | recordGroup a pgid =>
    obtain ⟨x, hx, hstep⟩ := bind_eq_some_iff.mp hstep
    obtain ⟨⟨hpc, -⟩, hstep⟩ := ite_none_right_eq_some.mp hstep
    cases hstep
    refine h.setGroup hx ?_ ?_ fun _ _ => rfl
    · rw [hpc]
      rfl
    · intro r hnone hquiet
      cases pgid with
      | none => exact ⟨rfl, rfl⟩
      | some pgid => cases hnone
  | clearGroup a =>
    obtain ⟨x, hx, hstep⟩ := bind_eq_some_iff.mp hstep
    obtain ⟨-, hstep⟩ := ite_none_right_eq_some.mp hstep
    cases hstep
    exact h.setGroup hx rfl (fun _ _ _ => ⟨rfl, rfl⟩) fun _ hne => absurd rfl hne
  | panic a =>
    obtain ⟨x, hx, hstep⟩ := bind_eq_some_iff.mp hstep
    obtain ⟨⟨hinner, -⟩, hstep⟩ := ite_none_right_eq_some.mp hstep
    cases hstep
    refine ⟨h.owned, h.keyed, h.quiet, ?_, ?_, ?_⟩
    · intro id r hr hne
      obtain ⟨b, y, hy, hprocess, hb⟩ := h.grouped id r hr hne
      refine ⟨b, y, hy, hprocess, ?_⟩
      by_cases hba : b = a
      · simp [hba]
      · simpa [hba] using hb
    · intro b y hy
      by_cases hba : b = a
      · subst hba
        obtain rfl : x = y := some.inj (hx.symm.trans hy)
        simpa [GroupPhase.fits] using hinner
      · simpa [hba] using h.fits b y hy
    · intro b hb
      have hba : b ≠ a := by
        rintro rfl
        exact absurd (hb.symm.trans hx) (some_ne_none x).symm
      simpa [hba] using h.fresh b hb
  | reapPanicked a =>
    obtain ⟨x, hx, hstep⟩ := bind_eq_some_iff.mp hstep
    obtain ⟨hphase, hstep⟩ := ite_none_right_eq_some.mp hstep
    cases hstep
    have hfits := h.fits a x hx
    rw [hphase] at hfits
    refine h.setGroup hx hfits ?_ ?_
    · intro r hnone hquiet
      split_ifs at hnone ⊢ with hsome
      · exact ⟨rfl, rfl⟩
      · exact hquiet hnone
    · intro r hne
      cases hpgid : r.pgid with
      | none => simp [hpgid] at hne
      | some pgid => simp [hpgid, Reading.setPgid] at hne
  | crashPanicked a =>
    obtain ⟨x, hx, hstep⟩ := bind_eq_some_iff.mp hstep
    obtain ⟨hphase, hstep⟩ := ite_none_right_eq_some.mp hstep
    cases hstep
    exact h.crashed hx hphase
  | setPorts id pgid ports =>
    cases hstep
    rcases s.setPorts_cases id pgid ports with hsame | ⟨r, hr, hpgid, hset⟩
    · rw [hsame]
      exact h
    · rw [hset]
      exact h.put hr rfl (by simp [hpgid])
  | setReady id pgid ready =>
    cases hstep
    rcases s.setReady_cases id pgid ready with hsame | ⟨r, next, hr, hpgid, hset⟩
    · rw [hsame]
      exact h
    · rw [hset]
      exact h.put hr rfl (by simp [hpgid])

theorem Sound.resting (h : s.Sound) {m : Managed} {r : Reading}
    (hm : s.fleet.registry id = some m) (hr : s.readings id = some r)
    (hrest : m.status.isActive = false) : r.pgid = none := by
  by_contra hne
  obtain ⟨a, x, hx, rfl, hphase⟩ := h.grouped id r hr hne
  have hactive := h.owned.active_of_live hx (h.live hx hphase) hm
  rw [hrest] at hactive
  cases hactive

end Monitored

def monitoredFleet [Sha256] : Machine Monitored MonitorEvent :=
  ⟨fun s => s = .empty, Monitored.step⟩

namespace Monitored

/-- What a report finds on an entry: nothing is left of a group that is gone, and a report that was
taken for another group, or that finds the process at rest, changes nothing. -/
structure Guarded (s : Monitored) (id : ProcessId) (m : Managed) (r : Reading) : Prop where
  cleared : r.pgid = none → r.ports = [] ∧ r.ready = .ungated
  ports : ∀ pgid ports, (m.status.isActive = false ∨ r.pgid ≠ some pgid) →
    s.setPorts id pgid ports = (s, false)
  ready : ∀ pgid ready, (m.status.isActive = false ∨ r.pgid ≠ some pgid) →
    s.setReady id pgid ready = (s, false)

/-- In every reachable state, whatever the order of exits, relaunches and reports. -/
theorem stale_report_dropped [Sha256] (s : Monitored) (h : monitoredFleet.Reachable s)
    (id : ProcessId) (m : Managed) (hm : s.fleet.registry id = some m) :
    ∃ r, s.readings id = some r ∧ s.Guarded id m r := by
  have hsound : s.Sound := by
    refine h.invariant (P := Sound) ?_ fun _ _ _ => sound_step
    rintro _ rfl
    exact sound_empty
  have hsome : (s.readings id).isSome = true := by
    rw [hsound.keyed id, hm]
    rfl
  obtain ⟨r, hr⟩ := Option.isSome_iff_exists.mp hsome
  have hother : ∀ pgid, (m.status.isActive = false ∨ r.pgid ≠ some pgid) → r.pgid ≠ some pgid := by
    rintro pgid (hrest | hne)
    · rw [hsound.resting hm hr hrest]
      exact (Option.some_ne_none pgid).symm
    · exact hne
  refine ⟨r, hr, hsound.quiet id r hr, ?_, ?_⟩
  · intro pgid ports hstale
    rcases s.setPorts_cases id pgid ports with hsame | ⟨q, hq, hpgid, -⟩
    · exact hsame
    · obtain rfl : r = q := Option.some.inj (hr.symm.trans hq)
      exact absurd hpgid (hother pgid hstale)
  · intro pgid ready hstale
    rcases s.setReady_cases id pgid ready with hsame | ⟨q, next, hq, hpgid, -⟩
    · exact hsame
    · obtain rfl : r = q := Option.some.inj (hr.symm.trans hq)
      exact absurd hpgid (hother pgid hstale)

/-- The terminal 1 is launched, and its actor `a` takes it up to a running child of group `pgid`. -/
def launchTerminal (a : ActorId) (pgid : ℤ) : List MonitorEvent :=
  let spec : SpawnSpec := ⟨"bash", [.rootDir], []⟩
  let acts : List FleetAct :=
    [.launch ⟨a, a, .start, 1, .terminal, 1, none, spec, spec⟩, .publish a, .move a .spawnTask,
      .attachJoin a, .move a .poll, .move a .tryRecv, .move a (.spawn [])]
  acts.map .fleet ++ [.recordGroup a (some pgid), .fleet (.advance a), .fleet (.publish a)]

/-- Its first child is scanned and found ready, and exits; the second one runs on another group. -/
def relaunched : List MonitorEvent :=
  .fleet (.register (.launched 1 ⟨.terminal, ProcessKind.terminal_ne_command⟩
      ⟨"bash", [.rootDir], []⟩ none)) :: launchTerminal 0 7 ++
    [.setPorts 1 7 [80], .setReady 1 7 true, .fleet (.move 0 (.childExit ⟨some 0, none⟩)),
      .fleet (.move 0 .exit), .clearGroup 0, .fleet (.advance 0), .fleet (.publish 0)] ++
    launchTerminal 1 8

theorem stale_report_dropped_relaunched :
    letI := zeroSha
    ∃ s m r, monitoredFleet.Reachable s ∧ s.fleet.registry 1 = some m ∧ m.status = .running ∧
      s.readings 1 = some r ∧ r.pgid = some 8 ∧ r.ports = [] ∧ r.ready = .ungated ∧
      s.setPorts 1 7 [80] = (s, false) ∧ s.setReady 1 7 true = (s, false) := by
  let _ := zeroSha
  have hrun : ∃ s, monitoredFleet.run .empty relaunched = some s ∧ ∃ m,
      s.fleet.registry 1 = some m ∧ m.status = .running ∧
      s.readings 1 = some ⟨some 8, [], .ungated⟩ := ⟨_, rfl, _, rfl, rfl, rfl⟩
  obtain ⟨s, hs, m, hm, hstatus, hread⟩ := hrun
  have hreach : monitoredFleet.Reachable s := ⟨.empty, relaunched, rfl, hs⟩
  obtain ⟨r, hr, hguarded⟩ := @stale_report_dropped zeroSha s hreach 1 m hm
  obtain rfl : _ = r := Option.some.inj (hread.symm.trans hr)
  refine ⟨s, m, _, hreach, hm, hstatus, hr, rfl, rfl, rfl, ?_, ?_⟩
  · exact hguarded.ports 7 [80] (.inr (by decide))
  · exact hguarded.ready 7 true (.inr (by decide))

end Monitored
end Soloist
