import Soloist.Supervisor.TrustedSpec

/-! What a reload changes: a request accepted after it leads to a child of the updated spec, as long
as neither the call nor the actor still holds the spec from before. -/
open Option

namespace Soloist

theorem LaunchKind.spec_of_ne_resume {kind : LaunchKind} (h : kind ≠ .resume) (info : EntryInfo) :
    kind.spec info = info.launch := by
  cases kind with
  | resume => exact absurd rfl h
  | start | restart | bulkStart | policy => rfl

namespace Supervisor
variable [Sha256] {s t : Supervisor} {e : SupervisorEvent}

variable {r : Request}

theorem step_requests (howned : s.fleet.Owned) (hstep : s.step e = some t)
    (hr : t.fleet.Mentions r) : s.fleet.Mentions r ∨
      r.serial = s.fleet.nextRequest ∧ s.fleet.nextRequest < t.fleet.nextRequest ∧
        ∃ m, s.fleet.registry r.process = some m ∧ r.current = r.via.spec m.info := by
  rcases step_fleet hstep with hsame | ⟨act, hact, hissues⟩
  · rw [hsame] at hr
    exact .inl hr
  · rcases Fleet.step_mentions howned hact hr with hr | ⟨hacts, m, hm⟩
    · exact .inl hr
    · right
      have hnext : s.fleet.nextRequest < t.fleet.nextRequest := by
        rcases (Fleet.step_counts howned.manned hact).requests with hnext | ⟨-, hne⟩
        · omega
        · rcases hacts with hlaunch | hrestart
          · exact absurd hlaunch (hne r).1
          · exact absurd hrestart (hne r).2
      have hcurrent : ∀ c kind id info, r = s.request c kind id info →
          r.serial = s.fleet.nextRequest ∧ r.current = r.via.spec m.info := by
        intro c kind id info hr
        subst hr
        refine ⟨rfl, ?_⟩
        have hread : s.fleet.registry.describe id = some m.info := Registry.describe_eq_some hm
        simp only [request, hread, getD_some]
      rcases hacts with hlaunch | hrestart
      · subst hlaunch
        cases hissues with
        | direct _ _ hacts => cases hacts
        | launch c now fault kind id info hclaims =>
          exact ⟨(hcurrent c kind id info rfl).1, hnext, m, hm, (hcurrent c kind id info rfl).2⟩
      · subst hrestart
        cases hissues with
        | direct _ _ hacts => cases hacts
        | restart c now fault id info hc hactive =>
          exact ⟨(hcurrent c .restart id info rfl).1, hnext, m, hm,
            (hcurrent c .restart id info rfl).2⟩

theorem step_next (howned : s.fleet.Owned) (hstep : s.step e = some t) :
    s.fleet.nextProcess ≤ t.fleet.nextProcess ∧ s.fleet.nextRequest ≤ t.fleet.nextRequest := by
  rcases step_fleet hstep with hsame | ⟨act, hact, -⟩
  · rw [hsame]
    exact ⟨Nat.le_refl _, Nat.le_refl _⟩
  · have hcounts := Fleet.step_counts howned.manned hact
    refine ⟨hcounts.processes, ?_⟩
    rcases hcounts.requests with hnext | ⟨hnext, -⟩ <;> omega

theorem serial_lt (h : supervisorMachine.Reachable s) (hr : s.fleet.Mentions r) :
    r.serial < s.fleet.nextRequest := by
  have hboth : s.fleet.Owned ∧ ∀ r, s.fleet.Mentions r → r.serial < s.fleet.nextRequest := by
    refine h.invariant
      (P := fun s => s.fleet.Owned ∧ ∀ r, s.fleet.Mentions r → r.serial < s.fleet.nextRequest)
      ?_ ?_
    · intro s hs
      rw [hs]
      refine ⟨Fleet.owned_empty, ?_⟩
      rintro r (⟨a, x, hx, -⟩ | ⟨sp, hsp, -⟩)
      · cases hx
      · cases hsp
    · intro s e t hs hstep
      refine ⟨owned_step hs.1 hstep, ?_⟩
      intro r hr
      have hle := (step_next hs.1 hstep).2
      rcases step_requests hs.1 hstep hr with hold | ⟨hserial, hlt, -⟩
      · have hlt := hs.2 r hold
        omega
      · omega
  exact hboth.2 r hr

/-- A claim finds in the registry the spec its call read. -/
def ClaimsCurrent (s : Supervisor) : SupervisorEvent → Prop
  | .proceed c _ _ => ∀ claim ∈ s.claims c, ∀ m ∈ s.fleet.registry claim.2.1,
      m.status.isActive = false → claim.1.spec m.info = claim.1.spec claim.2.2
  | _ => True

/-- A restart taken off a mailbox was sent while the registry held the spec its actor was launched
with. -/
def TakesCurrent (s : Supervisor) (e : SupervisorEvent) : Prop :=
  ∀ p ∈ s.takes e, p.2.current = p.1.launch

def SpecCurrent (s : Supervisor) (e : SupervisorEvent) : Prop :=
  s.ClaimsCurrent e ∧ s.TakesCurrent e

omit [Sha256] in
instance decidableClaimsCurrent (s : Supervisor) (e : SupervisorEvent) :
    Decidable (s.ClaimsCurrent e) :=
  match e with
  | .proceed c _ _ => inferInstanceAs (Decidable (∀ claim ∈ s.claims c,
      ∀ m ∈ s.fleet.registry claim.2.1,
        m.status.isActive = false → claim.1.spec m.info = claim.1.spec claim.2.2))
  | .register _ | .reload .. | .deregister _ | .launch .. | .stop _ | .close _ | .setTrusted ..
  | .beginShutdown | .attachJoin _ | .advance _ | .publish _ | .move .. | .overflow
  | .reactorRecv _ | .reactorNext => isTrue trivial

instance (s : Supervisor) (e : SupervisorEvent) : Decidable (s.SpecCurrent e) :=
  inferInstanceAs (Decidable (s.ClaimsCurrent e ∧ ∀ p ∈ s.takes e, p.2.current = p.1.launch))

def reloads (s : Supervisor) (id : ProcessId) : SupervisorEvent → Bool
  | .proceed c _ _ =>
    match s.calls c with
    | some (.reloading i _ _ _) => i = id
    | _ => false
  | _ => false

theorem admits_of_specCurrent {act : FleetAct} {R : Request → Request → Prop}
    (hR : R = fun o r => r.current = o.launch) (hmatched : s.fleet.Matched R)
    (hguard : s.SpecCurrent e) (hissues : s.Issues e act) : s.fleet.Admits R act := by
  subst hR
  refine admits_of_issues hissues ?_ ?_
  · intro c now fault kind id info he hclaims hlaunch
    subst he
    obtain ⟨f, hf⟩ := hlaunch
    obtain ⟨claim, hclaim, -⟩ := map_eq_some_iff.mp hf
    obtain ⟨m, hm, hrest, -⟩ := Registry.beginLaunch_eq_some.mp hclaim
    have hread : s.fleet.registry.describe id = some m.info := Registry.describe_eq_some hm
    have hsame := hguard.1 (kind, id, info) hclaims m hm hrest
    simp only [request, hread, getD_some]
    exact hsame
  · intro x r htakes
    obtain ⟨a, hx⟩ := takes_actor htakes
    have hcurrent := hguard.2 (x, r) htakes
    exact hcurrent.trans (hmatched.actors a x hx).launch

variable {launch : SpawnSpec}

variable {id : ProcessId}

theorem step_launch (howned : s.fleet.Owned) (hstep : s.step e = some t)
    (hid : id < s.fleet.nextProcess) (hreload : s.reloads id e = false)
    (hlaunch : ∀ m, s.fleet.registry id = some m → m.launch = launch) :
    ∀ m, t.fleet.registry id = some m → m.launch = launch := by
  intro m hm
  rcases step_fleet hstep with hsame | ⟨act, hact, hissues⟩
  · rw [hsame] at hm
    exact hlaunch m hm
  · rcases Fleet.step_entry howned.manned hact hm with ⟨m₀, hm₀, hevolves⟩ | ⟨r, -, hfresh, -⟩
    · have hold := hlaunch m₀ hm₀
      cases hevolves with
      | same | exhausted | claimed | attached | advanced => exact hold
      | updated r =>
        cases hissues with
        | direct _ _ hacts => cases hacts
        | reload c now fault _ project root spec hc =>
          simp [reloads, hc] at hreload
    · rw [hfresh] at hid
      exact absurd hid (Nat.lt_irrefl _)

/-- After a reload of `id`, and until the next one, every accepted request finds the new spec. -/
structure Reloaded (s₀ : Supervisor) (id : ProcessId) (launch : SpawnSpec) (s : Supervisor) :
    Prop where
  owned : s.fleet.Owned
  known : id < s.fleet.nextProcess
  entry : ∀ m, s.fleet.registry id = some m → m.launch = launch
  requests : ∀ r, s.fleet.Mentions r → s₀.fleet.nextRequest ≤ r.serial → r.process = id →
    r.via ≠ .resume → r.current = launch

theorem reloaded_step {s₀ : Supervisor} (h : Reloaded s₀ id launch s)
    (hreload : s.reloads id e = false) (hstep : s.step e = some t) : Reloaded s₀ id launch t where
  owned := owned_step h.owned hstep
  known := Nat.lt_of_lt_of_le h.known (step_next h.owned hstep).1
  entry := step_launch h.owned hstep h.known hreload h.entry
  requests r hr hafter hprocess hvia := by
    rcases step_requests h.owned hstep hr with hold | ⟨-, -, m, hm, hcurrent⟩
    · exact h.requests r hold hafter hprocess hvia
    · rw [hcurrent, LaunchKind.spec_of_ne_resume hvia]
      exact h.entry m (hprocess ▸ hm)

/-- Requests accepted later leave those accepted in between alone. -/
theorem between_run {id lo hi : Nat} {fs : List SupervisorEvent}
    (hs : s.fleet.Owned) (hhi : hi ≤ s.fleet.nextRequest)
    (h : ∀ r, s.fleet.Mentions r → lo ≤ r.serial → r.process = id → r.via ≠ .resume →
      r.current = launch) (ht : supervisorMachine.run s fs = some t) :
    ∀ r, t.fleet.Mentions r → lo ≤ r.serial → r.serial < hi → r.process = id →
      r.via ≠ .resume → r.current = launch := by
  have hall : t.fleet.Owned ∧ hi ≤ t.fleet.nextRequest ∧
      ∀ r, t.fleet.Mentions r → lo ≤ r.serial → r.serial < hi → r.process = id →
        r.via ≠ .resume → r.current = launch := by
    refine Machine.invariant_run (M := supervisorMachine)
      (P := fun s => s.fleet.Owned ∧ hi ≤ s.fleet.nextRequest ∧
        ∀ r, s.fleet.Mentions r → lo ≤ r.serial → r.serial < hi → r.process = id →
          r.via ≠ .resume → r.current = launch) ?_ ?_ ht
    · intro s e t hs hstep
      have hle := (step_next hs.1 hstep).2
      refine ⟨owned_step hs.1 hstep, Nat.le_trans hs.2.1 hle, ?_⟩
      intro r hr hlo hlt hprocess hvia
      rcases step_requests hs.1 hstep hr with hold | ⟨hserial, -, -⟩
      · exact hs.2.2 r hold hlo hlt hprocess hvia
      · have hge := hs.2.1
        omega
    · exact ⟨hs, hhi, fun r hr hlo _ hprocess hvia => h r hr hlo hprocess hvia⟩
  exact hall.2.2

end Supervisor

/-- A child spawned for a request accepted after a reload of its command, and before the next one,
runs the reloaded spec, in every run where claims and taken restarts are current. -/
theorem spawn_runs_reloaded [Sha256] {s₀ s t u : Supervisor} {c : CallId} {now : Instant}
    {fault : Option StoreError} {id : ProcessId} {project : ProjectId} {root : PathBuf}
    {spec : ProcessSpec} {m : Managed} (es fs : List SupervisorEvent)
    (h₀ : supervisorMachine.ReachableUnder Supervisor.SpecCurrent s₀)
    (hc : s₀.calls c = some (.reloading id project root spec))
    (hm : s₀.fleet.registry id = some m) (hs : s₀.step (.proceed c now fault) = some s)
    (hes : supervisorMachine.Along (fun s e => s.SpecCurrent e ∧ s.reloads id e = false) s es)
    (ht : supervisorMachine.run s es = some t)
    (hfs : supervisorMachine.Along Supervisor.SpecCurrent t fs)
    (hu : supervisorMachine.run t fs = some u) {sp : Spawn} (hsp : sp ∈ u.fleet.spawns)
    (hid : sp.process = id) {r : Request} (hr : r ∈ sp.causes)
    (hafter : s.fleet.nextRequest ≤ r.serial) (hbefore : r.serial < t.fleet.nextRequest)
    (hvia : r.via ≠ .resume) :
    sp.launch = (Registration.command project root spec).launch ∧
      ∃ captured, sp.spec = sp.launch.child id captured := by
  have hreload : s.fleet.registry = s₀.fleet.registry.modify id
      (·.withSpec (.command project root spec)) ∧ s.fleet.nextProcess = s₀.fleet.nextProcess := by
    have hproceed : s₀.proceed c now fault = some s := hs
    simp only [Supervisor.proceed, hc] at hproceed
    cases hproceed
    exact ⟨rfl, rfl⟩
  have hguard : s₀.SpecCurrent (.proceed c now fault) := by
    constructor
    · intro claim hclaim
      simp [Supervisor.claims, hc] at hclaim
    · intro p hp
      cases hp
  have halong : supervisorMachine.Along Supervisor.SpecCurrent s₀ [.proceed c now fault] :=
    ⟨hguard, fun _ _ => trivial⟩
  have hreached : supervisorMachine.ReachableUnder Supervisor.SpecCurrent s :=
    h₀.run halong (Machine.run_cons_eq_some.mpr ⟨s, hs, rfl⟩)
  have hstart : Supervisor.Reloaded s id (Registration.command project root spec).launch s := by
    constructor
    · exact fleet_owned hreached.reachable
    · rw [hreload.2]
      exact (fleet_owned h₀.reachable).entry_lt id m hm
    · intro m' hm'
      rw [hreload.1] at hm'
      obtain ⟨m₀, -, rfl⟩ := Slots.modify_eq_some.mp hm'
      rw [if_pos rfl]
      rfl
    · intro r hr hge
      have hlt := Supervisor.serial_lt hreached.reachable hr
      omega
  have hmiddle : Supervisor.Reloaded s id (Registration.command project root spec).launch t :=
    Machine.invariant_along (P := Supervisor.Reloaded s id _)
      (fun _ _ _ hg hs' hstep => Supervisor.reloaded_step hs' hg.2 hstep) hstart hes ht
  have hend : supervisorMachine.ReachableUnder Supervisor.SpecCurrent u :=
    (hreached.run (hes.mono fun _ _ hg => hg.1) ht).run hfs hu
  have hmatched : u.fleet.Matched fun o r => r.current = o.launch :=
    Supervisor.matched_of_reachableUnder
      (fun _ _ _ hm hg hissues => Supervisor.admits_of_specCurrent rfl hm hg hissues) hend
  have hsp' := hmatched.spawns sp hsp
  obtain ⟨hcurrent, hprocess⟩ := hsp'.causes r hr
  have hlaunch : r.current = (Registration.command project root spec).launch :=
    Supervisor.between_run hmiddle.owned (Nat.le_refl _) hmiddle.requests hu r
      (.inr ⟨sp, hsp, .inr hr⟩) hafter hbefore (hprocess.trans hid) hvia
  refine ⟨?_, hid ▸ hsp'.spec⟩
  calc sp.launch = sp.origin.launch := hsp'.launch
    _ = r.current := hcurrent.symm
    _ = (Registration.command project root spec).launch := hlaunch

def startAgain : List SupervisorEvent :=
  [.move 0 (.childExit ⟨some 0, none⟩), .move 0 .exit, .advance 0, .publish 0,
    .launch .start 1, .proceed 2 0 none, .proceed 2 0 none, .proceed 2 0 none]

def spawnAgain : List SupervisorEvent :=
  [.publish 1, .move 1 .spawnTask, .attachJoin 1, .move 1 .poll, .move 1 .tryRecv,
    .move 1 (.spawn [])]

theorem spawn_runs_reloaded_started :
    letI := editSha
    ∃ s₀ s t u sp r,
      supervisorMachine.run .init (startCommand ++ reloadCommand.dropLast) = some s₀ ∧
      s₀.step (.proceed 1 0 none) = some s ∧ supervisorMachine.run s startAgain = some t ∧
      supervisorMachine.run t spawnAgain = some u ∧ sp ∈ u.fleet.spawns ∧ r ∈ sp.causes ∧
      s.fleet.nextRequest ≤ r.serial ∧ r.serial < t.fleet.nextRequest ∧
      sp.launch = (Registration.command 1 [.rootDir] devSpec).launch ∧
      ∃ captured, sp.spec = sp.launch.child 1 captured := by
  let _ := editSha
  refine ⟨_, _, _, _, _, _, rfl, rfl, rfl, rfl, List.mem_of_getElem? (i := 1) rfl,
    (.head _), ?_, ?_, ?_⟩
  · decide
  · decide
  · have h₀ : supervisorMachine.ReachableUnder Supervisor.SpecCurrent _ :=
      ⟨.init, startCommand ++ reloadCommand.dropLast, rfl, by decide, rfl⟩
    refine @spawn_runs_reloaded _ _ _ _ _ 1 0 none 1 1 [.rootDir] devSpec ?m startAgain spawnAgain
      h₀ rfl ?hm rfl ?hes rfl ?hfs rfl _ (List.mem_of_getElem? (i := 1) rfl) rfl ?r ?hr ?ha ?hb ?hv
    case hm => rfl
    case hr => exact .head _
    case hv => exact LaunchKind.noConfusion
    all_goals decide

/-- The restart was accepted after the reload had returned, yet its child runs the old spec. -/
theorem restart_respawns_reloaded_away :
    letI := editSha
    ∃ s₀ s u sp r, supervisorMachine.run .init (startCommand ++ reloadCommand.dropLast) = some s₀ ∧
      s₀.calls 1 = some (.reloading 1 1 [.rootDir] devSpec) ∧
      s₀.step (.proceed 1 0 none) = some s ∧
      s.calls 1 = some (.returned (.updated true)) ∧
      supervisorMachine.run s (restartCommand 2) = some u ∧ sp ∈ u.fleet.spawns ∧
      sp.process = 1 ∧ r ∈ sp.causes ∧ r.via = .restart ∧ s.fleet.nextRequest ≤ r.serial ∧
      sp.launch = (Registration.command 1 [.rootDir] startSpec).launch ∧
      sp.launch ≠ (Registration.command 1 [.rootDir] devSpec).launch := by
  let _ := editSha
  refine ⟨_, _, _, _, _, rfl, rfl, rfl, rfl, rfl, .tail _ (.head _), rfl,
    (.head _), rfl, ?_, rfl, ?_⟩
  · decide
  · decide

end Soloist
