import Soloist.Supervisor.Handles

/-! An accepted stop wins, as long as its message fits the mailbox and the crash policy leaves the
process alone. -/
namespace Soloist

/-- Points from which the loop ends without spawning. -/
def Pc.ending : Pc → Bool
  | .halting | .halted | .failed | .exiting _ | .stopping | .reaping | .done => true
  | _ => false

theorem Pc.pending_ending {pc next : Pc} {target : ProcStatus} {code : Option Int}
    (h : pc.pending = some (target, code, next)) (hpc : pc.ending = true) :
    next.ending = true := by
  cases pc with
  | exiting st =>
    cases h
    rfl
  | halting | halted | failed | stopping =>
    cases h
    rfl
  | reaping | done => cases h
  | launching | scheduled | top | resolving | spawned | selecting | restarting | cycling
  | cycled => cases hpc

namespace Actor
variable {x y : Actor}

/-- The actor ends before it spawns again: a stop is queued, its sender is gone, or it is past the
point of return. -/
def StopBound (x : Actor) : Prop :=
  .stop ∈ x.mailbox ∨ x.senderOpen = false ∨ x.pc.ending = true

instance (x : Actor) : Decidable x.StopBound := inferInstanceAs (Decidable (_ ∨ _ ∨ _))

variable (h : x.StopBound)
include h

theorem StopBound.trySend (msg : ActorMsg) : (x.trySend msg).StopBound := by
  unfold StopBound
  rw [trySend_senderOpen, trySend_pc]
  exact h.imp_left fun hstop => x.mailbox_subset_trySend msg hstop

theorem StopBound.take {r : Request} {rest : List ActorMsg} {pc : Pc} {causes : List Request}
    (hbox : x.mailbox = .restart r :: rest) (hpc : x.pc.ending = false) :
    StopBound { x with mailbox := rest, pc, causes } := by
  rcases h with hstop | hclosed | hending
  · rw [hbox] at hstop
    rcases List.mem_cons.mp hstop with hr | hstop
    · cases hr
    · exact .inl hstop
  · exact .inr (.inl hclosed)
  · rw [hpc] at hending
    cases hending

/-- A step that leaves mailbox and sender alone and does not come back from ending. -/
theorem StopBound.of_pc (hbox : y.mailbox = x.mailbox)
    (hopen : y.senderOpen = x.senderOpen) (hpc : x.pc.ending = true → y.pc.ending = true) :
    y.StopBound := by
  unfold StopBound
  rw [hbox, hopen]
  exact h.imp_right fun h => h.imp_right hpc

theorem StopBound.moves {mv : ActorMove} (hmoves : x.Moves mv y) :
    y.StopBound := by
  cases hmoves with
  | childExit st hlive => exact h.of_pc rfl rfl id
  | drainStop | spawnFailed | exit | recvStop | disconnected | reap => exact .inr (.inr rfl)
  | drainRestart r rest hout hpc hbox =>
    refine h.take hbox ?_
    rw [hpc]
    rfl
  | recvRestart r rest hout hpc hbox =>
    refine h.take hbox ?_
    rw [hpc]
    rfl
  | drained hout hpc hbox =>
    -- the drain found no stop, so the sender is gone and the loop halts
    rcases h with hstop | hclosed | hending
    · rw [hbox] at hstop
      cases hstop
    · exact .inr (.inl hclosed)
    · rw [hpc] at hending
      cases hending
  | spawnTask hout hpc | poll hout hpc | spawn captured hout hpc | cycle hout hpc =>
    refine h.of_pc rfl rfl ?_
    rw [hpc]
    exact Bool.noConfusion

theorem StopBound.evolves {f : Fleet} {a : ActorId} {act : FleetAct}
    (hevolves : x.Evolves f a act y) : y.StopBound := by
  cases hevolves with
  | same => exact h
  | toldStop => exact h.trySend .stop
  | toldRestart r => exact h.trySend (.restart r)
  | closed => exact .inr (.inl rfl)
  | attached pc hpc =>
    refine h.of_pc rfl rfl fun hending => ?_
    rcases hpc with rfl | ⟨-, rfl, -⟩
    · exact hending
    · rfl
  | advanced target code next hout hpending =>
    exact h.of_pc rfl rfl (Pc.pending_ending hpending)
  | published event hout => exact h.of_pc rfl rfl id
  | moved mv _ hmoves => exact h.moves hmoves

omit h

end Actor

/-- The process whose crash restart a call is on its way to claim. -/
def Call.relaunch : Call → Option ProcessId
  | .scheduled id _ _ | .relaunching id _ _ | .ready .policy id _ => some id
  | _ => none

variable {call : Call}

theorem Call.launchInfo_of_relaunch {id : ProcessId} (h : call.relaunch = some id) :
    ∃ info, call.launchInfo = some (.policy, id, info) := by
  unfold relaunch at h
  split at h
  · cases h
    exact ⟨_, rfl⟩
  · cases h
    exact ⟨_, rfl⟩
  · cases h
    exact ⟨_, rfl⟩
  · cases h

theorem Call.Plain.relaunch (h : call.Plain) : call.relaunch = none := by
  cases hr : call.relaunch with
  | none => rfl
  | some id =>
    obtain ⟨info, hinfo⟩ := launchInfo_of_relaunch hr
    rw [h.launchInfo] at hinfo
    cases hinfo

def RestartPolicy.full (p : RestartPolicy) (id : ProcessId) (now : Instant) : Bool :=
  (p.onCrash id now).2 = .exhaust

namespace Supervisor
variable {s t : Supervisor} {c : CallId} {e : SupervisorEvent} {id : ProcessId}

/-- A start, restart, resume or bulk start of `id` is accepted: it messages the actor, or claims the
launch. -/
def accepts (s : Supervisor) (id : ProcessId) : SupervisorEvent → Bool
  | .proceed c _ _ =>
    match s.calls c with
    | some (.ready kind i info) =>
      i = id ∧ (kind = .restart ∧ info.status.isActive ∨
        (s.fleet.registry.status id).any fun status => !status.isActive)
    | _ => false
  | _ => false

def relaunches (s : Supervisor) (id : ProcessId) : SupervisorEvent → Bool
  | .proceed c _ _ =>
    match s.calls c with
    | some (.relaunching i _ _) =>
      i = id ∧ (s.fleet.registry.status id).any fun status => !status.isActive
    | _ => false
  | _ => false

/-- The crash policy comes to decide on `id`, an `auto_restart` process whose trust it has checked,
with room in its window. -/
def decides (s : Supervisor) (id : ProcessId) : SupervisorEvent → Bool
  | .proceed c now _ =>
    match s.calls c with
    | some (.trusted .policy i _) => i = id ∧ !s.policy.full i now
    | _ => false
  | _ => false

/-- The policy has decided to restart `id` and is still to claim its launch. -/
def RestartPending (s : Supervisor) (id : ProcessId) : Prop :=
  ∃ c call, s.calls c = some call ∧ call.relaunch = some id

theorem Held.not_restartPending (hs : s.Held) (id : ProcessId)
    (h : ∀ c < s.nextCall, ∀ call ∈ s.calls c, call.relaunch ≠ some id) :
    ¬ s.RestartPending id := by
  rintro ⟨c, call, hc, hrelaunch⟩
  exact h c (hs.call_lt c call hc) call hc hrelaunch

/-- The stop message finds room in the mailbox of `id`, or an actor that needs none. -/
def StopFits (s : Supervisor) (id : ProcessId) : Prop :=
  ∀ a ∈ s.fleet.mailboxOf id, ∀ x ∈ s.fleet.actors a,
    x.mailbox.length < mailboxCapacity ∨ x.StopBound

instance (s : Supervisor) (id : ProcessId) : Decidable (s.StopFits id) :=
  inferInstanceAs (Decidable (∀ a ∈ s.fleet.mailboxOf id, ∀ x ∈ s.fleet.actors a,
    x.mailbox.length < mailboxCapacity ∨ x.StopBound))

variable {now : Instant} {fault : Option StoreError}

theorem decides_of_scheduled [Sha256] {info : EntryInfo} {attempt : Nat}
    (h : s.step (.proceed c now fault) = some t) (hc : s.calls c = some (.trusted .policy id info))
    (hscheduled : t.calls c = some (.scheduled id info attempt)) :
    s.decides id (.proceed c now fault) = true := by
  have hproceed : s.proceed c now fault = some t := h
  simp only [proceed, hc, Option.some.injEq] at hproceed
  subst hproceed
  have hroom : s.policy.full id now = false := by
    unfold RestartPolicy.full
    cases hdecision : s.policy.onCrash id now with
    | mk policy decision =>
      cases decision with
      | restart attempt => rfl
      | exhaust =>
        simp only [afterTrusted, hdecision, setCall, Slots.put_self] at hscheduled
        cases hscheduled
  simp [decides, hc, hroom]

theorem restartPending_of_step [Sha256] (h : s.step e = some t) (ht : t.RestartPending id) :
    s.RestartPending id ∨ s.decides id e = true := by
  obtain ⟨c, call, hc, hrelaunch⟩ := ht
  rcases step_cases h with ⟨c', now, fault, call₀, call', rfl, hc₀, hcalls, -, hstep⟩ | hoccurs
  · have hcall := hc
    rw [hcalls] at hcall
    rcases Slots.put_eq_some.mp hcall with ⟨rfl, rfl⟩ | ⟨-, hold⟩
    · cases hstep with
      | guarded kind i info => cases kind <;> cases hrelaunch
      | cleared kind i info hkind =>
        cases kind with
        | policy => exact absurd rfl hkind
        | start | restart | resume | bulkStart => cases hrelaunch
      | decided i info attempt =>
        cases hrelaunch
        exact .inr (decides_of_scheduled h hc₀ hc)
      | announced i info attempt => exact .inl ⟨c, _, hc₀, hrelaunch⟩
      | exhausted i call' hplain | plain call₀ call' hplain =>
        rw [hplain.relaunch] at hrelaunch
        cases hrelaunch
      | opened | launched | messaged | relaunched | stopped | closed | reloaded => cases hrelaunch
    · exact .inl ⟨c, call, hold, hrelaunch⟩
  · rcases hoccurs.calls with ⟨hsame, -⟩ | ⟨call', hcalls, -, hbegins⟩
    · exact .inl ⟨c, call, hsame ▸ hc, hrelaunch⟩
    · rw [hcalls] at hc
      rcases Slots.put_eq_some.mp hc with ⟨-, rfl⟩ | ⟨-, hold⟩
      · cases hbegins with
        | plain e call' hplain =>
          rw [hplain.relaunch] at hrelaunch
          cases hrelaunch
        | read | closing => cases hrelaunch
      · exact .inl ⟨c, call, hold, hrelaunch⟩

theorem accepts_of_launch [Sha256] {g : Fleet} {r : Request} (hissues : s.Issues e (.launch r))
    (hlaunch : s.fleet.launchActor r = some g) :
    s.accepts r.process e = true ∨ s.RestartPending r.process := by
  obtain ⟨claim, hclaim, -⟩ := Option.map_eq_some_iff.mp hlaunch
  obtain ⟨m, hm, hrest, -⟩ := Registry.beginLaunch_eq_some.mp hclaim
  cases hissues with
  | direct _ _ hacts => cases hacts
  | launch c now fault kind id info hclaims =>
    have hstatus : s.fleet.registry.status id = some m.status := Registry.status_eq_some hm
    unfold claims at hclaims
    split at hclaims
    next kind' id' info' hc =>
      split_ifs at hclaims with hmessage
      cases hclaims
      left
      show s.accepts id (.proceed c now fault) = true
      simp [accepts, hc, hstatus, hrest]
    next id' info' attempt hc =>
      cases hclaims
      exact .inr ⟨c, _, hc, rfl⟩
    next => cases hclaims

/-- What a delivered stop leaves behind: every live actor of the process ends before it spawns. -/
structure Stopped (s : Supervisor) (id : ProcessId) : Prop where
  held : s.Held
  bound : ∀ m a x, s.fleet.registry id = some m → s.fleet.actors a = some x → x.process = id →
    x.Live → x.StopBound
  idle : ¬ s.RestartPending id

theorem stopped_of_stop [Sha256] (hs : s.Held) (hc : s.calls c = some (.stopping id))
    (hfits : s.StopFits id) (hidle : ¬ s.RestartPending id)
    (h : s.step (.proceed c now fault) = some t) : t.Stopped id := by
  have hheld := held_step hs h
  have hstop : t.fleet = s.fleet.signal id .stop := by
    have hproceed : s.proceed c now fault = some t := h
    simp only [proceed, hc, Option.some.injEq] at hproceed
    rw [← hproceed]
  refine ⟨hheld, ?_, ?_⟩
  · intro m a y hm hy hprocess hlive
    obtain ⟨join, hhandle⟩ := hheld.owned.handle_of_live hy hlive (hprocess ▸ hm)
    rw [hstop, Fleet.signal_registry] at hm
    have hbox : s.fleet.mailboxOf id = some a := Fleet.mailboxOf_eq_some.mpr ⟨m, join, hm, hhandle⟩
    rw [hstop, Fleet.signal_of_mailboxOf hbox] at hy
    obtain ⟨x, hx, hxy⟩ := Slots.modify_eq_some.mp hy
    rw [if_pos rfl] at hxy
    subst hxy
    have hxlive : x.Live := fun hdone => hlive (Actor.trySend_pc.trans hdone)
    rcases hfits a hbox x hx with hroom | hbound
    · exact .inl (Actor.mem_trySend_of_room hxlive hroom)
    · exact hbound.trySend .stop
  · intro hpending
    rcases restartPending_of_step h hpending with hold | hdecides
    · exact hidle hold
    · simp [decides, hc] at hdecides

theorem stopped_step [Sha256] (hs : s.Stopped id) (haccepts : s.accepts id e = false)
    (hdecides : s.decides id e = false) (h : s.step e = some t) : t.Stopped id := by
  refine ⟨held_step hs.held h, ?_, ?_⟩
  · intro m a y hm hy hprocess hlive
    rcases step_fleet h with hsame | ⟨act, hact, hissues⟩
    · rw [hsame] at hm hy
      exact hs.bound m a y hm hy hprocess hlive
    rcases Fleet.step_actor hs.held.owned.manned hact hy with ⟨x, hx, hevolves⟩ | ⟨r, source, rfl, -, rfl⟩
    · have hxprocess : x.process = id := hevolves.process.symm.trans hprocess
      rcases Fleet.step_entry hs.held.owned.manned hact hm with ⟨m₀, hm₀, -⟩ | ⟨r, -, hfresh, -⟩
      · exact (hs.bound m₀ a x hm₀ hx hxprocess (hevolves.live hlive)).evolves hevolves
      · have hlt := hs.held.owned.process_lt a x hx
        rw [hxprocess, hfresh] at hlt
        exact absurd hlt (Nat.lt_irrefl _)
    · rcases accepts_of_launch hissues hact with haccepted | hpending
      · obtain rfl : r.process = id := hprocess
        rw [haccepts] at haccepted
        cases haccepted
      · obtain rfl : r.process = id := hprocess
        exact absurd hpending hs.idle
  · intro hpending
    rcases restartPending_of_step h hpending with hold | hdecided
    · exact hs.idle hold
    · rw [hdecides] at hdecided
      cases hdecided

theorem Stopped.not_relaunches (hs : s.Stopped id) (e : SupervisorEvent) :
    s.relaunches id e = false := by
  cases hr : s.relaunches id e with
  | false => rfl
  | true =>
    exfalso
    unfold relaunches at hr
    split at hr
    next c now fault =>
      split at hr
      next i info attempt hc =>
        have hi : i = id ∧ _ := of_decide_eq_true hr
        exact hs.idle ⟨c, _, hc, congrArg some hi.1⟩
      next => cases hr
    next => cases hr

theorem Stopped.child_of_settled (hs : s.Stopped id) (hsettled : s.Settled id) {a : ActorId}
    {x : Actor} (hx : s.fleet.actors a = some x) (hprocess : x.process = id) : x.child = .none := by
  have hdone : x.pc = .done := by
    by_contra hlive
    obtain ⟨hpc, hbox, hopen, m, hm⟩ := hsettled.of_live hs.held hx hprocess hlive
    rcases hs.bound m a x hm hx hprocess hlive with hstop | hclosed | hending
    · rw [hbox] at hstop
      cases hstop
    · rw [hopen] at hclosed
      cases hclosed
    · rw [hpc] at hending
      cases hending
  by_contra hchild
  have hholds := (hs.held.owned.sound a x hx).child hchild
  rw [hdone] at hholds
  cases hholds

end Supervisor

/-- A stop that finds room in the mailbox wins over every interleaving of exits, spawn failures,
queued messages and pending crashes, as long as no crash restart of the process was decided before
it and none can be decided after. -/
theorem stop_wins [Sha256] {s t : Supervisor} {c : CallId} {now : Instant}
    {fault : Option StoreError} {id : ProcessId} (es : List SupervisorEvent)
    (h : supervisorMachine.Reachable s) (hc : s.calls c = some (.stopping id))
    (hfits : s.StopFits id) (hidle : ¬ s.RestartPending id)
    (hs : s.step (.proceed c now fault) = some t)
    (haccepts : supervisorMachine.Along (fun s e => s.accepts id e = false) t es)
    (hdecides : supervisorMachine.Along (fun s e => s.decides id e = false) t es) :
    t.calls c = some (.returned (.messaged true)) ∧
      supervisorMachine.Along (fun s e => s.relaunches id e = false) t es ∧
      ∀ u, supervisorMachine.run t es = some u → u.Settled id →
        ∀ a x, u.fleet.actors a = some x → x.process = id → x.child = .none := by
  have hstopped := Supervisor.stopped_of_stop (Supervisor.held_of_reachable h) hc hfits hidle hs
  have hes := haccepts.and hdecides
  have hkept : ∀ s e t, (s.accepts id e = false ∧ s.decides id e = false) → s.Stopped id →
      supervisorMachine.step s e = some t → t.Stopped id := by
    intro s e t hguard hstopped hstep
    exact Supervisor.stopped_step hstopped hguard.1 hguard.2 hstep
  refine ⟨?_, ?_, ?_⟩
  · have hproceed : s.proceed c now fault = some t := hs
    simp only [Supervisor.proceed, hc, Option.some.injEq] at hproceed
    rw [← hproceed]
    exact Slots.put_self
  · exact Machine.along_of_invariant (P := fun s => s.Stopped id) hkept
      (fun s e _ hstopped => hstopped.not_relaunches e) hstopped hes
  · intro u hu hsettled a x hx hprocess
    have hend : u.Stopped id :=
      Machine.invariant_along (P := fun s => s.Stopped id) hkept hstopped hes hu
    exact hend.child_of_settled hsettled hx hprocess

def restartTerminal (c : CallId) : List SupervisorEvent :=
  [.launch .restart 1, .proceed c 0 none, .proceed c 0 none, .proceed c 0 none]

/-- The actor is scheduled and drains `n` messages before its first child. -/
def drainTerminal (n : Nat) : List SupervisorEvent :=
  [.publish 0, .move 0 .spawnTask, .attachJoin 0, .move 0 .poll] ++
    List.replicate n (.move 0 .tryRecv)

def haltTerminal : List SupervisorEvent :=
  drainTerminal 2 ++ [.advance 0, .publish 0, .advance 0, .publish 0]

def spawnTerminal : List SupervisorEvent :=
  drainTerminal 5 ++ [.move 0 (.spawn []), .advance 0, .publish 0]

theorem stop_wins_queued :
    letI := zeroSha
    ∃ s t u x,
      supervisorMachine.run .init (claimTerminal ++ restartTerminal 1 ++ [.stop 1]) = some s ∧
      s.step (.proceed 2 0 none) = some t ∧ supervisorMachine.run t haltTerminal = some u ∧
      u.fleet.actors 0 = some x ∧ t.calls 2 = some (.returned (.messaged true)) ∧
      x.child = .none := by
  let _ := zeroSha
  refine ⟨_, _, _, _, rfl, rfl, rfl, rfl, ?_⟩
  have h : supervisorMachine.Reachable _ :=
    ⟨.init, claimTerminal ++ restartTerminal 1 ++ [.stop 1], rfl, rfl⟩
  have hu : supervisorMachine.Reachable _ :=
    ⟨.init, claimTerminal ++ restartTerminal 1 ++ [.stop 1, .proceed 2 0 none] ++ haltTerminal,
      rfl, rfl⟩
  have hidle := (Supervisor.held_of_reachable h).not_restartPending 1 (by decide)
  have hsettled := (Supervisor.held_of_reachable hu).settled 1 (by decide) (by decide)
  have hwins := @stop_wins zeroSha _ _ 2 0 none 1 haltTerminal h rfl (by decide) hidle rfl
    (by decide) (by decide)
  exact ⟨hwins.1, hwins.2.2 _ rfl hsettled 0 _ rfl rfl⟩

/-- Four restarts fill the mailbox in the launch window, and a stop returns true though its message
is dropped. -/
def overfillTerminal : List SupervisorEvent :=
  claimTerminal ++ restartTerminal 1 ++ restartTerminal 2 ++ restartTerminal 3 ++
    restartTerminal 4 ++ [.stop 1]

theorem stop_dropped_by_full_mailbox :
    letI := zeroSha
    ∃ s t u x, supervisorMachine.run .init overfillTerminal = some s ∧
      s.calls 5 = some (.stopping 1) ∧ s.step (.proceed 5 0 none) = some t ∧
      t.calls 5 = some (.returned (.messaged true)) ∧
      supervisorMachine.Along (fun s e => s.accepts 1 e = false) t spawnTerminal ∧
      supervisorMachine.run t spawnTerminal = some u ∧ u.Settled 1 ∧
      u.fleet.actors 0 = some x ∧ x.process = 1 ∧ x.child = .live := by
  let _ := zeroSha
  refine ⟨_, _, _, _, rfl, rfl, rfl, rfl, ?_, rfl, ?_, rfl, rfl, rfl⟩
  · decide
  · have hu : supervisorMachine.Reachable _ :=
      ⟨.init, overfillTerminal ++ [.proceed 5 0 none] ++ spawnTerminal, rfl, rfl⟩
    exact (Supervisor.held_of_reachable hu).settled 1 (by decide) (by decide)

end Soloist
