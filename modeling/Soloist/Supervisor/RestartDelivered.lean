import Soloist.Supervisor.LaunchSpec
import Soloist.Supervisor.StopWins

/-! An accepted restart leads to a new child, as long as the actor it reaches still reads its
mailbox and neither the exit of the old child nor a failing spawn comes before the message. -/
open Option

namespace Soloist

namespace Actor
variable {x y : Actor} {r : Request}

/-- A restart sent now is acted on: the loop is on its way to a spawn, or will read its mailbox,
and finds no stop there. -/
def Receptive (x : Actor) : Prop :=
  .stop ∉ x.mailbox ∧ (x.pc.spawning = true ∨ x.pc = .spawned ∨ x.pc = .selecting)

/-- The loop is on its way to a spawn, or will take a queued restart. -/
def RespawnBound (x : Actor) : Prop :=
  .stop ∉ x.mailbox ∧ (x.pc.spawning = true ∨
    (x.pc = .spawned ∨ x.pc = .selecting) ∧ ∃ r, .restart r ∈ x.mailbox)

theorem Receptive.live (h : x.Receptive) : x.Live := by
  intro hdone
  rcases h.2 with hspawning | hpc | hpc
  · rw [hdone] at hspawning
    cases hspawning
  · rw [hdone] at hpc
    cases hpc
  · rw [hdone] at hpc
    cases hpc

theorem stop_notMem_trySend (h : .stop ∉ x.mailbox) : .stop ∉ (x.trySend (.restart r)).mailbox := by
  intro hstop
  rcases mem_trySend hstop with hstop | hsent
  · exact h hstop
  · cases hsent

/-- A mailbox that refuses a restart of a live actor without a queued stop is full of restarts. -/
theorem exists_restart_trySend (hlive : x.Live) (h : .stop ∉ x.mailbox) :
    ∃ q, .restart q ∈ (x.trySend (.restart r)).mailbox := by
  by_cases hroom : x.mailbox.length < mailboxCapacity
  · exact ⟨r, mem_trySend_of_room hlive hroom⟩
  · have hfull : mailboxCapacity ≤ x.mailbox.length := Nat.not_lt.mp hroom
    cases hbox : x.mailbox with
    | nil =>
      rw [hbox] at hfull
      cases hfull
    | cons msg rest =>
      cases msg with
      | stop => exact absurd (hbox ▸ (.head _)) h
      | restart q =>
        refine ⟨q, x.mailbox_subset_trySend _ ?_⟩
        rw [hbox]
        exact .head _

theorem Receptive.trySend (h : x.Receptive) (r : Request) :
    (x.trySend (.restart r)).RespawnBound := by
  refine ⟨stop_notMem_trySend h.1, ?_⟩
  rw [trySend_pc]
  rcases h.2 with hspawning | hreads
  · exact .inl hspawning
  · exact .inr ⟨hreads, exists_restart_trySend h.live h.1⟩

variable (h : x.RespawnBound)
include h

theorem RespawnBound.receptive : x.Receptive :=
  ⟨h.1, h.2.imp_right And.left⟩

theorem RespawnBound.live : x.Live := h.receptive.live

/-- A step within the same mailbox from one point on the way to a spawn to another. -/
theorem RespawnBound.of_spawning (hbox : y.mailbox ⊆ x.mailbox)
    (hpc : y.pc.spawning = true) : y.RespawnBound :=
  ⟨fun hstop => h.1 (hbox hstop), .inl hpc⟩

/-- A step that reads no message, to a point that will. -/
theorem RespawnBound.of_pc (hbox : y.mailbox = x.mailbox)
    (hspawning : x.pc.spawning = true → y.pc.spawning = true)
    (hreads : x.pc = .spawned ∨ x.pc = .selecting → y.pc = .spawned ∨ y.pc = .selecting) :
    y.RespawnBound := by
  unfold RespawnBound
  rw [hbox]
  exact ⟨h.1, h.2.imp hspawning (And.imp_left hreads)⟩

theorem RespawnBound.moves {mv : ActorMove} (hopen : x.senderOpen = true)
    (hmoves : x.Moves mv y) (hexit : mv ≠ .exit) (hfailed : mv ≠ .spawnFailed) :
    y.RespawnBound ∨ ∃ captured, mv = .spawn captured := by
  cases hmoves with
  | spawn captured => exact .inr ⟨captured, rfl⟩
  | exit => exact absurd rfl hexit
  | spawnFailed => exact absurd rfl hfailed
  | childExit st hlive => exact .inl (h.of_pc rfl id id)
  | drainStop rest hout hpc hbox | recvStop rest hout hpc hbox =>
    exact absurd (hbox ▸ (.head _)) h.1
  | drainRestart q rest hout hpc hbox =>
    refine .inl (h.of_spawning ?_ ?_)
    · rw [hbox]
      exact List.subset_cons_self _ _
    · rw [hpc]
      rfl
  | recvRestart q rest hout hpc hbox =>
    refine .inl (h.of_spawning ?_ rfl)
    rw [hbox]
    exact List.subset_cons_self _ _
  | drained hout hpc hbox =>
    refine .inl (h.of_spawning (List.Subset.refl _) ?_)
    rw [hopen]
    rfl
  | disconnected hout hpc hbox hclosed =>
    rw [hopen] at hclosed
    cases hclosed
  | reap hout hpc =>
    rcases h.2 with hspawning | ⟨hreads | hreads, -⟩
    · rw [hpc] at hspawning
      cases hspawning
    · rw [hpc] at hreads
      cases hreads
    · rw [hpc] at hreads
      cases hreads
  | spawnTask hout hpc | poll hout hpc | cycle hout hpc =>
    exact .inl (h.of_spawning (List.Subset.refl _) rfl)

/-- No step of the fleet turns such an actor away from its spawn, except those excluded here. -/
theorem RespawnBound.evolves {f : Fleet} {a : ActorId} {act : FleetAct}
    (hevolves : x.Evolves f a act y) (hopen : x.senderOpen = true)
    (hhandle : ∃ m, f.registry x.process = some m ∧ m.handle ≠ none)
    (hstop : act ≠ .stop x.process) (hclosed : ∀ k, act = .signalStop k → k.mailbox ≠ a)
    (hexit : act ≠ .move a .exit) (hfailed : act ≠ .move a .spawnFailed) :
    y.RespawnBound ∨ ∃ captured, act = .move a (.spawn captured) := by
  cases hevolves with
  | same => exact .inl h
  | toldStop id hprocess => exact absurd (congrArg FleetAct.stop hprocess.symm) hstop
  | toldRestart r => exact .inl (h.receptive.trySend r)
  | closed k ha => exact absurd ha (hclosed k rfl)
  | attached pc hpc =>
    rcases hpc with rfl | ⟨-, -, hnone⟩
    · exact .inl (h.of_pc rfl id id)
    · obtain ⟨m, hm, hsome⟩ := hhandle
      exact absurd (hnone m hm) hsome
  | advanced target code next hout hpending =>
    refine .inl (h.of_pc rfl ?_ ?_)
    · intro hspawning
      exact (Pc.pending_spawning hpending).trans hspawning
    · rintro (hpc | hpc)
      · rw [hpc] at hpending
        cases hpending
        exact .inr rfl
      · rw [hpc] at hpending
        cases hpending
  | published event hout => exact .inl (h.of_pc rfl id id)
  | moved mv _ hmoves =>
    rcases h.moves hopen hmoves (fun he => hexit (he ▸ rfl)) (fun he => hfailed (he ▸ rfl)) with
      hbound | ⟨captured, rfl⟩
    · exact .inl hbound
    · exact .inr ⟨captured, rfl⟩

omit h

end Actor

def Fleet.spawnsOf (f : Fleet) (id : ProcessId) : List Spawn :=
  f.spawns.filter fun sp => sp.process = id

variable {f g : Fleet}

theorem Fleet.spawnsOf_prefix [Sha256] {act : FleetAct} (h : f.Owned) (hstep : f.step act = some g)
    (id : ProcessId) : f.spawnsOf id <+: g.spawnsOf id := by
  have hall : f.spawns <+: g.spawns := by
    rcases step_spawns h hstep with hsame | ⟨b, captured, x, -, -, -, hspawns⟩
    · exact hsame ▸ List.prefix_refl _
    · exact hspawns ▸ List.prefix_append _ _
  exact hall.filter _

theorem Fleet.spawnsOf_spawn [Sha256] {a : ActorId} {captured : Env} {x : Actor}
    (hx : f.actors a = some x) (hstep : f.step (.move a (.spawn captured)) = some g) :
    (g.spawnsOf x.process).length = (f.spawnsOf x.process).length + 1 := by
  obtain ⟨z, x', hz, -, rfl⟩ := move_eq_some.mp hstep
  obtain rfl : x = z := some.inj (hx.symm.trans hz)
  unfold spawnsOf
  rw [List.filter_append, List.length_append]
  simp [Actor.spawns]

namespace Supervisor
variable {s t : Supervisor} {c : CallId} {e : SupervisorEvent} {id : ProcessId} {n : Nat}

def halts (s : Supervisor) (id : ProcessId) : SupervisorEvent → Bool
  | .close i => i = id
  | .proceed c _ _ =>
    match s.calls c with
    | some (.stopping i) => i = id
    | _ => false
  | _ => false

def childless (s : Supervisor) (id : ProcessId) : SupervisorEvent → Bool
  | .move a .exit | .move a .spawnFailed =>
    (s.fleet.actors a).any fun x => x.process = id
  | _ => false

/-- The restart finds the process at rest, or an actor that no queued stop turns away and that is
on its way to a spawn or, when the restart messages it, will read its mailbox. -/
def RestartLands (s : Supervisor) (id : ProcessId) (info : EntryInfo) : Prop :=
  ∃ m ∈ s.fleet.registry id, info.status.isActive = false ∧ m.status.isActive = false ∨
    ∃ h ∈ m.handle, ∃ x ∈ s.fleet.actors h.mailbox, .stop ∉ x.mailbox ∧
      (x.pc.spawning = true ∨ info.status.isActive = true ∧ (x.pc = .spawned ∨ x.pc = .selecting))

instance (s : Supervisor) (id : ProcessId) (info : EntryInfo) :
    Decidable (s.RestartLands id info) :=
  inferInstanceAs (Decidable (∃ m ∈ s.fleet.registry id, _ ∨
    ∃ h ∈ m.handle, ∃ x ∈ s.fleet.actors h.mailbox, _ ∧ _))

structure RestartDue (s : Supervisor) (id : ProcessId) (n : Nat) : Prop where
  held : s.Held
  due : n < (s.fleet.spawnsOf id).length ∨ n = (s.fleet.spawnsOf id).length ∧
    ∃ m a x, s.fleet.registry id = some m ∧ s.fleet.actors a = some x ∧ x.process = id ∧
      x.RespawnBound

theorem halts_of_stop [Sha256] (h : s.Issues e (.stop id)) : s.halts id e = true := by
  cases h with
  | direct _ _ hacts => cases hacts
  | stop c now fault id hc => simp [halts, hc]

theorem halts_of_close [Sha256] (h : s.Issues e (.removeReturningHandle id)) :
    s.halts id e = true := by
  cases h with
  | direct _ _ hacts =>
    cases hacts
    exact decide_eq_true rfl

theorem childless_of_move [Sha256] {a : ActorId} {mv : ActorMove} {x : Actor}
    (h : s.Issues e (.move a mv)) (hx : s.fleet.actors a = some x)
    (hmv : mv = .exit ∨ mv = .spawnFailed) : s.childless x.process e = true := by
  cases h with
  | direct _ _ hacts =>
    cases hacts
    rcases hmv with rfl | rfl
    · simp [childless, hx]
    · simp [childless, hx]

theorem restartDue_step [Sha256] (hs : s.RestartDue id n) (hhalts : s.halts id e = false)
    (hchild : (s.fleet.spawnsOf id).length = n → s.childless id e = false)
    (h : s.step e = some t) : t.RestartDue id n := by
  have hheld := held_step hs.held h
  have howned := hs.held.owned
  refine ⟨hheld, ?_⟩
  rcases step_fleet h with hsame | ⟨act, hact, hissues⟩
  · rw [hsame]
    exact hs.due
  have hgrows := (Fleet.spawnsOf_prefix howned hact id).length_le
  rcases hs.due with hspawned | ⟨hcount, m, a, x, hm, hx, hprocess, hbound⟩
  · left
    omega
  -- the owner is reached by the registry's handle, so its sender is still open
  obtain ⟨join, hhandle⟩ := howned.handle_of_live hx hbound.live (hprocess ▸ hm)
  have hopen : x.senderOpen = true := hs.held.opened id m ⟨a, join⟩ x hm hhandle hx
  obtain ⟨y, hy, hevolves⟩ := Fleet.step_evolves howned hact hx
  have hkept := hbound.evolves hevolves hopen
    ⟨m, hprocess ▸ hm, by rw [hhandle]; exact some_ne_none _⟩
    (by
      rintro rfl
      rw [hprocess] at hissues
      rw [halts_of_stop hissues] at hhalts
      cases hhalts)
    (by
      rintro k rfl hk
      rw [← hk] at hx
      exact hs.held.not_signalStop hissues hx (hprocess ▸ hm))
    (by
      rintro rfl
      have hexit := childless_of_move hissues hx (.inl rfl)
      rw [hprocess, hchild hcount.symm] at hexit
      cases hexit)
    (by
      rintro rfl
      have hfailed := childless_of_move hissues hx (.inr rfl)
      rw [hprocess, hchild hcount.symm] at hfailed
      cases hfailed)
  rcases hkept with hbound' | ⟨captured, rfl⟩
  · have hregistered : ∃ m', t.fleet.registry id = some m' := by
      rcases Fleet.step_registered howned hact hm with hstays | rfl | ⟨-, hrest⟩
      · exact hstays
      · rw [halts_of_close hissues] at hhalts
        cases hhalts
      · have hactive := howned.active_of_live hx hbound.live (hprocess ▸ hm)
        rw [hrest] at hactive
        cases hactive
    obtain ⟨m', hm'⟩ := hregistered
    by_cases hlt : n < (t.fleet.spawnsOf id).length
    · exact .inl hlt
    · right
      refine ⟨by omega, m', a, y, hm', hy, ?_, hbound'⟩
      exact hevolves.process.trans hprocess
  · left
    have hspawn := Fleet.spawnsOf_spawn hx hact
    rw [hprocess] at hspawn
    omega

theorem RestartDue.spawned (hs : s.RestartDue id n) (hsettled : s.Settled id) :
    n < (s.fleet.spawnsOf id).length := by
  rcases hs.due with hspawned | ⟨-, m, a, x, hm, hx, hprocess, hbound⟩
  · exact hspawned
  · exfalso
    obtain ⟨hpc, hbox, -⟩ := hsettled.of_live hs.held hx hprocess hbound.live
    rcases hbound.2 with hspawning | ⟨-, r, hr⟩
    · rw [hpc] at hspawning
      cases hspawning
    · rw [hbox] at hr
      cases hr

theorem accept_restart [Sha256] {info : EntryInfo} (hs : s.Held)
    (hlands : s.RestartLands id info) (haccept : s.accept c .restart id info = t)
    (ht : t.Held) : t.RestartDue id (s.fleet.spawnsOf id).length := by
  refine ⟨ht, .inr ?_⟩
  obtain ⟨m, hm, hwhere⟩ := hlands
  have hm : s.fleet.registry id = some m := hm
  cases hactive : info.status.isActive with
  | true =>
    rw [hactive] at hwhere
    have hfleet : t.fleet = s.fleet.signalRestart (s.request c .restart id info) := by
      rw [← haccept, accept, if_pos ⟨rfl, hactive⟩]
    rcases hwhere with ⟨hfalse, -⟩ | ⟨k, hk, x, hx, hstop, hpc⟩
    · cases hfalse
    have hk : m.handle = some k := hk
    have hx : s.fleet.actors k.mailbox = some x := hx
    have hreceptive : x.Receptive := ⟨hstop, hpc.imp_right And.right⟩
    obtain ⟨z, hz, hprocess⟩ := hs.owned.handled id m k hm hk
    obtain rfl : x = z := some.inj (hx.symm.trans hz)
    have hbox : s.fleet.mailboxOf (s.request c .restart id info).process = some k.mailbox :=
      Fleet.mailboxOf_eq_some.mpr ⟨m, k.join, hm, hk⟩
    have hsent : t.fleet = { s.fleet.send k.mailbox (.restart (s.request c .restart id info)) with
        nextRequest := s.fleet.nextRequest + 1 } := by
      rw [hfleet, Fleet.signalRestart, Fleet.signal_of_mailboxOf hbox]
    rw [hsent]
    refine ⟨rfl, m, k.mailbox, x.trySend (.restart (s.request c .restart id info)), hm, ?_, ?_, ?_⟩
    · exact Slots.modify_self hx
    · exact Actor.trySend_process.trans hprocess
    · exact hreceptive.trySend _
  | false =>
    rw [hactive] at hwhere
    have hlaunch : t = s.launch c .restart id info LaunchKind.restart.launchReply := by
      rw [← haccept, accept, if_neg]
      rintro ⟨-, htrue⟩
      rw [hactive] at htrue
      cases htrue
    unfold launch at hlaunch
    split at hlaunch
    next fleet hclaimed =>
      subst hlaunch
      obtain ⟨claim, hclaim, rfl⟩ := map_eq_some_iff.mp hclaimed
      obtain ⟨m₀, -, -, -, hregistry⟩ := Registry.beginLaunch_eq_some.mp hclaim
      refine ⟨rfl, (m₀.withStatus .starting none).withHandle ⟨s.fleet.nextActor, none⟩,
        s.fleet.nextActor, .claimed (s.request c .restart id info) claim.1, ?_, Slots.put_self,
        rfl, ?_, .inl rfl⟩
      · show claim.2 id = _
        rw [hregistry]
        exact Slots.put_self
      · exact List.not_mem_nil
    next hrefused =>
      subst hlaunch
      rcases hwhere with ⟨-, hrest⟩ | ⟨k, hk, x, hx, hstop, hspawning | ⟨hfalse, -⟩⟩
      · exfalso
        have hall := Registry.beginLaunch_eq_none.mp (map_eq_none_iff.mp hrefused) m hm
        rw [hrest] at hall
        cases hall
      · obtain ⟨z, hz, hprocess⟩ := hs.owned.handled id m k hm hk
        obtain rfl : x = z := some.inj (Eq.trans (Eq.symm hx) hz)
        exact ⟨rfl, m, k.mailbox, x, hm, hx, hprocess, hstop, .inl hspawning⟩
      · cases hfalse

end Supervisor

/-- A restart that finds the process at rest, or an actor that will act on it, is followed by a new
child once everything is drained, whatever the interleaving, unless the process is stopped or
closed, or its actor takes the exit of the old child or fails to spawn first. -/
theorem restart_delivered [Sha256] {s t : Supervisor} {c : CallId} {now : Instant}
    {fault : Option StoreError} {id : ProcessId} {info : EntryInfo} (es : List SupervisorEvent)
    (h : supervisorMachine.Reachable s) (hc : s.calls c = some (.ready .restart id info))
    (hlands : s.RestartLands id info) (hs : s.step (.proceed c now fault) = some t)
    (hhalts : supervisorMachine.Along (fun s e => s.halts id e = false) t es)
    (hchild : supervisorMachine.Along (fun u e =>
      (u.fleet.spawnsOf id).length = (s.fleet.spawnsOf id).length → u.childless id e = false) t es) :
    t.calls c = some (.returned (.done (.ok ()))) ∧
      ∀ u, supervisorMachine.run t es = some u → u.Settled id →
        (s.fleet.spawnsOf id).length < (u.fleet.spawnsOf id).length := by
  have hheld := Supervisor.held_of_reachable h
  have haccept : s.accept c .restart id info = t := by
    have hproceed : s.proceed c now fault = some t := hs
    simp only [Supervisor.proceed, hc, Option.some.injEq] at hproceed
    exact hproceed
  have hdue := Supervisor.accept_restart hheld hlands haccept (Supervisor.held_step hheld hs)
  refine ⟨?_, ?_⟩
  · rw [← haccept]
    unfold Supervisor.accept
    split_ifs
    · exact Slots.put_self
    · unfold Supervisor.launch
      split <;> exact Slots.put_self
  · intro u hu hsettled
    have hend : u.RestartDue id (s.fleet.spawnsOf id).length := by
      refine Machine.invariant_along (P := fun u => u.RestartDue id (s.fleet.spawnsOf id).length)
        ?_ hdue (hhalts.and hchild) hu
      intro v e w hguard hv hstep
      exact Supervisor.restartDue_step hv hguard.1 hguard.2 hstep
    exact hend.spawned hsettled

/-- The terminal runs, and a restart of it is about to be accepted. -/
def restartRunning : List SupervisorEvent :=
  startTerminal ++ [.publish 0, .launch .restart 1, .proceed 1 0 none, .proceed 1 0 none]

def cycleTerminal : List SupervisorEvent :=
  [.move 0 .recv, .advance 0, .publish 0, .move 0 .reap, .advance 0, .publish 0, .move 0 .tryRecv,
    .move 0 (.spawn []), .advance 0, .publish 0]

theorem restart_delivered_running :
    letI := zeroSha
    ∃ s t u, supervisorMachine.run .init restartRunning = some s ∧
      s.step (.proceed 1 0 none) = some t ∧ supervisorMachine.run t cycleTerminal = some u ∧
      (s.fleet.spawnsOf 1).length < (u.fleet.spawnsOf 1).length := by
  let _ := zeroSha
  refine ⟨_, _, _, rfl, rfl, rfl, ?_⟩
  have h : supervisorMachine.Reachable _ := ⟨.init, restartRunning, rfl, rfl⟩
  have hu : supervisorMachine.Reachable _ :=
    ⟨.init, restartRunning ++ [.proceed 1 0 none] ++ cycleTerminal, rfl, rfl⟩
  have hsettled := (Supervisor.held_of_reachable hu).settled 1 (by decide) (by decide)
  exact (@restart_delivered zeroSha _ _ 1 0 none 1 _ cycleTerminal h rfl (by decide) rfl
    (by decide) (by decide)).2 _ rfl hsettled

/-- The child has exited and its actor has seen it, while the registry still says `Running`. -/
def restartExited : List SupervisorEvent :=
  startTerminal ++ [.publish 0, .move 0 (.childExit ⟨some 0, none⟩), .move 0 .exit,
    .launch .restart 1, .proceed 1 0 none, .proceed 1 0 none]

/-- The restart returns `Ok` for an active process, and its message is never read. -/
theorem restart_lost_after_exit :
    letI := zeroSha
    ∃ s t u info, supervisorMachine.run .init restartExited = some s ∧
      s.calls 1 = some (.ready .restart 1 info) ∧ info.status = .running ∧
      s.fleet.registry.status 1 = some .running ∧ s.step (.proceed 1 0 none) = some t ∧
      t.calls 1 = some (.returned (.done (.ok ()))) ∧
      supervisorMachine.Along (fun s e => s.halts 1 e = false) t [.advance 0, .publish 0] ∧
      supervisorMachine.run t [.advance 0, .publish 0] = some u ∧ u.Settled 1 ∧
      (u.fleet.spawnsOf 1).length = (s.fleet.spawnsOf 1).length := by
  let _ := zeroSha
  refine ⟨_, _, _, _, rfl, rfl, rfl, rfl, rfl, rfl, ?_, rfl, ?_, ?_⟩
  · decide
  · have hu : supervisorMachine.Reachable _ :=
      ⟨.init, restartExited ++ [.proceed 1 0 none, .advance 0, .publish 0], rfl, rfl⟩
    exact (Supervisor.held_of_reachable hu).settled 1 (by decide) (by decide)
  · decide

end Soloist
