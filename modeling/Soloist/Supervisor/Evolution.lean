import Soloist.Supervisor.Ownership

/-! What one step of the fleet does to each actor and to the record of spawned children. -/
open Option Slots

namespace Soloist

/-- Everything one step of the fleet may make of the actor `a`. -/
inductive Actor.Evolves (f : Fleet) (x : Actor) (a : ActorId) : FleetAct → Actor → Prop
  | same (act : FleetAct) : Evolves f x a act x
  | toldStop (id : ProcessId) (hprocess : x.process = id) (hbox : f.mailboxOf id = some a) :
    Evolves f x a (.stop id) (x.trySend .stop)
  | toldRestart (r : Request) (hprocess : x.process = r.process)
      (hbox : f.mailboxOf r.process = some a) :
    Evolves f x a (.restart r) (x.trySend (.restart r))
  | closed (h : Handle) (ha : h.mailbox = a) :
    Evolves f x a (.signalStop h) (x.trySend .stop).dropSender
  | attached (pc : Pc) (hpc : pc = x.pc ∨ x.pc = .scheduled ∧ pc = .done ∧
      ∀ m, f.registry x.process = some m → m.handle = none) :
    Evolves f x a (.attachJoin a) { x with attached := true, pc }
  | advanced (target : ProcStatus) (code : Option Int) (next : Pc) (hout : x.outbox = none)
      (hpending : x.pc.pending = some (target, code, next)) :
    Evolves f x a (.advance a)
      { x with
        pc := next
        status := target
        outbox := some (.processStatusChanged x.process x.status target code) }
  | published (event : DomainEvent) (hout : x.outbox = some event) :
    Evolves f x a (.publish a) { x with outbox := none }
  | moved (mv : ActorMove) (x' : Actor) (hmoves : x.Moves mv x') :
    Evolves f x a (.move a mv) x'

namespace Fleet
variable {f g : Fleet} {act : FleetAct} {a : ActorId} {y : Actor}

theorem setActor_actor {b : ActorId} {x x' : Actor} (hx : f.actors b = some x)
    (hy : f.actors.put b x' a = some y) (hstep : x.Evolves f b act x') :
    ∃ z, f.actors a = some z ∧ z.Evolves f a act y := by
  rcases put_eq_some.mp hy with ⟨rfl, rfl⟩ | ⟨-, hy⟩
  · exact ⟨x, hx, hstep⟩
  · exact ⟨y, hy, .same act⟩

theorem modify_actor {b : ActorId} {change : Actor → Actor}
    (hy : f.actors.modify b change a = some y) :
    ∃ z, f.actors a = some z ∧ (a = b ∧ y = change z ∨ y = z) := by
  obtain ⟨z, hz, rfl⟩ := modify_eq_some.mp hy
  refine ⟨z, hz, ?_⟩
  split_ifs with ha
  · exact .inl ⟨ha, rfl⟩
  · exact .inr rfl

variable {id : ProcessId}

theorem signal_actor {msg : ActorMsg} (hy : (f.signal id msg).actors a = some y) :
    ∃ z, f.actors a = some z ∧ (f.mailboxOf id = some a ∧ y = z.trySend msg ∨ y = z) := by
  unfold signal at hy
  split at hy
  next => exact ⟨y, hy, .inr rfl⟩
  next b hb =>
    obtain ⟨z, hz, ⟨rfl, hsent⟩ | hsame⟩ := modify_actor hy
    · exact ⟨z, hz, .inl ⟨hb, hsent⟩⟩
    · exact ⟨z, hz, .inr hsame⟩

theorem mailboxOf_eq_some : f.mailboxOf id = some a ↔
    ∃ m join, f.registry id = some m ∧ m.handle = some ⟨a, join⟩ := by
  unfold mailboxOf
  rw [map_eq_some_iff]
  constructor
  · rintro ⟨h, hh, rfl⟩
    obtain ⟨m, hm, hhandle⟩ := bind_eq_some_iff.mp hh
    exact ⟨m, h.join, hm, hhandle⟩
  · rintro ⟨m, join, hm, hhandle⟩
    exact ⟨⟨a, join⟩, bind_eq_some_iff.mpr ⟨m, hm, hhandle⟩, rfl⟩

theorem Manned.mailboxOf_process (h : f.Manned) {x : Actor} (hbox : f.mailboxOf id = some a)
    (hx : f.actors a = some x) : x.process = id := by
  obtain ⟨m, join, hm, hhandle⟩ := mailboxOf_eq_some.mp hbox
  obtain ⟨z, hz, hprocess⟩ := h.handled id m ⟨a, join⟩ hm hhandle
  obtain rfl : x = z := some.inj (hx.symm.trans hz)
  exact hprocess

theorem step_actor [Sha256] (h : f.Manned) (hstep : f.step act = some g)
    (hy : g.actors a = some y) :
    (∃ x, f.actors a = some x ∧ x.Evolves f a act y) ∨
      ∃ r source, act = .launch r ∧ a = f.nextActor ∧ y = .claimed r source := by
  cases act with
  | register r | updateCommandSpec id r | removeIfResting id | exhaust id =>
    cases hstep
    exact .inl ⟨y, hy, .same _⟩
  | removeReturningHandle id =>
    obtain ⟨removed, -, rfl⟩ := map_eq_some_iff.mp hstep
    exact .inl ⟨y, hy, .same _⟩
  | launch r =>
    obtain ⟨claim, -, rfl⟩ := map_eq_some_iff.mp hstep
    rcases put_eq_some.mp hy with ⟨rfl, rfl⟩ | ⟨-, hy⟩
    · exact .inr ⟨r, claim.1, rfl, rfl, rfl⟩
    · exact .inl ⟨y, hy, .same _⟩
  | restart r =>
    cases hstep
    obtain ⟨z, hz, ⟨hbox, rfl⟩ | rfl⟩ := signal_actor hy
    · exact .inl ⟨z, hz, .toldRestart r (h.mailboxOf_process hbox hz) hbox⟩
    · exact .inl ⟨y, hz, .same _⟩
  | stop id =>
    cases hstep
    obtain ⟨z, hz, ⟨hbox, rfl⟩ | rfl⟩ := signal_actor hy
    · exact .inl ⟨z, hz, .toldStop id (h.mailboxOf_process hbox hz) hbox⟩
    · exact .inl ⟨y, hz, .same _⟩
  | signalStop k =>
    cases hstep
    obtain ⟨z, hz, ⟨rfl, rfl⟩ | rfl⟩ := modify_actor hy
    · exact .inl ⟨z, hz, .closed k rfl⟩
    · exact .inl ⟨y, hz, .same _⟩
  | attachJoin b =>
    obtain ⟨x, pc, registry, hx, hpc, -, rfl⟩ := attachJoin_eq_some hstep
    exact .inl (setActor_actor hx hy (.attached pc hpc))
  | advance b =>
    obtain ⟨x, target, code, next, hx, hout, hpending, rfl⟩ := advance_eq_some h hstep
    exact .inl (setActor_actor hx hy (.advanced target code next hout hpending))
  | publish b =>
    obtain ⟨⟨event, g'⟩, hpublish, rfl⟩ := map_eq_some_iff.mp hstep
    obtain ⟨x, hx, hout, rfl⟩ := publish_eq_some.mp hpublish
    exact .inl (setActor_actor hx hy (.published event hout))
  | move b mv =>
    obtain ⟨x, x', hx, hmove, rfl⟩ := move_eq_some.mp hstep
    exact .inl (setActor_actor hx hy (.moved mv x' (Actor.move_cases hmove)))

/-- Everything one step of the fleet may make of the entry of `id`. -/
inductive EntryEvolves [Sha256] (f : Fleet) (id : ProcessId) (m : Managed) :
    FleetAct → Managed → Prop
  | same (act : FleetAct) : EntryEvolves f id m act m
  | updated (r : Registration) : EntryEvolves f id m (.updateCommandSpec id r) (m.withSpec r)
  | exhausted (hcrashed : m.status = .crashed) :
    EntryEvolves f id m (.exhaust id) (m.withStatus .restartExhausted none)
  | claimed (r : Request) (hid : r.process = id) (hrest : m.status.isActive = false) :
    EntryEvolves f id m (.launch r)
      ((m.withStatus .starting none).withHandle ⟨f.nextActor, none⟩)
  | attached (a : ActorId) (h : Handle) (hhandle : m.handle = some h) (x : Actor)
    (hx : f.actors a = some x) (hprocess : x.process = id) :
    EntryEvolves f id m (.attachJoin a) (m.withHandle { h with join := some a })
  | advanced (a : ActorId) (x : Actor) (target : ProcStatus) (code : Option Int)
      (hx : f.actors a = some x) (hlive : x.Live) (hprocess : x.process = id) :
    EntryEvolves f id m (.advance a) (m.withStatus target code)

theorem put_entry [Sha256] {i : ProcessId} {m m₀ m' : Managed} (hm₀ : f.registry i = some m₀)
    (hm' : f.registry.put i m' id = some m) (hstep : f.EntryEvolves i m₀ act m') :
    ∃ m₁, f.registry id = some m₁ ∧ f.EntryEvolves id m₁ act m := by
  rcases put_eq_some.mp hm' with ⟨rfl, rfl⟩ | ⟨-, hm⟩
  · exact ⟨m₀, hm₀, hstep⟩
  · exact ⟨m, hm, .same act⟩

theorem step_entry [Sha256] (h : f.Manned) (hstep : f.step act = some g) {m : Managed}
    (hm : g.registry id = some m) :
    (∃ m₀, f.registry id = some m₀ ∧ f.EntryEvolves id m₀ act m) ∨
      ∃ r, act = .register r ∧ id = f.nextProcess ∧ m = .register r := by
  cases act with
  | register r =>
    cases hstep
    rcases put_eq_some.mp hm with ⟨rfl, rfl⟩ | ⟨-, hm⟩
    · exact .inr ⟨r, rfl, rfl, rfl⟩
    · exact .inl ⟨m, hm, .same _⟩
  | updateCommandSpec i r =>
    cases hstep
    obtain ⟨m₀, hm₀, rfl⟩ := modify_eq_some.mp hm
    refine .inl ⟨m₀, hm₀, ?_⟩
    split_ifs with hi
    · rw [hi]
      exact .updated r
    · exact .same _
  | removeIfResting i =>
    cases hstep
    rcases f.registry.removeIfResting_cases i with he | ⟨m₀, -, -, he⟩
    · rw [he] at hm
      exact .inl ⟨m, hm, .same _⟩
    · rw [he] at hm
      exact .inl ⟨m, (erase_eq_some.mp hm).2, .same _⟩
  | removeReturningHandle i =>
    obtain ⟨⟨registry, k⟩, hremoved, rfl⟩ := map_eq_some_iff.mp hstep
    obtain ⟨m₀, -, rfl, -⟩ := Registry.removeReturningHandle_eq_some.mp hremoved
    exact .inl ⟨m, (erase_eq_some.mp hm).2, .same _⟩
  | exhaust i =>
    cases hstep
    rcases f.registry.exhaustIfCrashed_cases i with he | ⟨m₀, hm₀, hcrashed, he⟩
    · rw [he] at hm
      exact .inl ⟨m, hm, .same _⟩
    · rw [he] at hm
      exact .inl (put_entry hm₀ hm (.exhausted hcrashed))
  | launch r =>
    obtain ⟨claim, hclaim, rfl⟩ := map_eq_some_iff.mp hstep
    obtain ⟨m₀, hm₀, hrest, -, hregistry⟩ := Registry.beginLaunch_eq_some.mp hclaim
    rw [hregistry] at hm
    exact .inl (put_entry hm₀ hm (.claimed r rfl hrest))
  | restart r =>
    cases hstep
    have hold : (f.signal r.process (.restart r)).registry id = some m := hm
    rw [signal_registry] at hold
    exact .inl ⟨m, hold, .same _⟩
  | stop i =>
    cases hstep
    rw [signal_registry] at hm
    exact .inl ⟨m, hm, .same _⟩
  | signalStop k =>
    cases hstep
    exact .inl ⟨m, hm, .same _⟩
  | attachJoin a =>
    obtain ⟨x, pc, registry, hx, -, rfl | ⟨m₀, k, hm₀, hk, rfl⟩, rfl⟩ := attachJoin_eq_some hstep
    · exact .inl ⟨m, hm, .same _⟩
    · exact .inl (put_entry hm₀ hm (.attached a k hk x hx rfl))
  | advance a =>
    obtain ⟨x, target, code, next, hx, -, hpending, rfl⟩ := advance_eq_some h hstep
    obtain ⟨m₀, hm₀, rfl⟩ := modify_eq_some.mp hm
    refine .inl ⟨m₀, hm₀, ?_⟩
    split_ifs with hi
    · exact .advanced a x target code hx (Pc.pending_spec hpending).1 hi.symm
    · exact .same _
  | publish a =>
    obtain ⟨⟨event, g'⟩, hpublish, rfl⟩ := map_eq_some_iff.mp hstep
    obtain ⟨x, hx, -, rfl⟩ := publish_eq_some.mp hpublish
    exact .inl ⟨m, hm, .same _⟩
  | move a mv =>
    obtain ⟨x, x', hx, hmove, rfl⟩ := move_eq_some.mp hstep
    exact .inl ⟨m, hm, .same _⟩

/-- The record of children grows only by the child a step spawns. -/
theorem step_spawns [Sha256] (h : f.Owned) (hstep : f.step act = some g) :
    g.spawns = f.spawns ∨ ∃ b captured x, act = .move b (.spawn captured) ∧
      f.actors b = some x ∧ x.pc = .resolving ∧
      g.spawns = f.spawns ++ x.spawns b (.spawn captured) := by
  cases act with
  | register r | updateCommandSpec id r | removeIfResting id | exhaust id | signalStop k =>
    cases hstep
    exact .inl rfl
  | removeReturningHandle id =>
    obtain ⟨removed, -, rfl⟩ := map_eq_some_iff.mp hstep
    exact .inl rfl
  | launch r =>
    obtain ⟨claim, -, rfl⟩ := map_eq_some_iff.mp hstep
    exact .inl rfl
  | restart r =>
    cases hstep
    exact .inl signal_spawns
  | stop id =>
    cases hstep
    exact .inl signal_spawns
  | attachJoin b =>
    obtain ⟨x, pc, registry, -, -, -, rfl⟩ := attachJoin_eq_some hstep
    exact .inl rfl
  | advance b =>
    obtain ⟨x, target, code, next, -, -, -, rfl⟩ := advance_eq_some h.manned hstep
    exact .inl rfl
  | publish b =>
    obtain ⟨⟨event, g'⟩, hpublish, rfl⟩ := map_eq_some_iff.mp hstep
    obtain ⟨x, -, -, rfl⟩ := publish_eq_some.mp hpublish
    exact .inl rfl
  | move b mv =>
    obtain ⟨x, x', hx, hmove, rfl⟩ := move_eq_some.mp hstep
    cases Actor.move_cases hmove with
    | spawn captured hout hpc => exact .inr ⟨b, captured, x, rfl, hx, hpc, rfl⟩
    | _ => exact .inl (List.append_nil _)

/-- Only an accepted request takes a serial number, and ids are never given back. -/
structure Counts (f : Fleet) (act : FleetAct) (g : Fleet) : Prop where
  processes : f.nextProcess ≤ g.nextProcess
  actors : f.nextActor ≤ g.nextActor
  requests : g.nextRequest = f.nextRequest + 1 ∨
    g.nextRequest = f.nextRequest ∧ ∀ r, act ≠ .launch r ∧ act ≠ .restart r

theorem Counts.of_same (hprocess : g.nextProcess = f.nextProcess)
    (hactor : g.nextActor = f.nextActor) (hrequest : g.nextRequest = f.nextRequest) (hlaunch : ∀ r, act ≠ .launch r)
    (hrestart : ∀ r, act ≠ .restart r) : f.Counts act g where
  processes := Nat.le_of_eq hprocess.symm
  actors := Nat.le_of_eq hactor.symm
  requests := .inr ⟨hrequest, fun r => ⟨hlaunch r, hrestart r⟩⟩

theorem step_counts [Sha256] (h : f.Manned) (hstep : f.step act = some g) :
    f.Counts act g := by
  cases act with
  | launch r =>
    obtain ⟨claim, -, rfl⟩ := map_eq_some_iff.mp hstep
    exact ⟨Nat.le_refl _, Nat.le_succ _, .inl rfl⟩
  | restart r =>
    cases hstep
    exact ⟨Nat.le_of_eq signal_nextProcess.symm, Nat.le_of_eq signal_nextActor.symm, .inl rfl⟩
  | register r =>
    cases hstep
    exact ⟨Nat.le_succ _, Nat.le_refl _, .inr ⟨rfl, fun q => ⟨FleetAct.noConfusion, FleetAct.noConfusion⟩⟩⟩
  | updateCommandSpec id r | removeIfResting id | exhaust id | signalStop k =>
    cases hstep
    exact .of_same rfl rfl rfl (fun _ => FleetAct.noConfusion) fun _ => FleetAct.noConfusion
  | removeReturningHandle id =>
    obtain ⟨removed, -, rfl⟩ := map_eq_some_iff.mp hstep
    exact .of_same rfl rfl rfl (fun _ => FleetAct.noConfusion) fun _ => FleetAct.noConfusion
  | stop id =>
    cases hstep
    exact .of_same signal_nextProcess signal_nextActor signal_nextRequest
      (fun _ => FleetAct.noConfusion) fun _ => FleetAct.noConfusion
  | attachJoin a =>
    obtain ⟨x, pc, registry, -, -, -, rfl⟩ := attachJoin_eq_some hstep
    exact .of_same rfl rfl rfl (fun _ => FleetAct.noConfusion) fun _ => FleetAct.noConfusion
  | advance a =>
    obtain ⟨x, target, code, next, -, -, -, rfl⟩ := advance_eq_some h hstep
    exact .of_same rfl rfl rfl (fun _ => FleetAct.noConfusion) fun _ => FleetAct.noConfusion
  | publish a =>
    obtain ⟨⟨event, g'⟩, hpublish, rfl⟩ := map_eq_some_iff.mp hstep
    obtain ⟨x, -, -, rfl⟩ := publish_eq_some.mp hpublish
    exact .of_same rfl rfl rfl (fun _ => FleetAct.noConfusion) fun _ => FleetAct.noConfusion
  | move a mv =>
    obtain ⟨x, x', -, -, rfl⟩ := move_eq_some.mp hstep
    exact .of_same rfl rfl rfl (fun _ => FleetAct.noConfusion) fun _ => FleetAct.noConfusion

end Fleet
end Soloist
