import Soloist.Supervisor.Evolution

/-! Who holds an actor's sender: the registry entry of its process, or a close that took the handle
and has not messaged the actor yet. -/
open Option Slots

namespace Soloist

namespace Actor
variable {f : Fleet} {x y : Actor} {a : ActorId} {act : FleetAct}

variable {mv : ActorMove}

theorem Moves.same (h : x.Moves mv y) : y.process = x.process ∧ y.senderOpen = x.senderOpen := by
  cases h <;> exact ⟨rfl, rfl⟩

theorem Moves.outbox (h : x.Moves mv y) : y.outbox = x.outbox := by
  cases h <;> rfl

theorem Evolves.process (h : x.Evolves f a act y) : y.process = x.process := by
  cases h with
  | toldStop | toldRestart | closed => exact trySend_process
  | moved mv _ hmoves => exact hmoves.same.1
  | same | attached | advanced | published => rfl

theorem Evolves.senderOpen (h : x.Evolves f a act y) : y.senderOpen = x.senderOpen ∨
    y.senderOpen = false ∧ ∃ k, act = .signalStop k ∧ k.mailbox = a := by
  cases h with
  | closed k ha => exact .inr ⟨rfl, k, rfl, ha⟩
  | toldStop | toldRestart => exact .inl trySend_senderOpen
  | moved mv _ hmoves => exact .inl hmoves.same.2
  | same | attached | advanced | published => exact .inl rfl

/-- An actor that has ended stays ended. -/
theorem Evolves.live (h : x.Evolves f a act y) (hy : y.Live) : x.Live := by
  cases h with
  | same | published => exact hy
  | toldStop | toldRestart | closed =>
    intro hdone
    exact hy (trySend_pc.trans hdone)
  | attached pc hpc =>
    rcases hpc with hpc | ⟨-, hdone, -⟩
    · intro hx
      exact hy (hpc.trans hx)
    · exact absurd hdone hy
  | advanced target code next hout hpending => exact (Pc.pending_spec hpending).1
  | moved mv _ hmoves =>
    intro hdone
    cases hmoves with
    | childExit st hlive => exact hy hdone
    | drainRestart r rest hout hpc hbox => exact hy hdone
    | spawnTask hout hpc | poll hout hpc | drainStop rest hout hpc hbox | drained hout hpc hbox
    | spawn captured hout hpc | spawnFailed hout hpc | exit st hout hpc hchild
    | recvRestart r rest hout hpc hbox | recvStop rest hout hpc hbox
    | disconnected hout hpc hbox hopen | reap hout hpc | cycle hout hpc =>
      rw [hdone] at hpc
      cases hpc

end Actor

namespace Fleet
variable {f g : Fleet} {act : FleetAct}

variable {a : ActorId} {x : Actor}

theorem exists_signal (hx : f.actors a = some x) (id : ProcessId) (msg : ActorMsg) :
    ∃ y, (f.signal id msg).actors a = some y := by
  unfold signal
  split
  · exact ⟨x, hx⟩
  · exact exists_modify hx

theorem step_exists [Sha256] (h : f.Owned) (hstep : f.step act = some g)
    (hx : f.actors a = some x) : ∃ y, g.actors a = some y := by
  cases act with
  | register r | updateCommandSpec id r | removeIfResting id | exhaust id =>
    cases hstep
    exact ⟨x, hx⟩
  | removeReturningHandle id =>
    obtain ⟨removed, -, rfl⟩ := map_eq_some_iff.mp hstep
    exact ⟨x, hx⟩
  | launch r =>
    obtain ⟨claim, -, rfl⟩ := map_eq_some_iff.mp hstep
    exact exists_put hx
  | restart r =>
    cases hstep
    exact exists_signal hx r.process (.restart r)
  | stop id =>
    cases hstep
    exact exists_signal hx id .stop
  | signalStop k =>
    cases hstep
    exact exists_modify hx
  | attachJoin b =>
    obtain ⟨z, pc, registry, -, -, -, rfl⟩ := attachJoin_eq_some hstep
    exact exists_put hx
  | advance b =>
    obtain ⟨z, target, code, next, -, -, -, rfl⟩ := advance_eq_some h.manned hstep
    exact exists_put hx
  | publish b =>
    obtain ⟨⟨event, g'⟩, hpublish, rfl⟩ := map_eq_some_iff.mp hstep
    obtain ⟨z, -, -, rfl⟩ := publish_eq_some.mp hpublish
    exact exists_put hx
  | move b mv =>
    obtain ⟨z, z', -, -, rfl⟩ := move_eq_some.mp hstep
    exact exists_put hx

/-- `step_actor` read forward. -/
theorem step_evolves [Sha256] (h : f.Owned) (hstep : f.step act = some g)
    (hx : f.actors a = some x) : ∃ y, g.actors a = some y ∧ x.Evolves f a act y := by
  obtain ⟨y, hy⟩ := step_exists h hstep hx
  refine ⟨y, hy, ?_⟩
  rcases step_actor h.manned hstep hy with ⟨z, hz, hevolves⟩ | ⟨r, source, -, ha, -⟩
  · obtain rfl : x = z := some.inj (hx.symm.trans hz)
    exact hevolves
  · have hlt := h.actor_lt a x hx
    rw [ha] at hlt
    exact absurd hlt (Nat.lt_irrefl _)

variable {id : ProcessId} {m : Managed}

/-- A registered process is forgotten only by a close, or at rest by a reload. -/
theorem step_registered [Sha256] (h : f.Owned) (hstep : f.step act = some g)
    (hm : f.registry id = some m) : (∃ m', g.registry id = some m') ∨
      act = .removeReturningHandle id ∨
      act = .removeIfResting id ∧ m.status.isActive = false := by
  cases act with
  | register r =>
    cases hstep
    exact .inl (exists_put hm)
  | updateCommandSpec i r =>
    cases hstep
    exact .inl (exists_modify hm)
  | removeIfResting i =>
    cases hstep
    rcases f.registry.removeIfResting_cases i with he | ⟨m₀, hm₀, hrest, he⟩
    · rw [he]
      exact .inl ⟨m, hm⟩
    · rw [he]
      by_cases hi : id = i
      · subst hi
        obtain rfl : m = m₀ := some.inj (hm.symm.trans hm₀)
        exact .inr (.inr ⟨rfl, hrest⟩)
      · exact .inl ⟨m, erase_eq_some.mpr ⟨hi, hm⟩⟩
  | removeReturningHandle i =>
    obtain ⟨⟨registry, k⟩, hremoved, rfl⟩ := map_eq_some_iff.mp hstep
    obtain ⟨m₀, -, rfl, -⟩ := Registry.removeReturningHandle_eq_some.mp hremoved
    by_cases hi : id = i
    · exact .inr (.inl (hi ▸ rfl))
    · exact .inl ⟨m, erase_eq_some.mpr ⟨hi, hm⟩⟩
  | exhaust i =>
    cases hstep
    rcases f.registry.exhaustIfCrashed_cases i with he | ⟨m₀, -, -, he⟩
    · rw [he]
      exact .inl ⟨m, hm⟩
    · rw [he]
      exact .inl (exists_put hm)
  | launch r =>
    obtain ⟨claim, hclaim, rfl⟩ := map_eq_some_iff.mp hstep
    obtain ⟨m₀, -, -, -, hregistry⟩ := Registry.beginLaunch_eq_some.mp hclaim
    rw [hregistry]
    exact .inl (exists_put hm)
  | restart r =>
    cases hstep
    exact .inl ⟨m, (congrFun signal_registry id).trans hm⟩
  | stop i =>
    cases hstep
    exact .inl ⟨m, (congrFun signal_registry id).trans hm⟩
  | signalStop k =>
    cases hstep
    exact .inl ⟨m, hm⟩
  | attachJoin a =>
    obtain ⟨x, pc, registry, -, -, rfl | ⟨m₀, k, -, -, rfl⟩, rfl⟩ := attachJoin_eq_some hstep
    · exact .inl ⟨m, hm⟩
    · exact .inl (exists_put hm)
  | advance a =>
    obtain ⟨x, target, code, next, -, -, -, rfl⟩ := advance_eq_some h.manned hstep
    exact .inl (exists_modify hm)
  | publish a =>
    obtain ⟨⟨event, g'⟩, hpublish, rfl⟩ := map_eq_some_iff.mp hstep
    obtain ⟨x, -, -, rfl⟩ := publish_eq_some.mp hpublish
    exact .inl ⟨m, hm⟩
  | move a mv =>
    obtain ⟨x, x', -, -, rfl⟩ := move_eq_some.mp hstep
    exact .inl ⟨m, hm⟩

theorem EntryEvolves.handle [Sha256] {m' : Managed} {h : Handle}
    (hevolves : f.EntryEvolves id m act m') (hh : m'.handle = some h) :
    (∃ k, m.handle = some k ∧ k.mailbox = h.mailbox) ∨
      h.mailbox = f.nextActor ∧ m.status.isActive = false ∧ ∃ r, act = .launch r := by
  cases hevolves with
  | same | updated | exhausted | advanced => exact .inl ⟨h, hh, rfl⟩
  | claimed r hid hrest =>
    cases hh
    exact .inr ⟨rfl, hrest, r, rfl⟩
  | attached a k hk =>
    cases hh
    exact .inl ⟨k, hk, rfl⟩

end Fleet

namespace Supervisor
variable {s t : Supervisor} {c : CallId} {e : SupervisorEvent}

theorem proceed_nextCall [Sha256] {now : Instant} {fault : Option StoreError}
    (h : s.proceed c now fault = some t) : t.nextCall = s.nextCall := by
  have hlaunch : ∀ kind id info reply, (s.launch c kind id info reply).nextCall = s.nextCall := by
    intro kind id info reply
    unfold launch
    split <;> rfl
  unfold proceed at h
  cases hc : s.calls c with
  | none =>
    rw [hc] at h
    cases h
  | some call =>
    rw [hc] at h
    cases call with
    | described kind id info =>
      cases h
      unfold guardTrust
      split
      · rfl
      · rfl
      · split_ifs <;> rfl
    | trusted kind id info =>
      cases h
      unfold afterTrusted
      split
      · split <;> rfl
      · rfl
    | ready kind id info =>
      cases h
      unfold accept
      split_ifs
      · rfl
      · exact hlaunch kind id info kind.launchReply
    | policyBegun id =>
      dsimp only at h
      split_ifs at h <;> cases h <;> rfl
    | relaunching id info attempt =>
      cases h
      exact hlaunch .policy id info _
    | exhausting id =>
      dsimp only at h
      split at h <;> cases h <;> rfl
    | closing id handle =>
      cases h
      cases handle <;> rfl
    | reaping id join =>
      dsimp only at h
      split_ifs at h
      cases h
      rfl
    | policyOpen | scheduled | exhausted | stopping | removed | reloading =>
      cases h
      rfl
    | returned reply => cases h

variable {id : ProcessId}

/-- A close removes the entry and takes its handle, or finds no entry. -/
theorem close_step [Sha256] (h : s.step (.close id) = some t) :
    (∃ m, s.fleet.registry id = some m ∧
      t.fleet = { s.fleet with registry := s.fleet.registry.erase id } ∧
      t.calls = s.calls.put s.nextCall (.closing id m.handle)) ∨
    s.fleet.registry id = none ∧ t.fleet = s.fleet ∧
      t.calls = s.calls.put s.nextCall (.returned (.done (.error (.notFound id)))) := by
  simp only [step] at h
  split at h
  next registry k hremove =>
    cases h
    obtain ⟨m, hm, rfl, rfl⟩ := Registry.removeReturningHandle_eq_some.mp hremove
    exact .inl ⟨m, hm, rfl, rfl⟩
  next hremove =>
    cases h
    exact .inr ⟨map_eq_none_iff.mp hremove, rfl, rfl⟩

variable {k : Handle}

theorem closing_of_step [Sha256] (h : s.step e = some t)
    (hc : t.calls c = some (.closing id (some k))) :
    s.calls c = some (.closing id (some k)) ∨ e = .close id ∧ ∃ m, s.fleet.registry id = some m ∧
      m.handle = some k ∧ t.fleet = { s.fleet with registry := s.fleet.registry.erase id } := by
  rcases step_cases h with ⟨c', now, fault, call, call', rfl, -, hcalls, -, hstep⟩ | hoccurs
  · rw [hcalls] at hc
    rcases put_eq_some.mp hc with ⟨-, rfl⟩ | ⟨-, hold⟩
    · cases hstep.takenHandle
    · exact .inl hold
  · rcases hoccurs.calls with ⟨hcalls, -⟩ | ⟨call, hcalls, -, hbegins⟩
    · exact .inl (hcalls ▸ hc)
    · rw [hcalls] at hc
      rcases put_eq_some.mp hc with ⟨rfl, rfl⟩ | ⟨-, hold⟩
      · generalize hcall : Call.closing id (some k) = call at hbegins hcalls
        cases hbegins with
        | read => cases hcall
        | closing i m hm =>
          injection hcall with hi hk
          subst hi
          rcases close_step h with ⟨m', hm', hfleet, -⟩ | ⟨hnone, -⟩
          · obtain rfl : m = m' := some.inj (hm.symm.trans hm')
            exact .inr ⟨rfl, m, hm, hk.symm, hfleet⟩
          · rw [hnone] at hm
            cases hm
        | plain e call hplain =>
          rw [← hcall] at hplain
          cases hplain.takenHandle
      · exact .inl hold

structure Held (s : Supervisor) : Prop where
  owned : s.fleet.Owned
  call_lt : ∀ c call, s.calls c = some call → c < s.nextCall
  /-- The handle of a closed process reaches an actor of it, and the process is gone for good. -/
  taken : ∀ c id h, s.calls c = some (.closing id (some h)) → s.fleet.registry id = none ∧
    ∃ x, s.fleet.actors h.mailbox = some x ∧ x.process = id
  /-- No sender is lost: the actor of a forgotten process is still to be told by its close. -/
  reached : ∀ a x, s.fleet.actors a = some x → x.Live → x.senderOpen = true →
    s.fleet.registry x.process = none →
      ∃ c join, s.calls c = some (.closing x.process (some ⟨a, join⟩))
  opened : ∀ id m h x, s.fleet.registry id = some m → m.handle = some h →
    s.fleet.actors h.mailbox = some x → x.senderOpen = true

theorem held_init : Held .init := by
  constructor
  · exact Fleet.owned_empty
  · intro c call hc
    cases hc
  · intro c id h hc
    cases hc
  · intro a x hx
    cases hx
  · intro id m h x hm
    cases hm

/-- A taken handle stays with its close until that messages the actor. -/
theorem step_closing [Sha256] (hs : s.Held) (h : s.step e = some t)
    (hc : s.calls c = some (.closing id (some k))) :
    t.calls c = some (.closing id (some k)) ∨ t.fleet = s.fleet.signalStop k := by
  rcases step_cases h with ⟨c', now, fault, call, call', rfl, hcall, hcalls, -, hstep⟩ | hoccurs
  · by_cases hcc : c = c'
    · subst hcc
      obtain rfl : call = .closing id (some k) := some.inj (hcall.symm.trans hc)
      cases hstep with
      | closed i k hfleet => exact .inr hfleet
      | plain call call' hplain htaken hfleet => cases htaken
    · rw [hcalls]
      exact .inl ((put_of_ne hcc).trans hc)
  · rcases hoccurs.calls with ⟨hcalls, -⟩ | ⟨call, hcalls, -, -⟩
    · exact .inl (hcalls ▸ hc)
    · have hlt := hs.call_lt c _ hc
      rw [hcalls]
      exact .inl ((put_of_ne (Nat.ne_of_lt hlt)).trans hc)

theorem Held.step_call_lt [Sha256] (hs : s.Held) (h : s.step e = some t) (call : Call)
    (hc : t.calls c = some call) : c < t.nextCall := by
  rcases step_cases h with ⟨c', now, fault, call₀, call', rfl, hcall, hcalls, -, -⟩ | hoccurs
  · have hnext : t.nextCall = s.nextCall := proceed_nextCall h
    rw [hcalls] at hc
    rw [hnext]
    rcases put_eq_some.mp hc with ⟨rfl, -⟩ | ⟨-, hold⟩
    · exact hs.call_lt c call₀ hcall
    · exact hs.call_lt c call hold
  · rcases hoccurs.calls with ⟨hcalls, hnext⟩ | ⟨call', hcalls, hnext, -⟩
    · rw [hcalls] at hc
      rw [hnext]
      exact hs.call_lt c call hc
    · rw [hcalls] at hc
      rw [hnext]
      rcases put_eq_some.mp hc with ⟨rfl, -⟩ | ⟨-, hold⟩
      · exact Nat.lt_succ_self _
      · exact Nat.lt_succ_of_lt (hs.call_lt c call hold)

/-- A forgotten process stays forgotten: ids are never given out again. -/
theorem step_forgotten [Sha256] (howned : s.fleet.Owned) (h : s.step e = some t)
    (hid : id < s.fleet.nextProcess) (hnone : s.fleet.registry id = none) :
    t.fleet.registry id = none := by
  cases hm : t.fleet.registry id with
  | none => rfl
  | some m =>
    exfalso
    rcases step_fleet h with hsame | ⟨act, hact, -⟩
    · rw [hsame, hnone] at hm
      cases hm
    · rcases Fleet.step_entry howned.manned hact hm with ⟨m₀, hm₀, -⟩ | ⟨r, -, hfresh, -⟩
      · rw [hnone] at hm₀
        cases hm₀
      · rw [hfresh] at hid
        exact Nat.lt_irrefl _ hid

variable {x : Actor}

theorem step_evolves [Sha256] (howned : s.fleet.Owned) (h : s.step e = some t) {a : ActorId}
    (hx : s.fleet.actors a = some x) : ∃ y, t.fleet.actors a = some y ∧ (y = x ∨
      ∃ act, s.fleet.step act = some t.fleet ∧ s.Issues e act ∧ x.Evolves s.fleet a act y) := by
  rcases step_fleet h with hsame | ⟨act, hact, hissues⟩
  · exact ⟨x, hsame ▸ hx, .inl rfl⟩
  · obtain ⟨y, hy, hevolves⟩ := Fleet.step_evolves howned hact hx
    exact ⟨y, hy, .inr ⟨act, hact, hissues, hevolves⟩⟩

theorem Held.step_taken [Sha256] (hs : s.Held) (h : s.step e = some t) (id : ProcessId) (k : Handle)
    (hc : t.calls c = some (.closing id (some k))) : t.fleet.registry id = none ∧
      ∃ x, t.fleet.actors k.mailbox = some x ∧ x.process = id := by
  rcases closing_of_step h hc with hold | ⟨-, m, hm, hk, hfleet⟩
  · obtain ⟨hnone, x, hx, hprocess⟩ := hs.taken c id k hold
    have hid : id < s.fleet.nextProcess := hprocess ▸ hs.owned.process_lt k.mailbox x hx
    refine ⟨step_forgotten hs.owned h hid hnone, ?_⟩
    obtain ⟨y, hy, rfl | ⟨act, -, -, hevolves⟩⟩ := step_evolves hs.owned h hx
    · exact ⟨y, hy, hprocess⟩
    · exact ⟨y, hy, hevolves.process.trans hprocess⟩
  · rw [hfleet]
    exact ⟨if_pos rfl, hs.owned.handled id m k hm hk⟩

theorem Held.not_signalStop [Sha256] (hs : s.Held) (h : s.Issues e (.signalStop k)) {m : Managed}
    (hx : s.fleet.actors k.mailbox = some x) (hm : s.fleet.registry x.process = some m) :
    False := by
  cases h with
  | direct _ _ hacts => cases hacts
  | signalStop c now fault id k hc =>
    obtain ⟨hnone, y, hy, hprocess⟩ := hs.taken c id k hc
    obtain rfl : x = y := some.inj (hx.symm.trans hy)
    rw [hprocess, hnone] at hm
    cases hm

theorem Held.step_opened [Sha256] (hs : s.Held) (h : s.step e = some t) (id : ProcessId)
    (m : Managed) (k : Handle) (y : Actor) (hm : t.fleet.registry id = some m)
    (hk : m.handle = some k) (hy : t.fleet.actors k.mailbox = some y) : y.senderOpen = true := by
  rcases step_fleet h with hsame | ⟨act, hact, hissues⟩
  · rw [hsame] at hm hy
    exact hs.opened id m k y hm hk hy
  rcases Fleet.step_actor hs.owned.manned hact hy with ⟨x, hx, hevolves⟩ | ⟨r, source, -, ha, rfl⟩
  · rcases Fleet.step_entry hs.owned.manned hact hm with ⟨m₀, hm₀, hentry⟩ | ⟨r, -, -, rfl⟩
    · rcases hentry.handle hk with ⟨k₀, hk₀, hmailbox⟩ | ⟨hfresh, -⟩
      · rw [← hmailbox] at hx
        have hopen := hs.opened id m₀ k₀ x hm₀ hk₀ hx
        rcases hevolves.senderOpen with hsame | ⟨-, k', hact', hk'⟩
        · exact hsame.trans hopen
        · exfalso
          subst hact'
          obtain ⟨z, hz, hprocess⟩ := hs.owned.handled id m₀ k₀ hm₀ hk₀
          obtain rfl : x = z := some.inj (hx.symm.trans hz)
          rw [hmailbox, ← hk'] at hx
          exact hs.not_signalStop hissues hx (hprocess ▸ hm₀)
      · have hlt := hs.owned.actor_lt k.mailbox x hx
        rw [hfresh] at hlt
        exact absurd hlt (Nat.lt_irrefl _)
    · cases hk
  · rfl

theorem Held.step_reached [Sha256] (hs : s.Held) (h : s.step e = some t) (a : ActorId) (y : Actor)
    (hy : t.fleet.actors a = some y) (hlive : y.Live) (hopen : y.senderOpen = true)
    (hnone : t.fleet.registry y.process = none) :
    ∃ c join, t.calls c = some (.closing y.process (some ⟨a, join⟩)) := by
  -- a taken handle stays taken, since messaging its actor would have closed the sender
  have hkept : ∀ x c join, s.fleet.actors a = some x →
      s.calls c = some (.closing x.process (some ⟨a, join⟩)) →
      t.calls c = some (.closing x.process (some ⟨a, join⟩)) := by
    intro x c join hx hc
    rcases step_closing hs h hc with hsame | hstopped
    · exact hsame
    · have hsent : t.fleet.actors a = some (x.trySend .stop).dropSender := by
        rw [hstopped]
        exact modify_self hx
      obtain rfl := some.inj (hy.symm.trans hsent)
      cases hopen
  rcases step_fleet h with hsame | ⟨act, hact, hissues⟩
  · rw [hsame] at hy hnone
    obtain ⟨c, join, hc⟩ := hs.reached a y hy hlive hopen hnone
    exact ⟨c, join, hkept y c join hy hc⟩
  rcases Fleet.step_actor hs.owned.manned hact hy with ⟨x, hx, hevolves⟩ | ⟨r, source, rfl, -, rfl⟩
  · have hxlive := hevolves.live hlive
    rw [hevolves.process] at hnone ⊢
    cases hm : s.fleet.registry x.process with
    | none =>
      have hxopen : x.senderOpen = true := by
        rcases hevolves.senderOpen with hsame | ⟨hclosed, -⟩
        · exact hsame ▸ hopen
        · rw [hclosed] at hopen
          cases hopen
      obtain ⟨c, join, hc⟩ := hs.reached a x hx hxlive hxopen hm
      exact ⟨c, join, hkept x c join hx hc⟩
    | some m =>
      rcases Fleet.step_registered hs.owned hact hm with ⟨m', hm'⟩ | rfl | ⟨rfl, hrest⟩
      · rw [hnone] at hm'
        cases hm'
      · obtain ⟨join, hk⟩ := hs.owned.handle_of_live hx hxlive hm
        cases hissues with
        | direct _ _ hacts =>
          cases hacts with
          | close =>
            rcases close_step h with ⟨m', hm', -, hcalls⟩ | ⟨hgone, -⟩
            · obtain rfl : m = m' := some.inj (hm.symm.trans hm')
              refine ⟨s.nextCall, join, ?_⟩
              rw [hcalls, hk]
              exact put_self
            · rw [hgone] at hm
              cases hm
      · have hactive := hs.owned.active_of_live hx hxlive hm
        rw [hrest] at hactive
        cases hactive
  · obtain ⟨claim, hclaim, hfleet⟩ := map_eq_some_iff.mp hact
    obtain ⟨m₀, -, -, -, hregistry⟩ := Registry.beginLaunch_eq_some.mp hclaim
    rw [← hfleet, hregistry] at hnone
    have hput := (put_self (t := s.fleet.registry) (k := r.process)
      (x := (m₀.withStatus .starting none).withHandle ⟨s.fleet.nextActor, none⟩)).symm.trans hnone
    cases hput

theorem held_step [Sha256] (hs : s.Held) (h : s.step e = some t) : t.Held where
  owned := by
    rcases step_fleet h with hsame | ⟨act, hact, -⟩
    · rw [hsame]
      exact hs.owned
    · exact Fleet.owned_step hs.owned hact
  call_lt _ := hs.step_call_lt h
  taken _ := hs.step_taken h
  reached := hs.step_reached h
  opened := hs.step_opened h

theorem held_of_reachable [Sha256] (h : supervisorMachine.Reachable s) : s.Held := by
  refine h.invariant ?_ ?_
  · intro s hs
    rw [hs]
    exact held_init
  · intro s e t hs hstep
    exact held_step hs hstep

end Supervisor
end Soloist

/-! The states in which everything addressed to a process has been handled. -/
namespace Soloist

namespace Actor

/-- Nothing is left for the actor to do until it is messaged or its child exits. -/
def Quiet (x : Actor) : Prop :=
  x.outbox = none ∧ x.pc.pending = none ∧ ∀ mv, (∀ st, mv ≠ .childExit st) → x.move mv = none

/-- A quiet actor has ended, or waits for its child and for messages at once. -/
theorem quiet_iff {x : Actor} : x.Quiet ↔ x.outbox = none ∧ (x.pc = .done ∨
    x.pc = .selecting ∧ x.mailbox = [] ∧ x.senderOpen = true ∧ ∀ st, x.child ≠ .exited st) := by
  constructor
  · rintro ⟨hout, hpending, hmove⟩
    refine ⟨hout, ?_⟩
    have hturn : ∀ mv, (∀ st, mv ≠ .childExit st) → x.turn mv = none := by
      intro mv hmv
      have hnone := hmove mv hmv
      unfold move at hnone
      split at hnone
      · exact absurd rfl (hmv _)
      · rwa [if_pos hout] at hnone
    cases hpc : x.pc with
    | done => exact .inl rfl
    | selecting =>
      have hrecv := hturn .recv (fun st => ActorMove.noConfusion)
      have hexit := hturn .exit (fun st => ActorMove.noConfusion)
      simp only [turn, hpc] at hrecv hexit
      refine .inr ⟨rfl, ?_⟩
      split at hrecv
      · cases hrecv
      · cases hrecv
      next hbox =>
        have hopen : x.senderOpen = true := by
          by_contra hclosed
          rw [if_neg hclosed] at hrecv
          cases hrecv
        refine ⟨hbox, hopen, ?_⟩
        intro st hchild
        rw [hchild] at hexit
        cases hexit
    | launching =>
      have h := hturn .spawnTask (fun st => ActorMove.noConfusion)
      simp [turn, hpc] at h
    | scheduled =>
      have h := hturn .poll (fun st => ActorMove.noConfusion)
      simp [turn, hpc] at h
    | top =>
      have h := hturn .tryRecv (fun st => ActorMove.noConfusion)
      simp only [turn, hpc] at h
      split at h <;> cases h
    | resolving =>
      have h := hturn .spawnFailed (fun st => ActorMove.noConfusion)
      simp [turn, hpc] at h
    | reaping | cycling =>
      have h := hturn .reap (fun st => ActorMove.noConfusion)
      simp [turn, hpc] at h
    | halting | halted | failed | spawned | exiting | stopping | restarting | cycled =>
      simp [hpc, Pc.pending] at hpending
  · rintro ⟨hout, hpc | ⟨hpc, hbox, hopen, hchild⟩⟩
    · refine ⟨hout, by rw [hpc]; rfl, ?_⟩
      intro mv hmv
      cases mv with
      | childExit st => exact absurd rfl (hmv st)
      | _ => simp [move, hout, turn, hpc]
    · refine ⟨hout, by rw [hpc]; rfl, ?_⟩
      intro mv hmv
      cases mv with
      | childExit st => exact absurd rfl (hmv st)
      | exit =>
        cases hc : x.child with
        | exited st => exact absurd hc (hchild st)
        | none | live => simp [move, hout, turn, hpc, hc]
      | _ => simp [move, hout, turn, hpc, hbox, hopen]

instance decidableNotExited : ∀ child : Child, Decidable (∀ st, child ≠ .exited st)
  | .none | .live => isTrue fun _ => Child.noConfusion
  | .exited st => isFalse fun h => h st rfl

instance (x : Actor) : Decidable x.Quiet := decidable_of_iff _ quiet_iff.symm

end Actor

namespace Supervisor

structure Settled (s : Supervisor) (id : ProcessId) : Prop where
  quiet : ∀ a x, s.fleet.actors a = some x → x.process = id → x.Quiet
  told : ∀ c k, s.calls c ≠ some (.closing id (some k))

variable {s : Supervisor} {id : ProcessId}

/-- In a settled state a live actor waits on its child with an empty mailbox, and its process is
still registered. -/
theorem Settled.of_live (h : s.Settled id) (hs : s.Held) {a : ActorId} {x : Actor}
    (hx : s.fleet.actors a = some x) (hprocess : x.process = id) (hlive : x.Live) :
    x.pc = .selecting ∧ x.mailbox = [] ∧ x.senderOpen = true ∧
      ∃ m, s.fleet.registry id = some m := by
  obtain ⟨-, hdone | ⟨hpc, hbox, hopen, -⟩⟩ := Actor.quiet_iff.mp (h.quiet a x hx hprocess)
  · exact absurd hdone hlive
  · refine ⟨hpc, hbox, hopen, ?_⟩
    cases hm : s.fleet.registry id with
    | some m => exact ⟨m, rfl⟩
    | none =>
      subst hprocess
      obtain ⟨c, join, hc⟩ := hs.reached a x hx hlive hopen hm
      exact absurd hc (h.told c ⟨a, join⟩)

theorem Held.settled (hs : s.Held) (id : ProcessId)
    (hquiet : ∀ a < s.fleet.nextActor, ∀ x ∈ s.fleet.actors a, x.process = id → x.Quiet)
    (htold : ∀ c < s.nextCall, ∀ call ∈ s.calls c, ∀ p ∈ call.takenHandle, p.1 ≠ id) :
    s.Settled id where
  quiet a x hx := hquiet a (hs.owned.actor_lt a x hx) x hx
  told c k hc := htold c (hs.call_lt c _ hc) _ hc (id, k) rfl rfl

theorem Held.settled_all (hs : s.Held)
    (hquiet : ∀ a < s.fleet.nextActor, ∀ x ∈ s.fleet.actors a, x.Quiet)
    (htold : ∀ c < s.nextCall, ∀ call ∈ s.calls c, call.takenHandle = none) (id : ProcessId) :
    s.Settled id := by
  refine hs.settled id (fun a ha x hx _ => hquiet a ha x hx) ?_
  intro c hc call hcall p hp
  rw [htold c hc call hcall] at hp
  cases hp

end Supervisor
end Soloist
