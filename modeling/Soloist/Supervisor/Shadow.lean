import Soloist.Supervisor.Handles

/-! A fleet whose registry has lost handles. A quit takes the handles out of the registry one after
the other, which no other path does while a process is registered; the fleet with the handles put
back still agrees with its actors. -/
open Option

namespace Soloist

inductive Managed.Stripped : Managed → Managed → Prop
  | same (m : Managed) : Stripped m m
  | taken (m : Managed) (h : Handle) (hnone : m.handle = none) : Stripped m (m.withHandle h)

namespace Managed
variable {m m' : Managed}

variable (h : Stripped m m')
include h

theorem Stripped.status : m'.status = m.status := by
  cases h <;> rfl

theorem Stripped.withStatus (status : ProcStatus) (exitCode : Option Int) :
    Stripped (m.withStatus status exitCode) (m'.withStatus status exitCode) := by
  cases h with
  | same => exact .same _
  | taken h hnone => exact .taken (m.withStatus status exitCode) h hnone

theorem Stripped.withSpec [Sha256] (r : Registration) :
    Stripped (m.withSpec r) (m'.withSpec r) := by
  cases h with
  | same => exact .same _
  | taken h hnone => exact .taken (m.withSpec r) h hnone

/-- A new handle hides whether the old one was taken. -/
theorem Stripped.withHandle (handle : Handle) :
    m'.withHandle handle = m.withHandle handle := by
  cases h <;> rfl

theorem Stripped.of_handle {k : Handle} (hk : m.handle = some k) : m' = m := by
  cases h with
  | same => rfl
  | taken h hnone =>
    rw [hk] at hnone
    cases hnone

omit h

end Managed

/-- The second registry is the first with the taken handles put back. -/
def Registry.Stripped (g g' : Registry) : Prop :=
  ∀ id, Option.Rel Managed.Stripped (g id) (g' id)

namespace Registry
variable {g g' : Registry} {id : ProcessId} {m m' : Managed}

theorem stripped_self (g : Registry) : Stripped g g := by
  intro id
  cases g id with
  | none => exact .none
  | some m => exact .some (.same m)

variable (h : Stripped g g')
include h

theorem Stripped.of_some (hm : g id = some m) :
    ∃ m', g' id = some m' ∧ m.Stripped m' := by
  have hrel := h id
  rw [hm] at hrel
  cases hg : g' id with
  | none =>
    rw [hg] at hrel
    cases hrel
  | some m' =>
    rw [hg] at hrel
    cases hrel with
    | some hrel => exact ⟨m', rfl, hrel⟩

theorem Stripped.of_none (hm : g id = none) : g' id = none := by
  have hrel := h id
  rw [hm] at hrel
  cases hg : g' id with
  | none => exact rfl
  | some m' =>
    rw [hg] at hrel
    cases hrel

theorem Stripped.put (id : ProcessId) (hm : m.Stripped m') :
    Stripped (g.put id m) (g'.put id m') := by
  intro i
  by_cases hi : i = id
  · rw [hi, Slots.put_self, Slots.put_self]
    exact .some hm
  · rw [Slots.put_of_ne hi, Slots.put_of_ne hi]
    exact h i

theorem Stripped.erase (id : ProcessId) :
    Stripped (g.erase id) (g'.erase id) := by
  intro i
  by_cases hi : i = id
  · rw [Slots.erase, Slots.erase, if_pos hi, if_pos hi]
    exact .none
  · rw [Slots.erase, Slots.erase, if_neg hi, if_neg hi]
    exact h i

theorem Stripped.modify (id : ProcessId) {change : Managed → Managed}
    (hchange : ∀ m m', Managed.Stripped m m' → (change m).Stripped (change m')) :
    Stripped (g.modify id change) (g'.modify id change) := by
  intro i
  unfold Slots.modify
  split_ifs with hi
  · cases hg : g i with
    | none =>
      rw [h.of_none hg]
      exact .none
    | some m =>
      obtain ⟨m', hm', hstripped⟩ := h.of_some hg
      rw [hm']
      exact .some (hchange m m' hstripped)
  · exact h i

theorem Stripped.exhaustIfCrashed (id : ProcessId) :
    Stripped (g.exhaustIfCrashed id).1 (g'.exhaustIfCrashed id).1 := by
  unfold Registry.exhaustIfCrashed
  cases hm : g id with
  | none =>
    rw [h.of_none hm]
    exact h
  | some m =>
    obtain ⟨m', hm', hstripped⟩ := h.of_some hm
    simp only [hm', hstripped.status]
    cases m.status.transition .restartExhausted with
    | error e => exact h
    | ok next => exact h.put id (hstripped.withStatus next none)

omit h

end Registry

namespace Fleet
variable {f f' g : Fleet} {a : ActorId} {x y : Actor}

/-- The second fleet is the first with the taken handles put back. -/
structure Shadows (f g : Fleet) : Prop where
  actors : g.actors = f.actors
  nextProcess : g.nextProcess = f.nextProcess
  nextActor : g.nextActor = f.nextActor
  registry : f.registry.Stripped g.registry

/-- Same processes, actors and entries, whatever handles are left. -/
def Covered (f : Fleet) : Prop := ∃ g, f.Shadows g ∧ g.Owned

theorem covered_empty : Covered .empty :=
  ⟨.empty, ⟨rfl, rfl, rfl, Registry.stripped_self _⟩, owned_empty⟩

variable (h : f.Shadows g)
include h

theorem Shadows.withRegistry {registry registry' : Registry}
    (hregistry : registry.Stripped registry') :
    Shadows { f with registry } { g with registry := registry' } :=
  ⟨h.actors, h.nextProcess, h.nextActor, hregistry⟩

theorem Shadows.launchActor {r : Request} (hstep : f.launchActor r = some f') :
    ∃ g', g.launchActor r = some g' ∧ f'.Shadows g' := by
  obtain ⟨⟨source, registry⟩, hclaim, rfl⟩ := map_eq_some_iff.mp hstep
  obtain ⟨m, hm, hrest, rfl, rfl⟩ := Registry.beginLaunch_eq_some.mp hclaim
  obtain ⟨m', hm', hstripped⟩ := h.registry.of_some hm
  have hstarting := hstripped.withStatus .starting none
  have hclaim' : g.registry.beginLaunch r.process g.nextActor = some (m.status,
      g.registry.put r.process ((m.withStatus .starting none).withHandle ⟨f.nextActor, none⟩)) := by
    refine Registry.beginLaunch_eq_some.mpr ⟨m', hm', hstripped.status ▸ hrest,
      hstripped.status.symm, ?_⟩
    rw [h.nextActor, hstarting.withHandle]
  refine ⟨_, map_eq_some_iff.mpr ⟨_, hclaim', rfl⟩, ?_⟩
  constructor
  · simp only [h.actors, h.nextActor]
  · exact h.nextProcess
  · simp only [h.nextActor]
  · exact h.registry.put r.process (.same _)

theorem Shadows.send (b : ActorId) (msg : ActorMsg) :
    (f.send b msg).Shadows (g.send b msg) :=
  ⟨by simp only [Fleet.send, h.actors], h.nextProcess, h.nextActor, h.registry⟩

theorem Shadows.signal (id : ProcessId) (msg : ActorMsg) :
    (f.signal id msg).Shadows g ∨ (f.signal id msg).Shadows (g.signal id msg) := by
  cases hbox : f.mailboxOf id with
  | none =>
    left
    simp only [Fleet.signal, hbox]
    exact h
  | some b =>
    right
    obtain ⟨m, join, hm, hk⟩ := mailboxOf_eq_some.mp hbox
    obtain ⟨m', hm', hstripped⟩ := h.registry.of_some hm
    obtain rfl := hstripped.of_handle hk
    have hbox' : g.mailboxOf id = some b := mailboxOf_eq_some.mpr ⟨m', join, hm', hk⟩
    rw [signal_of_mailboxOf hbox, signal_of_mailboxOf hbox']
    exact h.send b msg

theorem Shadows.setActor (b : ActorId) (x : Actor) :
    (f.setActor b x).Shadows (g.setActor b x) :=
  ⟨by simp only [Fleet.setActor, h.actors], h.nextProcess, h.nextActor, h.registry⟩

omit h

variable {b : ActorId}

theorem Shadows.advance (h : f.Shadows g) (hstep : f.advance b = some f') :
    ∃ g', g.advance b = some g' ∧ f'.Shadows g' := by
  unfold Fleet.advance at hstep ⊢
  rw [h.actors]
  cases hx : f.actors b with
  | none =>
    rw [hx] at hstep
    cases hstep
  | some x =>
    simp only [hx] at hstep ⊢
    split_ifs at hstep ⊢ with hout
    cases hpending : x.pc.pending with
    | none =>
      rw [hpending] at hstep
      cases hstep
    | some pending =>
      obtain ⟨target, code, next⟩ := pending
      simp only [hpending] at hstep ⊢
      cases hedge : x.status.transition target with
      | error err =>
        simp only [hedge] at hstep ⊢
        cases hstep
        exact ⟨_, rfl, h.setActor b _⟩
      | ok new =>
        simp only [hedge] at hstep ⊢
        cases hstep
        refine ⟨_, rfl, (h.setActor b _).actors, h.nextProcess, h.nextActor, ?_⟩
        exact h.registry.modify x.process fun m m' hm => hm.withStatus new code

theorem Shadows.publish {event : DomainEvent} (h : f.Shadows g)
    (hstep : f.publish b = some (event, f')) :
    ∃ g', g.publish b = some (event, g') ∧ f'.Shadows g' := by
  obtain ⟨x, hx, hout, rfl⟩ := publish_eq_some.mp hstep
  exact ⟨_, publish_eq_some.mpr ⟨x, h.actors ▸ hx, hout, rfl⟩, h.setActor b _⟩

theorem Shadows.move {mv : ActorMove} (h : f.Shadows g) (hstep : f.move b mv = some f') :
    ∃ g', g.move b mv = some g' ∧ f'.Shadows g' := by
  obtain ⟨x, x', hx, hmove, rfl⟩ := move_eq_some.mp hstep
  refine ⟨_, move_eq_some.mpr ⟨x, x', h.actors ▸ hx, hmove, rfl⟩, ?_⟩
  exact ⟨(h.setActor b x').actors, h.nextProcess, h.nextActor, h.registry⟩

/-- The only actors whose handle was taken are those whose task is attached. -/
def TakenAttached (f : Fleet) : Prop :=
  ∀ a x m, f.actors a = some x → x.Live → f.registry x.process = some m → m.handle = none →
    x.attached = true

/-- An attach finds the handle it would have found, or its process is gone: a handle is taken once
the task of its actor is attached. -/
theorem Shadows.attachJoin (h : f.Shadows g) (hg : g.Owned) (htaken : f.TakenAttached)
    (hstep : f.attachJoin b = some f') : ∃ g', f'.Shadows g' ∧ g'.Owned := by
  obtain ⟨x, hx⟩ : ∃ x, f.actors b = some x := by
    obtain ⟨x, -, -, hx, -⟩ := attachJoin_eq_some hstep
    exact ⟨x, hx⟩
  have hx' : g.actors b = some x := h.actors ▸ hx
  unfold Fleet.attachJoin at hstep
  simp only [hx] at hstep
  by_cases hready : x.attached = true ∨ x.pc = .launching
  · rw [if_pos hready] at hstep
    cases hstep
  rw [if_neg hready] at hstep
  -- what the attach does when the other registry is asked
  have hask : ∀ registry, g.registry.attachJoin x.process b = some registry →
      g.attachJoin b = some { g.setActor b { x with attached := true } with registry } := by
    intro registry hregistry
    unfold Fleet.attachJoin
    simp only [hx', if_neg hready, hregistry]
  cases hattach : f.registry.attachJoin x.process b with
  | some registry =>
    rw [hattach] at hstep
    cases hstep
    obtain ⟨m, k, hm, hk, rfl⟩ := Registry.attachJoin_eq_some.mp hattach
    obtain ⟨m', hm', hstripped⟩ := h.registry.of_some hm
    obtain rfl := hstripped.of_handle hk
    have hgstep := hask _ (Registry.attachJoin_eq_some.mpr ⟨m', k, hm', hk, rfl⟩)
    refine ⟨_, ?_, hg.attachJoin hgstep⟩
    exact ⟨(h.setActor b _).actors, h.nextProcess, h.nextActor,
      h.registry.put x.process (.same _)⟩
  | none =>
    rw [hattach] at hstep
    cases hstep
    cases hm : f.registry x.process with
    | none =>
      have hgattach : g.registry.attachJoin x.process b = none := by
        rw [Registry.attachJoin, h.registry.of_none hm]
      have hgstep : g.attachJoin b = some (g.setActor b
          { x with attached := true, pc := if x.pc = .scheduled then .done else x.pc }) := by
        unfold Fleet.attachJoin
        simp only [hx', if_neg hready, hgattach]
      exact ⟨_, h.setActor b _, hg.attachJoin hgstep⟩
    | some m =>
      -- the handle was taken, so this actor's task has ended
      have hnone : m.handle = none := by
        unfold Registry.attachJoin at hattach
        rw [hm] at hattach
        exact map_eq_none_iff.mp hattach
      have hended : ¬ x.Live := fun hlive => hready (.inl (htaken b x m hx hlive hm hnone))
      have hpc : (if x.pc = .scheduled then .done else x.pc) = x.pc := by
        refine if_neg fun hscheduled => hended ?_
        rw [Actor.Live, hscheduled]
        exact Pc.noConfusion
      rw [hpc]
      have halike : x.Alike { x with attached := true } := .of_pc rfl rfl rfl rfl (.inl rfl)
      exact ⟨_, h.setActor b _, hg.of_alike hx' halike rfl rfl rfl rfl⟩

theorem Covered.step [Sha256] {act : FleetAct} (h : f.Covered) (htaken : f.TakenAttached)
    (hstep : f.step act = some f') : f'.Covered := by
  obtain ⟨g, h, hg⟩ := h
  cases act with
  | register r =>
    cases hstep
    refine ⟨g.register r, ⟨h.actors, ?_, h.nextActor, ?_⟩, hg.register r⟩
    · simp only [Fleet.register, h.nextProcess]
    · simp only [Fleet.register, Registry.add, h.nextProcess]
      exact h.registry.put f.nextProcess (.same _)
  | updateCommandSpec id r =>
    cases hstep
    have hregistry := h.registry.modify id fun m m' hm => hm.withSpec r
    exact ⟨_, h.withRegistry hregistry,
      owned_step hg (show g.step (.updateCommandSpec id r) = some _ from rfl)⟩
  | removeIfResting id =>
    cases hstep
    rcases f.registry.removeIfResting_cases id with he | ⟨m, -, -, he⟩
    · rw [he]
      exact ⟨g, h, hg⟩
    · rw [he]
      exact ⟨_, h.withRegistry (h.registry.erase id), hg.erase id⟩
  | removeReturningHandle id =>
    obtain ⟨⟨registry, k⟩, hremoved, rfl⟩ := map_eq_some_iff.mp hstep
    obtain ⟨m, -, rfl, -⟩ := Registry.removeReturningHandle_eq_some.mp hremoved
    exact ⟨_, h.withRegistry (h.registry.erase id), hg.erase id⟩
  | exhaust id =>
    cases hstep
    exact ⟨_, h.withRegistry (h.registry.exhaustIfCrashed id), hg.exhaust id⟩
  | launch r =>
    obtain ⟨g', hgstep, hshadows⟩ := h.launchActor hstep
    exact ⟨g', hshadows, hg.launchActor hgstep⟩
  | restart r =>
    cases hstep
    rcases h.signal r.process (.restart r) with hshadows | hshadows
    · exact ⟨g, ⟨hshadows.actors, hshadows.nextProcess, hshadows.nextActor, hshadows.registry⟩, hg⟩
    · exact ⟨_, ⟨hshadows.actors, hshadows.nextProcess, hshadows.nextActor, hshadows.registry⟩,
        hg.signal r.process (.restart r)⟩
  | stop id =>
    cases hstep
    rcases h.signal id .stop with hshadows | hshadows
    · exact ⟨g, hshadows, hg⟩
    · exact ⟨_, hshadows, hg.signal id .stop⟩
  | signalStop k =>
    cases hstep
    refine ⟨g.signalStop k, ⟨?_, h.nextProcess, h.nextActor, h.registry⟩,
      owned_step hg (show g.step (.signalStop k) = some _ from rfl)⟩
    simp only [Fleet.signalStop, h.actors]
  | attachJoin b => exact h.attachJoin hg htaken hstep
  | advance b =>
    obtain ⟨g', hgstep, hshadows⟩ := h.advance hstep
    exact ⟨g', hshadows, hg.advance hgstep⟩
  | publish b =>
    obtain ⟨⟨event, f₁⟩, hpublish, rfl⟩ := map_eq_some_iff.mp hstep
    obtain ⟨g', hgstep, hshadows⟩ := h.publish hpublish
    have hact : g.step (.publish b) = some g' := map_eq_some_iff.mpr ⟨_, hgstep, rfl⟩
    exact ⟨g', hshadows, owned_step hg hact⟩
  | move b mv =>
    obtain ⟨g', hgstep, hshadows⟩ := h.move hstep
    have hact : g.step (.move b mv) = some g' := hgstep
    exact ⟨g', hshadows, owned_step hg hact⟩

theorem Covered.actor_lt (h : f.Covered) (hx : f.actors a = some x) : a < f.nextActor := by
  obtain ⟨g, hshadows, hg⟩ := h
  rw [← hshadows.nextActor]
  exact hg.actor_lt a x (hshadows.actors ▸ hx)

theorem Covered.process_lt (h : f.Covered) (hx : f.actors a = some x) :
    x.process < f.nextProcess := by
  obtain ⟨g, hshadows, hg⟩ := h
  rw [← hshadows.nextProcess]
  exact hg.process_lt a x (hshadows.actors ▸ hx)

variable {m : Managed}

variable {id : ProcessId}

theorem Covered.entry_lt (h : f.Covered) (hm : f.registry id = some m) : id < f.nextProcess := by
  obtain ⟨g, hshadows, hg⟩ := h
  obtain ⟨m', hm', -⟩ := hshadows.registry.of_some hm
  rw [← hshadows.nextProcess]
  exact hg.entry_lt id m' hm'

theorem Covered.handled (h : f.Covered) {k : Handle} (hm : f.registry id = some m)
    (hk : m.handle = some k) : ∃ x, f.actors k.mailbox = some x ∧ x.process = id := by
  obtain ⟨g, hshadows, hg⟩ := h
  obtain ⟨m', hm', hstripped⟩ := hshadows.registry.of_some hm
  obtain rfl := hstripped.of_handle hk
  rw [← hshadows.actors]
  exact hg.handled id m' k hm' hk

theorem Covered.active_of_live (h : f.Covered) (hx : f.actors a = some x) (hlive : x.Live)
    (hm : f.registry x.process = some m) : m.status.isActive = true := by
  obtain ⟨g, hshadows, hg⟩ := h
  obtain ⟨m', hm', hstripped⟩ := hshadows.registry.of_some hm
  rw [← hstripped.status]
  exact hg.active_of_live (hshadows.actors ▸ hx) hlive hm'

theorem Covered.live_of_child (h : f.Covered) (hx : f.actors a = some x) (hchild : x.child ≠ .none) :
    x.Live := by
  obtain ⟨g, hshadows, hg⟩ := h
  intro hdone
  have hholds := (hg.sound a x (hshadows.actors ▸ hx)).child hchild
  rw [hdone] at hholds
  cases hholds

end Fleet
end Soloist
