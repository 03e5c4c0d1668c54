import Soloist.Supervisor.Calls

/-! The registry and its actors agree: an active entry has one owning actor, which mirrors its
status, and every transition an actor makes is a legal edge from the registry's status. -/
open Option Slots

namespace Soloist

theorem classifyExit_target (st : ExitStatus) :
    (classifyExit st).1 = .stopped ∨ (classifyExit st).1 = .crashed := by
  unfold classifyExit
  by_cases h : st.success = true
  · rw [if_pos h]
    exact .inl rfl
  · rw [if_neg h]
    exact .inr rfl

namespace Pc

variable {pc : Pc}

theorem mirror_active (h : pc ≠ .done) : pc.mirror.isActive = true := by
  cases pc <;> first | rfl | exact absurd rfl h

/-- A pending transition is a legal edge from the mirror, and it ends the actor exactly when its
target is at rest. -/
theorem pending_spec {next : Pc} {target : ProcStatus} {code : Option Int}
    (h : pc.pending = some (target, code, next)) :
    pc ≠ .done ∧ pc.mirror.allowed target = true ∧ (next ≠ .done → target = next.mirror) ∧
      (next = .done → target.isActive = false) ∧ next.holdsChild = pc.holdsChild := by
  cases pc with
  | exiting st =>
    cases h
    have hrest := classifyExit_target st
    refine ⟨Pc.noConfusion, ?_, fun hne => absurd rfl hne, fun _ => ?_, rfl⟩
    · rcases hrest with hrest | hrest <;> rw [hrest] <;> rfl
    · rcases hrest with hrest | hrest <;> rw [hrest] <;> rfl
  | halting | halted | failed | spawned | stopping | restarting | cycled =>
    cases h
    decide
  | launching | scheduled | top | resolving | selecting | reaping | cycling | done => cases h

end Pc

namespace Actor

/-- The actor's task, or the launcher that will spawn it, has not ended. -/
def Live (x : Actor) : Prop := x.pc ≠ .done

instance (x : Actor) : Decidable x.Live := inferInstanceAs (Decidable (_ ≠ _))

/-- What an actor keeps about itself. -/
structure Sound (x : Actor) : Prop where
  mirror : x.Live → x.status = x.pc.mirror
  child : x.child ≠ .none → x.pc.holdsChild = true
  legal : ∀ id source target code,
    x.outbox = some (.processStatusChanged id source target code) → source.allowed target = true

/-- An update that leaves what the registry is compared with. -/
structure Alike (x x' : Actor) : Prop where
  process : x'.process = x.process
  status : x'.status = x.status
  live : x'.Live ↔ x.Live
  sound : x.Sound → x'.Sound

variable {x x' : Actor} {mv : ActorMove}

theorem Alike.of_pc (hprocess : x'.process = x.process) (hstatus : x'.status = x.status)
    (hpc : x'.pc = x.pc) (hchild : x'.child = x.child)
    (hout : x'.outbox = x.outbox ∨ x'.outbox = none) : x.Alike x' where
  process := hprocess
  status := hstatus
  live := by rw [Live, Live, hpc]
  sound h := by
    constructor
    · intro hlive
      rw [Live, hpc] at hlive
      rw [hstatus, hpc]
      exact h.mirror hlive
    · rw [hchild, hpc]
      exact h.child
    · intro id source target code he
      rcases hout with hout | hout
      · exact h.legal id source target code (hout ▸ he)
      · rw [hout] at he
        cases he

theorem Alike.trans {y : Actor} (h : x.Alike x') (h' : x'.Alike y) : x.Alike y where
  process := h'.process.trans h.process
  status := h'.status.trans h.status
  live := h'.live.trans h.live
  sound := h'.sound ∘ h.sound

theorem alike_trySend (x : Actor) (msg : ActorMsg) : x.Alike (x.trySend msg) := by
  unfold trySend
  split_ifs
  · exact .of_pc rfl rfl rfl rfl (.inl rfl)
  · exact .of_pc rfl rfl rfl rfl (.inl rfl)

theorem alike_dropSender (x : Actor) : x.Alike x.dropSender :=
  .of_pc rfl rfl rfl rfl (.inl rfl)

theorem Alike.of_move (pc : Pc) (hpc : x.pc ≠ .done) (hpc' : pc ≠ .done)
    (hmirror : pc.mirror = x.pc.mirror) (hx : x'.pc = pc) (hprocess : x'.process = x.process)
    (hstatus : x'.status = x.status) (hout : x'.outbox = x.outbox)
    (hchild : (x.child ≠ .none → x.pc.holdsChild = true) →
      x'.child ≠ .none → pc.holdsChild = true) : x.Alike x' where
  process := hprocess
  status := hstatus
  live := by
    rw [Live, Live, hx]
    exact iff_of_true hpc' hpc
  sound h := by
    constructor
    · intro _
      rw [hstatus, hx, hmirror]
      exact h.mirror hpc
    · rw [hx]
      exact hchild h.child
    · rw [hout]
      exact h.legal

/-- No step of the task or of the child changes what the registry is compared with. -/
theorem alike_move (h : x.move mv = some x') : x.Alike x' := by
  cases move_cases h with
  | childExit st hlive =>
    refine ⟨rfl, rfl, Iff.rfl, fun hs => ⟨hs.mirror, fun _ => hs.child ?_, hs.legal⟩⟩
    rw [hlive]
    exact Child.noConfusion
  | drained hout hpc hbox =>
    cases hopen : x.senderOpen with
    | true =>
      refine .of_move .resolving ?_ Pc.noConfusion ?_ rfl rfl rfl rfl ?_
      all_goals simp [hpc, Pc.mirror, Pc.holdsChild]
    | false =>
      refine .of_move .halting ?_ Pc.noConfusion ?_ rfl rfl rfl rfl ?_
      all_goals simp [hpc, Pc.mirror, Pc.holdsChild]
  | drainRestart r rest hout hpc hbox => exact .of_pc rfl rfl rfl rfl (.inl rfl)
  | spawnTask hout hpc | poll hout hpc | drainStop rest hout hpc hbox | spawn captured hout hpc
  | spawnFailed hout hpc | exit st hout hpc hchild | recvRestart r rest hout hpc hbox
  | recvStop rest hout hpc hbox | disconnected hout hpc hbox hopen | reap hout hpc
  | cycle hout hpc =>
    refine .of_move _ ?_ ?_ ?_ rfl rfl rfl rfl ?_
    all_goals simp [hpc, Pc.mirror, Pc.holdsChild]

/-- A transition an actor makes is never refused, and keeps the actor sound. -/
theorem Sound.advance (h : x.Sound) {target : ProcStatus} {code : Option Int} {next : Pc}
    (hpending : x.pc.pending = some (target, code, next)) :
    x.status.transition target = .ok target ∧
      Sound { x with
        pc := next
        status := target
        outbox := some (.processStatusChanged x.process x.status target code) } := by
  obtain ⟨hlive, hallowed, hnext, -, hholds⟩ := Pc.pending_spec hpending
  have hmirror : x.status = x.pc.mirror := h.mirror hlive
  rw [← hmirror] at hallowed
  refine ⟨ProcStatus.transition_of_allowed hallowed, hnext, ?_, ?_⟩
  · intro hchild
    exact hholds.trans (h.child hchild)
  · intro id source target' code' he
    cases he
    exact hallowed

end Actor

namespace Fleet

structure Owned (f : Fleet) : Prop where
  actor_lt : ∀ a x, f.actors a = some x → a < f.nextActor
  entry_lt : ∀ id m, f.registry id = some m → id < f.nextProcess
  process_lt : ∀ a x, f.actors a = some x → x.process < f.nextProcess
  sound : ∀ a x, f.actors a = some x → x.Sound
  unique : ∀ a b x y, f.actors a = some x → f.actors b = some y → x.Live → y.Live →
    x.process = y.process → a = b
  /-- A handle always reaches an actor of its own process. -/
  handled : ∀ id m h, f.registry id = some m → m.handle = some h →
    ∃ x, f.actors h.mailbox = some x ∧ x.process = id
  owner : ∀ id m, f.registry id = some m → m.status.isActive = true →
    ∃ h x, m.handle = some h ∧ f.actors h.mailbox = some x ∧ x.Live
  agrees : ∀ a x m, f.actors a = some x → x.Live → f.registry x.process = some m →
    m.status = x.status

/-- What a step of an actor or of an entry rests on. -/
structure Manned (f : Fleet) : Prop where
  sound : ∀ a x, f.actors a = some x → x.Sound
  handled : ∀ id m h, f.registry id = some m → m.handle = some h →
    ∃ x, f.actors h.mailbox = some x ∧ x.process = id

theorem Owned.manned {f : Fleet} (h : f.Owned) : f.Manned := ⟨h.sound, h.handled⟩

theorem owned_empty : Owned .empty := by
  constructor <;> simp [empty]

variable {f g : Fleet}

variable {a : ActorId} {x : Actor}

variable {m : Managed}

theorem Owned.active_of_live (h : f.Owned) (hx : f.actors a = some x) (hlive : x.Live)
    (hm : f.registry x.process = some m) : m.status.isActive = true := by
  rw [h.agrees a x m hx hlive hm, (h.sound a x hx).mirror hlive]
  exact Pc.mirror_active hlive

theorem Owned.handle_of_live (h : f.Owned) (hx : f.actors a = some x) (hlive : x.Live)
    (hm : f.registry x.process = some m) : ∃ join, m.handle = some ⟨a, join⟩ := by
  obtain ⟨k, y, hk, hy, hylive⟩ := h.owner x.process m hm (h.active_of_live hx hlive hm)
  obtain ⟨z, hz, hprocess⟩ := h.handled x.process m k hm hk
  obtain rfl : y = z := some.inj (hy.symm.trans hz)
  have hka : k.mailbox = a := h.unique k.mailbox a y x hy hx hylive hlive hprocess
  exact ⟨k.join, by rw [hk, ← hka]⟩

theorem Owned.of_registry (h : f.Owned) (hactors : g.actors = f.actors)
    (hnextActor : g.nextActor = f.nextActor) (hnextProcess : f.nextProcess ≤ g.nextProcess)
    (hentries : ∀ id m', g.registry id = some m' → (m'.status.isActive = false ∧ m'.handle = none ∧
        f.nextProcess ≤ id ∧ id < g.nextProcess) ∨
      ∃ m, f.registry id = some m ∧
        m'.handle.map Handle.mailbox = m.handle.map Handle.mailbox ∧
        (m'.status = m.status ∨ m'.status.isActive = false ∧ m.status.isActive = false)) :
    g.Owned := by
  constructor
  · rw [hactors, hnextActor]
    exact h.actor_lt
  · intro id m' hm'
    rcases hentries id m' hm' with ⟨-, -, -, hlt⟩ | ⟨m, hm, -⟩
    · exact hlt
    · exact Nat.lt_of_lt_of_le (h.entry_lt id m hm) hnextProcess
  · intro a x hx
    rw [hactors] at hx
    exact Nat.lt_of_lt_of_le (h.process_lt a x hx) hnextProcess
  · rw [hactors]
    exact h.sound
  · rw [hactors]
    exact h.unique
  · intro id m' k hm' hk
    rw [hactors]
    rcases hentries id m' hm' with ⟨-, hnone, -⟩ | ⟨m, hm, hhandle, -⟩
    · rw [hnone] at hk
      cases hk
    · rw [hk, map_some] at hhandle
      obtain ⟨k', hk', hmailbox⟩ := map_eq_some_iff.mp hhandle.symm
      rw [← hmailbox]
      exact h.handled id m k' hm hk'
  · intro id m' hm' hactive
    rw [hactors]
    rcases hentries id m' hm' with ⟨hrest, -⟩ | ⟨m, hm, hhandle, hstatus | ⟨hrest, -⟩⟩
    · rw [hrest] at hactive
      cases hactive
    · obtain ⟨k, x, hk, hx, hlive⟩ := h.owner id m hm (hstatus ▸ hactive)
      rw [hk, map_some] at hhandle
      obtain ⟨k', hk', hmailbox⟩ := map_eq_some_iff.mp hhandle
      exact ⟨k', x, hk', hmailbox ▸ hx, hlive⟩
    · rw [hrest] at hactive
      cases hactive
  · intro a x m' hx hlive hm'
    rw [hactors] at hx
    rcases hentries x.process m' hm' with ⟨-, -, hge, -⟩ | ⟨m, hm, -, hstatus | ⟨-, hrest⟩⟩
    · exact absurd (h.process_lt a x hx) (Nat.not_lt.mpr hge)
    · rw [hstatus]
      exact h.agrees a x m hx hlive hm
    · rw [h.active_of_live hx hlive hm] at hrest
      cases hrest

variable {x' : Actor}

variable (h : f.Owned)
include h

/-- An actor replaced by one the registry cannot tell apart. -/
theorem Owned.of_alike (hx : f.actors a = some x) (halike : x.Alike x')
    (hactors : g.actors = f.actors.put a x') (hregistry : g.registry = f.registry)
    (hnextActor : g.nextActor = f.nextActor) (hnextProcess : g.nextProcess = f.nextProcess) :
    g.Owned := by
  have hback : ∀ b y, g.actors b = some y →
      ∃ z, f.actors b = some z ∧ z.Alike y := by
    intro b y hy
    rw [hactors, put_eq_some] at hy
    rcases hy with ⟨rfl, rfl⟩ | ⟨-, hy⟩
    · exact ⟨x, hx, halike⟩
    · exact ⟨y, hy, .of_pc rfl rfl rfl rfl (.inl rfl)⟩
  have hforth : ∀ b z, f.actors b = some z →
      ∃ y, g.actors b = some y ∧ z.Alike y := by
    intro b z hz
    rw [hactors]
    by_cases hb : b = a
    · subst hb
      obtain rfl : x = z := some.inj (hx.symm.trans hz)
      exact ⟨x', put_self, halike⟩
    · exact ⟨z, (put_of_ne hb).trans hz, .of_pc rfl rfl rfl rfl (.inl rfl)⟩
  constructor
  · intro b y hy
    obtain ⟨z, hz, -⟩ := hback b y hy
    rw [hnextActor]
    exact h.actor_lt b z hz
  · rw [hregistry, hnextProcess]
    exact h.entry_lt
  · intro b y hy
    obtain ⟨z, hz, hzy⟩ := hback b y hy
    rw [hnextProcess, hzy.process]
    exact h.process_lt b z hz
  · intro b y hy
    obtain ⟨z, hz, hzy⟩ := hback b y hy
    exact hzy.sound (h.sound b z hz)
  · intro b c y z hy hz hylive hzlive hprocess
    obtain ⟨y₀, hy₀, hyy⟩ := hback b y hy
    obtain ⟨z₀, hz₀, hzz⟩ := hback c z hz
    rw [hyy.process, hzz.process] at hprocess
    exact h.unique b c y₀ z₀ hy₀ hz₀ (hyy.live.mp hylive) (hzz.live.mp hzlive) hprocess
  · intro id m k hm hk
    rw [hregistry] at hm
    obtain ⟨z, hz, hprocess⟩ := h.handled id m k hm hk
    obtain ⟨y, hy, hzy⟩ := hforth k.mailbox z hz
    exact ⟨y, hy, hzy.process.trans hprocess⟩
  · intro id m hm hactive
    rw [hregistry] at hm
    obtain ⟨k, z, hk, hz, hlive⟩ := h.owner id m hm hactive
    obtain ⟨y, hy, hzy⟩ := hforth k.mailbox z hz
    exact ⟨k, y, hk, hy, hzy.live.mpr hlive⟩
  · intro b y m hy hlive hm
    obtain ⟨z, hz, hzy⟩ := hback b y hy
    rw [hregistry, hzy.process] at hm
    rw [hzy.status]
    exact h.agrees b z m hz (hzy.live.mp hlive) hm

theorem Owned.register [Sha256] (r : Registration) : (f.register r).Owned := by
  refine h.of_registry rfl rfl (Nat.le_succ _) ?_
  intro id m' hm'
  rcases put_eq_some.mp hm' with ⟨rfl, rfl⟩ | ⟨-, hm⟩
  · exact .inl ⟨rfl, rfl, Nat.le_refl _, Nat.lt_succ_self _⟩
  · exact .inr ⟨m', hm, rfl, .inl rfl⟩

theorem Owned.updateCommandSpec [Sha256] (id : ProcessId) (r : Registration) :
    Owned { f with registry := (f.registry.updateCommandSpec id r).1 } := by
  refine h.of_registry rfl rfl (Nat.le_refl _) ?_
  intro i m' hm'
  obtain ⟨m, hm, rfl⟩ := modify_eq_some.mp hm'
  refine .inr ⟨m, hm, ?_, .inl ?_⟩ <;> split_ifs <;> rfl

theorem Owned.erase (id : ProcessId) :
    Owned { f with registry := f.registry.erase id } := by
  refine h.of_registry rfl rfl (Nat.le_refl _) ?_
  intro i m hm
  exact .inr ⟨m, (erase_eq_some.mp hm).2, rfl, .inl rfl⟩

theorem Owned.exhaust (id : ProcessId) :
    Owned { f with registry := (f.registry.exhaustIfCrashed id).1 } := by
  rcases f.registry.exhaustIfCrashed_cases id with he | ⟨m, hm, hcrashed, he⟩
  · rw [he]
    exact h
  · rw [he]
    refine h.of_registry rfl rfl (Nat.le_refl _) ?_
    intro i m' hm'
    rcases put_eq_some.mp hm' with ⟨rfl, rfl⟩ | ⟨-, hm'⟩
    · refine .inr ⟨m, hm, rfl, .inr ⟨rfl, ?_⟩⟩
      rw [hcrashed]
      rfl
    · exact .inr ⟨m', hm', rfl, .inl rfl⟩

theorem Owned.launchActor {r : Request} (hg : f.launchActor r = some g) :
    g.Owned := by
  unfold Fleet.launchActor at hg
  obtain ⟨⟨source, registry⟩, hclaim, rfl⟩ := map_eq_some_iff.mp hg
  obtain ⟨m, hm, hrest, rfl, rfl⟩ := Registry.beginLaunch_eq_some.mp hclaim
  have hfresh : f.actors f.nextActor = none := by
    cases hx : f.actors f.nextActor with
    | none => rfl
    | some x => exact absurd (h.actor_lt _ x hx) (Nat.lt_irrefl _)
  have hnone : ∀ a x, f.actors a = some x → x.Live → x.process ≠ r.process := by
    intro a x hx hlive hprocess
    have hactive := h.active_of_live hx hlive (hprocess ▸ hm)
    rw [hrest] at hactive
    cases hactive
  have hold : ∀ a x, f.actors a = some x → a ≠ f.nextActor := by
    intro a x hx ha
    rw [ha, hfresh] at hx
    cases hx
  constructor
  · intro a x hx
    rcases put_eq_some.mp hx with ⟨rfl, -⟩ | ⟨-, hx⟩
    · exact Nat.lt_succ_self _
    · exact Nat.lt_succ_of_lt (h.actor_lt a x hx)
  · intro id m' hm'
    rcases put_eq_some.mp hm' with ⟨rfl, -⟩ | ⟨-, hm'⟩
    · exact h.entry_lt _ m hm
    · exact h.entry_lt id m' hm'
  · intro a x hx
    rcases put_eq_some.mp hx with ⟨-, rfl⟩ | ⟨-, hx⟩
    · exact h.entry_lt _ m hm
    · exact h.process_lt a x hx
  · intro a x hx
    rcases put_eq_some.mp hx with ⟨-, rfl⟩ | ⟨-, hx⟩
    · refine ⟨fun _ => rfl, fun hchild => absurd rfl hchild, ?_⟩
      intro id source target code he
      cases he
      exact ProcStatus.allowed_starting.mpr (.inl hrest)
    · exact h.sound a x hx
  · intro a b x y hx hy hxlive hylive hprocess
    rcases put_eq_some.mp hx with ⟨rfl, rfl⟩ | ⟨-, hx⟩ <;>
      rcases put_eq_some.mp hy with ⟨rfl, rfl⟩ | ⟨-, hy⟩
    · rfl
    · exact absurd hprocess.symm (hnone b y hy hylive)
    · exact absurd hprocess (hnone a x hx hxlive)
    · exact h.unique a b x y hx hy hxlive hylive hprocess
  · intro id m' k hm' hk
    rcases put_eq_some.mp hm' with ⟨rfl, rfl⟩ | ⟨-, hm'⟩
    · cases hk
      exact ⟨_, put_self, rfl⟩
    · obtain ⟨x, hx, hprocess⟩ := h.handled id m' k hm' hk
      exact ⟨x, (put_of_ne (hold _ x hx)).trans hx, hprocess⟩
  · intro id m' hm' hactive
    rcases put_eq_some.mp hm' with ⟨rfl, rfl⟩ | ⟨-, hm'⟩
    · exact ⟨_, _, rfl, put_self, Pc.noConfusion⟩
    · obtain ⟨k, x, hk, hx, hlive⟩ := h.owner id m' hm' hactive
      exact ⟨k, x, hk, (put_of_ne (hold _ x hx)).trans hx, hlive⟩
  · intro a x m' hx hlive hm'
    rcases put_eq_some.mp hx with ⟨rfl, rfl⟩ | ⟨-, hx⟩
    · rcases put_eq_some.mp hm' with ⟨-, rfl⟩ | ⟨hne, -⟩
      · rfl
      · exact absurd rfl hne
    · rcases put_eq_some.mp hm' with ⟨hprocess, -⟩ | ⟨-, hm'⟩
      · exact absurd hprocess (hnone a x hx hlive)
      · exact h.agrees a x m' hx hlive hm'

theorem Owned.modify (a : ActorId) {change : Actor → Actor}
    (halike : ∀ x : Actor, x.Alike (change x)) :
    Owned { f with actors := f.actors.modify a change } := by
  cases hx : f.actors a with
  | none =>
    have hsame : f.actors.modify a change = f.actors := by
      funext i
      by_cases hi : i = a
      · subst hi
        simp [Slots.modify, hx]
      · exact modify_of_ne hi
    rw [hsame]
    exact h
  | some x =>
    refine h.of_alike hx (halike x) ?_ rfl rfl rfl
    funext i
    by_cases hi : i = a
    · subst hi
      simp [Slots.modify, hx]
    · rw [put_of_ne hi]
      exact modify_of_ne hi

theorem Owned.signal (id : ProcessId) (msg : ActorMsg) :
    (f.signal id msg).Owned := by
  unfold Fleet.signal
  cases f.mailboxOf id with
  | none => exact h
  | some a => exact h.modify a fun x => x.alike_trySend msg

/-- A live actor makes a transition: the registry takes its new status, and the actor ends exactly
when that status is at rest. -/
theorem Owned.of_advance {new : ProcStatus} {code : Option Int}
    (hx : f.actors a = some x) (hlive : x.Live) (hactors : g.actors = f.actors.put a x')
    (hprocess : x'.process = x.process) (hsound : x'.Sound) (hstatus : x'.Live → x'.status = new)
    (hactive : new.isActive = true ↔ x'.Live)
    (hregistry : g.registry = f.registry.setStatus x.process new code)
    (hnextActor : g.nextActor = f.nextActor) (hnextProcess : g.nextProcess = f.nextProcess) :
    g.Owned := by
  have hback : ∀ id m', g.registry id = some m' → ∃ m, f.registry id = some m ∧
      (if id = x.process then m.withStatus new code else m) = m' := by
    intro id m' hm'
    rw [hregistry] at hm'
    exact modify_eq_some.mp hm'
  constructor
  · intro b y hy
    rw [hactors] at hy
    rw [hnextActor]
    rcases put_eq_some.mp hy with ⟨rfl, -⟩ | ⟨-, hy⟩
    · exact h.actor_lt b x hx
    · exact h.actor_lt b y hy
  · intro id m' hm'
    obtain ⟨m, hm, -⟩ := hback id m' hm'
    rw [hnextProcess]
    exact h.entry_lt id m hm
  · intro b y hy
    rw [hactors] at hy
    rw [hnextProcess]
    rcases put_eq_some.mp hy with ⟨-, rfl⟩ | ⟨-, hy⟩
    · rw [hprocess]
      exact h.process_lt a x hx
    · exact h.process_lt b y hy
  · intro b y hy
    rw [hactors] at hy
    rcases put_eq_some.mp hy with ⟨-, rfl⟩ | ⟨-, hy⟩
    · exact hsound
    · exact h.sound b y hy
  · intro b c y z hy hz hylive hzlive hsame
    rw [hactors] at hy hz
    rcases put_eq_some.mp hy with ⟨rfl, rfl⟩ | ⟨-, hold⟩ <;>
      rcases put_eq_some.mp hz with ⟨rfl, rfl⟩ | ⟨-, hother⟩
    · rfl
    · exact h.unique b c x z hx hother hlive hzlive (hprocess.symm.trans hsame)
    · exact h.unique b c y x hold hx hylive hlive (hsame.trans hprocess)
    · exact h.unique b c y z hold hother hylive hzlive hsame
  · intro id m' k hm' hk
    obtain ⟨m, hm, rfl⟩ := hback id m' hm'
    have hk : m.handle = some k := by
      split_ifs at hk <;> exact hk
    obtain ⟨y, hy, hyprocess⟩ := h.handled id m k hm hk
    rw [hactors]
    by_cases hka : k.mailbox = a
    · rw [hka] at hy ⊢
      obtain rfl : x = y := some.inj (hx.symm.trans hy)
      exact ⟨x', put_self, hprocess.trans hyprocess⟩
    · exact ⟨y, (put_of_ne hka).trans hy, hyprocess⟩
  · intro id m' hm' hm'active
    obtain ⟨m, hm, rfl⟩ := hback id m' hm'
    rw [hactors]
    by_cases hid : id = x.process
    · rw [if_pos hid] at hm'active ⊢
      obtain ⟨join, hhandle⟩ := h.handle_of_live hx hlive (hid ▸ hm)
      exact ⟨⟨a, join⟩, x', hhandle, put_self, hactive.mp hm'active⟩
    · rw [if_neg hid] at hm'active ⊢
      obtain ⟨k, y, hk, hy, hylive⟩ := h.owner id m hm hm'active
      have hka : k.mailbox ≠ a := by
        intro hka
        obtain ⟨z, hz, hzprocess⟩ := h.handled id m k hm hk
        rw [hka, hx] at hz
        cases hz
        exact hid hzprocess.symm
      exact ⟨k, y, hk, (put_of_ne hka).trans hy, hylive⟩
  · intro b y m' hy hylive hm'
    obtain ⟨m, hm, rfl⟩ := hback y.process m' hm'
    rw [hactors] at hy
    rcases put_eq_some.mp hy with ⟨rfl, rfl⟩ | ⟨hne, hy⟩
    · rw [if_pos hprocess]
      exact (hstatus hylive).symm
    · have hother : y.process ≠ x.process :=
        fun hsame => hne (h.unique b a y x hy hx hylive hlive hsame)
      rw [if_neg hother]
      exact h.agrees b y m hy hylive hm

omit h

/-- An attach finds its handle, or aborts a task that has not started. -/
theorem attachJoin_eq_some (h : f.attachJoin a = some g) :
    ∃ x pc registry, f.actors a = some x ∧
      (pc = x.pc ∨ x.pc = .scheduled ∧ pc = .done ∧
        ∀ m, f.registry x.process = some m → m.handle = none) ∧
      (registry = f.registry ∨ ∃ m h, f.registry x.process = some m ∧ m.handle = some h ∧
        registry = f.registry.put x.process (m.withHandle { h with join := some a })) ∧
      g = { f.setActor a { x with attached := true, pc } with registry } := by
  unfold attachJoin at h
  split at h
  next => cases h
  next x hx =>
    by_cases hready : x.attached = true ∨ x.pc = .launching
    · rw [if_pos hready] at h
      cases h
    rw [if_neg hready] at h
    split at h
    next registry hattach =>
      cases h
      obtain ⟨m, k, hm, hk, rfl⟩ := Registry.attachJoin_eq_some.mp hattach
      exact ⟨x, x.pc, _, hx, .inl rfl, .inr ⟨m, k, hm, hk, rfl⟩, rfl⟩
    next hattach =>
      cases h
      by_cases hscheduled : x.pc = .scheduled
      · rw [if_pos hscheduled]
        refine ⟨x, .done, f.registry, hx, .inr ⟨hscheduled, rfl, ?_⟩, .inl rfl, rfl⟩
        intro m hm
        unfold Registry.attachJoin at hattach
        rw [hm] at hattach
        exact map_eq_none_iff.mp hattach
      · rw [if_neg hscheduled]
        exact ⟨x, x.pc, f.registry, hx, .inl rfl, .inl rfl, rfl⟩

theorem Owned.attachJoin (h : f.Owned) (hg : f.attachJoin a = some g) : g.Owned := by
  obtain ⟨x, pc, registry, hx, hpc, hregistry, rfl⟩ := attachJoin_eq_some hg
  have hattached : Owned (f.setActor a { x with attached := true, pc }) := by
    rcases hpc with rfl | ⟨hscheduled, rfl, hnone⟩
    · have halike : x.Alike { x with attached := true } := .of_pc rfl rfl rfl rfl (.inl rfl)
      exact h.of_alike hx halike rfl rfl rfl rfl
    -- without a handle the process is gone, and with it every use of the aborted actor
    · have hlive : x.Live := by
        rw [Actor.Live, hscheduled]
        exact Pc.noConfusion
      have hgone : f.registry x.process = none := by
        cases hm : f.registry x.process with
        | none => rfl
        | some m =>
          obtain ⟨join, hhandle⟩ := h.handle_of_live hx hlive hm
          rw [hnone m hm] at hhandle
          cases hhandle
      have hsound := h.sound a x hx
      have hended : Actor.Sound { x with attached := true, pc := .done } := by
        refine ⟨fun hdone => absurd rfl hdone, fun hchild => ?_, hsound.legal⟩
        have hholds := hsound.child hchild
        rw [hscheduled] at hholds
        cases hholds
      have hsame : f.registry = f.registry.setStatus x.process .stopped none := by
        funext i
        by_cases hi : i = x.process
        · rw [hi]
          simp [Registry.setStatus, Slots.modify, hgone]
        · exact (modify_of_ne hi).symm
      refine h.of_advance hx hlive rfl rfl hended (fun hdone => absurd rfl hdone) ?_ hsame rfl rfl
      exact iff_of_false Bool.false_ne_true fun hdone => hdone rfl
  rcases hregistry with rfl | ⟨m, k, hm, hk, rfl⟩
  · exact hattached
  · refine hattached.of_registry rfl rfl (Nat.le_refl _) ?_
    intro i m' hm'
    rcases put_eq_some.mp hm' with ⟨rfl, rfl⟩ | ⟨-, hm'⟩
    · exact .inr ⟨m, hm, by rw [hk]; rfl, .inl rfl⟩
    · exact .inr ⟨m', hm', rfl, .inl rfl⟩

theorem advance_eq_some (h : f.Manned) (hg : f.advance a = some g) :
    ∃ x target code next, f.actors a = some x ∧ x.outbox = none ∧
      x.pc.pending = some (target, code, next) ∧
      g = { f.setActor a
              { x with
                pc := next
                status := target
                outbox := some (.processStatusChanged x.process x.status target code) } with
            registry := f.registry.setStatus x.process target code } := by
  unfold Fleet.advance at hg
  split at hg
  next => cases hg
  next x hx =>
    split_ifs at hg with hout
    split at hg
    next => cases hg
    next target code next hpending =>
      rw [((h.sound a x hx).advance hpending).1] at hg
      cases hg
      exact ⟨x, target, code, next, hx, hout, hpending, rfl⟩

theorem Owned.advance (h : f.Owned) (hg : f.advance a = some g) : g.Owned := by
  obtain ⟨x, target, code, next, hx, -, hpending, rfl⟩ := advance_eq_some h.manned hg
  obtain ⟨hlive, -, hnext, hdone, -⟩ := Pc.pending_spec hpending
  have hsound := ((h.sound a x hx).advance hpending).2
  refine h.of_advance hx hlive rfl rfl hsound (fun _ => rfl) ?_ rfl rfl rfl
  constructor
  · intro hactive hended
    rw [hdone hended] at hactive
    cases hactive
  · intro hne
    rw [hnext hne]
    exact Pc.mirror_active hne

theorem publish_eq_some {event : DomainEvent} :
    f.publish a = some (event, g) ↔ ∃ x, f.actors a = some x ∧ x.outbox = some event ∧
      g = f.setActor a { x with outbox := none } := by
  unfold Fleet.publish
  cases hx : f.actors a with
  | none => simp
  | some x =>
    dsimp only
    rw [map_eq_some_iff]
    constructor
    · rintro ⟨e, he, hpair⟩
      cases hpair
      exact ⟨x, rfl, he, rfl⟩
    · rintro ⟨y, hy, he, rfl⟩
      cases hy
      exact ⟨event, he, rfl⟩

theorem move_eq_some {mv : ActorMove} :
    f.move a mv = some g ↔ ∃ x x', f.actors a = some x ∧ x.move mv = some x' ∧
      g = { f.setActor a x' with spawns := f.spawns ++ x.spawns a mv } := by
  unfold Fleet.move
  cases hx : f.actors a with
  | none => simp
  | some x =>
    dsimp only
    rw [map_eq_some_iff]
    constructor
    · rintro ⟨x', hx', rfl⟩
      exact ⟨x, x', rfl, hx', rfl⟩
    · rintro ⟨y, x', hy, hx', rfl⟩
      cases hy
      exact ⟨x', hx', rfl⟩

theorem owned_step [Sha256] {act : FleetAct} (h : f.Owned) (hg : f.step act = some g) :
    g.Owned := by
  cases act with
  | register r =>
    cases hg
    exact h.register r
  | updateCommandSpec id r =>
    cases hg
    exact h.updateCommandSpec id r
  | removeIfResting id =>
    cases hg
    rcases f.registry.removeIfResting_cases id with he | ⟨m, -, -, he⟩
    · rw [he]
      exact h
    · rw [he]
      exact h.erase id
  | removeReturningHandle id =>
    obtain ⟨⟨registry, k⟩, hremoved, rfl⟩ := map_eq_some_iff.mp hg
    obtain ⟨m, -, rfl, -⟩ := Registry.removeReturningHandle_eq_some.mp hremoved
    exact h.erase id
  | exhaust id =>
    cases hg
    exact h.exhaust id
  | launch r => exact h.launchActor hg
  | restart r =>
    cases hg
    exact (h.signal r.process (.restart r)).of_registry rfl rfl (Nat.le_refl _)
      fun id m hm => .inr ⟨m, hm, rfl, .inl rfl⟩
  | stop id =>
    cases hg
    exact h.signal id .stop
  | signalStop k =>
    cases hg
    exact h.modify k.mailbox fun x => (x.alike_trySend .stop).trans (Actor.alike_dropSender _)
  | attachJoin a => exact h.attachJoin hg
  | advance a => exact h.advance hg
  | publish a =>
    obtain ⟨⟨event, g'⟩, hpublish, rfl⟩ := map_eq_some_iff.mp hg
    obtain ⟨x, hx, -, rfl⟩ := publish_eq_some.mp hpublish
    have halike : x.Alike { x with outbox := none } := .of_pc rfl rfl rfl rfl (.inr rfl)
    exact h.of_alike hx halike rfl rfl rfl rfl
  | move a mv =>
    obtain ⟨x, x', hx, hmove, rfl⟩ := move_eq_some.mp hg
    exact h.of_alike hx (Actor.alike_move hmove) rfl rfl rfl rfl

theorem owned_of_reachable [Sha256] (h : fleetMachine.Reachable f) : f.Owned := by
  refine h.invariant ?_ ?_
  · intro g hg
    rw [hg]
    exact owned_empty
  · intro g act g' hg hstep
    exact owned_step hg hstep

/-- The actor `a` owns the process `id`: its task, or the launcher that will spawn it, is still
to run. -/
structure Owns (f : Fleet) (id : ProcessId) (a : ActorId) (x : Actor) : Prop where
  actor : f.actors a = some x
  process : x.process = id
  live : x.Live

theorem Owned.owner_unique (h : f.Owned) {id : ProcessId} {b : ActorId} {y : Actor}
    (hx : f.Owns id a x) (hy : f.Owns id b y) : b = a :=
  h.unique b a y x hy.actor hx.actor hy.live hx.live (hy.process.trans hx.process.symm)

end Fleet

variable {s : Supervisor}

theorem fleet_reachable [Sha256] (h : supervisorMachine.Reachable s) :
    fleetMachine.Reachable s.fleet := by
  refine h.map ?_ ?_
  · intro s hs
    rw [hs]
    rfl
  · intro s e t ht
    rcases Supervisor.step_fleet ht with hsame | ⟨act, hact, -⟩
    · exact .inl hsame
    · exact .inr ⟨act, hact⟩

theorem fleet_owned [Sha256] (h : supervisorMachine.Reachable s) : s.fleet.Owned :=
  Fleet.owned_of_reachable (fleet_reachable h)

/-- In every reachable state an active entry has exactly one owning actor, whose mirror is the
entry's status and whose mailbox is in the handle; an owner finds its entry active; every pending
transition is a legal edge from the registry's status, and so is every one being published; no two
actors hold a child of one process, and an actor about to spawn holds none. -/
theorem actor_registry_agree [Sha256] {s : Supervisor} (h : supervisorMachine.Reachable s) :
    (∀ id m, s.fleet.registry id = some m → m.status.isActive = true →
      ∃ a x join, s.fleet.Owns id a x ∧ x.status = m.status ∧ m.handle = some ⟨a, join⟩ ∧
        ∀ b y, s.fleet.Owns id b y → b = a) ∧
    (∀ id m a x, s.fleet.registry id = some m → s.fleet.Owns id a x →
      m.status.isActive = true) ∧
    (∀ a x target code next, s.fleet.actors a = some x →
      x.pc.pending = some (target, code, next) →
        x.status.transition target = .ok target ∧
          ∀ m, s.fleet.registry x.process = some m → m.status = x.status) ∧
    (∀ a x id source target code, s.fleet.actors a = some x →
      x.outbox = some (.processStatusChanged id source target code) →
        source.allowed target = true) ∧
    (∀ a b x y, s.fleet.actors a = some x → s.fleet.actors b = some y → x.child ≠ .none →
      y.child ≠ .none → x.process = y.process → a = b) ∧
    (∀ a x, s.fleet.actors a = some x → x.pc = .resolving → x.child = .none) := by
  have howned := fleet_owned h
  have hholder : ∀ a x, s.fleet.actors a = some x → x.child ≠ .none → x.Live := by
    intro a x hx hchild hdone
    have hholds := (howned.sound a x hx).child hchild
    rw [hdone] at hholds
    cases hholds
  refine ⟨?_, ?_, ?_, ?_, ?_, ?_⟩
  · intro id m hm hactive
    obtain ⟨k, x, hk, hx, hlive⟩ := howned.owner id m hm hactive
    obtain ⟨y, hy, hprocess⟩ := howned.handled id m k hm hk
    obtain rfl : x = y := Option.some.inj (hx.symm.trans hy)
    have howns : s.fleet.Owns id k.mailbox x := ⟨hx, hprocess, hlive⟩
    have hmirror : m.status = x.status :=
      howned.agrees k.mailbox x m hx hlive (hprocess ▸ hm)
    exact ⟨k.mailbox, x, k.join, howns, hmirror.symm, hk,
      fun b y hy => howned.owner_unique howns hy⟩
  · intro id m a x hm howns
    exact howned.active_of_live howns.actor howns.live (howns.process ▸ hm)
  · intro a x target code next hx hpending
    have hlive := (Pc.pending_spec hpending).1
    exact ⟨((howned.sound a x hx).advance hpending).1,
      fun m hm => howned.agrees a x m hx hlive hm⟩
  · intro a x id source target code hx hout
    exact (howned.sound a x hx).legal id source target code hout
  · intro a b x y hx hy hxchild hychild hprocess
    exact howned.unique a b x y hx hy (hholder a x hx hxchild) (hholder b y hy hychild) hprocess
  · intro a x hx hpc
    by_contra hchild
    have hholds := (howned.sound a x hx).child hchild
    rw [hpc] at hholds
    cases hholds

/-- A terminal has no variant to hash, so any digest does. -/
@[reducible] def zeroSha : Sha256 := ⟨fun _ => Vector.replicate 32 0⟩

def claimTerminal : List SupervisorEvent :=
  [.register (.launched 1 ⟨.terminal, ProcessKind.terminal_ne_command⟩ ⟨"bash", [.rootDir], []⟩ none), .launch .start 1,
    .proceed 0 0 none, .proceed 0 0 none, .proceed 0 0 none]

/-- It runs up to its `Running` announcement. -/
def startTerminal : List SupervisorEvent :=
  claimTerminal ++ [.publish 0, .move 0 .spawnTask, .attachJoin 0, .move 0 .poll,
    .move 0 .tryRecv, .move 0 (.spawn []), .advance 0]

theorem actor_registry_agree_started :
    letI := zeroSha
    ∃ s m, supervisorMachine.run .init startTerminal = some s ∧
      s.fleet.registry 1 = some m ∧ m.status = .running ∧
      ∃ a x join, s.fleet.Owns 1 a x ∧ x.status = m.status ∧ m.handle = some ⟨a, join⟩ ∧
        ∀ b y, s.fleet.Owns 1 b y → b = a := by
  let _ := zeroSha
  refine ⟨_, _, rfl, rfl, rfl, ?_⟩
  exact (actor_registry_agree ⟨.init, startTerminal, rfl, rfl⟩).1 1 _ rfl rfl

end Soloist
