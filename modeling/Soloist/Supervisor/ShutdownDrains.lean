import Soloist.Supervisor.Shadow

/-! Shutting down: the supervisor latches the restart policy, then messages every actor whose handle
is in the registry and awaits the ones it could take, pass after pass, while everybody else goes
on. -/
open List Option Slots

namespace Soloist

def maxShutdownIdlePasses : ℕ := 1000

def Managed.withoutHandle (m : Managed) : Managed := { m with handle := none }

namespace Registry

def takeHandle (g : Registry) (id : ProcessId) : Option (Registry × Handle) :=
  match g id with
  | none => none
  | some m =>
    match m.handle with
    | none => none
    | some h => if h.join.isSome then some (g.put id m.withoutHandle, h) else none

theorem takeHandle_eq_some {g g' : Registry} {id : ProcessId} {h : Handle}
    (ht : g.takeHandle id = some (g', h)) :
    ∃ m, g id = some m ∧ m.handle = some h ∧ h.join.isSome = true ∧
      g' = g.put id m.withoutHandle := by
  unfold takeHandle at ht
  split at ht
  · cases ht
  next m hm =>
    split at ht
    · cases ht
    next k hk =>
      split_ifs at ht with hjoin
      cases ht
      exact ⟨m, hm, hk, hjoin, rfl⟩

end Registry

def Fleet.withLiveActor (f : Fleet) : List ProcessId :=
  (List.range f.nextProcess).filter fun id => (f.mailboxOf id).isSome

/-- One pass over the registry: the number of actors when it was scanned, the tasks to await, and
whether a launch was met whose join was not attached. -/
structure ReapPass where
  scanned : ActorId
  joins : List ActorId
  midLaunch : Bool
  deriving DecidableEq, Repr

inductive ShutdownPc
  | unasked
  /-- at the top of the loop -/
  | latched
  | visiting (pass : ReapPass) (ids : List ProcessId)
  /-- a handle was taken and its actor is still to be messaged -/
  | taken (pass : ReapPass) (ids : List ProcessId) (handle : Handle)
  /-- no handle could be taken; the actor, if any, is messaged in place -/
  | untaken (pass : ReapPass) (ids : List ProcessId) (id : ProcessId)
  | awaiting (pass : ReapPass) (awaited : Bool)
  /-- whether at the cap, and how many actors and calls there had been -/
  | returned (capped : Bool) (actors : ActorId) (calls : CallId)
  deriving DecidableEq, Repr

structure Quitting where
  sup : Supervisor
  pc : ShutdownPc
  idlePasses : ℕ

inductive QuittingEvent
  /-- Anything else that happens to the supervisor. -/
  | core (e : SupervisorEvent)
  | ask
  /-- The registry is scanned; its order is the map's. -/
  | scan (order : List ProcessId)
  | take
  | message
  | await
  | join
  | endPass

namespace Quitting

def returned (s : Quitting) (capped : Bool) : ShutdownPc :=
  .returned capped s.sup.fleet.nextActor s.sup.nextCall

def withFleet (s : Quitting) (fleet : Fleet) : Quitting := { s with sup := { s.sup with fleet } }

def visit (s : Quitting) (pass : ReapPass) (id : ProcessId) (rest : List ProcessId) : Quitting :=
  match s.sup.fleet.registry.takeHandle id with
  | some (registry, h) =>
    { s.withFleet { s.sup.fleet with registry } with pc := .taken pass rest h }
  | none => { s with pc := .untaken pass rest id }

def afterPass (s : Quitting) (pass : ReapPass) (awaited : Bool) : Quitting :=
  if pass.midLaunch = false then { s with pc := s.returned false }
  else if awaited then { s with pc := .latched, idlePasses := 0 }
  else if s.idlePasses + 1 < maxShutdownIdlePasses then
    { s with pc := .latched, idlePasses := s.idlePasses + 1 }
  else { s with pc := s.returned true, idlePasses := s.idlePasses + 1 }

def step [Sha256] (s : Quitting) : QuittingEvent → Option Quitting
  | .core e => (s.sup.step e).map fun sup => { s with sup }
  | .ask =>
    match s.pc with
    | .unasked =>
      some { s with
        sup := { s.sup with policy := s.sup.policy.beginShutdown }
        pc := .latched }
    | _ => none
  | .scan order =>
    match s.pc with
    | .latched =>
      if order.isPerm s.sup.fleet.withLiveActor then
        some { s with pc := .visiting ⟨s.sup.fleet.nextActor, [], false⟩ order }
      else none
    | _ => none
  | .take =>
    match s.pc with
    | .visiting pass (id :: rest) => some (s.visit pass id rest)
    | _ => none
  | .message =>
    match s.pc with
    | .taken pass rest h =>
      some { s.withFleet (s.sup.fleet.signalStop h) with
        pc := .visiting { pass with joins := pass.joins ++ h.join.toList } rest }
    | .untaken pass rest id =>
      some { s.withFleet (s.sup.fleet.signal id .stop) with
        pc := .visiting { pass with midLaunch := true } rest }
    | _ => none
  | .await =>
    match s.pc with
    | .visiting pass [] => some { s with pc := .awaiting pass (!pass.joins.isEmpty) }
    | _ => none
  | .join =>
    match s.pc with
    | .awaiting pass awaited =>
      match pass.joins with
      | [] => none
      | a :: rest =>
        if s.sup.joined (some a) then
          some { s with pc := .awaiting { pass with joins := rest } awaited }
        else none
    | _ => none
  | .endPass =>
    match s.pc with
    | .awaiting pass awaited => if pass.joins = [] then some (s.afterPass pass awaited) else none
    | _ => none

end Quitting

/-- The supervisor from the app's start, up to its shutdown and beyond. -/
def quittingMachine [Sha256] : Machine Quitting QuittingEvent where
  init s := s = ⟨.init, .unasked, 0⟩
  step := Quitting.step

namespace Quitting
variable [Sha256] {s t : Quitting} {e : QuittingEvent}

inductive Turn (s : Quitting) : QuittingEvent → Quitting → Prop
  | core (e : SupervisorEvent) (sup : Supervisor) (h : s.sup.step e = some sup) :
    Turn s (.core e) { s with sup }
  | ask (hpc : s.pc = .unasked) :
    Turn s .ask { s with
      sup := { s.sup with policy := s.sup.policy.beginShutdown }
      pc := .latched }
  | scan (order : List ProcessId) (hpc : s.pc = .latched)
    (horder : order.Perm s.sup.fleet.withLiveActor) :
    Turn s (.scan order) { s with pc := .visiting ⟨s.sup.fleet.nextActor, [], false⟩ order }
  | take (pass : ReapPass) (id : ProcessId) (rest : List ProcessId) (m : Managed) (h : Handle)
    (hpc : s.pc = .visiting pass (id :: rest)) (hm : s.sup.fleet.registry id = some m)
    (hk : m.handle = some h) (hjoin : h.join.isSome = true) :
    Turn s .take { s.withFleet
        { s.sup.fleet with registry := s.sup.fleet.registry.put id m.withoutHandle } with
      pc := .taken pass rest h }
  | miss (pass : ReapPass) (id : ProcessId) (rest : List ProcessId)
    (hpc : s.pc = .visiting pass (id :: rest)) :
    Turn s .take { s with pc := .untaken pass rest id }
  | message (pass : ReapPass) (rest : List ProcessId) (h : Handle) (hpc : s.pc = .taken pass rest h) :
    Turn s .message { s.withFleet (s.sup.fleet.signalStop h) with
      pc := .visiting { pass with joins := pass.joins ++ h.join.toList } rest }
  | nudge (pass : ReapPass) (rest : List ProcessId) (id : ProcessId)
    (hpc : s.pc = .untaken pass rest id) :
    Turn s .message { s.withFleet (s.sup.fleet.signal id .stop) with
      pc := .visiting { pass with midLaunch := true } rest }
  | await (pass : ReapPass) (hpc : s.pc = .visiting pass []) :
    Turn s .await { s with pc := .awaiting pass (!pass.joins.isEmpty) }
  | join (pass : ReapPass) (awaited : Bool) (a : ActorId) (rest : List ActorId)
    (hpc : s.pc = .awaiting pass awaited) (hjoins : pass.joins = a :: rest)
    (hended : ∀ x, s.sup.fleet.actors a = some x → x.finished = true) :
    Turn s .join { s with pc := .awaiting { pass with joins := rest } awaited }
  | endPass (pass : ReapPass) (awaited : Bool) (hpc : s.pc = .awaiting pass awaited)
    (hjoins : pass.joins = []) : Turn s .endPass (s.afterPass pass awaited)

theorem turn_of_step (h : s.step e = some t) : s.Turn e t := by
  cases e with
  | core e =>
    obtain ⟨sup, hsup, rfl⟩ := map_eq_some_iff.mp h
    exact .core e sup hsup
  | ask =>
    simp only [step] at h
    split at h
    next hpc =>
      cases h
      exact .ask hpc
    · cases h
  | scan order =>
    simp only [step] at h
    split at h
    next hpc =>
      split_ifs at h with horder
      cases h
      exact .scan order hpc (isPerm_iff.mp horder)
    · cases h
  | take =>
    simp only [step] at h
    split at h
    next pass id rest hpc =>
      cases h
      unfold visit
      split
      next registry k htake =>
        obtain ⟨m, hm, hk, hjoin, rfl⟩ := Registry.takeHandle_eq_some htake
        exact .take pass id rest m k hpc hm hk hjoin
      · exact .miss pass id rest hpc
    · cases h
  | message =>
    simp only [step] at h
    split at h
    next pass rest k hpc =>
      cases h
      exact .message pass rest k hpc
    next pass rest id hpc =>
      cases h
      exact .nudge pass rest id hpc
    · cases h
  | await =>
    simp only [step] at h
    split at h
    next pass hpc =>
      cases h
      exact .await pass hpc
    · cases h
  | join =>
    simp only [step] at h
    split at h
    next pass awaited hpc =>
      split at h
      · cases h
      next a rest hjoins =>
        split_ifs at h with hended
        cases h
        refine .join pass awaited a rest hpc hjoins fun x hx => ?_
        have hall : (s.sup.fleet.actors a).all Actor.finished = true := hended
        rwa [hx] at hall
    · cases h
  | endPass =>
    simp only [step] at h
    split at h
    next pass awaited hpc =>
      split_ifs at h with hjoins
      cases h
      exact .endPass pass awaited hpc hjoins
    · cases h

end Quitting
end Soloist

/-! What a shutdown leaves. It meets every actor that was launched before its last scan; a launch that
claims its process after that scan is neither refused nor awaited. -/
namespace Soloist

/-- What an actor keeps through a step. -/
structure Actor.Continues (x y : Actor) : Prop where
  process : y.process = x.process
  origin : y.origin = x.origin
  attached : x.attached = true → y.attached = true
  live : y.Live → x.Live

namespace Actor
variable {x y : Actor}

theorem continues_refl (x : Actor) : x.Continues x := ⟨rfl, rfl, id, id⟩

theorem continues_trySend (x : Actor) (msg : ActorMsg) : x.Continues (x.trySend msg) := by
  obtain ⟨box, hbox⟩ := x.trySend_eq msg
  rw [hbox]
  exact ⟨rfl, rfl, id, id⟩

theorem Moves.continues {mv : ActorMove} (h : x.Moves mv y) : x.Continues y := by
  have hlive : ∀ pc, x.pc = pc → pc ≠ .done → x.Live := by
    intro pc hpc hne hdone
    exact hne (hpc.symm.trans hdone)
  cases h with
  | childExit st hchild => exact ⟨rfl, rfl, id, id⟩
  | drainRestart r rest hout hpc hbox => exact ⟨rfl, rfl, id, id⟩
  | spawnTask hout hpc | poll hout hpc | drainStop rest hout hpc hbox | drained hout hpc hbox
  | spawn captured hout hpc | spawnFailed hout hpc | exit st hout hpc hchild
  | recvRestart r rest hout hpc hbox | recvStop rest hout hpc hbox
  | disconnected hout hpc hbox hopen | reap hout hpc | cycle hout hpc =>
    exact ⟨rfl, rfl, id, fun _ => hlive _ hpc Pc.noConfusion⟩

end Actor

theorem Actor.Evolves.continues {f : Fleet} {a : ActorId} {act : FleetAct} {x y : Actor}
    (h : x.Evolves f a act y) : x.Continues y := by
  cases h with
  | same => exact x.continues_refl
  | toldStop | toldRestart => exact x.continues_trySend _
  | closed =>
    obtain ⟨hprocess, horigin, hattached, hlive⟩ := x.continues_trySend .stop
    exact ⟨hprocess, horigin, hattached, hlive⟩
  | attached pc hpc =>
    refine ⟨rfl, rfl, fun _ => rfl, ?_⟩
    rcases hpc with rfl | ⟨-, rfl, -⟩
    · exact id
    · exact fun hended => absurd rfl hended
  | advanced target code next hout hpending =>
    exact ⟨rfl, rfl, id, fun _ => (Pc.pending_spec hpending).1⟩
  | published => exact ⟨rfl, rfl, id, id⟩
  | moved mv x' hmoves => exact hmoves.continues

namespace Fleet
variable {f g : Fleet} {act : FleetAct} {a : ActorId} {x y : Actor}

variable {id : ProcessId}

variable {m m' : Managed}

/-- What a step makes of the handle of an entry. -/
theorem EntryEvolves.handle_cases [Sha256] (h : f.EntryEvolves id m act m') :
    m'.handle = m.handle ∨ m.status.isActive = false ∧ m'.handle = some ⟨f.nextActor, none⟩ ∨
      ∃ b x k, act = .attachJoin b ∧ f.actors b = some x ∧ x.process = id ∧ m.handle = some k ∧
        m'.handle = some { k with join := some b } := by
  cases h with
  | same | updated | exhausted | advanced => exact .inl rfl
  | claimed r hid hrest => exact .inr (.inl ⟨hrest, rfl⟩)
  | attached b k hk x hx hprocess => exact .inr (.inr ⟨b, x, k, rfl, hx, hprocess, hk, rfl⟩)

theorem Covered.manned (h : f.Covered) : f.Manned where
  sound a x hx := by
    obtain ⟨g, hshadows, hg⟩ := h
    exact hg.sound a x (hshadows.actors ▸ hx)
  handled _ _ _ hm hk := h.handled hm hk

theorem attached_of_attachJoin (hstep : f.attachJoin a = some g) (hy : g.actors a = some y) :
    y.attached = true := by
  obtain ⟨x, pc, registry, hx, -, -, rfl⟩ := attachJoin_eq_some hstep
  have hput : f.actors.put a { x with attached := true, pc } a = some y := hy
  rw [put_self] at hput
  cases hput
  rfl

end Fleet

theorem Registry.Stripped.taken {g g' : Registry} {id : ProcessId} {m : Managed} {h : Handle}
    (hg : g.Stripped g') (hm : g id = some m) (hk : m.handle = some h) :
    Registry.Stripped (g.put id m.withoutHandle) g' := by
  intro i
  by_cases hi : i = id
  · obtain ⟨m', hm', hstripped⟩ := hg.of_some hm
    obtain rfl := hstripped.of_handle hk
    have htaken : Managed.Stripped m'.withoutHandle (m'.withoutHandle.withHandle h) :=
      .taken m'.withoutHandle h rfl
    have hback : m'.withoutHandle.withHandle h = m' := by
      rw [Managed.withoutHandle, Managed.withHandle, ← hk]
    rw [hback] at htaken
    rw [hi, put_self, hm']
    exact .some htaken
  · rw [put_of_ne hi]
    exact hg i

namespace ShutdownPc

def hands : ShutdownPc → List ActorId
  | .visiting pass _ | .untaken pass _ _ | .awaiting pass _ => pass.joins
  | .taken pass _ h => pass.joins ++ [h.mailbox]
  | .unasked | .latched | .returned _ _ _ => []

def toVisit : ShutdownPc → Option (ActorId × List ProcessId)
  | .visiting pass ids | .taken pass ids _ =>
    if pass.midLaunch then none else some (pass.scanned, ids)
  | .awaiting pass _ => if pass.midLaunch then none else some (pass.scanned, [])
  | .unasked | .latched | .untaken _ _ _ | .returned _ _ _ => none

end ShutdownPc

namespace Supervisor

/-- The next access of the call launches a process. -/
def Claims (s : Supervisor) (c : CallId) : Prop :=
  ∃ claim ∈ s.claims c, ∃ m ∈ s.fleet.registry claim.2.1, m.status.isActive = false

instance (s : Supervisor) (c : CallId) : Decidable (s.Claims c) :=
  inferInstanceAs (Decidable (∃ claim ∈ s.claims c, ∃ m ∈ _, _))

/-- The task of `a` is attached to the handle of its own launch, or to none. -/
def AttachesOwn (s : Supervisor) (a : ActorId) : Prop :=
  ∀ x ∈ s.fleet.actors a, ∀ m ∈ s.fleet.registry x.process, ∀ h ∈ m.handle, h.mailbox = a

instance (s : Supervisor) (a : ActorId) : Decidable (s.AttachesOwn a) :=
  inferInstanceAs (Decidable (∀ x ∈ s.fleet.actors a, ∀ m ∈ _, ∀ h ∈ _, _))

def NoneClosing (s : Supervisor) : Prop :=
  ∀ a < s.fleet.nextActor, ∀ x ∈ s.fleet.actors a, x.Live →
    (s.fleet.registry x.process).isSome = true

instance (s : Supervisor) : Decidable s.NoneClosing :=
  inferInstanceAs (Decidable (∀ a < s.fleet.nextActor, ∀ x ∈ s.fleet.actors a, _ → _))

end Supervisor

namespace Quitting
variable {s t : Quitting} {e : QuittingEvent}

/-- What the shutdown relies on and nothing makes sure of: no launch claims its process after the
last scan, no launch that began before the return claims after it, no close is still at work, and no
launcher is so late that it attaches its task to the next launch's handle. -/
def Heeded (s : Quitting) : QuittingEvent → Prop
  | .core (.attachJoin a) => s.sup.AttachesOwn a
  | .core (.proceed c _ _) =>
    match s.pc with
    | .returned false _ calls => c < calls → ¬ s.sup.Claims c
    | _ => True
  | .endPass =>
    match s.pc with
    | .awaiting pass _ =>
      pass.midLaunch = false → s.sup.fleet.nextActor = pass.scanned ∧ s.sup.NoneClosing
    | _ => True
  | _ => True

instance (s : Quitting) : ∀ e, Decidable (s.Heeded e)
  | .core (.attachJoin a) => inferInstanceAs (Decidable (s.sup.AttachesOwn a))
  | .core (.proceed c _ _) =>
    match hpc : s.pc with
    | .returned false _ calls =>
      decidable_of_iff (c < calls → ¬ s.sup.Claims c) (by simp only [Heeded, hpc])
    | .returned true _ _ | .unasked | .latched | .visiting _ _ | .taken _ _ _ | .untaken _ _ _
    | .awaiting _ _ => isTrue (by simp only [Heeded, hpc])
  | .endPass =>
    match hpc : s.pc with
    | .awaiting pass _ =>
      decidable_of_iff (pass.midLaunch = false →
        s.sup.fleet.nextActor = pass.scanned ∧ s.sup.NoneClosing) (by simp only [Heeded, hpc])
    | .returned _ _ _ | .unasked | .latched | .visiting _ _ | .taken _ _ _ | .untaken _ _ _ =>
      isTrue (by simp only [Heeded, hpc])
  | .core (.register _) | .core (.reload ..) | .core (.deregister _) | .core (.launch ..)
  | .core (.stop _) | .core (.close _) | .core (.setTrusted ..) | .core .beginShutdown
  | .core (.advance _) | .core (.publish _) | .core (.move ..) | .core .overflow
  | .core (.reactorRecv _) | .core .reactorNext | .ask | .scan _ | .take | .message | .await
  | .join => isTrue trivial

structure Sound (s : Quitting) : Prop where
  covered : s.sup.fleet.Covered
  joined : ∀ id m h a, s.sup.fleet.registry id = some m → m.handle = some h → h.join = some a →
    a = h.mailbox ∧ ∀ x, s.sup.fleet.actors a = some x → x.attached = true
  reached : ∀ a x m, s.sup.fleet.actors a = some x → x.Live →
    s.sup.fleet.registry x.process = some m →
      m.handle.map Handle.mailbox = some a ∨ a ∈ s.pc.hands
  handed : ∀ a ∈ s.pc.hands, a < s.sup.fleet.nextActor ∧
    ∀ x, s.sup.fleet.actors a = some x → x.attached = true
  taking : ∀ pass ids h, s.pc = .taken pass ids h → h.join = some h.mailbox
  visited : ∀ n ids, s.pc.toVisit = some (n, ids) → n ≤ s.sup.fleet.nextActor ∧
    ∀ a x m, a < n → s.sup.fleet.actors a = some x → x.Live →
      s.sup.fleet.registry x.process = some m → m.handle.map Handle.mailbox = some a →
        x.process ∈ ids
  ended : ∀ n calls, s.pc = .returned false n calls → n ≤ s.sup.fleet.nextActor ∧
    ∀ a x, s.sup.fleet.actors a = some x → x.Live → n ≤ a ∧ calls ≤ x.origin.call

theorem sound_init : Sound ⟨.init, .unasked, 0⟩ := by
  constructor
  · exact Fleet.covered_empty
  · intro id m h a hm
    cases hm
  · intro a x m hx
    cases hx
  · intro a ha
    cases ha
  · intro pass ids h hpc
    cases hpc
  · intro n ids hvisit
    cases hvisit
  · intro n calls hpc
    cases hpc

theorem Sound.takenAttached (hs : s.Sound) : s.sup.fleet.TakenAttached := by
  intro a x m hx hlive hm hnone
  rcases hs.reached a x m hx hlive hm with hhandle | hhands
  · rw [hnone] at hhandle
    cases hhandle
  · exact (hs.handed a hhands).2 x hx

variable {m : Managed}

variable {act : FleetAct} {f : Fleet} {a : ActorId}

theorem Sound.back [Sha256] (hs : s.Sound) (hstep : s.sup.fleet.step act = some f) {y : Actor}
    (hy : f.actors a = some y) (hlive : y.Live) (hm : f.registry y.process = some m) :
    (∃ x m₀, s.sup.fleet.actors a = some x ∧ x.Continues y ∧ s.sup.fleet.registry x.process = some m₀ ∧
      m.handle.map Handle.mailbox = m₀.handle.map Handle.mailbox) ∨
      a = s.sup.fleet.nextActor ∧ m.handle = some ⟨a, none⟩ := by
  have hmanned := hs.covered.manned
  rcases Fleet.step_actor hmanned hstep hy with ⟨x, hx, hevolves⟩ | ⟨r, source, rfl, rfl, rfl⟩
  · left
    have hcontinues := hevolves.continues
    rw [hcontinues.process] at hm
    rcases Fleet.step_entry hmanned hstep hm with ⟨m₀, hm₀, hentry⟩ | ⟨r, -, hfresh, -⟩
    · refine ⟨x, m₀, hx, hcontinues, hm₀, ?_⟩
      rcases hentry.handle_cases with hsame | ⟨hrest, -⟩ | ⟨b, z, k, -, -, -, hk, hnew⟩
      · rw [hsame]
      · have hactive := hs.covered.active_of_live hx (hcontinues.live hlive) hm₀
        rw [hrest] at hactive
        cases hactive
      · rw [hnew, hk]
        rfl
    · exact absurd hfresh (Nat.ne_of_lt (hs.covered.process_lt hx))
  · right
    obtain ⟨claim, hclaim, rfl⟩ := map_eq_some_iff.mp hstep
    obtain ⟨m₀, -, -, -, hregistry⟩ := Registry.beginLaunch_eq_some.mp hclaim
    have hput : claim.2 r.process = some m := hm
    rw [hregistry, put_self] at hput
    cases hput
    exact ⟨rfl, rfl⟩

/-- A fleet whose registry and actors moved by one step stays sound under the same shutdown. -/
theorem Sound.step_fleet [Sha256] {sup : Supervisor} (hs : s.Sound)
    (hstep : s.sup.fleet.step act = some sup.fleet)
    (hattach : ∀ a, act = .attachJoin a → s.sup.AttachesOwn a)
    (hlaunch : ∀ r n calls, act = .launch r → s.pc = .returned false n calls → calls ≤ r.call) :
    Sound { s with sup } := by
  have hmanned := hs.covered.manned
  have hnext := (Fleet.step_counts hmanned hstep).actors
  constructor
  · exact hs.covered.step hs.takenAttached hstep
  · intro id m k a hm hk hjoin
    rcases Fleet.step_entry hmanned hstep hm with ⟨m₀, hm₀, hentry⟩ | ⟨r, -, -, rfl⟩
    · rcases hentry.handle_cases with hsame | ⟨-, hnew⟩ | ⟨b, x, k₀, rfl, hx, rfl, hk₀, hnew⟩
      · obtain ⟨ha, hattached⟩ := hs.joined id m₀ k a hm₀ (hsame.symm.trans hk) hjoin
        refine ⟨ha, fun y hy => ?_⟩
        rcases Fleet.step_actor hmanned hstep hy with ⟨x, hx, hevolves⟩ | ⟨r, source, -, hfresh, -⟩
        · exact hevolves.continues.attached (hattached x hx)
        · obtain ⟨x, hx, -⟩ := hs.covered.handled hm₀ (hsame.symm.trans hk)
          exact absurd hfresh (Nat.ne_of_lt (hs.covered.actor_lt (ha ▸ hx)))
      · rw [hk] at hnew
        cases hnew
        cases hjoin
      · rw [hk] at hnew
        cases hnew
        cases hjoin
        refine ⟨(hattach a rfl x hx m₀ hm₀ k₀ hk₀).symm, fun y hy => ?_⟩
        exact Fleet.attached_of_attachJoin hstep hy
    · cases hk
  · intro a y m hy hlive hm
    rcases hs.back hstep hy hlive hm with ⟨x, m₀, hx, hcontinues, hm₀, hmailbox⟩ | ⟨-, hnew⟩
    · rw [hmailbox]
      exact hs.reached a x m₀ hx (hcontinues.live hlive) hm₀
    · rw [hnew]
      exact .inl rfl
  · intro a ha
    obtain ⟨hlt, hattached⟩ := hs.handed a ha
    refine ⟨Nat.lt_of_lt_of_le hlt hnext, fun y hy => ?_⟩
    rcases Fleet.step_actor hmanned hstep hy with ⟨x, hx, hevolves⟩ | ⟨r, source, -, hfresh, -⟩
    · exact hevolves.continues.attached (hattached x hx)
    · exact absurd hfresh (Nat.ne_of_lt hlt)
  · exact hs.taking
  · intro n ids hvisit
    obtain ⟨hle, hin⟩ := hs.visited n ids hvisit
    refine ⟨Nat.le_trans hle hnext, ?_⟩
    intro a y m hlt hy hlive hm hmailbox
    rcases hs.back hstep hy hlive hm with ⟨x, m₀, hx, hcontinues, hm₀, hsame⟩ | ⟨hfresh, -⟩
    · rw [hcontinues.process]
      exact hin a x m₀ hlt hx (hcontinues.live hlive) hm₀ (hsame ▸ hmailbox)
    · exact absurd (hfresh ▸ hlt) (Nat.not_lt.mpr hle)
  · intro n calls hpc
    obtain ⟨hle, hafter⟩ := hs.ended n calls hpc
    refine ⟨Nat.le_trans hle hnext, ?_⟩
    intro a y hy hlive
    rcases Fleet.step_actor hmanned hstep hy with ⟨x, hx, hevolves⟩ | ⟨r, source, rfl, rfl, rfl⟩
    · have hcontinues := hevolves.continues
      rw [hcontinues.origin]
      exact hafter a x hx (hcontinues.live hlive)
    · exact ⟨hle, hlaunch r n calls rfl hpc⟩

theorem Sound.of_pc (hs : s.Sound) (hfleet : t.sup.fleet = s.sup.fleet)
    (hhands : t.pc.hands = s.pc.hands)
    (htaking : ∀ pass ids h, t.pc = .taken pass ids h → h.join = some h.mailbox)
    (hvisited : t.pc.toVisit = none ∨ t.pc.toVisit = s.pc.toVisit)
    (hended : ∀ n calls, t.pc = .returned false n calls → n ≤ s.sup.fleet.nextActor ∧
      ∀ a x, s.sup.fleet.actors a = some x → x.Live → n ≤ a ∧ calls ≤ x.origin.call) : t.Sound := by
  constructor
  · rw [hfleet]
    exact hs.covered
  · rw [hfleet]
    exact hs.joined
  · rw [hfleet, hhands]
    exact hs.reached
  · rw [hfleet, hhands]
    exact hs.handed
  · exact htaking
  · intro n ids hvisit
    rw [hfleet]
    rcases hvisited with hnone | hsame
    · rw [hnone] at hvisit
      cases hvisit
    · exact hs.visited n ids (hsame ▸ hvisit)
  · rw [hfleet]
    exact hended

variable {id : ProcessId}

theorem mem_withLiveActor (hlt : id < f.nextProcess) (hm : f.registry id = some m)
    (hhandle : m.handle ≠ none) : id ∈ f.withLiveActor := by
  obtain ⟨k, hk⟩ := ne_none_iff_exists'.mp hhandle
  have hbox : f.mailboxOf id = some k.mailbox := Fleet.mailboxOf_eq_some.mpr ⟨m, k.join, hm, hk⟩
  unfold Fleet.withLiveActor
  simp [hlt, hbox]

theorem Sound.scan (hs : s.Sound) {order : List ProcessId} (hpc : s.pc = .latched)
    (horder : order.Perm s.sup.fleet.withLiveActor) :
    Sound { s with pc := .visiting ⟨s.sup.fleet.nextActor, [], false⟩ order } := by
  have hhands : s.pc.hands = [] := by
    rw [hpc]
    rfl
  constructor
  · exact hs.covered
  · exact hs.joined
  · have hreached := hs.reached
    rw [hhands] at hreached
    exact hreached
  · intro a ha
    cases ha
  · intro pass ids h heq
    cases heq
  · intro n ids hvisit
    cases hvisit
    refine ⟨Nat.le_refl _, ?_⟩
    intro a x m hlt hx hlive hm hmailbox
    refine horder.mem_iff.mpr (mem_withLiveActor (hs.covered.entry_lt hm) hm fun hnone => ?_)
    rw [hnone] at hmailbox
    cases hmailbox
  · intro n calls heq
    cases heq

variable {pass : ReapPass}

theorem Sound.take (hs : s.Sound) {rest : List ProcessId} {h : Handle}
    (hpc : s.pc = .visiting pass (id :: rest)) (hm : s.sup.fleet.registry id = some m)
    (hk : m.handle = some h) (hjoin : h.join.isSome = true) :
    Sound { s.withFleet
        { s.sup.fleet with registry := s.sup.fleet.registry.put id m.withoutHandle } with
      pc := .taken pass rest h } := by
  obtain ⟨b, hb⟩ := isSome_iff_exists.mp hjoin
  obtain ⟨rfl, hattached⟩ := hs.joined id m h b hm hk hb
  have hhands : s.pc.hands = pass.joins := by
    rw [hpc]
    rfl
  constructor
  · obtain ⟨g, hshadows, hg⟩ := hs.covered
    exact ⟨g, ⟨hshadows.actors, hshadows.nextProcess, hshadows.nextActor,
      hshadows.registry.taken hm hk⟩, hg⟩
  · intro i m' k a hm' hk' hjoin'
    rcases put_eq_some.mp hm' with ⟨-, rfl⟩ | ⟨-, hm'⟩
    · cases hk'
    · exact hs.joined i m' k a hm' hk' hjoin'
  · intro a x m' hx hlive hm'
    rcases put_eq_some.mp hm' with ⟨hprocess, rfl⟩ | ⟨-, hm'⟩
    · right
      rcases hs.reached a x m hx hlive (hprocess ▸ hm) with hhandle | hin
      · rw [hk] at hhandle
        cases hhandle
        exact mem_append_right _ (.head _)
      · rw [hhands] at hin
        exact mem_append_left _ hin
    · rcases hs.reached a x m' hx hlive hm' with hhandle | hin
      · exact .inl hhandle
      · rw [hhands] at hin
        exact .inr (mem_append_left _ hin)
  · intro a ha
    rcases mem_append.mp ha with hin | hlast
    · exact hs.handed a (hhands ▸ hin)
    · cases mem_singleton.mp hlast
      obtain ⟨x, hx, -⟩ := hs.covered.handled hm hk
      exact ⟨hs.covered.actor_lt hx, hattached⟩
  · intro pass' ids k heq
    cases heq
    exact hb
  · intro n ids hvisit
    have hold : s.pc.toVisit = some (n, id :: ids) := by
      have hrest : (if pass.midLaunch then none else some (pass.scanned, rest)) = some (n, ids) :=
        hvisit
      rw [hpc, ShutdownPc.toVisit]
      split_ifs at hrest ⊢
      cases hrest
      rfl
    obtain ⟨hle, hin⟩ := hs.visited n (id :: ids) hold
    refine ⟨hle, ?_⟩
    intro a x m' hlt hx hlive hm' hmailbox
    rcases put_eq_some.mp hm' with ⟨-, rfl⟩ | ⟨hne, hm'⟩
    · cases hmailbox
    · exact (mem_cons.mp (hin a x m' hlt hx hlive hm' hmailbox)).resolve_left hne
  · intro n calls heq
    cases heq

variable {awaited : Bool}

theorem Sound.join (hs : s.Sound) {rest : List ActorId} (hpc : s.pc = .awaiting pass awaited)
    (hjoins : pass.joins = a :: rest)
    (hended : ∀ x, s.sup.fleet.actors a = some x → x.finished = true) :
    Sound { s with pc := .awaiting { pass with joins := rest } awaited } := by
  have hhands : s.pc.hands = a :: rest := by
    rw [hpc]
    exact hjoins
  constructor
  · exact hs.covered
  · exact hs.joined
  · intro b x m hx hlive hm
    refine (hs.reached b x m hx hlive hm).imp_right fun hin => ?_
    rw [hhands] at hin
    rcases mem_cons.mp hin with rfl | hin
    · have hdone := hended x hx
      simp only [Actor.finished, decide_eq_true_eq] at hdone
      exact absurd hdone.1 hlive
    · exact hin
  · intro b hb
    exact hs.handed b (hhands ▸ .tail _ hb)
  · intro pass' ids h heq
    cases heq
  · intro n ids hvisit
    refine hs.visited n ids ?_
    rw [hpc]
    exact hvisit
  · intro n calls heq
    cases heq

/-- At the end of a pass nothing is in hand; if the shutdown returns, every launch was there when the
pass began, so no live actor is left. -/
theorem Sound.endPass (hs : s.Sound) (hpc : s.pc = .awaiting pass awaited)
    (hjoins : pass.joins = [])
    (hheeded : pass.midLaunch = false → s.sup.fleet.nextActor = pass.scanned ∧ s.sup.NoneClosing) :
    (s.afterPass pass awaited).Sound := by
  have hhands : s.pc.hands = [] := by
    rw [hpc]
    exact hjoins
  unfold afterPass
  split_ifs with hmid hawaited hidle
  · refine hs.of_pc rfl hhands.symm (fun _ _ _ heq => by cases heq) (.inl rfl) ?_
    intro n calls heq
    cases heq
    refine ⟨Nat.le_refl _, ?_⟩
    intro a x hx hlive
    exfalso
    obtain ⟨hscanned, hclosing⟩ := hheeded hmid
    have hlt := hs.covered.actor_lt hx
    obtain ⟨m, hm⟩ := isSome_iff_exists.mp (hclosing a hlt x hx hlive)
    have hvisit : s.pc.toVisit = some (pass.scanned, []) := by
      rw [hpc, ShutdownPc.toVisit, hmid]
      rfl
    rcases hs.reached a x m hx hlive hm with hhandle | hin
    · have hmem := (hs.visited pass.scanned [] hvisit).2 a x m (hscanned ▸ hlt) hx hlive hm hhandle
      cases hmem
    · rw [hhands] at hin
      cases hin
  all_goals
    exact hs.of_pc rfl hhands.symm (fun _ _ _ heq => by cases heq) (.inl rfl)
      fun _ _ heq => by cases heq

theorem sound_step [Sha256] (hs : s.Sound) (hheeded : s.Heeded e) (h : s.step e = some t) :
    t.Sound := by
  cases turn_of_step h with
  | core e sup hstep =>
    rcases Supervisor.step_fleet hstep with hsame | ⟨act, hact, hissues⟩
    · exact hs.of_pc hsame rfl hs.taking (.inr rfl) hs.ended
    · refine hs.step_fleet hact ?_ ?_
      · rintro a rfl
        cases hissues with
        | direct _ _ hacts =>
          cases hacts
          exact hheeded
      · rintro r n calls rfl hpc
        cases hissues with
        | direct _ _ hacts => cases hacts
        | launch c now fault kind id info hclaims =>
          have hnone : c < calls → ¬ s.sup.Claims c := by
            have hguard := hheeded
            simp only [Heeded, hpc] at hguard
            exact hguard
          by_contra hlt
          obtain ⟨claim, hclaim, -⟩ := map_eq_some_iff.mp hact
          obtain ⟨m, hm, hrest, -⟩ := Registry.beginLaunch_eq_some.mp hclaim
          exact hnone (Nat.not_le.mp hlt) ⟨(kind, id, info), hclaims, m, hm, hrest⟩
  | ask hpc =>
    have hhands : s.pc.hands = [] := by
      rw [hpc]
      rfl
    exact hs.of_pc rfl hhands.symm (fun _ _ _ heq => by cases heq) (.inl rfl)
      fun _ _ heq => by cases heq
  | scan order hpc horder => exact hs.scan hpc horder
  | take pass id rest m k hpc hm hk hjoin => exact hs.take hpc hm hk hjoin
  | miss pass id rest hpc =>
    have hhands : s.pc.hands = pass.joins := by
      rw [hpc]
      rfl
    exact hs.of_pc rfl hhands.symm (fun _ _ _ heq => by cases heq) (.inl rfl)
      fun _ _ heq => by cases heq
  | message pass rest k hpc =>
    have hjoin := hs.taking pass rest k hpc
    have hmoved : (s.withFleet (s.sup.fleet.signalStop k)).Sound := by
      have hact : s.sup.fleet.step (.signalStop k) = some (s.sup.fleet.signalStop k) := rfl
      exact hs.step_fleet hact (fun a heq => by cases heq) (fun r n calls heq => by cases heq)
    refine hmoved.of_pc rfl ?_ (fun _ _ _ heq => by cases heq) (.inr ?_) fun _ _ heq => by cases heq
    · have hhands : (s.withFleet (s.sup.fleet.signalStop k)).pc.hands = pass.joins ++ [k.mailbox] := by
        rw [withFleet, hpc]
        rfl
      rw [hhands, ShutdownPc.hands, hjoin]
      rfl
    · rw [withFleet, hpc]
      rfl
  | nudge pass rest id hpc =>
    have hmoved : (s.withFleet (s.sup.fleet.signal id .stop)).Sound := by
      have hact : s.sup.fleet.step (.stop id) = some (s.sup.fleet.signal id .stop) := rfl
      exact hs.step_fleet hact (fun a heq => by cases heq) (fun r n calls heq => by cases heq)
    have hhands : (s.withFleet (s.sup.fleet.signal id .stop)).pc.hands = pass.joins := by
      rw [withFleet, hpc]
      rfl
    exact hmoved.of_pc rfl hhands.symm (fun _ _ _ heq => by cases heq) (.inl rfl)
      fun _ _ heq => by cases heq
  | await pass hpc =>
    have hhands : s.pc.hands = pass.joins := by
      rw [hpc]
      rfl
    refine hs.of_pc rfl hhands.symm (fun _ _ _ heq => by cases heq) (.inr ?_)
      fun _ _ heq => by cases heq
    rw [hpc]
    rfl
  | join pass awaited a rest hpc hjoins hended => exact hs.join hpc hjoins hended
  | endPass pass awaited hpc hjoins =>
    refine hs.endPass hpc hjoins ?_
    have hguard := hheeded
    simp only [Heeded, hpc] at hguard
    exact hguard

/-- Once a shutdown has returned short of its cap, whatever is live was launched after it returned,
by a call that began after it returned: at the return itself no child is live, and no actor is left
to spawn one. -/
def Drained (s : Quitting) : Prop :=
  ∀ n calls, s.pc = .returned false n calls → ∀ a x, s.sup.fleet.actors a = some x →
    x.child ≠ .none ∨ x.Live → n ≤ a ∧ calls ≤ x.origin.call

/-- In a run whose launches are all claimed before the last scan, a shutdown leaves nothing alive. -/
theorem shutdown_drains [Sha256] (h : quittingMachine.ReachableUnder Heeded s) : s.Drained := by
  have hs : s.Sound := by
    refine h.invariant ?_ ?_
    · intro s hs
      rw [hs]
      exact sound_init
    · intro s e t hheeded hs hstep
      exact sound_step hs hheeded hstep
  intro n calls hpc a x hx hleft
  refine (hs.ended n calls hpc).2 a x hx ?_
  rcases hleft with hchild | hlive
  · exact hs.covered.live_of_child hx hchild
  · exact hlive

def quitTerminal : List QuittingEvent :=
  startTerminal.map .core ++ [.core (.publish 0), .ask, .scan [1], .take, .message,
    .core (.move 0 .recv), .core (.advance 0), .core (.publish 0), .core (.move 0 .reap),
    .core (.advance 0), .core (.publish 0), .await, .join, .endPass]

theorem shutdown_drains_terminal :
    letI := zeroSha
    ∃ s, quittingMachine.ReachableUnder Heeded s ∧ s.pc = .returned false 1 1 ∧ s.Drained := by
  let _ := zeroSha
  obtain ⟨s, hs, hpc⟩ := Machine.exists_reachableUnder_of_run (G := Heeded) (M := quittingMachine)
    rfl quitTerminal (by decide) (fun s => s.pc = .returned false 1 1) (by decide)
  exact ⟨s, hs, hpc, shutdown_drains hs⟩

/-- The start of a terminal, up to the claim that its next access makes. -/
def aboutToClaim : List QuittingEvent := (claimTerminal.take 4).map .core

def claimAndSpawn : List QuittingEvent :=
  [.core (.proceed 0 0 none), .core (.publish 0), .core (.move 0 .spawnTask),
    .core (.attachJoin 0), .core (.move 0 .poll), .core (.move 0 .tryRecv),
    .core (.move 0 (.spawn []))]

/-- A launch that began before the shutdown claims its process after the scan. The shutdown returns
beside its live child; and when the claim comes later still, the child is spawned after the
return. -/
theorem launch_outlives_shutdown :
    letI := zeroSha
    (∃ s, quittingMachine.Reachable s ∧ s.pc = .returned false 1 1 ∧
        ∃ x, s.sup.fleet.actors 0 = some x ∧ x.child = .live) ∧
      ∃ s, quittingMachine.Reachable s ∧ s.pc = .returned false 0 1 ∧
        ∃ x, s.sup.fleet.actors 0 = some x ∧ x.child = .live ∧ x.origin.call = 0 := by
  let _ := zeroSha
  constructor
  · obtain ⟨s, hs, hpc, hchild⟩ := Machine.exists_reachable_of_run (M := quittingMachine) rfl
      (aboutToClaim ++ [.ask, .scan []] ++ claimAndSpawn ++ [.await, .endPass])
      (fun s => s.pc = .returned false 1 1 ∧
        (s.sup.fleet.actors 0).any fun x => x.child = .live) (by decide)
    obtain ⟨x, hx, hlive⟩ := Option.any_eq_true _ _ |>.mp hchild
    exact ⟨s, hs, hpc, x, hx, of_decide_eq_true hlive⟩
  · obtain ⟨s, hs, hpc, hchild⟩ := Machine.exists_reachable_of_run (M := quittingMachine) rfl
      (aboutToClaim ++ [.ask, .scan [], .await, .endPass] ++ claimAndSpawn)
      (fun s => s.pc = .returned false 0 1 ∧
        (s.sup.fleet.actors 0).any fun x => x.child = .live ∧ x.origin.call = 0) (by decide)
    obtain ⟨x, hx, hlive⟩ := Option.any_eq_true _ _ |>.mp hchild
    exact ⟨s, hs, hpc, x, hx, of_decide_eq_true hlive⟩

end Quitting
end Soloist
