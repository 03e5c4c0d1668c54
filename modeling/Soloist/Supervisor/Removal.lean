import Soloist.Supervisor.Handles
import Soloist.Terminal.Channels

/-! Removing a process while it is being launched, restarted and relaunched, with what the parts of
the app keep for it: its entry, its terminal channel, its locks and its crash window. A launch opens
the channel after it has claimed the process; a close frees it once the actor's task has ended. -/
namespace Soloist

namespace Call

def removing : Call → Option ProcessId
  | .closing id _ | .reaping id _ | .removed id _ => some id
  | _ => none

def target : Call → Option ProcessId
  | .described _ id _ | .trusted _ id _ | .ready _ id _ | .policyBegun id | .policyOpen id
  | .scheduled id _ _ | .relaunching id _ _ | .exhausting id | .exhausted id | .stopping id
  | .closing id _ | .reaping id _ | .removed id _ | .reloading id _ _ _ => some id
  | .returned _ => none

end Call

namespace Actor

/-- An actor that ended in its launch, before its inner task started. -/
def Aborted (x : Actor) : Prop := x.pc = .done ∧ x.status = .starting

instance (x : Actor) : Decidable x.Aborted := inferInstanceAs (Decidable (_ ∧ _))

/-- The inner task has started: however it ends, it releases the locks of its process. -/
def Started (x : Actor) : Prop := x.pc ≠ .launching ∧ x.pc ≠ .scheduled ∧ ¬ x.Aborted

instance (x : Actor) : Decidable x.Started := inferInstanceAs (Decidable (_ ∧ _ ∧ _))

end Actor

structure Removal where
  sup : Supervisor
  terminals : Terminals
  /-- The processes that hold a lease or a todo lock, or wait for an answer to a trust request. -/
  locks : List ProcessId
  /-- The actors that have released the locks of their process. -/
  released : List ActorId
  /-- The closes that have freed the terminal channel of their process. -/
  freed : List CallId

inductive RemovalEvent
  | core (e : SupervisorEvent)
  /-- The launcher opens the terminal channel for its new actor. -/
  | openTerminal (a : ActorId)
  /-- A close has awaited the actor and frees the channel. -/
  | freeTerminal (c : CallId)
  /-- Output, a viewer or a clear. -/
  | terminal (e : TerminalEvent)
  | acquire (id : ProcessId)
  /-- `release_all`, which is best-effort: the store may fail it. -/
  | releaseAll (a : ActorId) (fault : Bool)

namespace Removal

/-- The actor's task has ended, its locks released. -/
def Over (s : Removal) (a : ActorId) : Prop :=
  ∀ x ∈ s.sup.fleet.actors a, x.finished = true ∧ (a ∈ s.released ∨ x.Aborted)

instance (s : Removal) (a : ActorId) : Decidable (s.Over a) :=
  inferInstanceAs (Decidable (∀ x ∈ s.sup.fleet.actors a, _))

/-- What comes before a step of the supervisor: a launch announces itself once its channel is open,
and a close awaits the whole of its actor's task and frees the channel before it says so. -/
def Due (s : Removal) : SupervisorEvent → Prop
  | .publish a => ∀ x ∈ s.sup.fleet.actors a, x.pc = .launching →
      (s.terminals.recorders a).isSome = true
  | .proceed c _ _ =>
    match s.sup.calls c with
    | some (.reaping _ (some a)) => s.Over a
    | some (.removed _ (.done _)) => c ∈ s.freed
    | _ => True
  | _ => True

instance (s : Removal) : DecidablePred s.Due := fun e =>
  match e with
  | .publish a => inferInstanceAs (Decidable (∀ x ∈ s.sup.fleet.actors a, _ → _))
  | .proceed c _ _ =>
    match hc : s.sup.calls c with
    | some (.reaping _ (some a)) => decidable_of_iff (s.Over a) (by simp only [Due, hc])
    | some (.removed _ (.done _)) => decidable_of_iff (c ∈ s.freed) (by simp only [Due, hc])
    | none | some (.described ..) | some (.trusted ..) | some (.ready ..) | some (.policyBegun _)
    | some (.policyOpen _) | some (.scheduled ..) | some (.relaunching ..) | some (.exhausting _)
    | some (.exhausted _) | some (.stopping _) | some (.closing ..) | some (.reaping _ none)
    | some (.removed _ (.messaged _)) | some (.removed _ (.updated _))
    | some (.removed _ (.launched _)) | some (.removed _ .skippedUntrusted)
    | some (.removed _ (.policy _)) | some (.reloading ..) | some (.returned _) =>
      isTrue (by simp only [Due, hc])
  | .register _ | .reload .. | .deregister _ | .launch .. | .stop _ | .close _ | .setTrusted ..
  | .beginShutdown | .attachJoin _ | .advance _ | .move .. | .overflow | .reactorRecv _
  | .reactorNext => isTrue trivial

def leavesChannels : TerminalEvent → Bool
  | .open _ _ | .remove _ => false
  | .record .. | .markRestart .. | .clear _ | .attach .. | .recv _ => true

def step [Sha256] (s : Removal) : RemovalEvent → Option Removal
  | .core e => if s.Due e then (s.sup.step e).map fun sup => { s with sup } else none
  | .openTerminal a =>
    (s.sup.fleet.actors a).bind fun x =>
      if x.pc = .launching ∧ s.terminals.recorders a = none then
        some { s with terminals := s.terminals.open x.process a }
      else none
  | .freeTerminal c =>
    match s.sup.calls c with
    | some (.removed id (.done _)) =>
      some { s with terminals := s.terminals.remove id, freed := c :: s.freed }
    | _ => none
  | .terminal e =>
    if leavesChannels e then (s.terminals.step e).map fun terminals => { s with terminals }
    else none
  | .acquire id => some { s with locks := id :: s.locks }
  | .releaseAll a fault =>
    (s.sup.fleet.actors a).bind fun x =>
      if x.finished ∧ ¬ x.Aborted ∧ a ∉ s.released then
        some { s with
          locks := if fault then s.locks else s.locks.filter fun id => id ≠ x.process
          released := a :: s.released }
      else none

def init : Removal := ⟨.init, .new, [], [], []⟩

end Removal

/-- The supervisor from the app's start, with the terminals and the locks of its processes. -/
def removalMachine [Sha256] : Machine Removal RemovalEvent where
  init s := s = .init
  step := Removal.step

namespace Removal
variable [Sha256] {s t : Removal} {e : RemovalEvent}

inductive Turn (s : Removal) : RemovalEvent → Removal → Prop
  | core (e : SupervisorEvent) (sup : Supervisor) (hdue : s.Due e) (h : s.sup.step e = some sup) :
    Turn s (.core e) { s with sup }
  | openTerminal (a : ActorId) (x : Actor) (hx : s.sup.fleet.actors a = some x)
    (hpc : x.pc = .launching) :
    Turn s (.openTerminal a) { s with terminals := s.terminals.open x.process a }
  | freeTerminal (c : CallId) (id : ProcessId) (result : Except SupervisorError Unit)
    (hc : s.sup.calls c = some (.removed id (.done result))) :
    Turn s (.freeTerminal c) { s with terminals := s.terminals.remove id, freed := c :: s.freed }
  | terminal (e : TerminalEvent) (terminals : Terminals) (hleaves : leavesChannels e = true)
    (h : s.terminals.step e = some terminals) : Turn s (.terminal e) { s with terminals }
  | acquire (id : ProcessId) : Turn s (.acquire id) { s with locks := id :: s.locks }
  | releaseAll (a : ActorId) (fault : Bool) (x : Actor) (hx : s.sup.fleet.actors a = some x)
    (hfinished : x.finished = true) :
    Turn s (.releaseAll a fault) { s with
      locks := if fault then s.locks else s.locks.filter fun id => id ≠ x.process
      released := a :: s.released }

theorem turn_of_step (h : s.step e = some t) : s.Turn e t := by
  cases e with
  | core e =>
    simp only [step] at h
    split_ifs at h with hdue
    obtain ⟨sup, hsup, rfl⟩ := Option.map_eq_some_iff.mp h
    exact .core e sup hdue hsup
  | openTerminal a =>
    obtain ⟨x, hx, hopen⟩ := Option.bind_eq_some_iff.mp h
    split_ifs at hopen with hguard
    cases hopen
    exact .openTerminal a x hx hguard.1
  | freeTerminal c =>
    simp only [step] at h
    split at h
    next id result hc =>
      cases h
      exact .freeTerminal c id result hc
    · cases h
  | terminal e =>
    simp only [step] at h
    split_ifs at h with hleaves
    obtain ⟨terminals, hterminals, rfl⟩ := Option.map_eq_some_iff.mp h
    exact .terminal e terminals hleaves hterminals
  | acquire id =>
    cases h
    exact .acquire id
  | releaseAll a fault =>
    obtain ⟨x, hx, hrelease⟩ := Option.bind_eq_some_iff.mp h
    split at hrelease
    next hguard =>
      cases hrelease
      exact .releaseAll a fault x hx hguard.1
    · cases hrelease

end Removal
end Soloist
