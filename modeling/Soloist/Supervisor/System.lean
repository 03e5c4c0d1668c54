import Soloist.Machine
import Soloist.Supervisor.Actor
import Soloist.Supervisor.RestartPolicy

/-! The registry together with the actors it launches: every atomic step that touches either. -/
namespace Soloist

structure Fleet where
  registry : Registry
  actors : Slots ActorId Actor
  nextProcess : ProcessId
  nextActor : ActorId
  nextRequest : Nat
  spawns : List Spawn

namespace Fleet

def empty : Fleet := ⟨Slots.empty, Slots.empty, 1, 0, 0, []⟩

def setActor (f : Fleet) (a : ActorId) (x : Actor) : Fleet :=
  { f with actors := f.actors.put a x }

/-- Registers a process as `Stopped` without starting it. -/
def register [Sha256] (f : Fleet) (r : Registration) : Fleet :=
  { f with registry := f.registry.add f.nextProcess r, nextProcess := f.nextProcess + 1 }

/-- Claims a resting process and creates its actor; `none` when the claim is refused. -/
def launchActor (f : Fleet) (r : Request) : Option Fleet :=
  (f.registry.beginLaunch r.process f.nextActor).map fun claim =>
    { f with
      registry := claim.2
      actors := f.actors.put f.nextActor (.claimed r claim.1)
      nextActor := f.nextActor + 1
      nextRequest := f.nextRequest + 1 }

def mailboxOf (f : Fleet) (id : ProcessId) : Option ActorId :=
  ((f.registry id).bind Managed.handle).map Handle.mailbox

/-- Best-effort message to the actor `a`; a full or closed mailbox drops it. -/
def send (f : Fleet) (a : ActorId) (msg : ActorMsg) : Fleet :=
  { f with actors := f.actors.modify a (·.trySend msg) }

def signal (f : Fleet) (id : ProcessId) (msg : ActorMsg) : Fleet :=
  match f.mailboxOf id with
  | none => f
  | some a => f.send a msg

section signal
variable {f : Fleet} {id : ProcessId} {msg : ActorMsg}

theorem signal_of_mailboxOf {a : ActorId} (h : f.mailboxOf id = some a) :
    f.signal id msg = f.send a msg := by
  simp only [signal, h]

theorem signal_eq (f : Fleet) (id : ProcessId) (msg : ActorMsg) :
    ∃ actors, f.signal id msg = { f with actors } := by
  unfold signal
  split
  · exact ⟨f.actors, rfl⟩
  · exact ⟨_, rfl⟩

@[simp] theorem signal_registry : (f.signal id msg).registry = f.registry := by
  obtain ⟨actors, hactors⟩ := f.signal_eq id msg
  rw [hactors]

@[simp] theorem signal_spawns : (f.signal id msg).spawns = f.spawns := by
  obtain ⟨actors, hactors⟩ := f.signal_eq id msg
  rw [hactors]

@[simp] theorem signal_nextProcess : (f.signal id msg).nextProcess = f.nextProcess := by
  obtain ⟨actors, hactors⟩ := f.signal_eq id msg
  rw [hactors]

@[simp] theorem signal_nextActor : (f.signal id msg).nextActor = f.nextActor := by
  obtain ⟨actors, hactors⟩ := f.signal_eq id msg
  rw [hactors]

@[simp] theorem signal_nextRequest : (f.signal id msg).nextRequest = f.nextRequest := by
  obtain ⟨actors, hactors⟩ := f.signal_eq id msg
  rw [hactors]

end signal

def signalRestart (f : Fleet) (r : Request) : Fleet :=
  { f.signal r.process (.restart r) with nextRequest := f.nextRequest + 1 }

def signalStop (f : Fleet) (h : Handle) : Fleet :=
  { f with actors := f.actors.modify h.mailbox fun x => (x.trySend .stop).dropSender }

/-- The launcher attaches the task's join handle. A superseded launch is aborted, which reaches
the actor only before its task starts the inner one. -/
def attachJoin (f : Fleet) (a : ActorId) : Option Fleet :=
  match f.actors a with
  | none => none
  | some x =>
    if x.attached ∨ x.pc = .launching then none
    else
      match f.registry.attachJoin x.process a with
      | some g => some { f.setActor a { x with attached := true } with registry := g }
      | none =>
        some (f.setActor a
          { x with attached := true, pc := if x.pc = .scheduled then .done else x.pc })

/-- One transition of an actor: the registry is updated from the actor's own mirror, unless the
state machine refuses the edge. -/
def advance (f : Fleet) (a : ActorId) : Option Fleet :=
  match f.actors a with
  | none => none
  | some x =>
    if x.outbox = none then
      match x.pc.pending with
      | none => none
      | some (target, code, next) =>
        match x.status.transition target with
        | .ok new =>
          some { f.setActor a
              { x with
                pc := next
                status := new
                outbox := some (.processStatusChanged x.process x.status new code) } with
            registry := f.registry.setStatus x.process new code }
        | .error _ => some (f.setActor a { x with pc := next })
    else none

/-- Hands the pending transition of an actor to the event bus. -/
def publish (f : Fleet) (a : ActorId) : Option (DomainEvent × Fleet) :=
  match f.actors a with
  | none => none
  | some x => x.outbox.map fun event => (event, f.setActor a { x with outbox := none })

def move (f : Fleet) (a : ActorId) (mv : ActorMove) : Option Fleet :=
  match f.actors a with
  | none => none
  | some x => (x.move mv).map fun x' =>
      { f.setActor a x' with spawns := f.spawns ++ x.spawns a mv }

end Fleet

inductive FleetAct
  | register (r : Registration)
  | updateCommandSpec (id : ProcessId) (r : Registration)
  | removeIfResting (id : ProcessId)
  | removeReturningHandle (id : ProcessId)
  | exhaust (id : ProcessId)
  | launch (r : Request)
  | restart (r : Request)
  | stop (id : ProcessId)
  | signalStop (h : Handle)
  | attachJoin (a : ActorId)
  | advance (a : ActorId)
  | publish (a : ActorId)
  | move (a : ActorId) (mv : ActorMove)

def Fleet.step [Sha256] (f : Fleet) : FleetAct → Option Fleet
  | .register r => some (f.register r)
  | .updateCommandSpec id r =>
    some { f with registry := (f.registry.updateCommandSpec id r).1 }
  | .removeIfResting id => some { f with registry := (f.registry.removeIfResting id).1 }
  | .removeReturningHandle id =>
    (f.registry.removeReturningHandle id).map fun removed => { f with registry := removed.1 }
  | .exhaust id => some { f with registry := (f.registry.exhaustIfCrashed id).1 }
  | .launch r => f.launchActor r
  | .restart r => some (f.signalRestart r)
  | .stop id => some (f.signal id .stop)
  | .signalStop h => some (f.signalStop h)
  | .attachJoin a => f.attachJoin a
  | .advance a => f.advance a
  | .publish a => (f.publish a).map Prod.snd
  | .move a mv => f.move a mv

/-- The registry and its actors under arbitrary callers. -/
def fleetMachine [Sha256] : Machine Fleet FleetAct where
  init f := f = .empty
  step := Fleet.step

end Soloist

/-! The supervisor under any interleaving of its callers, its actors, their children and the
restart reactor. A call advances by one atomic access to shared state at a time. -/
namespace Soloist

inductive SupervisorError
  | notFound (id : ProcessId)
  | untrusted
  | notResumable (id : ProcessId)
  | store (error : StoreError)
  deriving DecidableEq, Repr

inductive Reply
  | done (result : Except SupervisorError Unit)
  /-- A stop: whether an active process was messaged. -/
  | messaged (active : Bool)
  /-- A reload's update or removal of one registration. -/
  | updated (found : Bool)
  /-- A bulk start's candidate: launched, lost to another launch, or skipped as untrusted. -/
  | launched (claimed : Bool)
  | skippedUntrusted
  | policy (outcome : RestartOutcome)

/-- A call under way, as what it holds before its next access. -/
inductive Call
  | described (kind : LaunchKind) (id : ProcessId) (info : EntryInfo)
  | trusted (kind : LaunchKind) (id : ProcessId) (info : EntryInfo)
  | ready (kind : LaunchKind) (id : ProcessId) (info : EntryInfo)
  | policyBegun (id : ProcessId)
  | policyOpen (id : ProcessId)
  | scheduled (id : ProcessId) (info : EntryInfo) (attempt : Nat)
  | relaunching (id : ProcessId) (info : EntryInfo) (attempt : Nat)
  | exhausting (id : ProcessId)
  | exhausted (id : ProcessId)
  | stopping (id : ProcessId)
  | closing (id : ProcessId) (handle : Option Handle)
  | reaping (id : ProcessId) (join : Option ActorId)
  | removed (id : ProcessId) (reply : Reply)
  | reloading (id : ProcessId) (project : ProjectId) (root : PathBuf) (spec : ProcessSpec)
  | returned (reply : Reply)

/-- The self-healing loop: waiting for an event, or applying the policy to one crash with more of
a rescan to follow. -/
inductive Reactor
  | idle
  | handling (call : CallId) (rest : List ProcessId)
  deriving DecidableEq, Repr

namespace LaunchKind

def spec (kind : LaunchKind) (info : EntryInfo) : SpawnSpec :=
  match kind, info.resumeCommand with
  | .resume, some command => { info.launch with command }
  | _, _ => info.launch

/-- A bulk start keeps no crash history to clear, so it launches next. -/
def afterTrust (kind : LaunchKind) (id : ProcessId) (info : EntryInfo) : Call :=
  match kind with
  | .bulkStart _ => .ready kind id info
  | _ => .trusted kind id info

def untrusted : LaunchKind → Reply
  | .policy => .policy .notEligible
  | .bulkStart _ => .skippedUntrusted
  | _ => .done (.error .untrusted)

def storeFailed (kind : LaunchKind) (e : StoreError) : Reply :=
  match kind with
  | .policy => .policy .notEligible
  | _ => .done (.error (.store e))

def launchReply (kind : LaunchKind) (claimed : Bool) : Reply :=
  match kind with
  | .bulkStart _ => .launched claimed
  | _ => .done (.ok ())

end LaunchKind

structure Supervisor where
  fleet : Fleet
  trust : ProjectId → Hash → Bool
  policy : RestartPolicy
  calls : Slots CallId Call
  nextCall : CallId
  /-- The process events the reactor has not read, oldest first. -/
  bus : List DomainEvent
  lagged : Bool
  reactor : Reactor
  /-- The trust checks that passed: by which call, for which variant of which project. -/
  checks : List (CallId × ProjectId × Hash)

inductive SupervisorEvent
  | register (r : Registration)
  /-- A reload applies the changed spec of the command `id`. -/
  | reload (id : ProcessId) (project : ProjectId) (root : PathBuf) (spec : ProcessSpec)
  | deregister (id : ProcessId)
  | launch (kind : LaunchKind) (id : ProcessId)
  | stop (id : ProcessId)
  | close (id : ProcessId)
  /-- The next access of a call, with the clock and the store fault it meets. -/
  | proceed (call : CallId) (now : Instant) (fault : Option StoreError)
  | setTrusted (project : ProjectId) (variant : Hash) (trusted : Bool)
  | beginShutdown
  | attachJoin (a : ActorId)
  | advance (a : ActorId)
  | publish (a : ActorId)
  | move (a : ActorId) (mv : ActorMove)
  /-- The bounded event channel drops the reactor's oldest event. -/
  | overflow
  /-- The reactor reads its next event; after a lag it offers the crashed processes in some order. -/
  | reactorRecv (order : List ProcessId)
  | reactorNext

namespace Supervisor

def init : Supervisor where
  fleet := .empty
  trust _ _ := false
  policy := .new
  calls := Slots.empty
  nextCall := 0
  bus := []
  lagged := false
  reactor := .idle
  checks := []

def begin (s : Supervisor) (call : Call) : Supervisor :=
  { s with calls := s.calls.put s.nextCall call, nextCall := s.nextCall + 1 }

def setCall (s : Supervisor) (c : CallId) (call : Call) : Supervisor :=
  { s with calls := s.calls.put c call }

/-- The first access of `start`, `restart`, `resume` and of a bulk start's candidate: reading the
entry. -/
def openLaunch (s : Supervisor) (kind : LaunchKind) (id : ProcessId) : Option Call :=
  match kind, s.fleet.registry id with
  | .policy, _ => none
  | .bulkStart _, none => none
  | _, none => some (.returned (.done (.error (.notFound id))))
  | .start, some m =>
    if m.status.isActive then some (.returned (.done (.ok ())))
    else some (.described .start id m.info)
  | .restart, some m => some (.described .restart id m.info)
  | .resume, some m =>
    if m.resumeCommand = none then some (.returned (.done (.error (.notResumable id))))
    else if m.status.isActive then some (.returned (.done (.ok ())))
    else some (.described .resume id m.info)
  | .bulkStart autoStartOnly, some m =>
    if m.kind = .command ∧ m.status = .stopped ∧ (autoStartOnly = true → m.autoStart = true) then
      some (.described (.bulkStart autoStartOnly) id m.info)
    else none

def openStop (s : Supervisor) (id : ProcessId) : Call :=
  match s.fleet.registry.status id with
  | some status => if status.isActive then .stopping id else .returned (.messaged false)
  | none => .returned (.messaged false)

/-- `command_id_by_name` finds commands of the reloaded project only. -/
def isCommandIn (s : Supervisor) (id : ProcessId) (project : ProjectId) : Bool :=
  (s.fleet.registry id).any fun m => m.kind = .command ∧ m.project = project

def guardTrust (s : Supervisor) (c : CallId) (kind : LaunchKind) (id : ProcessId)
    (info : EntryInfo) (fault : Option StoreError) : Supervisor :=
  match info.trustVariant, fault with
  | none, _ => s.setCall c (kind.afterTrust id info)
  | some _, some e => s.setCall c (.returned (kind.storeFailed e))
  | some variant, none =>
    if s.trust info.project variant then
      { s.setCall c (kind.afterTrust id info) with
        checks := (c, info.project, variant) :: s.checks }
    else s.setCall c (.returned kind.untrusted)

/-- A user call clears the crash history; the policy counts the crash and decides. -/
def afterTrusted (s : Supervisor) (c : CallId) (kind : LaunchKind) (id : ProcessId)
    (info : EntryInfo) (now : Instant) : Supervisor :=
  match kind with
  | .policy =>
    match s.policy.onCrash id now with
    | (policy, .restart attempt) => { s.setCall c (.scheduled id info attempt) with policy }
    | (policy, .exhaust) => { s.setCall c (.exhausting id) with policy }
  | _ => { s.setCall c (.ready kind id info) with policy := s.policy.forget id }

def request (s : Supervisor) (c : CallId) (kind : LaunchKind) (id : ProcessId)
    (info : EntryInfo) : Request where
  serial := s.fleet.nextRequest
  call := c
  via := kind
  process := id
  kind := info.kind
  project := info.project
  variant := info.trustVariant
  launch := kind.spec info
  current := kind.spec ((s.fleet.registry.describe id).getD info)

def launch (s : Supervisor) (c : CallId) (kind : LaunchKind) (id : ProcessId) (info : EntryInfo)
    (reply : Bool → Reply) : Supervisor :=
  match s.fleet.launchActor (s.request c kind id info) with
  | some fleet => { s.setCall c (.returned (reply true)) with fleet }
  | none => s.setCall c (.returned (reply false))

/-- A restart of a process read as active messages its actor; any other launch claims. -/
def accept (s : Supervisor) (c : CallId) (kind : LaunchKind) (id : ProcessId)
    (info : EntryInfo) : Supervisor :=
  if kind = .restart ∧ info.status.isActive then
    { s.setCall c (.returned (.done (.ok ()))) with
      fleet := s.fleet.signalRestart (s.request c kind id info) }
  else s.launch c kind id info kind.launchReply

def openPolicy (s : Supervisor) (id : ProcessId) : Call :=
  match s.fleet.registry.describe id with
  | none => .returned (.policy .notEligible)
  | some info =>
    if info.autoRestart then .described .policy id info else .returned (.policy .notEligible)

/-- Messages the taken handle's actor to stop and goes on to await it. -/
def signalClose (s : Supervisor) (c : CallId) (id : ProcessId) : Option Handle → Supervisor
  | none => s.setCall c (.removed id (.done (.ok ())))
  | some h => { s.setCall c (.reaping id h.join) with fleet := s.fleet.signalStop h }

def joined (s : Supervisor) : Option ActorId → Bool
  | none => true
  | some a => (s.fleet.actors a).all Actor.finished

def proceed [Sha256] (s : Supervisor) (c : CallId) (now : Instant) (fault : Option StoreError) :
    Option Supervisor :=
  match s.calls c with
  | none | some (.returned _) => none
  | some (.described kind id info) => some (s.guardTrust c kind id info fault)
  | some (.trusted kind id info) => some (s.afterTrusted c kind id info now)
  | some (.ready kind id info) => some (s.accept c kind id info)
  | some (.policyBegun id) =>
    if s.policy.shuttingDown then some (s.setCall c (.returned (.policy .notEligible)))
    else some (s.setCall c (.policyOpen id))
  | some (.policyOpen id) => some (s.setCall c (s.openPolicy id))
  | some (.scheduled id info attempt) =>
    some { s.setCall c (.relaunching id info attempt) with
      bus := s.bus ++ [.restartScheduled id attempt maxRestarts] }
  | some (.relaunching id info attempt) =>
    some (s.launch c .policy id info fun _ => .policy (.restarted attempt))
  | some (.exhausting id) =>
    match s.fleet.registry.exhaustIfCrashed id with
    | (registry, true) =>
      some { s.setCall c (.exhausted id) with fleet := { s.fleet with registry } }
    | (_, false) => some (s.setCall c (.returned (.policy .notEligible)))
  -- two events in a row, then the window: only this call and the reactor running it read them
  | some (.exhausted id) =>
    some { s.setCall c (.returned (.policy .exhausted)) with
      bus := s.bus ++
        [.processStatusChanged id .crashed .restartExhausted none, .restartExhausted id]
      policy := s.policy.forget id }
  | some (.stopping id) =>
    some { s.setCall c (.returned (.messaged true)) with fleet := s.fleet.signal id .stop }
  | some (.closing id handle) => some (s.signalClose c id handle)
  | some (.reaping id join) =>
    if s.joined join then some (s.setCall c (.removed id (.done (.ok ())))) else none
  | some (.removed id reply) =>
    some { s.setCall c (.returned reply) with bus := s.bus ++ [.processRemoved id] }
  | some (.reloading id project root spec) =>
    let updated := s.fleet.registry.updateCommandSpec id (.command project root spec)
    some { s.setCall c (.returned (.updated updated.2)) with
      fleet := { s.fleet with registry := updated.1 } }

/-- Offers the next crashed process to the policy, or goes back to waiting. -/
def offer (s : Supervisor) : List ProcessId → Supervisor
  | [] => { s with reactor := .idle }
  | id :: rest => { s.begin (.policyBegun id) with reactor := .handling s.nextCall rest }

def crashed (s : Supervisor) : List ProcessId :=
  (List.range s.fleet.nextProcess).filter fun id =>
    s.fleet.registry.status id = some .crashed

def handle (s : Supervisor) : DomainEvent → Supervisor
  | .processStatusChanged id _ .crashed _ => s.offer [id]
  | .processStatusChanged id _ .stopped _ | .processRemoved id =>
    { s with policy := s.policy.forget id }
  | _ => s

def reactorRecv (s : Supervisor) (order : List ProcessId) : Option Supervisor :=
  if s.reactor = .idle then
    if s.lagged then
      if order.isPerm s.crashed then some ({ s with lagged := false }.offer order) else none
    else
      match s.bus with
      | [] => none
      | event :: rest => some ({ s with bus := rest }.handle event)
  else none

def reactorNext (s : Supervisor) : Option Supervisor :=
  match s.reactor with
  | .idle => none
  | .handling c rest =>
    match s.calls c with
    | some (.returned _) => some (s.offer rest)
    | _ => none

def step [Sha256] (s : Supervisor) : SupervisorEvent → Option Supervisor
  | .register r => some { s with fleet := s.fleet.register r }
  | .reload id project root spec =>
    if s.isCommandIn id project then some (s.begin (.reloading id project root spec)) else none
  | .deregister id =>
    match s.fleet.registry.removeIfResting id with
    | (registry, true) =>
      some { s.begin (.removed id (.updated true)) with fleet := { s.fleet with registry } }
    | (_, false) => some (s.begin (.returned (.updated false)))
  | .launch kind id => (s.openLaunch kind id).map s.begin
  | .stop id => some (s.begin (s.openStop id))
  | .close id =>
    match s.fleet.registry.removeReturningHandle id with
    | some (registry, h) =>
      some { s.begin (.closing id h) with fleet := { s.fleet with registry } }
    | none => some (s.begin (.returned (.done (.error (.notFound id)))))
  | .proceed c now fault => s.proceed c now fault
  | .setTrusted project variant trusted =>
    some { s with
      trust := fun p v => if p = project ∧ v = variant then trusted else s.trust p v }
  | .beginShutdown => some { s with policy := s.policy.beginShutdown }
  | .attachJoin a => (s.fleet.attachJoin a).map fun fleet => { s with fleet }
  | .advance a => (s.fleet.advance a).map fun fleet => { s with fleet }
  | .publish a =>
    (s.fleet.publish a).map fun published =>
      { s with fleet := published.2, bus := s.bus ++ [published.1] }
  | .move a mv => (s.fleet.move a mv).map fun fleet => { s with fleet }
  | .overflow =>
    match s.bus with
    | [] => none
    | _ :: rest => some { s with bus := rest, lagged := true }
  | .reactorRecv order => s.reactorRecv order
  | .reactorNext => s.reactorNext

end Supervisor

def supervisorMachine [Sha256] : Machine Supervisor SupervisorEvent where
  init s := s = .init
  step := Supervisor.step

end Soloist
