import Soloist.Agents.Classifier
import Soloist.Agents.Lineage

/-! Agents under the idle sampler: the registry and the actors behind it, each process's terminal
buffers, the launches in progress, and the sampler with the two maps it prunes. Each party advances
by one access to shared state at a time. -/
namespace Soloist

/-- Where the actor of a process stands. -/
inductive ActorPoint
  | resting
  /-- About to mark the restart boundary. -/
  | top
  /-- About to spawn a child. -/
  | spawning
  /-- Holds a child not announced yet. -/
  | spawned
  | selecting
  /-- The child is being stopped; its output still drains. -/
  | draining
  deriving DecidableEq, Repr

structure ManagedProcess where
  status : ProcStatus
  point : ActorPoint
  /-- The bytes the child printed since it was spawned. -/
  printed : ℕ
  /-- Whether the child set a title since it was spawned. -/
  titled : Bool
  deriving DecidableEq, Repr

/-- A launch call past its registration, as what it does next. -/
inductive LaunchCall
  | starting (kind : Option AgentKind)
  | tracking (kind : AgentKind)
  | recording
  deriving DecidableEq, Repr

abbrev AgentRegistry := Dict ProcessId ManagedProcess

/-- A tick of the sampler, as what it holds before its next access. -/
inductive SamplerTick
  | asleep
  | listed (tracked : List ProcessId)
  | snapping (tracked : List ProcessId)
  /-- About to prune the tracker. -/
  | snapped (registry : AgentRegistry) (tracked : List ProcessId)
  /-- About to prune the lineage. -/
  | pruned (registry : AgentRegistry) (tracked : List ProcessId)
  | visiting (registry : AgentRegistry) (rest : List ProcessId)
  | sampled (registry : AgentRegistry) (id : ProcessId) (signals : TerminalActivity)
      (rest : List ProcessId)

structure AgentSystem where
  registry : AgentRegistry
  nextProcess : ProcessId
  terminals : Slots ProcessId TerminalBuffers
  launches : Slots ProcessId LaunchCall
  tracker : Dict ProcessId Classifier
  lineage : AgentLineage
  sampler : SamplerTick

inductive AgentEvent
  /-- A configured command joins the registry. -/
  | register
  /-- A launch registers its process: an agent of some kind, or a command. -/
  | launch (kind : Option AgentKind)
  /-- The launch starts its process, unless that is gone or the start is refused. -/
  | launchStart (id : ProcessId) (accepted : Bool)
  | track (id : ProcessId)
  /-- Records the bound lead that spawned the process, if one did. -/
  | record (id : ProcessId) (lead : Option ProcessId)
  | start (id : ProcessId)
  | markRestart (id : ProcessId) (signals : List TerminalSignal) (overflow : ℕ)
  /-- A stop reaches the actor before its child is spawned. -/
  | halt (id : ProcessId)
  | spawn (id : ProcessId)
  | spawnFailed (id : ProcessId) (message : Bytes) (signals : List TerminalSignal) (overflow : ℕ)
  | run (id : ProcessId)
  | output (id : ProcessId) (data : Bytes) (signals : List TerminalSignal) (overflow : ℕ)
  | exit (id : ProcessId) (success : Bool)
  | stop (id : ProcessId)
  | stopped (id : ProcessId)
  | restart (id : ProcessId)
  | cycle (id : ProcessId)
  /-- The actor panics. -/
  | panic (id : ProcessId)
  | exhaust (id : ProcessId)
  | clear (id : ProcessId)
  | remove (id : ProcessId)
  | removeTerminal (id : ProcessId)
  /-- A tick lists the tracked agents, in some order. -/
  | tick (order : List ProcessId)
  /-- The next access of a tick; `tail` is what the rendered terminal ends in. -/
  | sample (tail : List String)
  | samplerPanic

namespace ManagedProcess

def new : ManagedProcess := ⟨.stopped, .resting, 0, false⟩

def isRunning (p : ManagedProcess) : Bool := p.status = .running

def moved (status : ProcStatus) (point : ActorPoint) (p : ManagedProcess) : ManagedProcess :=
  { p with status, point }

/-- A new child has printed nothing and set no title. -/
def spawned (p : ManagedProcess) : ManagedProcess := ⟨p.status, .spawned, 0, false⟩

def printing (data : Bytes) (signals : List TerminalSignal) (p : ManagedProcess) :
    ManagedProcess :=
  { p with
    printed := p.printed + data.length
    titled := p.titled || (signals.findSome? TerminalSignal.title?).isSome }

def advance (p : ManagedProcess) : AgentEvent → Option ManagedProcess
  | .start _ => if p.status.isActive then none else some (p.moved .starting .top)
  | .markRestart _ _ _ => if p.point = .top then some (p.moved p.status .spawning) else none
  | .halt _ => if p.point = .top then some (p.moved .stopping .draining) else none
  | .spawn _ => if p.point = .spawning then some p.spawned else none
  | .spawnFailed _ _ _ _ =>
    if p.point = .spawning then some (p.moved .crashed .resting) else none
  | .run _ => if p.point = .spawned then some (p.moved .running .selecting) else none
  | .output _ data signals _ =>
    if p.point = .selecting ∨ p.point = .draining then some (p.printing data signals) else none
  | .exit _ success =>
    if p.point = .selecting then
      some (p.moved (if success then .stopped else .crashed) .resting)
    else none
  | .stop _ => if p.point = .selecting then some (p.moved .stopping .draining) else none
  | .stopped _ => if p.status = .stopping then some (p.moved .stopped .resting) else none
  | .restart _ => if p.point = .selecting then some (p.moved .restarting .draining) else none
  | .cycle _ => if p.status = .restarting then some (p.moved .starting .top) else none
  | .panic _ => if p.status.isActive then some (p.moved .crashed .resting) else none
  | .exhaust _ =>
    if p.status = .crashed then some (p.moved .restartExhausted .resting) else none
  | _ => none

end ManagedProcess

namespace AgentSystem

def new : AgentSystem := ⟨∅, 1, .empty, .empty, ∅, ∅, .asleep⟩

def inRegistry (s : AgentSystem) (id : ProcessId) : Bool := (s.registry.lookup id).isSome

def tracked (s : AgentSystem) (id : ProcessId) : Bool := (s.tracker.lookup id).isSome

def terminalAfter (t : Option TerminalBuffers) : AgentEvent → Option TerminalBuffers
  | .start _ => some (t.getD .shared)
  | .markRestart _ signals overflow =>
    t.map fun b => if b.hasOutput then b.ingest restartBanner signals overflow else b
  | .spawnFailed _ data signals overflow | .output _ data signals overflow =>
    t.map fun b => b.ingest data signals overflow
  | _ => t

def advance (s : AgentSystem) (id : ProcessId) (e : AgentEvent) : Option AgentSystem :=
  (s.registry.lookup id).bind fun p => (p.advance e).map fun p' =>
    { s with
      registry := AList.insert id p' s.registry
      terminals := fun i => if i = id then terminalAfter (s.terminals i) e else s.terminals i }

/-- `Supervisor::start` of a launch: a resting process is launched, an active one is left, and a
start that fails ends the call. -/
def launchStart (s : AgentSystem) (id : ProcessId) (accepted : Bool) (kind : Option AgentKind) :
    AgentSystem :=
  if s.inRegistry id ∧ accepted then
    { (s.advance id (.start id)).getD s with
      launches := s.launches.put id (kind.elim .recording .tracking) }
  else { s with launches := s.launches.erase id }

def sampleNext (s : AgentSystem) (tail : List String) : Option AgentSystem :=
  match s.sampler with
  | .asleep => none
  | .listed tracked =>
    if tracked = [] ∧ s.lineage.isEmpty then some { s with sampler := .asleep }
    else some { s with sampler := .snapping tracked }
  | .snapping tracked => some { s with sampler := .snapped s.registry tracked }
  | .snapped registry tracked =>
    some { s with
      tracker := s.tracker.retain fun id => id ∈ registry.keys
      sampler := .pruned registry tracked }
  | .pruned registry tracked =>
    some { s with
      lineage := s.lineage.retainLive registry.keys
      sampler := .visiting registry tracked }
  | .visiting _ [] => some { s with sampler := .asleep }
  | .visiting registry (id :: rest) =>
    match registry.lookup id with
    | none => some { s with sampler := .visiting registry rest }
    | some p =>
      if p.isRunning then
        match s.terminals id with
        | none => some { s with sampler := .visiting registry rest }
        | some b => some { s with sampler := .sampled registry id (b.activity tail) rest }
      else
        some { s with
          tracker := (s.tracker.lookup id).elim s.tracker fun c => AList.insert id c.reset s.tracker
          sampler := .visiting registry rest }
  | .sampled registry id signals rest =>
    some { s with
      tracker := (s.tracker.lookup id).elim s.tracker fun c =>
        AList.insert id (c.observe signals).1 s.tracker
      sampler := .visiting registry rest }

def step (s : AgentSystem) : AgentEvent → Option AgentSystem
  | .register =>
    some { s with
      registry := AList.insert s.nextProcess .new s.registry
      nextProcess := s.nextProcess + 1 }
  | .launch kind =>
    some { s with
      registry := AList.insert s.nextProcess .new s.registry
      nextProcess := s.nextProcess + 1
      launches := s.launches.put s.nextProcess (.starting kind) }
  | .launchStart id accepted =>
    match s.launches id with
    | some (.starting kind) => some (s.launchStart id accepted kind)
    | _ => none
  | .track id =>
    match s.launches id with
    | some (.tracking kind) =>
      some { s with
        tracker := AList.insert id (.new kind) s.tracker
        launches := s.launches.put id .recording }
    | _ => none
  | .record id lead =>
    match s.launches id with
    | some .recording =>
      some { s with
        lineage := lead.elim s.lineage (s.lineage.record id)
        launches := s.launches.erase id }
    | _ => none
  | .start id => s.advance id (.start id)
  | .markRestart id signals overflow => s.advance id (.markRestart id signals overflow)
  | .halt id => s.advance id (.halt id)
  | .spawn id => s.advance id (.spawn id)
  | .spawnFailed id message signals overflow =>
    s.advance id (.spawnFailed id message signals overflow)
  | .run id => s.advance id (.run id)
  | .output id data signals overflow => s.advance id (.output id data signals overflow)
  | .exit id success => s.advance id (.exit id success)
  | .stop id => s.advance id (.stop id)
  | .stopped id => s.advance id (.stopped id)
  | .restart id => s.advance id (.restart id)
  | .cycle id => s.advance id (.cycle id)
  | .panic id => s.advance id (.panic id)
  | .exhaust id => s.advance id (.exhaust id)
  | .clear id => some { s with terminals := s.terminals.modify id TerminalBuffers.clear }
  | .remove id =>
    if s.inRegistry id then some { s with registry := AList.erase id s.registry } else none
  | .removeTerminal id =>
    if s.inRegistry id then none else some { s with terminals := s.terminals.erase id }
  | .tick order =>
    match s.sampler with
    | .asleep =>
      if order.isPerm s.tracker.keys then some { s with sampler := .listed order } else none
    | _ => none
  | .sample tail => s.sampleNext tail
  | .samplerPanic =>
    match s.sampler with
    | .asleep => none
    | _ => some { s with sampler := .asleep }

end AgentSystem

def agentMachine : Machine AgentSystem AgentEvent where
  init s := s = .new
  step := AgentSystem.step

end Soloist
