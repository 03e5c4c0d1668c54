import Soloist.Supervisor.Registry

/-! The process actor: its mailbox, its loop as a program counter between awaits, and everything
one step of it may do. -/
namespace Soloist

abbrev CallId := Nat

/-- The entry points a launch comes from. -/
inductive LaunchKind
  | start
  | restart
  | resume
  | bulkStart (autoStartOnly : Bool)
  | policy
  deriving DecidableEq, Repr

/-- A request to run a child, as it was accepted: by claiming the launch or by messaging the live
actor. The program carries none of it; it is the history the statements speak about. -/
structure Request where
  serial : Nat
  call : CallId
  via : LaunchKind
  process : ProcessId
  kind : ProcessKind
  project : ProjectId
  /-- The variant whose trust the call checked. -/
  variant : Option Hash
  /-- The spec the call read next to that variant. -/
  launch : SpawnSpec
  /-- The spec the registry held when the request was accepted. -/
  current : SpawnSpec
  deriving DecidableEq

/-- A restart carries its request for the statements only: the message itself is bare. -/
inductive ActorMsg
  | stop
  | restart (sender : Request)
  deriving DecidableEq

inductive DomainEvent
  | processStatusChanged (id : ProcessId) (source target : ProcStatus) (exitCode : Option Int)
  | processRemoved (id : ProcessId)
  | restartScheduled (id : ProcessId) (attempt limit : Nat)
  | restartExhausted (id : ProcessId)
  deriving DecidableEq, Repr

/-- How a child finished: an exit code, or the signal that terminated it. -/
structure ExitStatus where
  code : Option Int
  signal : Option Int
  deriving DecidableEq, Repr

def ExitStatus.success (st : ExitStatus) : Bool := st.code = some 0 ∧ st.signal = none

def classifyExit (st : ExitStatus) : ProcStatus × Option Int :=
  if st.success then (.stopped, st.code) else (.crashed, st.code)

/-- The child an actor holds; an exited one has not been observed by the actor yet. -/
inductive Child
  | none
  | live
  | exited (status : ExitStatus)
  deriving DecidableEq, Repr

/-- Where a launch and its actor's loop stand between two steps. -/
inductive Pc
  /-- claimed; the launcher announces `Starting` and spawns the task -/
  | launching
  /-- the outer task exists but has not started the inner one -/
  | scheduled
  /-- top of the loop, draining the mailbox for a stop -/
  | top
  | halting
  | halted
  | resolving
  | failed
  | spawned
  | selecting
  | exiting (status : ExitStatus)
  | stopping
  | reaping
  | restarting
  | cycling
  | cycled
  | done
  deriving DecidableEq, Repr

def Pc.mirror : Pc → ProcStatus
  | .launching | .scheduled | .top | .halting | .resolving | .failed | .spawned => .starting
  | .selecting | .exiting _ | .stopping | .restarting => .running
  | .reaping | .halted => .stopping
  | .cycling | .cycled => .restarting
  | .done => .stopped

def Pc.holdsChild : Pc → Bool
  | .spawned | .selecting | .stopping | .reaping | .restarting | .cycling => true
  | _ => false

/-- Points from which the loop spawns a child unless it is stopped or the spawn fails. -/
def Pc.spawning : Pc → Bool
  | .launching | .scheduled | .top | .resolving | .restarting | .cycling | .cycled => true
  | _ => false

/-- The transition an actor makes next, with the exit code and where it continues. -/
def Pc.pending : Pc → Option (ProcStatus × Option Int × Pc)
  | .halting => some (.stopping, none, .halted)
  | .halted => some (.stopped, none, .done)
  | .failed => some (.crashed, none, .done)
  | .spawned => some (.running, none, .selecting)
  | .exiting st => some ((classifyExit st).1, (classifyExit st).2, .done)
  | .stopping => some (.stopping, none, .reaping)
  | .restarting => some (.restarting, none, .cycling)
  | .cycled => some (.starting, none, .top)
  | _ => none

structure Actor where
  process : ProcessId
  launch : SpawnSpec
  /-- The local status mirror. -/
  status : ProcStatus
  pc : Pc
  mailbox : List ActorMsg
  /-- Whether the registry, or a close that took the handle, still holds the sender. -/
  senderOpen : Bool
  attached : Bool
  child : Child
  /-- A transition already in the registry and still to be published. -/
  outbox : Option DomainEvent
  /-- The request that claimed the launch. -/
  origin : Request
  /-- The requests taken since the last spawn. -/
  causes : List Request

/-- A child that was spawned: the launch spec its actor captured, the spec handed to the spawner,
the request the actor was launched for, and the requests that led to this child. -/
structure Spawn where
  actor : ActorId
  process : ProcessId
  launch : SpawnSpec
  spec : SpawnSpec
  origin : Request
  causes : List Request
  deriving DecidableEq

inductive ActorMove
  | spawnTask
  | poll
  | tryRecv
  | spawn (captured : Env)
  | spawnFailed
  | recv
  | exit
  | reap
  | childExit (status : ExitStatus)
  deriving DecidableEq, Repr

def mailboxCapacity : Nat := 4

namespace Actor

def claimed (r : Request) (source : ProcStatus) : Actor where
  process := r.process
  launch := r.launch
  status := .starting
  pc := .launching
  mailbox := []
  senderOpen := true
  attached := false
  child := .none
  outbox := some (.processStatusChanged r.process source .starting none)
  origin := r
  causes := [r]

def finished (x : Actor) : Bool := x.pc = .done ∧ x.outbox = none

def trySend (x : Actor) (msg : ActorMsg) : Actor :=
  if x.finished ∨ mailboxCapacity ≤ x.mailbox.length then x
  else { x with mailbox := x.mailbox ++ [msg] }

def dropSender (x : Actor) : Actor := { x with senderOpen := false }

def turn (x : Actor) (mv : ActorMove) : Option Actor :=
  match x.pc, mv with
  | .launching, .spawnTask => some { x with pc := .scheduled }
  | .scheduled, .poll => some { x with pc := .top }
  | .top, .tryRecv =>
    match x.mailbox with
    | .stop :: rest => some { x with mailbox := rest, pc := .halting }
    | .restart r :: rest => some { x with mailbox := rest, causes := x.causes ++ [r] }
    | [] => some { x with pc := if x.senderOpen then .resolving else .halting }
  | .resolving, .spawn _ => some { x with pc := .spawned, child := .live, causes := [] }
  | .resolving, .spawnFailed => some { x with pc := .failed }
  | .selecting, .exit =>
    match x.child with
    | .exited st => some { x with pc := .exiting st, child := .none }
    | _ => none
  | .selecting, .recv =>
    match x.mailbox with
    | .restart r :: rest =>
      some { x with mailbox := rest, pc := .restarting, causes := x.causes ++ [r] }
    | .stop :: rest => some { x with mailbox := rest, pc := .stopping }
    -- a dropped mailbox means stop
    | [] => if x.senderOpen then none else some { x with pc := .stopping }
  | .reaping, .reap => some { x with pc := .halted, child := .none }
  | .cycling, .reap => some { x with pc := .cycled, child := .none }
  | _, _ => none

/-- One step of the task or of its child. A pending publication comes before the task's next. -/
def move (x : Actor) : ActorMove → Option Actor
  | .childExit st => if x.child = .live then some { x with child := .exited st } else none
  | mv => if x.outbox = none then x.turn mv else none

def spawns (x : Actor) (a : ActorId) : ActorMove → List Spawn
  | .spawn captured =>
    [⟨a, x.process, x.launch, x.launch.child x.process captured, x.origin, x.causes⟩]
  | _ => []

/-- Everything one step may do. -/
inductive Moves (x : Actor) : ActorMove → Actor → Prop
  | childExit (st : ExitStatus) (hlive : x.child = .live) :
    Moves x (.childExit st) { x with child := .exited st }
  | spawnTask (hout : x.outbox = none) (hpc : x.pc = .launching) :
    Moves x .spawnTask { x with pc := .scheduled }
  | poll (hout : x.outbox = none) (hpc : x.pc = .scheduled) : Moves x .poll { x with pc := .top }
  | drainStop (rest : List ActorMsg) (hout : x.outbox = none) (hpc : x.pc = .top)
      (hbox : x.mailbox = .stop :: rest) :
    Moves x .tryRecv { x with mailbox := rest, pc := .halting }
  | drainRestart (r : Request) (rest : List ActorMsg) (hout : x.outbox = none) (hpc : x.pc = .top)
      (hbox : x.mailbox = .restart r :: rest) :
    Moves x .tryRecv { x with mailbox := rest, causes := x.causes ++ [r] }
  | drained (hout : x.outbox = none) (hpc : x.pc = .top) (hbox : x.mailbox = []) :
    Moves x .tryRecv { x with pc := if x.senderOpen then .resolving else .halting }
  | spawn (captured : Env) (hout : x.outbox = none) (hpc : x.pc = .resolving) :
    Moves x (.spawn captured) { x with pc := .spawned, child := .live, causes := [] }
  | spawnFailed (hout : x.outbox = none) (hpc : x.pc = .resolving) :
    Moves x .spawnFailed { x with pc := .failed }
  | exit (st : ExitStatus) (hout : x.outbox = none) (hpc : x.pc = .selecting)
      (hchild : x.child = .exited st) :
    Moves x .exit { x with pc := .exiting st, child := .none }
  | recvRestart (r : Request) (rest : List ActorMsg) (hout : x.outbox = none)
      (hpc : x.pc = .selecting) (hbox : x.mailbox = .restart r :: rest) :
    Moves x .recv { x with mailbox := rest, pc := .restarting, causes := x.causes ++ [r] }
  | recvStop (rest : List ActorMsg) (hout : x.outbox = none) (hpc : x.pc = .selecting)
      (hbox : x.mailbox = .stop :: rest) :
    Moves x .recv { x with mailbox := rest, pc := .stopping }
  | disconnected (hout : x.outbox = none) (hpc : x.pc = .selecting) (hbox : x.mailbox = [])
      (hopen : x.senderOpen = false) :
    Moves x .recv { x with pc := .stopping }
  | reap (hout : x.outbox = none) (hpc : x.pc = .reaping) :
    Moves x .reap { x with pc := .halted, child := .none }
  | cycle (hout : x.outbox = none) (hpc : x.pc = .cycling) :
    Moves x .reap { x with pc := .cycled, child := .none }

theorem turn_cases {x x' : Actor} {mv : ActorMove} (hout : x.outbox = none)
    (h : x.turn mv = some x') : x.Moves mv x' := by
  unfold turn at h
  split at h
  next hpc => cases h; exact .spawnTask hout hpc
  next hpc => cases h; exact .poll hout hpc
  next hpc =>
    split at h
    next rest hbox => cases h; exact .drainStop rest hout hpc hbox
    next r rest hbox => cases h; exact .drainRestart r rest hout hpc hbox
    next hbox => cases h; exact .drained hout hpc hbox
  next captured hpc => cases h; exact .spawn captured hout hpc
  next hpc => cases h; exact .spawnFailed hout hpc
  next hpc =>
    split at h
    next st hchild => cases h; exact .exit st hout hpc hchild
    next => cases h
  next hpc =>
    split at h
    next r rest hbox => cases h; exact .recvRestart r rest hout hpc hbox
    next rest hbox => cases h; exact .recvStop rest hout hpc hbox
    next hbox =>
      split_ifs at h with hopen
      cases h
      exact .disconnected hout hpc hbox (Bool.eq_false_iff.mpr hopen)
  next hpc => cases h; exact .reap hout hpc
  next hpc => cases h; exact .cycle hout hpc
  next => cases h

theorem move_cases {x x' : Actor} {mv : ActorMove} (h : x.move mv = some x') : x.Moves mv x' := by
  unfold move at h
  split at h
  next st =>
    split_ifs at h with hlive
    cases h
    exact .childExit st hlive
  next =>
    split_ifs at h with hout
    exact turn_cases hout h

variable {x : Actor} {msg sent : ActorMsg}

theorem trySend_eq (x : Actor) (msg : ActorMsg) :
    ∃ box, x.trySend msg = { x with mailbox := box } := by
  unfold trySend
  split_ifs
  · exact ⟨x.mailbox, rfl⟩
  · exact ⟨_, rfl⟩

@[simp] theorem trySend_process : (x.trySend msg).process = x.process := by
  obtain ⟨box, hbox⟩ := x.trySend_eq msg
  rw [hbox]

@[simp] theorem trySend_pc : (x.trySend msg).pc = x.pc := by
  obtain ⟨box, hbox⟩ := x.trySend_eq msg
  rw [hbox]

@[simp] theorem trySend_outbox : (x.trySend msg).outbox = x.outbox := by
  obtain ⟨box, hbox⟩ := x.trySend_eq msg
  rw [hbox]

@[simp] theorem trySend_senderOpen : (x.trySend msg).senderOpen = x.senderOpen := by
  obtain ⟨box, hbox⟩ := x.trySend_eq msg
  rw [hbox]

theorem mem_trySend (h : msg ∈ (x.trySend sent).mailbox) : msg ∈ x.mailbox ∨ msg = sent := by
  unfold trySend at h
  split_ifs at h with hfull
  · exact .inl h
  · simpa using h

theorem mailbox_subset_trySend (x : Actor) (msg : ActorMsg) :
    x.mailbox ⊆ (x.trySend msg).mailbox := by
  unfold trySend
  split_ifs
  · exact List.Subset.refl _
  · exact List.subset_append_left _ _

theorem mem_trySend_of_room (hpc : x.pc ≠ .done) (hroom : x.mailbox.length < mailboxCapacity) :
    msg ∈ (x.trySend msg).mailbox := by
  have hsend : ¬ (x.finished = true ∨ mailboxCapacity ≤ x.mailbox.length) := by
    rintro (hfinished | hfull)
    · have hended : x.pc = .done ∧ x.outbox = none := by simpa [finished] using hfinished
      exact hpc hended.1
    · omega
  unfold trySend
  rw [if_neg hsend]
  exact List.mem_append_right _ (.head _)

end Actor
end Soloist
