import Soloist.Agents.Lineage
import Soloist.Config.Model
import Soloist.Mailbox.Departures
import Soloist.Supervisor.System

/-! A session's spawns of agents and of commands, one access to shared state at a time, among the
revocations, closes, launches and messages of the other sessions. -/
namespace Soloist

structure SpawnProcessRequest where
  command : String
  workingDir : Option String
  env : Env
  label : Option String
  deriving DecidableEq, Repr

inductive SpawnProcessError
  | noProjectScope
  | workerMayNotSpawn
  | unknownProject
  | invalidCommand (error : InvalidCommand)
  | untrusted
  | store (error : StoreError)
  | supervisor (error : SupervisorError)
  deriving DecidableEq, Repr

def defaultLabel (command : String) : String :=
  String.ofList ((command.toList.dropWhile isWhitespace).takeWhile fun c => !isWhitespace c)

def checkedVariant (request : SpawnProcessRequest) : Except InvalidCommand (ProcessSpec × String) := do
  let spec : ProcessSpec := ⟨request.command, request.workingDir, false, false, [], request.env⟩
  checkCommandLine spec
  let label := request.label.getD (defaultLabel spec.command)
  checkCommandName label
  return (spec, label)

/-- A configured agent tool, with the command lines it composes for one launch. -/
structure LaunchTool where
  name : String
  launchCommand : String
  resumeCommand : Option String
  deriving DecidableEq, Repr

/-- What a call launches: an agent, or a command that passed its checks. -/
inductive SpawnJob
  | agent (request : SpawnAgentRequest)
  | process (spec : ProcessSpec) (label : String)
  deriving DecidableEq, Repr

inductive SpawnAsk
  | agent (request : SpawnAgentRequest)
  | process (request : SpawnProcessRequest)
  deriving DecidableEq, Repr

inductive SpawnReply
  | agent (result : Except SpawnAgentError (ProcessId × Option AgentMessageDelivery))
  | process (result : Except SpawnProcessError ProcessId)
  deriving DecidableEq, Repr

def SpawnReply.isError : SpawnReply → Bool
  | .agent (.error _) | .process (.error _) => true
  | .agent (.ok _) | .process (.ok _) => false

/-- Where a call stands, before the access it makes next. -/
inductive SpawnCall
  | scoping (ask : SpawnAsk)
  | gating (ask : SpawnAsk) (project : ProjectId)
  | addressing (request : SpawnAgentRequest) (project : ProjectId) (prompt : String)
  | reserving (request : SpawnAgentRequest) (project : ProjectId) (first : Prepared)
  | tooling (request : SpawnAgentRequest) (project : ProjectId)
  | rooting (request : SpawnAgentRequest) (project : ProjectId) (tool : LaunchTool)
  | placing (spec : ProcessSpec) (label : String) (project : ProjectId)
  | trusting (spec : ProcessSpec) (label : String) (project : ProjectId) (root : PathBuf)
  | registering (job : SpawnJob) (registration : Registration) (label : String)
  | describing (job : SpawnJob) (project : ProjectId) (id : ProcessId)
  | guarding (job : SpawnJob) (project : ProjectId) (id : ProcessId) (info : EntryInfo)
  | launching (job : SpawnJob) (project : ProjectId) (id : ProcessId)
  | nesting (job : SpawnJob) (project : ProjectId) (id : ProcessId)
  | labelling (request : SpawnAgentRequest) (project : ProjectId) (worker : ProcessId)
  | briefing (project : ProjectId) (worker : ProcessId) (label : String)
  | queueing (worker : ProcessId)
  | recording (worker : ProcessId) (delivery : AgentMessageDelivery)
  | cancelling (error : LaunchAgentError)
  | returned (reply : SpawnReply)

/-- What an access meets outside the modelled state: the clock, what the session resolves to, a
fault of a store, and the tool stored under the requested name. -/
structure SpawnEnv where
  now : UInt64 := 0
  project : Option ProjectId := none
  home : Option ProcessId := none
  bound : Option ProcessId := none
  fault : Option StoreError := none
  tool : Option LaunchTool := none

structure SpawnWorld where
  registry : Registry
  labels : Slots ProcessId String
  nextProcess : ProcessId
  /-- The processes a launch was tried for, newest first; no other has ever had a child. -/
  launched : List ProcessId
  trust : ProjectId → Hash → Bool
  projects : Slots ProjectId PathBuf
  lineage : AgentLineage
  room : Mailroom
  /-- The sends of other sessions that have read their roster. -/
  letters : Slots Nat MailboxOp
  calls : Slots Nat SpawnCall
  nextCall : Nat
  /-- The process each call registered. Kept for the statements only. -/
  registered : List (Nat × ProcessId)
  /-- How often each call took a place in the mailbox, and gave one back. Kept for the statements
  only. -/
  taken : Nat → Nat
  given : Nat → Nat

inductive SpawnEvent
  | spawn (ask : SpawnAsk)
  | proceed (call : Nat) (env : SpawnEnv)
  | setTrusted (project : ProjectId) (variant : Hash) (trusted : Bool)
  | openProject (project : ProjectId) (root : PathBuf)
  | removeProject (project : ProjectId)
  /-- Another context registers a process. -/
  | register (registration : Registration) (label : String)
  /-- A process whose spawn is over is launched, by a start or a restart. -/
  | launch (id : ProcessId)
  /-- The actor of a process moves on. -/
  | setStatus (id : ProcessId) (status : ProcStatus) (exitCode : Option Int)
  | rename (id : ProcessId) (label : String)
  | close (id : ProcessId)
  | retainLineage (live : List ProcessId)
  /-- A send or a broadcast that has read its roster, and its enqueue. -/
  | address (letter : Nat) (op : MailboxOp)
  | deliver (letter : Nat)
  /-- Any mailbox operation that neither addresses nor reserves. -/
  | mail (op : MailboxOp)

namespace MailboxOp

def isSpawning : MailboxOp → Bool
  | .enqueue .. | .enqueueMany .. | .reserve .. | .cancel .. | .enqueueReserved ..
  | .queueOnboarding .. => true
  | _ => false

def sender : MailboxOp → Option ProcessId
  | .enqueue _ _ sender _ _ _ _ | .enqueueMany _ _ sender _ _ _ _ => some sender
  | _ => none

def addresses : MailboxOp → List ProcessId
  | .enqueue _ _ _ recipient _ _ _ | .enqueueReserved _ _ recipient => [recipient]
  | .enqueueMany _ _ _ recipients _ _ _ => recipients
  | .queueOnboarding _ process _ => [process]
  | _ => []

end MailboxOp

def AgentLineage.related (l : AgentLineage) (a b : ProcessId) : Bool :=
  (l.needed [a]).any fun ancestor => ancestor ∈ l.needed [b]

/-- A command has nothing queued for it; an agent is briefed, unless the request says otherwise. -/
def SpawnJob.afterNesting (project : ProjectId) (id : ProcessId) : SpawnJob → SpawnCall
  | .process _ _ => .returned (.process (.ok id))
  | .agent request =>
    if request.includeAgentInstructions then .labelling request project id else .queueing id

def SpawnCall.isReturned : SpawnCall → Bool
  | .returned _ => true
  | _ => false

namespace SpawnWorld

def init : SpawnWorld where
  registry := Slots.empty
  labels := Slots.empty
  nextProcess := 1
  launched := []
  trust _ _ := false
  projects := Slots.empty
  lineage := ∅
  room := .empty
  letters := Slots.empty
  calls := Slots.empty
  nextCall := 0
  registered := []
  taken _ := 0
  given _ := 0

def setCall (s : SpawnWorld) (c : Nat) (call : SpawnCall) : SpawnWorld :=
  { s with calls := s.calls.put c call }

def returns (s : SpawnWorld) (c : Nat) (reply : SpawnReply) : SpawnWorld :=
  s.setCall c (.returned reply)

def perform (s : SpawnWorld) (op : MailboxOp) : Option SpawnWorld :=
  (s.room.step op).map fun room => { s with room }

def labelsIn (s : SpawnWorld) (project : ProjectId) : List String :=
  (List.range s.nextProcess).filterMap fun id =>
    if (s.registry id).any fun m => m.project = project then s.labels id else none

def register [Sha256] (s : SpawnWorld) (r : Registration) (label : String) : SpawnWorld :=
  { s with
    registry := s.registry.add s.nextProcess r
    labels := s.labels.put s.nextProcess label
    nextProcess := s.nextProcess + 1 }

/-- Claims the launch of a process, unless it is gone or active. -/
def launch (s : SpawnWorld) (id : ProcessId) : SpawnWorld :=
  let registry := match s.registry.beginLaunch id s.launched.length with
    | none => s.registry
    | some (_, registry) => registry
  { s with registry, launched := id :: s.launched }

/-- A launch that failed gives the reserved place back. -/
def launchFailed (s : SpawnWorld) (c : Nat) (e : LaunchAgentError) : SpawnWorld :=
  match AList.lookup c s.room.prepared with
  | some _ => s.setCall c (.cancelling e)
  | none => s.returns c (.agent (.error (.launch e)))

def startFailed (s : SpawnWorld) (c : Nat) (e : SupervisorError) : SpawnJob → SpawnWorld
  | .agent _ => s.launchFailed c .supervisor
  | .process _ _ => s.returns c (.process (.error (.supervisor e)))

def scope (s : SpawnWorld) (c : Nat) (env : SpawnEnv) (ask : SpawnAsk) : SpawnWorld :=
  match env.project, ask with
  | some project, _ => s.setCall c (.gating ask project)
  | none, .agent _ => s.returns c (.agent (.error .noProjectScope))
  | none, .process _ => s.returns c (.process (.error .noProjectScope))

def callerIsSpawnedWorker (s : SpawnWorld) (env : SpawnEnv) : Bool :=
  (env.home.toList ++ env.bound.toList).any fun caller => (s.lineage.parentOf caller).isSome

def gate (s : SpawnWorld) (c : Nat) (env : SpawnEnv) (project : ProjectId) : SpawnAsk → SpawnWorld
  | .agent request =>
    if s.callerIsSpawnedWorker env then s.returns c (.agent (.error .workerMayNotSpawn))
    else
      match request.prompt with
      | none => s.setCall c (.tooling request project)
      | some prompt =>
        if maxAgentMessageBytes < prompt.utf8ByteSize then
          s.returns c (.agent (.error (.mailbox .messageTooLarge)))
        else s.setCall c (.addressing request project prompt)
  | .process request =>
    if s.callerIsSpawnedWorker env then s.returns c (.process (.error .workerMayNotSpawn))
    else
      match checkedVariant request with
      | .error e => s.returns c (.process (.error (.invalidCommand e)))
      | .ok (spec, label) => s.setCall c (.placing spec label project)

/-- `mailbox_identity`, and that it is of the project in scope. -/
def address (s : SpawnWorld) (c : Nat) (env : SpawnEnv) (request : SpawnAgentRequest)
    (project : ProjectId) (prompt : String) : SpawnWorld :=
  match env.project, env.bound with
  | none, _ => s.returns c (.agent (.error (.mailbox .noProjectScope)))
  | some _, none => s.returns c (.agent (.error (.mailbox .noBoundProcess)))
  | some scope, some sender =>
    if (s.registry sender).any fun m => m.project = scope ∧ m.kind = .agent then
      if scope = project then
        s.setCall c (.reserving request project ⟨project, sender, prompt, request.todoId⟩)
      else s.returns c (.agent (.error (.mailbox .noProjectScope)))
    else s.returns c (.agent (.error (.mailbox .noBoundProcess)))

def reserve (s : SpawnWorld) (c : Nat) (request : SpawnAgentRequest) (project : ProjectId)
    (first : Prepared) : Option SpawnWorld :=
  match (s.room.state.reserveProjectSlot first.project first.prompt.utf8ByteSize).2 with
  | .error e => some (s.returns c (.agent (.error (.mailbox (.ofCapacity e)))))
  | .ok () =>
    (s.perform (.reserve c first)).map fun t =>
      { t.setCall c (.tooling request project) with
        taken := Function.update s.taken c (s.taken c + 1) }

def findTool (s : SpawnWorld) (c : Nat) (env : SpawnEnv) (request : SpawnAgentRequest)
    (project : ProjectId) : SpawnWorld :=
  match env.fault, env.tool with
  | some e, _ => s.launchFailed c (.store e)
  | none, none => s.launchFailed c .unknownTool
  | none, some tool => s.setCall c (.rooting request project tool)

def findRoot (s : SpawnWorld) (c : Nat) (env : SpawnEnv) (request : SpawnAgentRequest)
    (project : ProjectId) (tool : LaunchTool) : SpawnWorld :=
  match env.fault, s.projects project with
  | some e, _ => s.launchFailed c (.store e)
  | none, none => s.launchFailed c .unknownProject
  | none, some root =>
    s.setCall c (.registering (.agent request)
      (.launched project ⟨.agent, ProcessKind.agent_ne_command⟩ ⟨tool.launchCommand, root, []⟩
        tool.resumeCommand) tool.name)

def place (s : SpawnWorld) (c : Nat) (env : SpawnEnv) (spec : ProcessSpec) (label : String)
    (project : ProjectId) : SpawnWorld :=
  match env.fault, s.projects project with
  | some e, _ => s.returns c (.process (.error (.store e)))
  | none, none => s.returns c (.process (.error .unknownProject))
  | none, some root => s.setCall c (.trusting spec label project root)

def checkTrust [Sha256] (s : SpawnWorld) (c : Nat) (env : SpawnEnv) (spec : ProcessSpec)
    (label : String) (project : ProjectId) (root : PathBuf) : SpawnWorld :=
  match env.fault with
  | some e => s.returns c (.process (.error (.store e)))
  | none =>
    if s.trust project spec.variantHash then
      -- more turns than labels are enough
      let labels := s.labelsIn project
      s.setCall c (.registering (.process spec label) (.command project root spec)
        ((Labels.numberLabel label labels (labels.length + 1)).getD label))
    else s.returns c (.process (.error .untrusted))

/-- The supervisor's own gate, which a terminal or an agent passes. -/
def guardTrust (s : SpawnWorld) (c : Nat) (env : SpawnEnv) (job : SpawnJob) (project : ProjectId)
    (id : ProcessId) (info : EntryInfo) : SpawnWorld :=
  match info.trustVariant with
  | none => s.setCall c (.launching job project id)
  | some variant =>
    match env.fault with
    | some e => s.startFailed c (.store e) job
    | none =>
      if s.trust info.project variant then s.setCall c (.launching job project id)
      else s.startFailed c .untrusted job

/-- `Supervisor::start` reads the entry; a process that is active already is not launched again. -/
def describe (s : SpawnWorld) (c : Nat) (job : SpawnJob) (project : ProjectId) (id : ProcessId) :
    SpawnWorld :=
  match s.registry.describe id with
  | none => s.startFailed c (.notFound id) job
  | some info =>
    if info.status.isActive then s.setCall c (.nesting job project id)
    else s.setCall c (.guarding job project id info)

def nest (s : SpawnWorld) (c : Nat) (env : SpawnEnv) (project : ProjectId) (id : ProcessId)
    (job : SpawnJob) : SpawnWorld :=
  let t := s.setCall c (job.afterNesting project id)
  match env.bound with
  | some lead => { t with lineage := s.lineage.record id lead }
  | none => t

/-- The first task takes the place reserved for it, unless the inbox is full; the reservation goes
back either way. -/
def queueTask (s : SpawnWorld) (c : Nat) (now : UInt64) (worker : ProcessId) : Option SpawnWorld :=
  match AList.lookup c s.room.prepared with
  | none => some (s.returns c (.agent (.ok (worker, none))))
  | some first =>
    (s.perform (.enqueueReserved now c worker)).map fun t =>
      let t := { t with given := Function.update s.given c (s.given c + 1) }
      match (s.room.state.enqueueReserved now first.project first.sender worker .task first.prompt
        first.todoId).2 with
      | .error e => t.returns c (.agent (.error (.mailbox (.ofCapacity e))))
      | .ok d => t.setCall c (.recording worker d)

def proceed [Sha256] (s : SpawnWorld) (c : Nat) (env : SpawnEnv) : SpawnCall → Option SpawnWorld
  | .scoping ask => some (s.scope c env ask)
  | .gating ask project => some (s.gate c env project ask)
  | .addressing request project prompt => some (s.address c env request project prompt)
  | .reserving request project first => s.reserve c request project first
  | .tooling request project => some (s.findTool c env request project)
  | .rooting request project tool => some (s.findRoot c env request project tool)
  | .placing spec label project => some (s.place c env spec label project)
  | .trusting spec label project root => some (s.checkTrust c env spec label project root)
  | .registering job r label =>
    some { (s.register r label).setCall c (.describing job r.project s.nextProcess) with
      registered := (c, s.nextProcess) :: s.registered }
  | .describing job project id => some (s.describe c job project id)
  | .guarding job project id info => some (s.guardTrust c env job project id info)
  | .launching job project id => some ((s.launch id).setCall c (.nesting job project id))
  | .nesting job project id => some (s.nest c env project id job)
  | .labelling request project worker =>
    let label := if (s.registry worker).isSome then s.labels worker else none
    some (s.setCall c (.briefing project worker (label.getD request.tool)))
  | .briefing project worker label =>
    (s.perform (.queueOnboarding env.now worker (orchestrationGuide worker project label))).map
      fun t => t.setCall c (.queueing worker)
  | .queueing worker => s.queueTask c env.now worker
  | .recording worker d =>
    (s.perform (.record env.now d)).map fun t => t.returns c (.agent (.ok (worker, some d)))
  | .cancelling e =>
    (s.perform (.cancel c)).map fun t =>
      { t.returns c (.agent (.error (.launch e))) with
        given := Function.update s.given c (s.given c + 1) }
  | .returned _ => none

def underWay (s : SpawnWorld) (id : ProcessId) : Bool :=
  s.registered.any fun entry =>
    entry.2 = id ∧ ((s.calls entry.1).any fun call => !call.isReturned)

def step [Sha256] (s : SpawnWorld) : SpawnEvent → Option SpawnWorld
  | .spawn ask =>
    some { s with calls := s.calls.put s.nextCall (.scoping ask), nextCall := s.nextCall + 1 }
  | .proceed c env =>
    if env.bound.all fun lead => lead ∈ s.launched then (s.calls c).bind (s.proceed c env) else none
  | .setTrusted project variant trusted =>
    some { s with trust := fun p v =>
      if p = project ∧ v = variant then trusted else s.trust p v }
  | .openProject project root => some { s with projects := s.projects.put project root }
  | .removeProject project => some { s with projects := s.projects.erase project }
  | .register r label => some (s.register r label)
  | .launch id =>
    if (s.registry id).isSome ∧ s.underWay id = false then some (s.launch id) else none
  | .setStatus id status exitCode =>
    if id ∈ s.launched then
      some { s with registry := s.registry.setStatus id status exitCode }
    else none
  | .rename id label => some { s with labels := s.labels.modify id fun _ => label }
  | .close id =>
    (s.registry.removeReturningHandle id).map fun removed => { s with registry := removed.1 }
  | .retainLineage live => some { s with lineage := s.lineage.retainLive live }
  -- a roster lists the agents of the sender's own tree
  | .address letter op =>
    match op.sender with
    | none => none
    | some sender =>
      if sender ∈ s.launched ∧ op.addresses.all (s.lineage.related sender) then
        some { s with letters := s.letters.put letter op }
      else none
  | .deliver letter =>
    (s.letters letter).bind fun op =>
      (s.perform op).map fun t => { t with letters := s.letters.erase letter }
  | .mail op => if op.isSpawning then none else s.perform op

end SpawnWorld

def spawnMachine [Sha256] : Machine SpawnWorld SpawnEvent where
  init s := s = .init
  step := SpawnWorld.step

end Soloist
