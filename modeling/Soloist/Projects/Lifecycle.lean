import Soloist.Config.Engine
import Soloist.Supervisor.Handles

/-! Opening, reloading and removing projects, and launching processes in them, one access to shared
state at a time, over the supervisor with its actors. -/
namespace Soloist

/-- What the engine keeps of an open project. -/
structure OpenConfig where
  root : PathBuf
  state : ProjectState

/-- A process launched in a project: a terminal or an agent, or a command that a session spawns. -/
inductive Launching
  | ungated (kind : { k : ProcessKind // k ≠ .command }) (line : String)
      (resumeCommand : Option String)
  | spawned (spec : ProcessSpec)

def Launching.registration (project : ProjectId) (root : PathBuf) : Launching → Registration
  | .ungated kind line resumeCommand => .launched project kind ⟨line, root, []⟩ resumeCommand
  | .spawned spec => .command project root spec

/-- One command of a change set. -/
inductive Change
  | added (name : String)
  | updated (name : String)
  | renamed (r : Rename)
  | removed (name : String)

/-- The commands of a change set, in the order they are reconciled. -/
def ConfigSync.work (d : ConfigSync) : List Change :=
  d.added.map .added ++ d.updated.map .updated ++ d.renamed.map .renamed ++ d.removed.map .removed

def Change.name : Change → String
  | .added name | .updated name | .removed name => name
  | .renamed r => r.fromName

/-- What a change does to the registry once its command has been looked up. -/
inductive Filing
  | register (name : String) (spec : ProcessSpec)
  | update (id : ProcessId) (name : String) (spec : ProcessSpec)
  | drop (id : ProcessId)

def Change.filing (config : SoloYml) (found : Option ProcessId) : Change → Option Filing
  | .added name =>
    match found, config.processes.get name with
    | some id, some spec => some (.update id name spec)
    | none, some spec => some (.register name spec)
    | _, none => none
  | .updated name =>
    match found, config.processes.get name with
    | some id, some spec => some (.update id name spec)
    | _, _ => none
  | .renamed r =>
    match found, config.processes.get r.toName with
    | some id, some spec => some (.update id r.toName spec)
    | _, _ => none
  | .removed _ => found.map .drop

inductive LifecycleOutcome
  | removed (project : ProjectId)
  | refused
  | finished
  deriving DecidableEq, Repr

/-- An operation under way, as what it holds before its next access. A call of the supervisor that
it has made is awaited before it goes on. -/
inductive LifecycleOp
  | removing (project : ProjectId)
  | listingLive (project : ProjectId)
  | stoppingAll (project : ProjectId) (ids : List ProcessId) (call : Option CallId)
  | listing (project : ProjectId)
  | closingAll (project : ProjectId) (ids : List ProcessId) (call : Option CallId)
  | forgetting (project : ProjectId)
  | deleting (project : ProjectId)
  | announcing (project : ProjectId)
  | loading (root : PathBuf)
  | adding (root : PathBuf)
  | seeding (project : ProjectId) (root : PathBuf)
  | reloading (project : ProjectId)
  | snapshotting (project : ProjectId) (root : PathBuf)
  | reading (project : ProjectId) (root : PathBuf) (prev : OpenConfig)
  | storing (project : ProjectId) (root : PathBuf) (next : OpenConfig) (changes : ConfigSync)
  | reviewing (project : ProjectId) (root : PathBuf) (changes : ConfigSync)
  | applying (project : ProjectId) (root : PathBuf) (config : SoloYml) (work : List Change)
      (call : Option CallId)
  | filing (project : ProjectId) (root : PathBuf) (config : SoloYml) (filing : Filing)
      (rest : List Change)
  | launching (project : ProjectId) (launching : Launching) (label : String)
  | registering (registration : Registration) (label : String)
  | starting (id : ProcessId)
  | awaiting (call : CallId)
  | done (outcome : LifecycleOutcome)

/-- What an access meets outside the modelled state: a fault of the project store, what `solo.yml`
reads as, the trust store's answers, and the order or the choice of a hash map. -/
structure LifecycleEnv where
  fault : Option StoreError := none
  read : Except ConfigError (String × SoloYml) := .ok ("", .default)
  trust : TrustLookup := fun _ _ => .ok true
  order : List ProcessId := []
  found : Option ProcessId := none

structure Lifecycle where
  sup : Supervisor
  labels : Slots ProcessId String
  /-- The durable records, each with its root; an id is never used again. -/
  projects : Slots ProjectId PathBuf
  nextProject : ProjectId
  engine : Slots ProjectId OpenConfig
  ops : Slots Nat LifecycleOp
  nextOp : Nat
  /-- The project each process was registered in. Kept for the statements only. -/
  homes : Slots ProcessId ProjectId

inductive LifecycleEvent
  | remove (project : ProjectId)
  | open (root : PathBuf)
  | reload (project : ProjectId)
  | launch (project : ProjectId) (launching : Launching) (label : String)
  | proceed (op : Nat) (env : LifecycleEnv)
  /-- Anything else of the supervisor: starts, stops, restarts, closes, trust decisions, its actors
  and its reactor. -/
  | core (e : SupervisorEvent)
  | rename (id : ProcessId) (label : String)

def SupervisorEvent.isRegister : SupervisorEvent → Bool
  | .register _ => true
  | _ => false

namespace Lifecycle

def init : Lifecycle where
  sup := .init
  labels := Slots.empty
  projects := Slots.empty
  nextProject := 1
  engine := Slots.empty
  ops := Slots.empty
  nextOp := 0
  homes := Slots.empty

def begin (s : Lifecycle) (op : LifecycleOp) : Lifecycle :=
  { s with ops := s.ops.put s.nextOp op, nextOp := s.nextOp + 1 }

def setOp (s : Lifecycle) (k : Nat) (op : LifecycleOp) : Lifecycle :=
  { s with ops := s.ops.put k op }

def ends (s : Lifecycle) (k : Nat) (outcome : LifecycleOutcome) : Lifecycle :=
  s.setOp k (.done outcome)

def idsIn (s : Lifecycle) (project : ProjectId) : List ProcessId :=
  (List.range s.sup.fleet.nextProcess).filter fun id =>
    (s.sup.fleet.registry id).any fun m => m.project = project

def liveIn (s : Lifecycle) (project : ProjectId) : List ProcessId :=
  (List.range s.sup.fleet.nextProcess).filter fun id =>
    (s.sup.fleet.registry id).any fun m => m.project = project ∧ m.status.isActive

def named (s : Lifecycle) (project : ProjectId) (name : String) : List ProcessId :=
  (List.range s.sup.fleet.nextProcess).filter fun id =>
    s.sup.isCommandIn id project ∧ s.labels id = some name

def projectAt (s : Lifecycle) (root : PathBuf) : Option ProjectId :=
  (List.range s.nextProject).find? fun project => s.projects project = some root

def returned (s : Lifecycle) (call : CallId) : Bool :=
  match s.sup.calls call with
  | some (.returned _) => true
  | _ => false

def asks [Sha256] (s : Lifecycle) (k : Nat) (e : SupervisorEvent) (next : CallId → LifecycleOp) :
    Option Lifecycle :=
  (s.sup.step e).map fun sup => { s.setOp k (next s.sup.nextCall) with sup }

/-- The operation waits until the supervisor's call has returned. -/
def awaits (s : Lifecycle) (k : Nat) (call : CallId) (next : LifecycleOp) : Option Lifecycle :=
  if s.returned call then some (s.setOp k next) else none

def register [Sha256] (s : Lifecycle) (k : Nat) (r : Registration) (label : String)
    (next : ProcessId → LifecycleOp) : Option Lifecycle :=
  let id := s.sup.fleet.nextProcess
  (s.sup.step (.register r)).map fun sup =>
    { s.setOp k (next id) with
      sup, labels := s.labels.put id label, homes := s.homes.put id r.project }

def stopAll [Sha256] (s : Lifecycle) (k : Nat) (project : ProjectId) :
    List ProcessId → Option Lifecycle
  | [] => some (s.setOp k (.listing project))
  | id :: rest => s.asks k (.stop id) fun call => .stoppingAll project rest (some call)

def closeAll [Sha256] (s : Lifecycle) (k : Nat) (project : ProjectId) :
    List ProcessId → Option Lifecycle
  | [] => some (s.setOp k (.forgetting project))
  | id :: rest => s.asks k (.close id) fun call => .closingAll project rest (some call)

/-- Re-adding a known root keeps its record; the id that the table uses up for it is left out. -/
def upsert (s : Lifecycle) (k : Nat) (root : PathBuf) : Lifecycle :=
  match s.projectAt root with
  | some project => s.setOp k (.seeding project root)
  | none =>
    { s.setOp k (.seeding s.nextProject root) with
      projects := s.projects.put s.nextProject root
      nextProject := s.nextProject + 1 }

/-- `ConfigEngine::open`; the commands are then filed as a reload files its added ones. -/
def seed [Sha256] (s : Lifecycle) (k : Nat) (env : LifecycleEnv) (project : ProjectId)
    (root : PathBuf) : Lifecycle :=
  match env.read with
  | .error _ => s.ends k .refused
  | .ok (text, config) =>
    { s.setOp k (.applying project root config (config.processes.keys.map .added) none) with
      engine := s.engine.put project ⟨root, ⟨contentHash text, config⟩⟩ }

/-- The part of `sync` between its snapshot and its store. -/
def read [Sha256] (s : Lifecycle) (k : Nat) (env : LifecycleEnv) (project : ProjectId)
    (root : PathBuf) (prev : OpenConfig) : Lifecycle :=
  match env.read with
  | .error _ => s.ends k .refused
  | .ok (text, config) =>
    if contentHash text = prev.state.lastHash then s.ends k .finished
    else
      let changes := prev.state.last.diff config
      match pendingTrust env.trust config changes.touched with
      | .error _ => s.ends k .refused
      | .ok _ => s.setOp k (.storing project root ⟨prev.root, ⟨contentHash text, config⟩⟩ changes)

/-- `command_id_by_name` for the next change; any of several commands of one name may be found. -/
def lookUp (s : Lifecycle) (k : Nat) (env : LifecycleEnv) (project : ProjectId) (root : PathBuf)
    (config : SoloYml) : List Change → Option Lifecycle
  | [] => some (s.ends k .finished)
  | change :: rest =>
    let matched := match env.found with
      | some id => decide (id ∈ s.named project change.name)
      | none => decide (s.named project change.name = [])
    if matched then
      match change.filing config env.found with
      | some filing => some (s.setOp k (.filing project root config filing rest))
      | none => some (s.setOp k (.applying project root config rest none))
    else none

def file [Sha256] (s : Lifecycle) (k : Nat) (project : ProjectId) (root : PathBuf)
    (config : SoloYml) (rest : List Change) : Filing → Option Lifecycle
  | .register name spec =>
    s.register k (.command project root spec) name fun _ =>
      .applying project root config rest none
  | .update id name spec =>
    (s.asks k (.reload id project root spec) fun call =>
      .applying project root config rest (some call)).map fun t =>
      { t with labels := s.labels.modify id fun _ => name }
  | .drop id =>
    s.asks k (.deregister id) fun call => .applying project root config rest (some call)

def openLaunch [Sha256] (s : Lifecycle) (k : Nat) (env : LifecycleEnv) (project : ProjectId)
    (launching : Launching) (label : String) : Lifecycle :=
  match env.fault, s.projects project with
  | some _, _ | none, none => s.ends k .refused
  | none, some root =>
    let next := s.setOp k (.registering (launching.registration project root) label)
    match launching with
    | .ungated .. => next
    | .spawned spec => if s.sup.trust project spec.variantHash then next else s.ends k .refused

def proceed [Sha256] (s : Lifecycle) (k : Nat) (env : LifecycleEnv) :
    LifecycleOp → Option Lifecycle
  | .removing project =>
    match env.fault, s.projects project with
    | none, some _ => some (s.setOp k (.listingLive project))
    | _, _ => some (s.ends k .refused)
  | .listingLive project =>
    if env.order.isPerm (s.liveIn project) then
      some (s.setOp k (.stoppingAll project env.order none))
    else none
  | .stoppingAll project ids none => s.stopAll k project ids
  | .stoppingAll project ids (some call) => s.awaits k call (.stoppingAll project ids none)
  | .listing project =>
    if env.order.isPerm (s.idsIn project) then some (s.setOp k (.closingAll project env.order none))
    else none
  | .closingAll project ids none => s.closeAll k project ids
  | .closingAll project ids (some call) => s.awaits k call (.closingAll project ids none)
  | .forgetting project =>
    some { s.setOp k (.deleting project) with engine := s.engine.erase project }
  | .deleting project =>
    match env.fault with
    | some _ => some (s.ends k .refused)
    | none => some { s.setOp k (.announcing project) with projects := s.projects.erase project }
  | .announcing project => some (s.ends k (.removed project))
  -- the file is read before the record is written, so a file that does not parse leaves none
  | .loading root =>
    match env.read with
    | .error _ => some (s.ends k .refused)
    | .ok _ => some (s.setOp k (.adding root))
  | .adding root =>
    match env.fault with
    | some _ => some (s.ends k .refused)
    | none => some (s.upsert k root)
  | .seeding project root => some (s.seed k env project root)
  | .reloading project =>
    match env.fault, s.projects project with
    | none, some root => some (s.setOp k (.snapshotting project root))
    | _, _ => some (s.ends k .refused)
  | .snapshotting project root =>
    match s.engine project with
    | none => some (s.ends k .finished)
    | some prev => some (s.setOp k (.reading project root prev))
  | .reading project root prev => some (s.read k env project root prev)
  | .storing project root next changes =>
    some { s.setOp k (.reviewing project root changes) with engine := s.engine.put project next }
  | .reviewing project root changes =>
    match s.engine project with
    | none => some (s.ends k .finished)
    | some current =>
      some (s.setOp k (.applying project root current.state.last changes.work none))
  | .applying project root config work none => s.lookUp k env project root config work
  | .applying project root config work (some call) =>
    s.awaits k call (.applying project root config work none)
  | .filing project root config filing rest => s.file k project root config rest filing
  | .launching project launching label => some (s.openLaunch k env project launching label)
  | .registering r label => s.register k r label .starting
  | .starting id => s.asks k (.launch .start id) .awaiting
  | .awaiting call => s.awaits k call (.done .finished)
  | .done _ => none

def step [Sha256] (s : Lifecycle) : LifecycleEvent → Option Lifecycle
  | .remove project => some (s.begin (.removing project))
  | .open root => some (s.begin (.loading root))
  | .reload project => some (s.begin (.reloading project))
  | .launch project launching label => some (s.begin (.launching project launching label))
  | .proceed k env => (s.ops k).bind (s.proceed k env)
  | .core e => if e.isRegister then none else (s.sup.step e).map fun sup => { s with sup }
  | .rename id label => some { s with labels := s.labels.modify id fun _ => label }

end Lifecycle

def lifecycleMachine [Sha256] : Machine Lifecycle LifecycleEvent where
  init s := s = .init
  step := Lifecycle.step

end Soloist
