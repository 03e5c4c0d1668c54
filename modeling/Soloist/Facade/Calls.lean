import Soloist.Agents.Lineage
import Soloist.Facade.Session
import Soloist.Machine

/-! The calls of identity sessions. A call reads and writes the registries one access at a time, so
that between two of its accesses the registries change under it: other sessions call, children
start and exit, projects come and go, and the idle sampler prunes the lineage. -/
namespace Soloist.Facade

/-- What a session may do to one process. -/
inductive Action
  | start
  | stop
  | restart
  | rename (label : String)
  | close
  | sendInput
  deriving DecidableEq, Repr

/-- What a session may do to the commands of its project. -/
inductive BulkAction
  | startAll
  | stopAll
  | restartAll
  deriving DecidableEq, Repr

/-- What a session may spawn: an agent of a configured tool, or a command. -/
inductive Spawning
  | agent (tool : String) (resumable : Bool)
  | process (label : String)
  deriving DecidableEq, Repr

inductive Request
  | act (action : Action) (process : ProcessId)
  | actAll (action : BulkAction)
  | spawn (spawning : Spawning)
  | bindSessionProcess (process : ProcessId)
  | registerAgent (label : String)
  | selectProject (project : ProjectId)
  deriving DecidableEq, Repr

inductive Refusal
  | unknownProcess
  | noProjectScope
  | outOfScope
  | workerMayNotSpawn
  | foreignProcess
  | unknownProject
  | foreignProject
  /-- A store, trust or launch error. -/
  | failed
  deriving DecidableEq, Repr

/-- What a call resolves the effective project for. -/
inductive Purpose
  | act (action : Action) (view : ProcessView)
  | actAll (action : BulkAction)
  | spawn (spawning : Spawning)
  deriving DecidableEq, Repr

/-- Where the resolution of the effective project looks next. -/
inductive Look
  | selected
  | origin
  | bound (process : ProcessId)
  | home
  | directory
  | sole
  deriving DecidableEq, Repr

inductive Outcome
  | acted (action : Action) (view : ProcessView)
  | actedAll (action : BulkAction) (project : ProjectId)
  | spawned (worker : ProcessId) (project : ProjectId)
  | bound (process : ProcessId)
  | registered (label : String)
  | selected (project : ProjectId)
  | refused (refusal : Refusal)
  deriving DecidableEq, Repr

/-- Where a call stands, before the access it makes next. -/
inductive Point
  | resolving (look : Look) (purpose : Purpose)
  | acting (action : Action) (view : ProcessView)
  | actingAll (action : BulkAction) (project : ProjectId)
  | gateHome (spawning : Spawning) (project : ProjectId)
  | gateOrigin (spawning : Spawning) (project : ProjectId) (home : Option ProcessId)
  | judging (spawning : Spawning) (project : ProjectId) (callers : List ProcessId)
  | rooting (spawning : Spawning) (project : ProjectId)
  | registering (spawning : Spawning) (project : ProjectId)
  | starting (worker : ProcessId) (project : ProjectId)
  | recording (worker : ProcessId) (project : ProjectId)
  | bindHome (process : ProcessId)
  | binding (process : ProcessId)
  | naming (label : String)
  | selectHome (project : ProjectId)
  | selectView (project : ProjectId) (home : ProcessId)
  | selectDirectory (project : ProjectId)
  | selecting (project : ProjectId)
  | returned (outcome : Outcome)
  deriving DecidableEq, Repr

/-- What the actor of a process has done: claimed a launch, spawned the child in a group of its own,
recorded the group. -/
inductive Actor
  | launching
  | spawned (pgid : Pgid)
  | recorded (pgid : Pgid)
  deriving DecidableEq, Repr

def Actor.pgid : Actor → Option Pgid
  | .launching => none
  | .spawned pgid | .recorded pgid => some pgid

namespace Spawning

def kind : Spawning → ProcessKind
  | .agent _ _ => .agent
  | .process _ => .command

def label : Spawning → String
  | .agent label _ | .process label => label

def resumable : Spawning → Bool
  | .agent _ resumable => resumable
  | .process _ => false

end Spawning

namespace Core

/-- What the resolution finds at a look: where it looks next, or the scope. -/
def look (s : Core) (session : SessionId) (fault : Option StoreError) :
    Look → Look ⊕ Option ProjectId
  | .selected =>
    match s.selectedProject session with
    | some project => .inr (some project)
    | none => .inl .origin
  | .origin =>
    match (s.origin session).bound with
    | some process => .inl (.bound process)
    | none => .inl .home
  | .bound process =>
    match s.processView process with
    | some view => .inr (some view.project)
    | none => .inl .home
  | .home => .inl (if s.homeProcess session = none then .directory else .sole)
  | .directory =>
    match s.projectAtPeerCwd session fault with
    | some project => .inr (some project)
    | none => .inl .sole
  | .sole => .inr (s.soleProject fault)

def amend (s : Core) (process : ProcessId) (f : Entry → Entry) : Core :=
  match s.processes.lookup process with
  | some entry => { s with processes := s.processes.insert process (f entry) }
  | none => s

def register (s : Core) (project : ProjectId) (kind : ProcessKind) (label : String)
    (requiresTrust resumable : Bool) : Core :=
  let view : ProcessView :=
    ⟨s.nextProcess, project, kind, label, .stopped, none, requiresTrust, resumable, [], .ungated⟩
  { s with
    processes := s.processes.insert s.nextProcess ⟨view, none⟩
    nextProcess := s.nextProcess + 1 }

/-- Records or clears the group of a process; without a group it has neither ports nor a readiness
gate. -/
def setPgid (s : Core) (process : ProcessId) (pgid : Option Pgid) : Core :=
  s.amend process fun entry =>
    match pgid with
    | some _ => { entry with pgid }
    | none => { view := { entry.view with ports := [], ready := .ungated }, pgid := none }

def setLabel (s : Core) (process : ProcessId) (label : String) : Core :=
  s.amend process fun entry => { entry with view := { entry.view with label } }

def refresh (s : Core) (row : ProcessView) : Core :=
  s.amend row.id fun entry =>
    { entry with view := { row with
        id := entry.view.id, project := entry.view.project, kind := entry.view.kind } }

def removeProcess (s : Core) (process : ProcessId) : Core :=
  { s with processes := s.processes.erase process }

def updateSession (s : Core) (session : SessionId) (f : Session → Session) : Core :=
  { s with sessions := s.sessions.modify session f }

def bindProcess (s : Core) (session : SessionId) (process : ProcessId) : Core :=
  s.updateSession session fun x => { x with origin := .process process }

def registerExternal (s : Core) (session : SessionId) (label : String) : Core :=
  s.updateSession session fun x => { x with origin := .external label }

def selectProject (s : Core) (session : SessionId) (project : ProjectId) : Core :=
  s.updateSession session fun x => { x with selectedProject := some project }

def openSession (s : Core) (peer : PeerCredentials) : Core :=
  { s with sessions := s.sessions.put s.nextSession (.new peer), nextSession := s.nextSession + 1 }

def closeSession (s : Core) (session : SessionId) : Core :=
  { s with sessions := s.sessions.erase session }

def addProject (s : Core) (root : PathBuf) : Core :=
  { s with projects := s.projects ++ [⟨s.nextProject, root⟩], nextProject := s.nextProject + 1 }

def removeProject (s : Core) (project : ProjectId) : Core :=
  { s with projects := s.projects.filter fun record => record.id ≠ project }

def loaded (s : Core) (project : ProjectId) : Bool :=
  s.projects.any fun record => record.id = project

def isCommandIn (s : Core) (project : ProjectId) (process : ProcessId) : Bool :=
  (s.processView process).any fun view => view.kind = .command ∧ view.project = project

end Core

/-- Where a call goes once the scope is resolved. -/
def Purpose.settle : Purpose → Option ProjectId → Point
  | .act action view, some project =>
    if view.project = project then .acting action view else .returned (.refused .outOfScope)
  | .actAll action, some project => .actingAll action project
  | .spawn spawning, some project => .gateHome spawning project
  | .act _ _, none | .actAll _, none | .spawn _, none => .returned (.refused .noProjectScope)

structure System where
  core : Core
  lineage : AgentLineage
  /-- The processes in the sampler's snapshot, until it has pruned by it. -/
  live : Option (List ProcessId)
  actors : Slots ProcessId Actor
  calls : Slots SessionId Point
  /-- The process whose child leads a group, or led it. -/
  groups : Slots Pgid ProcessId
  /-- The processes a session bound to a lead registers to spawn. -/
  delegated : List ProcessId

inductive Event
  | ask (session : SessionId) (request : Request) (fault : Option StoreError)
  | proceed (session : SessionId) (fault : Option StoreError)
  | openSession (peer : PeerCredentials)
  | closeSession (session : SessionId)
  | register (project : ProjectId) (kind : ProcessKind) (label : String)
      (requiresTrust resumable : Bool)
  | refresh (row : ProcessView)
  | remove (process : ProcessId)
  | start (process : ProcessId)
  | spawnChild (process : ProcessId) (pgid : Pgid)
  | recordGroup (process : ProcessId)
  | reap (process : ProcessId)
  | addProject (root : PathBuf)
  | removeProject (project : ProjectId)
  | reorder (projects : List ProjectRecord)
  | observe
  | prune
  deriving DecidableEq, Repr

namespace System

def new : System := ⟨.new, ∅, none, .empty, .empty, .empty, []⟩

def goTo (s : System) (session : SessionId) (point : Point) : System :=
  { s with calls := s.calls.put session point }

def idle (s : System) (session : SessionId) : Bool :=
  match s.calls session with
  | none | some (.returned _) => true
  | some _ => false

def asked (s : System) (fault : Option StoreError) : Request → Point
  | .act action process =>
    match s.core.processView process with
    | some view => .resolving .selected (.act action view)
    | none => .returned (.refused .unknownProcess)
  | .actAll action => .resolving .selected (.actAll action)
  | .spawn spawning => .resolving .selected (.spawn spawning)
  | .bindSessionProcess process =>
    if s.core.processView process = none then .returned (.refused .unknownProcess)
    else .bindHome process
  | .registerAgent label => .naming label
  | .selectProject project =>
    if fault ≠ none then .returned (.refused .failed)
    else if s.core.loaded project then .selectHome project
    else .returned (.refused .unknownProject)

/-- The supervisor claims a launch, unless one is under way. -/
def launch (s : System) (process : ProcessId) : System :=
  if s.actors process = none then { s with actors := s.actors.put process .launching } else s

def perform (s : System) (process : ProcessId) (fault : Option StoreError) :
    Action → Except Refusal System
  | .start | .restart =>
    if s.core.processView process = none then .error .unknownProcess
    else if fault ≠ none then .error .failed
    else .ok (s.launch process)
  | .stop => .ok s
  | .rename label =>
    if s.core.processView process = none then .error .unknownProcess
    else .ok { s with core := s.core.setLabel process label }
  | .close =>
    if s.core.processView process = none then .error .unknownProcess
    else .ok { s with core := s.core.removeProcess process }
  | .sendInput => if fault ≠ none then .error .unknownProcess else .ok s

def performAll (s : System) (project : ProjectId) : BulkAction → System
  | .startAll | .restartAll =>
    { s with actors := fun process =>
        if s.actors process = none ∧ s.core.isCommandIn project process = true ∧
            (s.core.processView process).any (fun view => view.requiresTrust) = false then
          some .launching
        else s.actors process }
  | .stopAll => s

def proceed (s : System) (session : SessionId) (fault : Option StoreError) :
    Point → Option System
  | .resolving look purpose =>
    match s.core.look session fault look with
    | .inl next => some (s.goTo session (.resolving next purpose))
    | .inr scope => some (s.goTo session (purpose.settle scope))
  | .acting action view =>
    match s.perform view.id fault action with
    | .ok t => some (t.goTo session (.returned (.acted action view)))
    | .error refusal => some (s.goTo session (.returned (.refused refusal)))
  | .actingAll action project =>
    if fault ≠ none ∧ action ≠ .stopAll then
      some (s.goTo session (.returned (.refused .failed)))
    else some ((s.performAll project action).goTo session (.returned (.actedAll action project)))
  | .gateHome spawning project =>
    some (s.goTo session (.gateOrigin spawning project (s.core.homeProcess session)))
  | .gateOrigin spawning project home =>
    let callers := home.toList ++ (s.core.origin session).bound.toList
    some (s.goTo session (.judging spawning project callers))
  | .judging spawning project [] => some (s.goTo session (.rooting spawning project))
  | .judging spawning project (caller :: rest) =>
    if s.lineage.parentOf caller = none then
      some (s.goTo session (.judging spawning project rest))
    else some (s.goTo session (.returned (.refused .workerMayNotSpawn)))
  | .rooting spawning project =>
    if fault ≠ none then some (s.goTo session (.returned (.refused .failed)))
    else if s.core.loaded project then some (s.goTo session (.registering spawning project))
    else some (s.goTo session (.returned (.refused .unknownProject)))
  | .registering spawning project =>
    if fault ≠ none then some (s.goTo session (.returned (.refused .failed)))
    else
      let core := s.core.register project spawning.kind spawning.label false spawning.resumable
      let delegated :=
        if (s.core.origin session).bound = none then s.delegated
        else s.core.nextProcess :: s.delegated
      some ({ s with core, delegated }.goTo session (.starting s.core.nextProcess project))
  | .starting worker project =>
    if s.core.processView worker = none ∨ fault ≠ none then
      some ({ s with delegated := s.delegated.filter (· ≠ worker) }.goTo session
        (.returned (.refused .failed)))
    else some ((s.launch worker).goTo session (.recording worker project))
  | .recording worker project =>
    match (s.core.origin session).bound with
    | some lead =>
      some ({ s with lineage := s.lineage.record worker lead }.goTo session
        (.returned (.spawned worker project)))
    | none => some (s.goTo session (.returned (.spawned worker project)))
  | .bindHome process =>
    if s.core.homeProcess session = some process then some (s.goTo session (.binding process))
    else some (s.goTo session (.returned (.refused .foreignProcess)))
  | .binding process =>
    some ({ s with core := s.core.bindProcess session process }.goTo session
      (.returned (.bound process)))
  | .naming label =>
    some ({ s with core := s.core.registerExternal session label }.goTo session
      (.returned (.registered label)))
  | .selectHome project =>
    match s.core.homeProcess session with
    | some home => some (s.goTo session (.selectView project home))
    | none => some (s.goTo session (.selectDirectory project))
  | .selectView project home =>
    match s.core.processView home with
    | some view =>
      if view.project = project then some (s.goTo session (.selecting project))
      else some (s.goTo session (.returned (.refused .foreignProject)))
    | none => some (s.goTo session (.selectDirectory project))
  | .selectDirectory project =>
    if s.core.projectAtPeerCwd session fault = some project then
      some (s.goTo session (.selecting project))
    else some (s.goTo session (.returned (.refused .foreignProject)))
  | .selecting project =>
    some ({ s with core := s.core.selectProject session project }.goTo session
      (.returned (.selected project)))
  | .returned _ => none

/-- A group that the kernel may assign: no open session's peer runs in it, and no child. -/
def freeGroup (s : System) (pgid : Pgid) : Bool :=
  decide (∀ session < s.core.nextSession, s.core.peerPgid session ≠ some pgid) &&
    decide (∀ process < s.core.nextProcess, (s.actors process).bind Actor.pgid ≠ some pgid)

def step (s : System) : Event → Option System
  | .ask session request fault =>
    if s.core.sessions session = none ∨ s.idle session = false then none
    else some (s.goTo session (s.asked fault request))
  | .proceed session fault => (s.calls session).bind (s.proceed session fault)
  | .openSession peer => some { s with core := s.core.openSession peer }
  | .closeSession session =>
    if s.idle session then
      some { s with core := s.core.closeSession session, calls := s.calls.erase session }
    else none
  | .register project kind label requiresTrust resumable =>
    some { s with core := s.core.register project kind label requiresTrust resumable }
  | .refresh row => some { s with core := s.core.refresh row }
  | .remove process => some { s with core := s.core.removeProcess process }
  | .start process =>
    if s.core.processView process = none then none else some (s.launch process)
  | .spawnChild process pgid =>
    if s.actors process = some .launching ∧ s.freeGroup pgid then
      some { s with
        actors := s.actors.put process (.spawned pgid)
        groups := s.groups.put pgid process }
    else none
  | .recordGroup process =>
    match s.actors process with
    | some (.spawned pgid) =>
      some { s with
        core := s.core.setPgid process (some pgid)
        actors := s.actors.put process (.recorded pgid) }
    | none | some .launching | some (.recorded _) => none
  | .reap process =>
    if s.actors process = none then none
    else some { s with
      core := s.core.setPgid process none
      actors := s.actors.erase process }
  | .addProject root => some { s with core := s.core.addProject root }
  | .removeProject project => some { s with core := s.core.removeProject project }
  | .reorder projects =>
    if projects.Perm s.core.projects then some { s with core := { s.core with projects } }
    else none
  | .observe => some { s with live := some s.core.processes.keys }
  | .prune =>
    s.live.map fun live => { s with lineage := s.lineage.retainLive live, live := none }

end System

/-- The identity sessions, the registries they act on and the sampler, under any schedule. -/
def system : Machine System Event where
  init s := s = .new
  step := System.step

end Soloist.Facade
