import Soloist.Mailbox.Calls

/-! The façade over the mailbox, under any interleaving of its calls, the mailbox reactor, the
launches and removals of processes and projects, and the lossy event bus. A call advances by one
access to shared state at a time; the mailbox is one of several separately locked stores. -/
namespace Soloist

def eventBuffer : Nat := 1024

/-- The bounded channel as its reactor sees it: the events unread, and whether older ones were
dropped. -/
structure EventBus where
  queue : List MailEvent
  lagged : Bool
  deriving DecidableEq, Repr

def EventBus.publish (b : EventBus) (e : MailEvent) : EventBus :=
  if b.queue.length < eventBuffer then { b with queue := b.queue ++ [e] }
  else ⟨b.queue.tail ++ [e], true⟩

/-- An access the reactor is about to make. -/
inductive Errand
  | handle (e : MailEvent)
  | reconcileSnapshot
  | readSnapshot (retryable : List ProcessId)
  | visit (retryable : List ProcessId) (recipient : ProcessId) (activity : AgentActivity)
  | reconcileBackstops
  | readBackstops (retryable : List ProcessId)
  | visitBackstop (retryable : List ProcessId) (recipient : ProcessId)
  | reconcileOne (recipient : ProcessId)
  | settle (recipient : ProcessId)
  | wakeFailed (recipient : ProcessId)
  | announce (project : ProjectId) (id : AgentMessageId)
  deriving DecidableEq, Repr

structure Facade where
  room : Mailroom
  registry : Dict ProcessId ProcessView
  nextProcess : ProcessId
  /-- The agents tracked, each with the activity it was last classified with. -/
  tracker : Dict ProcessId (Option AgentActivity)
  parents : Dict ProcessId ProcessId
  board : Board
  bus : EventBus
  /-- What the reactor does before it reads its next event. -/
  errands : List Errand
  calls : Slots Nat MailCall
  nextCall : Nat
  /-- The state each message was in when it left its inbox. Kept for the statements only. -/
  left : Slots AgentMessageId AgentMessageOutcome
  /-- The completion notices queued, oldest first. Kept for the statements only. -/
  notices : List (TodoCompletionKey × AgentMessage)

/-- What an access meets outside the modelled state: the clock, the session's effective project and
whether it is still bound, the answer of the terminal or of a store, and the order in which a hash
map yields its keys. -/
structure Surroundings where
  now : UInt64 := 0
  project : Option ProjectId := none
  bound : Bool := true
  accepted : Bool := false
  fault : Option StoreError := none
  knownTool : Bool := true
  started : Bool := true
  external : Option String := none
  order : List ProcessId := []

/-- The session of a call under way. A session binds only to the process its peer runs in, so it
keeps that process or loses it. -/
def Surroundings.caller (env : Surroundings) (process : ProcessId) : Caller :=
  ⟨env.project, if env.bound then some process else none⟩

inductive FacadeEvent
  | openProject
  | removeProject (project : ProjectId)
  | launch (project : ProjectId) (kind : ProcessKind) (label : String)
  | close (id : ProcessId)
  | send (caller : Caller) (recipient : ProcessId) (body : String) (todoId : Option TodoId)
  | broadcast (caller : Caller) (body : String) (todoId : Option TodoId)
  | acknowledge (caller : Caller) (id : AgentMessageId)
  | report (caller : Caller) (task : AgentMessageId) (todoId : Option TodoId) (summary : String)
  | spawn (caller : Caller) (home : Option ProcessId) (request : SpawnAgentRequest)
  | decide (project : ProjectId) (requestedBy : ProcessId) (body : String)
  | proceed (call : Nat) (env : Surroundings)
  /-- Any other operation on the todos. -/
  | todo (op : TodoOp)
  /-- The sampler classifies a tracked agent, or resets it. -/
  | classify (id : ProcessId) (activity : Option AgentActivity)
  /-- The sampler forgets what its snapshot of the registry no longer held. -/
  | retainTracked (live : List ProcessId)
  | retainLineage (live : List ProcessId)
  /-- Any other context publishes an event. -/
  | publish (e : MailEvent)
  | receive
  | tick
  | errand (env : Surroundings)

def MailEvent.isRemoval : MailEvent → Bool
  | .processRemoved _ | .projectRemoved _ => true
  | _ => false

namespace Facade

def init : Facade where
  room := .empty
  registry := ∅
  nextProcess := 1
  tracker := ∅
  parents := ∅
  board := .empty
  bus := ⟨[], false⟩
  errands := []
  calls := Slots.empty
  nextCall := 0
  left := Slots.empty
  notices := []

def begin (s : Facade) (call : MailCall) : Facade :=
  { s with calls := s.calls.put s.nextCall call, nextCall := s.nextCall + 1 }

def setCall (s : Facade) (c : Nat) (call : MailCall) : Facade :=
  { s with calls := s.calls.put c call }

def returns (s : Facade) (c : Nat) (reply : MailReply) : Facade := s.setCall c (.returned reply)

def publish (s : Facade) (e : MailEvent) : Facade := { s with bus := s.bus.publish e }

def perform (s : Facade) (op : MailboxOp) : Option Facade :=
  (s.room.step op).map fun room => { s with room }

def processView (s : Facade) (id : ProcessId) : Option Soloist.ProcessView :=
  AList.lookup id s.registry

def isAgentIn (s : Facade) (project : ProjectId) (id : ProcessId) : Bool :=
  (s.processView id).any fun view => view.project = project ∧ view.kind = .agent

def activity (s : Facade) (id : ProcessId) : Option AgentActivity :=
  (AList.lookup id s.tracker).join

def parentOf (s : Facade) (child : ProcessId) : Option ProcessId := AList.lookup child s.parents

/-- The walk along the recorded parents, newest first. It visits each recorded child once, so their
number is fuel enough; a cycle stops it where it closes. -/
def walk (s : Facade) : Nat → List ProcessId → List ProcessId
  | fuel + 1, process :: visited =>
    match s.parentOf process with
    | none => process :: visited
    | some parent =>
      if parent ∈ process :: visited then parent :: process :: visited
      else walk s fuel (parent :: process :: visited)
  | _, visited => visited

def lineOf (s : Facade) (process : ProcessId) : List ProcessId :=
  s.walk s.parents.keys.length [process]

def rootOf (s : Facade) (process : ProcessId) : ProcessId := (s.lineOf process).headD process

/-- `mailbox_identity`. -/
def identity (s : Facade) (caller : Caller) : Except AgentMailboxError (ProjectId × ProcessId) :=
  match caller.project, caller.process with
  | none, _ => .error .noProjectScope
  | some _, none => .error .noBoundProcess
  | some project, some sender =>
    if s.isAgentIn project sender then .ok (project, sender) else .error .noBoundProcess

def commentAuthor (s : Facade) (env : Surroundings) (process : ProcessId) :
    Option CommentAuthor :=
  if env.bound then
    some (.process process
      (((s.processView process).map Soloist.ProcessView.label).getD s!"process {process}"))
  else env.external.map .external

/-- `agent_roster`: its own identity check, then a snapshot, then the lineage. -/
def roster (s : Facade) (c : Nat) (env : Surroundings) (draft : Draft) :
    RosterPoint → Option Facade
  | .identify =>
    match s.identity (env.caller draft.sender) with
    | .error e => some (s.returns c (draft.refused e))
    | .ok (project, sender) => some (s.setCall c (.rostering draft (.list project sender)))
  | .list project sender =>
    if env.order.isPerm s.registry.keys then
      some (s.setCall c (.rostering draft (.root sender (env.order.filter (s.isAgentIn project)))))
    else none
  | .root sender live => some (s.setCall c (.rostering draft (.sift (s.rootOf sender) live [])))
  | .sift _ [] members =>
    some (s.setCall c (.rostered draft members))
  | .sift root (id :: rest) members =>
    let members := if s.rootOf id = root then members ++ [id] else members
    some (s.setCall c (.rostering draft (.sift root rest members)))

def queued (s : Facade) (c : Nat) (draft : Draft) (d : AgentMessageDelivery) : Facade :=
  { s.setCall c (.dispatching ⟨draft, [], d, [], .fresh⟩) with
    notices := s.notices ++ (draft.report.map fun r => (r.key, d.message)).toList }

def sendTo (s : Facade) (c : Nat) (now : UInt64) (draft : Draft) (recipient : ProcessId) :
    Option Facade :=
  match (s.room.state.enqueue now draft.project draft.sender recipient draft.kind draft.body
    draft.todoId).2 with
  | .error e => some (s.returns c (draft.refused (.ofCapacity e)))
  | .ok d =>
    (s.perform (.enqueue now draft.project draft.sender recipient draft.kind draft.body
      draft.todoId)).map fun s => s.queued c draft d

def sendToAll (s : Facade) (c : Nat) (now : UInt64) (draft : Draft)
    (recipients : List ProcessId) : Option Facade :=
  match (s.room.state.enqueueMany now draft.project draft.sender recipients draft.kind draft.body
    draft.todoId).2 with
  | .error e => some (s.returns c (draft.refused (.ofCapacity e)))
  | .ok ds =>
    (s.perform (.enqueueMany now draft.project draft.sender recipients draft.kind draft.body
      draft.todoId)).map fun s =>
      match ds with
      | [] => s.returns c (.broadcast (.ok []))
      | d :: rest => s.setCall c (.dispatching ⟨draft, [], d, rest, .fresh⟩)

def screen (s : Facade) (c : Nat) (env : Surroundings) (draft : Draft)
    (members : List ProcessId) : Option Facade :=
  match draft.addressee with
  | .one recipient =>
    if recipient ∈ members then s.sendTo c env.now draft recipient
    else
      let e := if s.isAgentIn draft.project recipient then .unrelatedRecipient else .unknownRecipient
      some (s.returns c (draft.refused e))
  | .group => s.sendToAll c env.now draft (members.filter (· ≠ draft.sender))

/-- Submit the claimed wake to the terminal, then mark what it carried or give the claim back. -/
def settle (s : Facade) (waker : Waker) (accepted : Bool) : Option Facade :=
  s.perform (if accepted then .mark waker else .release waker)

def dispatch (s : Facade) (c : Nat) (env : Surroundings) (d : Dispatch) : Option Facade :=
  let recipient := d.head.message.recipient
  match d.stage with
  | .fresh =>
    let stage := if s.activity recipient = some .idle then .idle else .settled
    some (s.setCall c (.dispatching { d with stage }))
  | .idle =>
    if (s.room.state.claimWakeEnvelope recipient).2.isSome then
      (s.perform (.claim (.call c) recipient)).map fun s =>
        s.setCall c (.dispatching { d with stage := .claimed })
    else some (s.setCall c (.dispatching { d with stage := .settled }))
  | .claimed =>
    let head := if env.accepted then ⟨d.head.message, .wakeSubmitted⟩ else d.head
    (s.settle (.call c) env.accepted).map fun s =>
      s.setCall c (.dispatching { d with head, stage := .settled })
  | .settled =>
    (s.perform (.record env.now d.head)).map fun s =>
      s.setCall c (.dispatching { d with stage := .recorded })
  | .recorded =>
    some ((s.publish (.agentMessageChanged d.head.message.project d.head.message.id)).setCall c
      d.next)

def poke (s : Facade) (c : Nat) (env : Surroundings) (process : ProcessId) :
    DeliveryStage → Option Facade
  | .fresh =>
    let stage := if s.activity process = some .idle then .idle else .settled
    some (s.setCall c (.poking process stage))
  | .idle =>
    if (s.room.state.claimWakeEnvelope process).2.isSome then
      (s.perform (.claim (.call c) process)).map fun s => s.setCall c (.poking process .claimed)
    else some (s.setCall c (.poking process .settled))
  | .claimed =>
    (s.settle (.call c) env.accepted).map fun s => s.setCall c (.poking process .settled)
  | .settled | .recorded => some (s.returns c .decided)

def complete (s : Facade) (c : Nat) (env : Surroundings) (r : Report) : Facade :=
  match r.todoId with
  | none => s.setCall c (.checking r)
  | some id =>
    match s.commentAuthor env r.reporter, env.fault with
    | none, _ => s.returns c (.reportRefused .noBoundProcess)
    | some _, some e => s.returns c (.reportRefused (.store e))
    | some author, none =>
      match Todos.reportCompletion s.board r.project id r.key r.summary author with
      | (_, .error e) => s.returns c (.reportRefused (.ofTodo e))
      | (board, .ok outcome) =>
        let r := { r with outcome := some outcome }
        { s.setCall c (if outcome.occurrence = .recorded then .announcingTodo r else .checking r)
          with board }

def check (s : Facade) (c : Nat) (r : Report) : Facade :=
  match s.room.state.completionNotice r.reporter r.task with
  | some (.pending delivery) => s.returns c (.reported r (r.reply (.pending delivery)))
  | some .acknowledged => s.returns c (.reported r (r.reply .alreadyQueued))
  | none =>
    if r.outcome.any fun o => o.notice = .alreadyQueued then
      s.returns c (.reported r (r.reply .alreadyQueued))
    else s.setCall c (.notifying r)

def notify (s : Facade) (c : Nat) (env : Surroundings) (r : Report) : Facade :=
  match s.identity (env.caller r.reporter) with
  | .error _ => s.returns c (.reported r (r.reply (.deferred (some r.parent))))
  | .ok (project, sender) =>
    s.setCall c (.rostering ⟨project, sender, .one r.parent, .completion, r.summary, r.todoId,
      some r⟩ .identify)

def flag (s : Facade) (c : Nat) (env : Surroundings) (r : Report)
    (delivery : AgentMessageDelivery) : Facade :=
  let s := s.returns c (.reported r (r.reply (.enqueued delivery)))
  match r.outcome, env.fault with
  | some outcome, none =>
    { s with board := (Todos.markCompletionNoticeQueued s.board r.project outcome.completion).1 }
  | _, _ => s

def reserve (s : Facade) (c : Nat) (spawn : AgentSpawn) : Option Facade :=
  let launching := .launching ⟨spawn.project, .agent, spawn.request.tool, some spawn⟩
  match spawn.sender, spawn.request.prompt with
  | some sender, some prompt =>
    let first : Prepared := ⟨spawn.project, sender, prompt, spawn.request.todoId⟩
    match (s.room.state.reserveProjectSlot spawn.project prompt.utf8ByteSize).2 with
    | .error e => some (s.returns c (.spawned (.error (.mailbox (.ofCapacity e)))))
    | .ok () => (s.perform (.reserve c first)).map fun s => s.setCall c launching
  | _, _ => some (s.setCall c launching)

/-- A launch that failed gives the reserved place back. -/
def launchFailed (s : Facade) (c : Nat) (launch : Launch) (e : LaunchAgentError) : Facade :=
  match launch.spawn with
  | none => s.returns c (.launched (.error e))
  | some spawn =>
    if spawn.sender.isSome then s.setCall c (.cancelling e)
    else s.returns c (.spawned (.error (.launch e)))

def openLaunch (s : Facade) (c : Nat) (env : Surroundings) (launch : Launch) : Facade :=
  match env.fault with
  | some e => s.launchFailed c launch (.store e)
  | none =>
    if !env.knownTool then s.launchFailed c launch .unknownTool
    else if s.board.projects.contains launch.project then s.setCall c (.registering launch)
    else s.launchFailed c launch .unknownProject

def register (s : Facade) (c : Nat) (launch : Launch) : Facade :=
  { s.setCall c (.starting launch s.nextProcess) with
    registry := AList.insert s.nextProcess ⟨launch.project, launch.kind, launch.label⟩ s.registry
    nextProcess := s.nextProcess + 1 }

def started (s : Facade) (c : Nat) (env : Surroundings) (launch : Launch) (id : ProcessId) :
    Facade :=
  if env.started then
    let call := match launch.spawn with
      | some spawn => .nesting spawn id
      | none => .returned (.launched (.ok id))
    { s.setCall c call with
      tracker := if launch.kind = .agent then AList.insert id none s.tracker else s.tracker }
  else s.launchFailed c launch .supervisor

def nest (s : Facade) (c : Nat) (env : Surroundings) (spawn : AgentSpawn) (worker : ProcessId) :
    Facade :=
  let s := s.setCall c
    (if spawn.request.includeAgentInstructions then .labelling spawn worker
      else .placing spawn worker)
  match spawn.lead, env.bound with
  | some lead, true => { s with parents := AList.insert worker lead s.parents }
  | _, _ => s

def place (s : Facade) (c : Nat) (now : UInt64) (worker : ProcessId) : Option Facade :=
  match AList.lookup c s.room.prepared with
  | none => some (s.returns c (.spawned (.ok (worker, none))))
  | some first =>
    (s.perform (.enqueueReserved now c worker)).map fun t =>
      match (s.room.state.enqueueReserved now first.project first.sender worker .task first.prompt
        first.todoId).2 with
      | .error e => t.returns c (.spawned (.error (.mailbox (.ofCapacity e))))
      | .ok d => t.setCall c (.recording worker d)

def acknowledge (s : Facade) (c : Nat) (now : UInt64) (recipient : ProcessId)
    (id : AgentMessageId) : Option Facade :=
  match (s.room.state.acknowledge now recipient id).2 with
  | none => some (s.returns c (.acknowledged (.error .unknownMessage)))
  | some d =>
    (s.perform (.acknowledge now recipient id)).map fun s =>
      { s.setCall c (.acknowledged d) with left := s.left.put id d.outcome }

/-- A decision is told to an agent; nobody hears of a full inbox. -/
def decide (s : Facade) (c : Nat) (now : UInt64) (project : ProjectId) (process : ProcessId)
    (body : String) : Option Facade :=
  match (s.room.state.enqueue now project process process .trustDecision body none).2 with
  | .error _ => some (s.returns c .decided)
  | .ok _ =>
    (s.perform (.enqueue now project process process .trustDecision body none)).map fun s =>
      s.setCall c (.poking process .fresh)

/-- `Supervisor::close` of the next process of a project, unless it is gone already. -/
def closeNext (s : Facade) (c : Nat) (project : ProjectId) : List ProcessId → Facade
  | [] => s.setCall c (.deleting project)
  | id :: rest =>
    if (s.processView id).isSome then
      { s.setCall c (.closing id (some (project, rest))) with registry := s.registry.erase id }
    else s.setCall c (.closingAll project rest)

def proceed (s : Facade) (c : Nat) (env : Surroundings) : Option Facade :=
  match s.calls c with
  | none | some (.returned _) => none
  | some (.rostering draft point) => s.roster c env draft point
  | some (.rostered draft members) => s.screen c env draft members
  | some (.dispatching d) => s.dispatch c env d
  | some (.acknowledging recipient id) => s.acknowledge c env.now recipient id
  | some (.acknowledged d) =>
    (s.perform (.recordOutcome d.message.project d.message.id d.outcome)).map fun s =>
      s.setCall c (.announcing d)
  | some (.announcing d) =>
    some ((s.publish (.agentMessageChanged d.message.project d.message.id)).returns c
      (.acknowledged (.ok d)))
  | some (.reporting project reporter task todoId summary) =>
    match s.room.state.taskForCompletion project reporter task with
    | none => some (s.returns c (.reportRefused .unknownMessage))
    | some (parent, taskTodo) =>
      if todoId = taskTodo then
        some (s.setCall c (.completing ⟨project, reporter, task, parent, todoId, summary, none⟩))
      else some (s.returns c (.reportRefused .unknownTodo))
  | some (.completing r) => some (s.complete c env r)
  | some (.announcingTodo r) =>
    some ((s.publish (.todoChanged r.project (r.todoId.getD 0))).setCall c (.checking r))
  | some (.checking r) => some (s.check c r)
  | some (.notifying r) => some (s.notify c env r)
  | some (.noticing r d) =>
    (s.perform (.recordCompletionNotice r.reporter r.task d.message)).map fun s =>
      s.setCall c (.flagging r d)
  | some (.flagging r d) => some (s.flag c env r d)
  | some (.reserving spawn) => s.reserve c spawn
  | some (.launching launch) => some (s.openLaunch c env launch)
  | some (.registering launch) => some (s.register c launch)
  | some (.starting launch id) => some (s.started c env launch id)
  | some (.nesting spawn worker) => some (s.nest c env spawn worker)
  | some (.labelling spawn worker) =>
    let label := ((s.processView worker).map Soloist.ProcessView.label).getD spawn.request.tool
    some (s.setCall c (.briefing spawn worker label))
  | some (.briefing spawn worker label) =>
    (s.perform (.queueOnboarding env.now worker
      (orchestrationGuide worker spawn.project label))).map fun s =>
      s.setCall c (.placing spawn worker)
  | some (.placing _ worker) => s.place c env.now worker
  | some (.recording worker d) =>
    (s.perform (.record env.now d)).map fun s => s.setCall c (.announcingTask worker d)
  | some (.announcingTask worker d) =>
    some ((s.publish (.agentMessageChanged d.message.project d.message.id)).returns c
      (.spawned (.ok (worker, some d))))
  | some (.cancelling e) =>
    (s.perform (.cancel c)).map fun s => s.returns c (.spawned (.error (.launch e)))
  | some (.deciding project process body) => s.decide c env.now project process body
  | some (.poking process stage) => s.poke c env process stage
  | some (.closing id rest) =>
    let call := match rest with
      | some (project, ids) => .closingAll project ids
      | none => .returned .closed
    some ((s.publish (.processRemoved id)).setCall c call)
  | some (.listingAll project) =>
    if env.order.isPerm s.registry.keys then
      some (s.setCall c (.closingAll project (env.order.filter fun id =>
        (s.processView id).any fun view => view.project = project)))
    else none
  | some (.closingAll project ids) => some (s.closeNext c project ids)
  | some (.deleting project) =>
    some { s.setCall c (.removing project) with board := s.board.removeProject project }
  | some (.removing project) => some ((s.publish (.projectRemoved project)).returns c .removed)

def openSend (s : Facade) (caller : Caller) (recipient : ProcessId) (body : String)
    (todoId : Option TodoId) : MailCall :=
  match s.identity caller with
  | .error e => .returned (.sent (.error e))
  | .ok (project, sender) =>
    .rostering ⟨project, sender, .one recipient, .direct, body, todoId, none⟩ .identify

def openBroadcast (s : Facade) (caller : Caller) (body : String) (todoId : Option TodoId) :
    MailCall :=
  if maxAgentMessageBytes < body.utf8ByteSize then .returned (.broadcast (.error .messageTooLarge))
  else
    match s.identity caller with
    | .error e => .returned (.broadcast (.error e))
    | .ok (project, sender) =>
      .rostering ⟨project, sender, .group, .direct, body, todoId, none⟩ .identify

def openAcknowledge (s : Facade) (caller : Caller) (id : AgentMessageId) : MailCall :=
  match s.identity caller with
  | .error e => .returned (.acknowledged (.error e))
  | .ok (_, recipient) => .acknowledging recipient id

def openReport (s : Facade) (caller : Caller) (task : AgentMessageId) (todoId : Option TodoId)
    (summary : String) : MailCall :=
  if maxAgentMessageBytes < summary.utf8ByteSize then .returned (.reportRefused .messageTooLarge)
  else
    match s.identity caller with
    | .error e => .returned (.reportRefused e)
    | .ok (project, sender) => .reporting project sender task todoId summary

/-- Delegation is one level deep: a process that was itself spawned may not spawn. -/
def openSpawn (s : Facade) (caller : Caller) (home : Option ProcessId)
    (request : SpawnAgentRequest) : MailCall :=
  match caller.project with
  | none => .returned (.spawned (.error .noProjectScope))
  | some project =>
    if ([home, caller.process].filterMap id).any fun p => (s.parentOf p).isSome then
      .returned (.spawned (.error .workerMayNotSpawn))
    else
      match request.prompt with
      | none => .launching
        ⟨project, .agent, request.tool, some ⟨project, request, caller.process, none⟩⟩
      | some prompt =>
        if maxAgentMessageBytes < prompt.utf8ByteSize then
          .returned (.spawned (.error (.mailbox .messageTooLarge)))
        else
          match s.identity caller with
          | .error e => .returned (.spawned (.error (.mailbox e)))
          | .ok (_, sender) => .reserving ⟨project, request, caller.process, some sender⟩

def leave (s : Facade) (process : ProcessId) : Slots AgentMessageId AgentMessageOutcome := fun id =>
  match s.room.state.find process id with
  | some p => some p.outcome
  | none => s.left id

def handle (s : Facade) (now : UInt64) : MailEvent → Option Facade
  | .agentActivityChanged id .idle => some { s with errands := .reconcileOne id :: s.errands }
  | .agentActivityChanged id _ => s.perform (.observeNonIdle now id)
  | .processRemoved id =>
    (s.perform (.removeProcess id)).map fun t => { t with left := s.leave id }
  | .projectRemoved id => s.perform (.forgetProject id)
  | _ => some s

def runErrand (s : Facade) (env : Surroundings) (rest : List Errand) : Errand → Option Facade
  | .handle e => ({ s with errands := rest } : Facade).handle env.now e
  | .reconcileSnapshot =>
    some { s with errands := .readSnapshot s.room.state.retryableRecipients :: rest }
  | .readSnapshot retryable =>
    if env.order.isPerm s.tracker.keys then
      let visits := env.order.filterMap fun id =>
        (s.activity id).map fun activity => .visit retryable id activity
      some { s with errands := visits ++ rest }
    else none
  | .visit retryable id activity =>
    if activity = .idle then
      some { s with errands := if id ∈ retryable then .reconcileOne id :: rest else rest }
    else ({ s with errands := rest } : Facade).perform (.observeNonIdle env.now id)
  | .reconcileBackstops =>
    some { s with errands := .readBackstops s.room.state.retryableRecipients :: rest }
  | .readBackstops retryable =>
    if env.order.isPerm (s.room.state.backstopCandidates env.now) then
      some { s with errands := env.order.map (.visitBackstop retryable) ++ rest }
    else none
  | .visitBackstop retryable id =>
    let due := id ∈ retryable ∧ s.activity id = none
    some { s with errands := if due then .reconcileOne id :: rest else rest }
  | .reconcileOne id =>
    if (s.room.state.claimWakeEnvelope id).2.isSome then
      (s.perform (.claim .reactor id)).map fun s => { s with errands := .settle id :: rest }
    else some { s with errands := .wakeFailed id :: rest }
  | .settle id =>
    match s.room.submissions .reactor with
    | none => none
    | some sub =>
      let advanced := (s.room.state.markWakeSubmitted sub.recipient sub.claim.claimed).2
      let next :=
        if env.accepted then advanced.map fun e => Errand.announce e.1 e.2 else [.wakeFailed id]
      (s.settle .reactor env.accepted).map fun s => { s with errands := next ++ rest }
  | .wakeFailed id => ({ s with errands := rest } : Facade).perform (.wakeFailed id)
  | .announce project id =>
    some { s.publish (.agentMessageChanged project id) with errands := rest }

/-- The reactor reads its next event, or that it fell behind. -/
def receive (s : Facade) : Option Facade :=
  if s.errands ≠ [] then none
  else if s.bus.lagged then
    some { s with bus := { s.bus with lagged := false }, errands := [.reconcileSnapshot] }
  else
    match s.bus.queue with
    | [] => none
    | e :: rest => some { s with bus := { s.bus with queue := rest }, errands := [.handle e] }

def step (s : Facade) : FacadeEvent → Option Facade
  | .openProject => some { s with board := s.board.addProject }
  | .removeProject project =>
    if s.board.projects.contains project then some (s.begin (.listingAll project)) else none
  | .launch project kind label => some (s.begin (.launching ⟨project, kind, label, none⟩))
  | .close id =>
    if (s.processView id).isSome then
      some { s.begin (.closing id none) with registry := s.registry.erase id }
    else none
  | .send caller recipient body todoId => some (s.begin (s.openSend caller recipient body todoId))
  | .broadcast caller body todoId => some (s.begin (s.openBroadcast caller body todoId))
  | .acknowledge caller id => some (s.begin (s.openAcknowledge caller id))
  | .report caller task todoId summary =>
    some (s.begin (s.openReport caller task todoId summary))
  | .spawn caller home request => some (s.begin (s.openSpawn caller home request))
  | .decide project requestedBy body =>
    if (s.processView requestedBy).any fun view => view.kind = .agent then
      some (s.begin (.deciding project requestedBy body))
    else none
  | .proceed c env => s.proceed c env
  | .todo (.removeProject _) => none
  | .todo op => some { s with board := op.apply s.board }
  | .classify id activity =>
    (AList.lookup id s.tracker).map fun _ =>
      { s with tracker := AList.insert id activity s.tracker }
  | .retainTracked live =>
    some { s with
      tracker := (s.tracker.keys.filter (· ∉ live)).foldl (fun t id => t.erase id) s.tracker }
  -- a dead ancestor stays while it connects a live process to its root
  | .retainLineage live =>
    let needed := live.flatMap s.lineOf
    some { s with
      parents := (s.parents.keys.filter (· ∉ needed)).foldl (fun t id => t.erase id) s.parents }
  | .publish e => if e.isRemoval then none else some (s.publish e)
  | .receive => s.receive
  | .tick =>
    if s.errands = [] then some { s with errands := [.reconcileSnapshot, .reconcileBackstops] }
    else none
  | .errand env =>
    match s.errands with
    | [] => none
    | e :: rest => s.runErrand env rest e

end Facade

def facadeMachine : Machine Facade FacadeEvent where
  init s := s = .init
  step := Facade.step

end Soloist
