import Soloist.Mailbox.Effects
import Soloist.Mailbox.Facade

/-! What one step of the façade may do, said once: which call becomes which, under which operation
of the mailbox, and what else changes with it. -/
open Option

namespace Soloist

def Errand.isRemoval : Errand → Bool
  | .handle e => e.isRemoval
  | _ => false

namespace Facade

/-- A call goes on without touching the mailbox. -/
inductive Silent (s : Facade) : MailCall → MailCall → Prop
  | identified (d : Draft) (project : ProjectId) (sender : ProcessId) :
    Silent s (.rostering d .identify) (.rostering d (.list project sender))
  | listed (d : Draft) (project : ProjectId) (sender : ProcessId) (live : List ProcessId)
      (hlive : ∀ i ∈ live, s.isAgentIn project i = true) :
    Silent s (.rostering d (.list project sender)) (.rostering d (.root sender live))
  | rooted (d : Draft) (sender root : ProcessId) (live : List ProcessId) :
    Silent s (.rostering d (.root sender live)) (.rostering d (.sift root live []))
  | kept (d : Draft) (root id : ProcessId) (live members : List ProcessId) :
    Silent s (.rostering d (.sift root (id :: live) members))
      (.rostering d (.sift root live (members ++ [id])))
  | dropped (d : Draft) (root id : ProcessId) (live members : List ProcessId) :
    Silent s (.rostering d (.sift root (id :: live) members)) (.rostering d (.sift root live members))
  | sifted (d : Draft) (root : ProcessId) (members : List ProcessId) :
    Silent s (.rostering d (.sift root [] members)) (.rostered d members)
  | rosterRefused (d : Draft) (point : RosterPoint) (e : AgentMailboxError) :
    Silent s (.rostering d point) (.returned (d.refused e))
  | sendRefused (d : Draft) (members : List ProcessId) (e : AgentMailboxError) :
    Silent s (.rostered d members) (.returned (d.refused e))
  | staged (d : Dispatch) (stage : DeliveryStage) (hold : d.stage = .fresh ∨ d.stage = .idle)
      (hnew : stage = .idle ∨ stage = .settled) :
    Silent s (.dispatching d) (.dispatching { d with stage })
  | acknowledgeRefused (recipient : ProcessId) (id : AgentMessageId) (e : AgentMailboxError) :
    Silent s (.acknowledging recipient id) (.returned (.acknowledged (.error e)))
  | reportRefused (project : ProjectId) (reporter : ProcessId) (task : AgentMessageId)
      (todoId : Option TodoId) (summary : String) (e : AgentMailboxError) :
    Silent s (.reporting project reporter task todoId summary) (.returned (.reportRefused e))
  | taskFound (project : ProjectId) (reporter : ProcessId) (task : AgentMessageId)
      (todoId : Option TodoId) (summary : String) (parent : ProcessId)
      (htask : s.room.state.taskForCompletion project reporter task = some (parent, todoId)) :
    Silent s (.reporting project reporter task todoId summary)
      (.completing ⟨project, reporter, task, parent, todoId, summary, none⟩)
  | completeRefused (r : Report) (e : AgentMailboxError) :
    Silent s (.completing r) (.returned (.reportRefused e))
  | withoutTodo (r : Report) : Silent s (.completing r) (.checking r)
  | noticeFound (r : Report) (state : CompletionNoticeState)
      (hfound : s.room.state.completionNotice r.reporter r.task = some state) :
    Silent s (.checking r) (.returned (.reported r (r.reply (match state with
      | .pending delivery => .pending delivery
      | .acknowledged => .alreadyQueued))))
  | noticeFlagged (r : Report) (o : TodoCompletionOutcome) (ho : r.outcome = some o)
      (hflag : o.notice = .alreadyQueued) :
    Silent s (.checking r) (.returned (.reported r (r.reply .alreadyQueued)))
  | noticeOwed (r : Report) (hnone : s.room.state.completionNotice r.reporter r.task = none)
      (hflag : ∀ o, r.outcome = some o → o.notice ≠ .alreadyQueued) :
    Silent s (.checking r) (.notifying r)
  | notifyRefused (r : Report) :
    Silent s (.notifying r) (.returned (.reported r (r.reply (.deferred (some r.parent)))))
  | notified (r : Report) (project : ProjectId) (hlive : s.isAgentIn project r.reporter = true) :
    Silent s (.notifying r)
      (.rostering ⟨project, r.reporter, .one r.parent, .completion, r.summary, r.todoId, some r⟩
        .identify)
  | reserveRefused (spawn : AgentSpawn) (e : SpawnAgentError) :
    Silent s (.reserving spawn) (.returned (.spawned (.error e)))
  | withoutPrompt (spawn : AgentSpawn) (hfirst : spawn.sender = none ∨ spawn.request.prompt = none) :
    Silent s (.reserving spawn)
      (.launching ⟨spawn.project, .agent, spawn.request.tool, some spawn⟩)
  | launched (l : Launch) (hopen : s.board.projects.contains l.project = true) :
    Silent s (.launching l) (.registering l)
  | launchRefused (l : Launch) (reply : MailReply) (hreply : reply.isReport = false) :
    Silent s (.launching l) (.returned reply)
  | launchCancelled (l : Launch) (e : LaunchAgentError) : Silent s (.launching l) (.cancelling e)
  | startRefused (l : Launch) (id : ProcessId) (reply : MailReply)
      (hreply : reply.isReport = false) :
    Silent s (.starting l id) (.returned reply)
  | startCancelled (l : Launch) (id : ProcessId) (e : LaunchAgentError) :
    Silent s (.starting l id) (.cancelling e)
  | labelled (spawn : AgentSpawn) (worker : ProcessId) (label : String) :
    Silent s (.labelling spawn worker) (.briefing spawn worker label)
  | withoutTask (spawn : AgentSpawn) (worker : ProcessId) :
    Silent s (.placing spawn worker) (.returned (.spawned (.ok (worker, none))))
  | decideRefused (project : ProjectId) (process : ProcessId) (body : String) :
    Silent s (.deciding project process body) (.returned .decided)
  | poked (process : ProcessId) (old new : DeliveryStage) :
    Silent s (.poking process old) (.poking process new)
  | pokeEnded (process : ProcessId) (stage : DeliveryStage) :
    Silent s (.poking process stage) (.returned .decided)
  | listedAll (project : ProjectId) (ids : List ProcessId) :
    Silent s (.listingAll project) (.closingAll project ids)
  | closedAlready (project : ProjectId) (id : ProcessId) (ids : List ProcessId) :
    Silent s (.closingAll project (id :: ids)) (.closingAll project ids)
  | allClosed (project : ProjectId) : Silent s (.closingAll project []) (.deleting project)

/-- A call goes on by an operation of the mailbox. -/
inductive Performs (s : Facade) (c : Nat) (env : Surroundings) : MailCall → MailboxOp → MailCall → Prop
  | claimed (d : Dispatch) (hstage : d.stage = .idle)
      (hclaim : (s.room.state.claimWakeEnvelope d.head.message.recipient).2.isSome = true) :
    Performs s c env (.dispatching d) (.claim (.call c) d.head.message.recipient)
      (.dispatching { d with stage := .claimed })
  | submitted (d : Dispatch) (hstage : d.stage = .claimed) (haccepted : env.accepted = true) :
    Performs s c env (.dispatching d) (.mark (.call c))
      (.dispatching { d with head := ⟨d.head.message, .wakeSubmitted⟩, stage := .settled })
  | released (d : Dispatch) (hstage : d.stage = .claimed) :
    Performs s c env (.dispatching d) (.release (.call c)) (.dispatching { d with stage := .settled })
  | recorded (d : Dispatch) (now : UInt64) (hstage : d.stage = .settled) :
    Performs s c env (.dispatching d) (.record now d.head) (.dispatching { d with stage := .recorded })
  | outcomeRecorded (d : AgentMessageDelivery) :
    Performs s c env (.acknowledged d) (.recordOutcome d.message.project d.message.id d.outcome)
      (.announcing d)
  | noticed (r : Report) (d : AgentMessageDelivery) :
    Performs s c env (.noticing r d) (.recordCompletionNotice r.reporter r.task d.message)
      (.flagging r d)
  | reserved (spawn : AgentSpawn) (first : Prepared) (hsender : spawn.sender = some first.sender)
      (hproject : first.project = spawn.project) :
    Performs s c env (.reserving spawn) (.reserve c first)
      (.launching ⟨spawn.project, .agent, spawn.request.tool, some spawn⟩)
  | briefed (spawn : AgentSpawn) (worker : ProcessId) (label guide : String) (now : UInt64) :
    Performs s c env (.briefing spawn worker label) (.queueOnboarding now worker guide)
      (.placing spawn worker)
  | placed (spawn : AgentSpawn) (worker : ProcessId) (first : Prepared)
      (d : AgentMessageDelivery) (hfirst : AList.lookup c s.room.prepared = some first)
      (hplaced : (s.room.state.enqueueReserved env.now first.project first.sender worker .task
        first.prompt first.todoId).2 = .ok d) :
    Performs s c env (.placing spawn worker) (.enqueueReserved env.now c worker) (.recording worker d)
  | placeRefused (spawn : AgentSpawn) (worker : ProcessId) (first : Prepared)
      (e : MailboxCapacityError) (reply : MailReply) (hreply : reply.isReport = false)
      (hfirst : AList.lookup c s.room.prepared = some first)
      (hrefused : (s.room.state.enqueueReserved env.now first.project first.sender worker .task
        first.prompt first.todoId).2 = .error e) :
    Performs s c env (.placing spawn worker) (.enqueueReserved env.now c worker) (.returned reply)
  | taskRecorded (worker : ProcessId) (d : AgentMessageDelivery) (now : UInt64) :
    Performs s c env (.recording worker d) (.record now d) (.announcingTask worker d)
  | cancelled (e : LaunchAgentError) (reply : MailReply) (hreply : reply.isReport = false) :
    Performs s c env (.cancelling e) (.cancel c) (.returned reply)
  | decided (project : ProjectId) (process : ProcessId) (body : String) (d : AgentMessageDelivery)
      (hok : (s.room.state.enqueue env.now project process process .trustDecision body none).2 =
        .ok d) :
    Performs s c env (.deciding project process body)
      (.enqueue env.now project process process .trustDecision body none) (.poking process .fresh)
  | pokeClaimed (process : ProcessId) :
    Performs s c env (.poking process .idle) (.claim (.call c) process) (.poking process .claimed)
  | pokeSubmitted (process : ProcessId) (haccepted : env.accepted = true) :
    Performs s c env (.poking process .claimed) (.mark (.call c)) (.poking process .settled)
  | pokeReleased (process : ProcessId) :
    Performs s c env (.poking process .claimed) (.release (.call c)) (.poking process .settled)

/-- A call goes on by publishing an event. -/
inductive Announces : MailCall → MailEvent → MailCall → Prop
  | delivered (d : Dispatch) (hstage : d.stage = .recorded) (e : MailEvent)
      (he : e.isRemoval = false) : Announces (.dispatching d) e d.next
  | acknowledged (d : AgentMessageDelivery) (e : MailEvent) (he : e.isRemoval = false) :
    Announces (.announcing d) e (.returned (.acknowledged (.ok d)))
  | todo (r : Report) (e : MailEvent) (he : e.isRemoval = false) :
    Announces (.announcingTodo r) e (.checking r)
  | task (worker : ProcessId) (d : AgentMessageDelivery) (e : MailEvent)
      (he : e.isRemoval = false) :
    Announces (.announcingTask worker d) e (.returned (.spawned (.ok (worker, some d))))
  | processRemoved (id : ProcessId) :
    Announces (.closing id none) (.processRemoved id) (.returned .closed)
  | processOfRemoved (id : ProcessId) (project : ProjectId) (ids : List ProcessId) :
    Announces (.closing id (some (project, ids))) (.processRemoved id) (.closingAll project ids)
  | projectRemoved (project : ProjectId) :
    Announces (.removing project) (.projectRemoved project) (.returned .removed)

/-- A call goes on by a change of its own to what surrounds the mailbox. -/
inductive Arranges (s : Facade) : MailCall → Dict ProcessId (Option AgentActivity) →
    Dict ProcessId ProcessId → Board → MailCall → Prop
  | completed (r : Report) (outcome : TodoCompletionOutcome) (board : Board) (call : MailCall)
      (hprojects : board.projects = s.board.projects)
      (hcall : call = .announcingTodo { r with outcome := some outcome } ∨
        call = .checking { r with outcome := some outcome }) :
    Arranges s (.completing r) s.tracker s.parents board call
  | flagged (r : Report) (d : AgentMessageDelivery) (board : Board)
      (hprojects : board.projects = s.board.projects) :
    Arranges s (.flagging r d) s.tracker s.parents board
      (.returned (.reported r (r.reply (.enqueued d))))
  | started (l : Launch) (id : ProcessId) (tracker : Dict ProcessId (Option AgentActivity))
      (reply : MailReply) (hreply : reply.isReport = false) :
    Arranges s (.starting l id) tracker s.parents s.board (.returned reply)
  | spawnStarted (l : Launch) (spawn : AgentSpawn) (id : ProcessId)
      (tracker : Dict ProcessId (Option AgentActivity)) (hspawn : l.spawn = some spawn) :
    Arranges s (.starting l id) tracker s.parents s.board (.nesting spawn id)
  | nested (spawn : AgentSpawn) (worker : ProcessId) (parents : Dict ProcessId ProcessId)
      (call : MailCall) (hcall : call = .labelling spawn worker ∨ call = .placing spawn worker) :
    Arranges s (.nesting spawn worker) s.tracker parents s.board call
  | deleted (project : ProjectId) :
    Arranges s (.deleting project) s.tracker s.parents (s.board.removeProject project)
      (.removing project)

inductive Turn (s : Facade) (c : Nat) (env : Surroundings) : MailCall → Facade → Prop
  | silent {call call' : MailCall} (h : Silent s call call') : Turn s c env call (s.setCall c call')
  | performs {call call' : MailCall} {op : MailboxOp} {room : Mailroom}
      (hroom : s.room.step op = some room) (h : Performs s c env call op call') :
    Turn s c env call { s.setCall c call' with room }
  | announces {call call' : MailCall} {e : MailEvent} (h : Announces call e call') :
    Turn s c env call ((s.publish e).setCall c call')
  | arranges {call call' : MailCall} {tracker : Dict ProcessId (Option AgentActivity)}
      {parents : Dict ProcessId ProcessId} {board : Board}
      (h : Arranges s call tracker parents board call') :
    Turn s c env call { s.setCall c call' with tracker, parents, board }
  | queued (draft : Draft) (members : List ProcessId) (recipient : ProcessId)
      (d : AgentMessageDelivery) (room : Mailroom) (haddressee : draft.addressee = .one recipient)
      (hmember : recipient ∈ members)
      (hok : (s.room.state.enqueue env.now draft.project draft.sender recipient draft.kind
        draft.body draft.todoId).2 = .ok d)
      (hroom : s.room.step (.enqueue env.now draft.project draft.sender recipient draft.kind
        draft.body draft.todoId) = some room) :
    Turn s c env (.rostered draft members) (({ s with room } : Facade).queued c draft d)
  | queuedAll (draft : Draft) (members : List ProcessId) (ds : List AgentMessageDelivery)
      (room : Mailroom) (call : MailCall) (haddressee : draft.addressee = .group)
      (hok : (s.room.state.enqueueMany env.now draft.project draft.sender
        (members.filter (· ≠ draft.sender)) draft.kind draft.body draft.todoId).2 = .ok ds)
      (hroom : s.room.step (.enqueueMany env.now draft.project draft.sender
        (members.filter (· ≠ draft.sender)) draft.kind draft.body draft.todoId) = some room)
      (hcall : (ds = [] ∧ call = .returned (.broadcast (.ok []))) ∨
        ∃ d rest, ds = d :: rest ∧ call = .dispatching ⟨draft, [], d, rest, .fresh⟩) :
    Turn s c env (.rostered draft members) { s.setCall c call with room }
  | acknowledged (recipient : ProcessId) (id : AgentMessageId) (now : UInt64)
      (d : AgentMessageDelivery) (room : Mailroom)
      (hok : (s.room.state.acknowledge now recipient id).2 = some d)
      (hroom : s.room.step (.acknowledge now recipient id) = some room) :
    Turn s c env (.acknowledging recipient id)
      { s.setCall c (.acknowledged d) with room, left := s.left.put id d.outcome }
  | registered (l : Launch) :
    Turn s c env (.registering l)
      { s.setCall c (.starting l s.nextProcess) with
        registry := AList.insert s.nextProcess ⟨l.project, l.kind, l.label⟩ s.registry
        nextProcess := s.nextProcess + 1 }
  | unregistered (project : ProjectId) (id : ProcessId) (ids : List ProcessId)
      (hlive : (s.processView id).isSome = true) :
    Turn s c env (.closingAll project (id :: ids))
      { s.setCall c (.closing id (some (project, ids))) with registry := s.registry.erase id }

section Proceed
variable {s t : Facade} {c : Nat} {env : Surroundings}

variable {op : MailboxOp}

theorem perform_eq_some :
    s.perform op = some t ↔ ∃ room, s.room.step op = some room ∧ { s with room } = t := by
  unfold perform
  rw [map_eq_some_iff]

theorem exists_room_of_perform {after : Facade → Facade} (h : (s.perform op).map after = some t) :
    ∃ room, s.room.step op = some room ∧ after { s with room } = t := by
  obtain ⟨u, hu, hafter⟩ := map_eq_some_iff.mp h
  obtain ⟨room, hroom, rfl⟩ := perform_eq_some.mp hu
  exact ⟨room, hroom, hafter⟩

variable {draft : Draft}

theorem roster_turn {point : RosterPoint} (h : s.roster c env draft point = some t) :
    Turn s c env (.rostering draft point) t := by
  cases point with
  | identify =>
    simp only [roster] at h
    split at h
    · cases h
      exact .silent (.rosterRefused _ _ _)
    · cases h
      exact .silent (.identified _ _ _)
  | list project sender =>
    simp only [roster] at h
    split_ifs at h
    cases h
    exact .silent (.listed _ _ _ _ fun i hi => (List.mem_filter.mp hi).2)
  | root sender live =>
    cases h
    exact .silent (.rooted _ _ _ _)
  | sift root live members =>
    cases live with
    | nil =>
      cases h
      exact .silent (.sifted _ _ _)
    | cons id rest =>
      cases h
      split_ifs
      · exact .silent (.kept _ _ _ _ _)
      · exact .silent (.dropped _ _ _ _ _)

theorem screen_turn {members : List ProcessId} (h : s.screen c env draft members = some t) :
    Turn s c env (.rostered draft members) t := by
  unfold screen at h
  split at h
  next recipient haddressee =>
    by_cases hmember : recipient ∈ members
    · rw [if_pos hmember] at h
      unfold sendTo at h
      split at h
      · cases h
        exact .silent (.sendRefused _ _ _)
      next d hok =>
        obtain ⟨u, hu, hqueued⟩ := map_eq_some_iff.mp h
        obtain ⟨room, hroom, hu⟩ := perform_eq_some.mp hu
        subst hu
        subst hqueued
        exact .queued draft members recipient d room haddressee hmember hok hroom
    · rw [if_neg hmember] at h
      cases h
      exact .silent (.sendRefused _ _ _)
  next haddressee =>
    unfold sendToAll at h
    split at h
    · cases h
      exact .silent (.sendRefused _ _ _)
    next ds hok =>
      obtain ⟨room, hroom, rfl⟩ := exists_room_of_perform h
      cases ds with
      | nil =>
        exact .queuedAll draft members [] room _ haddressee hok hroom (.inl ⟨rfl, rfl⟩)
      | cons d rest =>
        exact .queuedAll draft members (d :: rest) room _ haddressee hok hroom
          (.inr ⟨d, rest, rfl, rfl⟩)

theorem performs_turn {call call' : MailCall}
    (h : ((s.perform op).map fun s => s.setCall c call') = some t)
    (hperforms : Performs s c env call op call') : Turn s c env call t := by
  obtain ⟨room, hroom, rfl⟩ := exists_room_of_perform h
  exact .performs hroom hperforms

theorem dispatch_turn {d : Dispatch} (h : s.dispatch c env d = some t) :
    Turn s c env (.dispatching d) t := by
  unfold dispatch at h
  cases hstage : d.stage with
  | fresh =>
    simp only [hstage] at h
    cases h
    split_ifs
    · exact .silent (.staged d .idle (.inl hstage) (.inl rfl))
    · exact .silent (.staged d .settled (.inl hstage) (.inr rfl))
  | idle =>
    simp only [hstage] at h
    split_ifs at h with hclaim
    · exact performs_turn h (.claimed d hstage hclaim)
    · cases h
      exact .silent (.staged d .settled (.inr hstage) (.inr rfl))
  | claimed =>
    simp only [hstage, settle] at h
    split_ifs at h with haccepted
    · exact performs_turn h (.submitted d hstage haccepted)
    · exact performs_turn h (.released d hstage)
  | settled =>
    simp only [hstage] at h
    exact performs_turn h (.recorded d env.now hstage)
  | recorded =>
    simp only [hstage] at h
    cases h
    exact .announces (.delivered d hstage _ rfl)

variable {process : ProcessId}

theorem poke_turn {stage : DeliveryStage} (h : s.poke c env process stage = some t) :
    Turn s c env (.poking process stage) t := by
  cases stage with
  | fresh =>
    cases h
    exact .silent (.poked _ _ _)
  | idle =>
    simp only [poke] at h
    split_ifs at h
    · exact performs_turn h (.pokeClaimed process)
    · cases h
      exact .silent (.poked _ _ _)
  | claimed =>
    simp only [poke, settle] at h
    split_ifs at h with haccepted
    · exact performs_turn h (.pokeSubmitted process haccepted)
    · exact performs_turn h (.pokeReleased process)
  | settled | recorded =>
    cases h
    exact .silent (.pokeEnded _ _)

theorem complete_turn (r : Report) : Turn s c env (.completing r) (s.complete c env r) := by
  unfold complete
  split
  · exact .silent (.withoutTodo r)
  next id _ =>
    split
    · exact .silent (.completeRefused r _)
    · exact .silent (.completeRefused r _)
    next author _ _ =>
      have hprojects := Todos.projects_reportCompletion s.board r.project id r.key r.summary author
      split
      · exact .silent (.completeRefused r _)
      next board outcome heq =>
        rw [heq] at hprojects
        split_ifs
        · exact .arranges (.completed r outcome board _ hprojects (.inl rfl))
        · exact .arranges (.completed r outcome board _ hprojects (.inr rfl))

theorem check_turn (r : Report) : Turn s c env (.checking r) (s.check c r) := by
  unfold check
  split
  next delivery hfound => exact .silent (.noticeFound r (.pending delivery) hfound)
  next hfound => exact .silent (.noticeFound r .acknowledged hfound)
  next hnone =>
    split_ifs with hflag
    · obtain ⟨o, ho, hnotice⟩ := any_eq_true _ _ |>.mp hflag
      exact .silent (.noticeFlagged r o ho (of_decide_eq_true hnotice))
    · refine .silent (.noticeOwed r hnone fun o ho hnotice => hflag ?_)
      rw [ho]
      exact decide_eq_true hnotice

variable {project : ProjectId}

theorem isAgentIn_of_identity {caller : Caller} {sender : ProcessId}
    (h : s.identity caller = .ok (project, sender)) :
    s.isAgentIn project sender = true ∧ caller.project = some project ∧
      caller.process = some sender := by
  unfold identity at h
  split at h
  · cases h
  · cases h
  next hproject hprocess =>
    split_ifs at h with hlive
    cases h
    exact ⟨hlive, hproject, hprocess⟩

theorem notify_turn (r : Report) : Turn s c env (.notifying r) (s.notify c env r) := by
  unfold notify
  split
  · exact .silent (.notifyRefused r)
  next project sender hidentity =>
    obtain ⟨hlive, -, hprocess⟩ := isAgentIn_of_identity hidentity
    have hsender : sender = r.reporter := by
      simp only [Surroundings.caller] at hprocess
      split_ifs at hprocess
      exact (some.inj hprocess).symm
    subst hsender
    exact .silent (.notified r project hlive)

theorem flag_turn (r : Report) (d : AgentMessageDelivery) :
    Turn s c env (.flagging r d) (s.flag c env r d) := by
  unfold flag
  dsimp only
  split
  next outcome _ _ =>
    exact .arranges (.flagged r d _
      (Todos.projects_markCompletionNoticeQueued s.board r.project outcome.completion))
  · exact .arranges (.flagged r d s.board rfl)

variable {spawn : AgentSpawn}

theorem reserve_turn (h : s.reserve c spawn = some t) : Turn s c env (.reserving spawn) t := by
  unfold reserve at h
  dsimp only at h
  split at h
  next sender prompt hsender hprompt =>
    split at h
    · cases h
      exact .silent (.reserveRefused spawn _)
    · exact performs_turn h (.reserved spawn _ hsender rfl)
  next hfirst =>
    cases h
    refine .silent (.withoutPrompt spawn ?_)
    cases hsender : spawn.sender with
    | none => exact .inl rfl
    | some sender =>
      cases hprompt : spawn.request.prompt with
      | none => exact .inr rfl
      | some prompt => exact absurd hprompt (hfirst sender prompt hsender)

theorem openLaunch_turn (l : Launch) : Turn s c env (.launching l) (s.openLaunch c env l) := by
  have hfailed : ∀ e, Turn s c env (.launching l) (s.launchFailed c l e) := by
    intro e
    unfold launchFailed
    split
    · exact .silent (.launchRefused l _ rfl)
    · split_ifs
      · exact .silent (.launchCancelled l e)
      · exact .silent (.launchRefused l _ rfl)
  unfold openLaunch
  split
  · exact hfailed _
  · split_ifs with _ hopen
    · exact hfailed _
    · exact .silent (.launched l hopen)
    · exact hfailed _

theorem started_turn (l : Launch) (id : ProcessId) :
    Turn s c env (.starting l id) (s.started c env l id) := by
  unfold started
  split_ifs
  · dsimp only
    split
    next spawn hspawn => exact .arranges (.spawnStarted l spawn id _ hspawn)
    · exact .arranges (.started l id _ _ rfl)
  · dsimp only
    split
    next spawn hspawn => exact .arranges (.spawnStarted l spawn id _ hspawn)
    · exact .arranges (.started l id _ _ rfl)
  · unfold launchFailed
    split
    · exact .silent (.startRefused l id _ rfl)
    · split_ifs
      · exact .silent (.startCancelled l id _)
      · exact .silent (.startRefused l id _ rfl)

theorem nest_turn (spawn : AgentSpawn) (worker : ProcessId) :
    Turn s c env (.nesting spawn worker) (s.nest c env spawn worker) := by
  have hcall : ∀ call : MailCall, (if spawn.request.includeAgentInstructions then
      MailCall.labelling spawn worker else .placing spawn worker) = call →
      call = .labelling spawn worker ∨ call = .placing spawn worker := by
    intro call h
    split_ifs at h
    · exact .inl h.symm
    · exact .inr h.symm
  unfold nest
  dsimp only
  split
  · exact .arranges (.nested spawn worker _ _ (hcall _ rfl))
  · exact .arranges (.nested spawn worker s.parents _ (hcall _ rfl))

theorem place_turn {worker : ProcessId} (h : s.place c env.now worker = some t) :
    Turn s c env (.placing spawn worker) t := by
  unfold place at h
  split at h
  · cases h
    exact .silent (.withoutTask spawn worker)
  next first hfirst =>
    obtain ⟨room, hroom, rfl⟩ := exists_room_of_perform h
    split
    next e hrefused =>
      exact .performs hroom (.placeRefused spawn worker first e _ rfl hfirst hrefused)
    next d hplaced => exact .performs hroom (.placed spawn worker first d hfirst hplaced)

theorem acknowledge_turn {recipient : ProcessId} {id : AgentMessageId} {now : UInt64}
    (h : s.acknowledge c now recipient id = some t) : Turn s c env (.acknowledging recipient id) t := by
  unfold acknowledge at h
  split at h
  · cases h
    exact .silent (.acknowledgeRefused recipient id _)
  next d hok =>
    obtain ⟨room, hroom, rfl⟩ := exists_room_of_perform h
    exact .acknowledged recipient id now d room hok hroom

theorem decide_turn {body : String} (h : s.decide c env.now project process body = some t) :
    Turn s c env (.deciding project process body) t := by
  unfold decide at h
  split at h
  · cases h
    exact .silent (.decideRefused project process body)
  next d hok => exact performs_turn h (.decided project process body d hok)

theorem closeNext_turn (project : ProjectId) (ids : List ProcessId) :
    Turn s c env (.closingAll project ids) (s.closeNext c project ids) := by
  cases ids with
  | nil => exact .silent (.allClosed project)
  | cons id rest =>
    simp only [closeNext]
    split_ifs with hlive
    · exact .unregistered project id rest hlive
    · exact .silent (.closedAlready project id rest)

theorem proceed_turn (h : s.proceed c env = some t) :
    ∃ call, s.calls c = some call ∧ Turn s c env call t := by
  unfold proceed at h
  cases hcall : s.calls c with
  | none => simp only [hcall] at h; cases h
  | some call =>
    refine ⟨call, rfl, ?_⟩
    cases call with
    | returned reply => simp only [hcall] at h; cases h
    | rostering draft point => simp only [hcall] at h; exact roster_turn h
    | rostered draft members => simp only [hcall] at h; exact screen_turn h
    | dispatching d => simp only [hcall] at h; exact dispatch_turn h
    | acknowledging recipient id => simp only [hcall] at h; exact acknowledge_turn h
    | acknowledged d => simp only [hcall] at h; exact performs_turn h (.outcomeRecorded d)
    | announcing d =>
      simp only [hcall] at h
      cases h
      exact .announces (.acknowledged d _ rfl)
    | reporting project reporter task todoId summary =>
      simp only [hcall] at h
      split at h
      · cases h
        exact .silent (.reportRefused _ _ _ _ _ _)
      next parent taskTodo htask =>
        split_ifs at h with htodo
        · cases h
          rw [← htodo] at htask
          exact .silent (.taskFound _ _ _ _ _ _ htask)
        · cases h
          exact .silent (.reportRefused _ _ _ _ _ _)
    | completing r => simp only [hcall] at h; cases h; exact complete_turn r
    | announcingTodo r => simp only [hcall] at h; cases h; exact .announces (.todo r _ rfl)
    | checking r => simp only [hcall] at h; cases h; exact check_turn r
    | notifying r => simp only [hcall] at h; cases h; exact notify_turn r
    | noticing r d => simp only [hcall] at h; exact performs_turn h (.noticed r d)
    | flagging r d => simp only [hcall] at h; cases h; exact flag_turn r d
    | reserving spawn => simp only [hcall] at h; exact reserve_turn h
    | launching l => simp only [hcall] at h; cases h; exact openLaunch_turn l
    | registering l => simp only [hcall] at h; cases h; exact .registered l
    | starting l id => simp only [hcall] at h; cases h; exact started_turn l id
    | nesting spawn worker => simp only [hcall] at h; cases h; exact nest_turn spawn worker
    | labelling spawn worker =>
      simp only [hcall] at h
      cases h
      exact .silent (.labelled spawn worker _)
    | briefing spawn worker label =>
      simp only [hcall] at h
      exact performs_turn h (.briefed spawn worker label _ env.now)
    | placing spawn worker => simp only [hcall] at h; exact place_turn h
    | recording worker d => simp only [hcall] at h; exact performs_turn h (.taskRecorded worker d env.now)
    | announcingTask worker d =>
      simp only [hcall] at h
      cases h
      exact .announces (.task worker d _ rfl)
    | cancelling e => simp only [hcall] at h; exact performs_turn h (.cancelled e _ rfl)
    | deciding project process body => simp only [hcall] at h; exact decide_turn h
    | poking process stage => simp only [hcall] at h; exact poke_turn h
    | closing id rest =>
      simp only [hcall] at h
      cases h
      cases rest with
      | none => exact .announces (.processRemoved id)
      | some next => exact .announces (.processOfRemoved id next.1 next.2)
    | listingAll project =>
      simp only [hcall] at h
      split_ifs at h
      cases h
      exact .silent (.listedAll project _)
    | closingAll project ids => simp only [hcall] at h; cases h; exact closeNext_turn project ids
    | deleting project => simp only [hcall] at h; cases h; exact .arranges (.deleted project)
    | removing project =>
      simp only [hcall] at h
      cases h
      exact .announces (.projectRemoved project)

end Proceed

/-- The call a client begins. -/
inductive Opens (s : Facade) : MailCall → Prop
  | refused (reply : MailReply) (hreply : reply.isReport = false) : Opens s (.returned reply)
  | sends (draft : Draft) (hlive : s.isAgentIn draft.project draft.sender = true)
      (hreport : draft.report = none) : Opens s (.rostering draft .identify)
  | acknowledges (project : ProjectId) (recipient : ProcessId) (id : AgentMessageId)
      (hlive : s.isAgentIn project recipient = true) : Opens s (.acknowledging recipient id)
  | reports (project : ProjectId) (reporter : ProcessId) (task : AgentMessageId)
      (todoId : Option TodoId) (summary : String)
      (hlive : s.isAgentIn project reporter = true) :
    Opens s (.reporting project reporter task todoId summary)
  | launches (l : Launch) (hspawn : ∀ spawn, l.spawn = some spawn → spawn.sender = none) :
    Opens s (.launching l)
  | spawns (spawn : AgentSpawn) (sender : ProcessId)
      (hlive : s.isAgentIn spawn.project sender = true) : Opens s (.reserving spawn)
  | decides (project : ProjectId) (process : ProcessId) (body : String)
      (hlive : (s.processView process).isSome = true) : Opens s (.deciding project process body)
  | removes (project : ProjectId) (hopen : s.board.projects.contains project = true) :
    Opens s (.listingAll project)

/-- What the reactor's accesses do to the mailbox, the answers to a removal apart. -/
inductive ReactorOp : MailboxOp → Prop
  | observe (now : UInt64) (id : ProcessId) : ReactorOp (.observeNonIdle now id)
  | claim (id : ProcessId) : ReactorOp (.claim .reactor id)
  | mark : ReactorOp (.mark .reactor)
  | release : ReactorOp (.release .reactor)
  | fail (id : ProcessId) : ReactorOp (.wakeFailed id)

/-- One access of the reactor; what it adds to its errands are no answers to removals. -/
inductive ErrandTurn (s : Facade) (env : Surroundings) (rest : List Errand) : Errand → Facade → Prop
  | plans {e : Errand} (new : List Errand) (he : e.isRemoval = false)
      (hnew : ∀ x ∈ new, x.isRemoval = false) : ErrandTurn s env rest e { s with errands := new ++ rest }
  | performs {e : Errand} {op : MailboxOp} {room : Mailroom} (new : List Errand)
      (he : e.isRemoval = false) (hnew : ∀ x ∈ new, x.isRemoval = false) (hop : ReactorOp op)
      (hroom : s.room.step op = some room)
      (hmark : op = .mark .reactor → (∃ id, e = .settle id) ∧ env.accepted = true) :
    ErrandTurn s env rest e { s with room, errands := new ++ rest }
  | announces (project : ProjectId) (id : AgentMessageId) :
    ErrandTurn s env rest (.announce project id)
      { s.publish (.agentMessageChanged project id) with errands := rest }
  | removes (id : ProcessId) {room : Mailroom}
      (hroom : s.room.step (.removeProcess id) = some room) :
    ErrandTurn s env rest (.handle (.processRemoved id))
      { s with room, left := s.leave id, errands := rest }
  | forgets (id : ProjectId) {room : Mailroom}
      (hroom : s.room.step (.forgetProject id) = some room) :
    ErrandTurn s env rest (.handle (.projectRemoved id)) { s with room, errands := rest }

/-- A change of the todos opens a project or leaves the projects as they are. -/
def KeepsProjects (b b' : Board) : Prop :=
  b'.projects = b.projects ∨ b'.projects = b.addProject.projects

/-- One step of the façade. -/
inductive Step (s : Facade) : FacadeEvent → Facade → Prop
  | opens {e : FacadeEvent} {call : MailCall} (h : Opens s call) : Step s e (s.begin call)
  | closes (id : ProcessId) (hlive : (s.processView id).isSome = true) :
    Step s (.close id) { s.begin (.closing id none) with registry := s.registry.erase id }
  | proceeds {c : Nat} {env : Surroundings} {call : MailCall} {t : Facade}
      (hcall : s.calls c = some call) (h : Turn s c env call t) : Step s (.proceed c env) t
  | stores {e : FacadeEvent} {board : Board} (h : KeepsProjects s.board board) :
    Step s e { s with board }
  | classifies {e : FacadeEvent} (tracker : Dict ProcessId (Option AgentActivity))
      (parents : Dict ProcessId ProcessId) : Step s e { s with tracker, parents }
  | publishes (event : MailEvent) (h : event.isRemoval = false) :
    Step s (.publish event) (s.publish event)
  | receives (event : MailEvent) (rest : List MailEvent) (hidle : s.errands = [])
      (hlag : s.bus.lagged = false) (hqueue : s.bus.queue = event :: rest) :
    Step s .receive { s with bus := { s.bus with queue := rest }, errands := [.handle event] }
  | lags (hidle : s.errands = []) (hlag : s.bus.lagged = true) :
    Step s .receive
      { s with bus := { s.bus with lagged := false }, errands := [.reconcileSnapshot] }
  | ticks (hidle : s.errands = []) :
    Step s .tick { s with errands := [.reconcileSnapshot, .reconcileBackstops] }
  | errands {env : Surroundings} {e : Errand} {rest : List Errand} {t : Facade}
      (hnext : s.errands = e :: rest) (h : ErrandTurn s env rest e t) : Step s (.errand env) t

section Inversion
variable {s t : Facade}

theorem runErrand_turn {env : Surroundings} {rest : List Errand} {e : Errand}
    (h : s.runErrand env rest e = some t) : ErrandTurn s env rest e t := by
  have hdone : ∀ x ∈ ([] : List Errand), x.isRemoval = false := by simp
  cases e with
  | handle event =>
    cases event with
    | agentActivityChanged id activity =>
      cases activity with
      | idle =>
        cases h
        exact .plans [.reconcileOne id] rfl (by simp [Errand.isRemoval])
      | permission | thinking | working | error =>
        simp only [runErrand, handle] at h
        obtain ⟨room, hroom, ht⟩ := perform_eq_some.mp h
        subst ht
        exact .performs [] rfl hdone (.observe env.now id) hroom (fun h => by cases h)
    | processRemoved id =>
      simp only [runErrand, handle] at h
      obtain ⟨u, hu, ht⟩ := map_eq_some_iff.mp h
      obtain ⟨room, hroom, hu⟩ := perform_eq_some.mp hu
      subst hu
      subst ht
      exact .removes id hroom
    | projectRemoved id =>
      simp only [runErrand, handle] at h
      obtain ⟨room, hroom, ht⟩ := perform_eq_some.mp h
      subst ht
      exact .forgets id hroom
    | agentMessageChanged | todoChanged | other =>
      cases h
      exact .plans [] rfl hdone
  | reconcileSnapshot =>
    cases h
    exact .plans [_] rfl (by simp [Errand.isRemoval])
  | readSnapshot retryable =>
    simp only [runErrand] at h
    split_ifs at h
    cases h
    refine .plans _ rfl fun x hx => ?_
    obtain ⟨id, -, hvisit⟩ := List.mem_filterMap.mp hx
    obtain ⟨activity, -, hx⟩ := map_eq_some_iff.mp hvisit
    rw [← hx]
    rfl
  | visit retryable id activity =>
    simp only [runErrand] at h
    split_ifs at h
    · cases h
      exact .plans [_] rfl (by simp [Errand.isRemoval])
    · cases h
      exact .plans [] rfl hdone
    · obtain ⟨room, hroom, ht⟩ := perform_eq_some.mp h
      subst ht
      exact .performs [] rfl hdone (.observe env.now id) hroom (fun h => by cases h)
  | reconcileBackstops =>
    cases h
    exact .plans [_] rfl (by simp [Errand.isRemoval])
  | readBackstops retryable =>
    simp only [runErrand] at h
    split_ifs at h
    cases h
    refine .plans _ rfl fun x hx => ?_
    obtain ⟨id, -, hx⟩ := List.mem_map.mp hx
    rw [← hx]
    rfl
  | visitBackstop retryable id =>
    simp only [runErrand] at h
    cases h
    split_ifs
    · exact .plans [_] rfl (by simp [Errand.isRemoval])
    · exact .plans [] rfl hdone
  | reconcileOne id =>
    simp only [runErrand] at h
    split_ifs at h
    · obtain ⟨u, hu, ht⟩ := map_eq_some_iff.mp h
      obtain ⟨room, hroom, hu⟩ := perform_eq_some.mp hu
      subst hu
      subst ht
      exact .performs [_] rfl (by simp [Errand.isRemoval]) (.claim id) hroom (fun h => by cases h)
    · cases h
      exact .plans [_] rfl (by simp [Errand.isRemoval])
  | settle id =>
    simp only [runErrand] at h
    split at h
    · cases h
    next sub _ =>
      obtain ⟨u, hu, ht⟩ := map_eq_some_iff.mp h
      obtain ⟨room, hroom, hu⟩ := perform_eq_some.mp hu
      subst hu
      subst ht
      split_ifs at hroom ⊢ with haccepted
      · refine .performs _ rfl (fun x hx => ?_) .mark hroom fun _ => ⟨⟨id, rfl⟩, haccepted⟩
        obtain ⟨a, -, hx⟩ := List.mem_map.mp hx
        rw [← hx]
        rfl
      · exact .performs [_] rfl (by simp [Errand.isRemoval]) .release hroom (fun h => by cases h)
  | wakeFailed id =>
    simp only [runErrand] at h
    obtain ⟨room, hroom, ht⟩ := perform_eq_some.mp h
    subst ht
    exact .performs [] rfl hdone (.fail id) hroom (fun h => by cases h)
  | announce project id =>
    cases h
    exact .announces project id

theorem keepsProjects_apply (b : Board) (op : TodoOp) (h : ∀ p, op ≠ .removeProject p) :
    KeepsProjects b (op.apply b) := by
  rcases op.projects_apply b with hsame | hadd | ⟨p, hp⟩
  · exact .inl hsame
  · rw [hadd]
    exact .inr rfl
  · exact absurd hp (h p)

/-- The inversion lemma of the façade. -/
theorem step_cases {e : FacadeEvent} (h : s.step e = some t) : Step s e t := by
  cases e with
  | openProject =>
    cases h
    exact .stores (keepsProjects_apply s.board .addProject fun p hp => by cases hp)
  | removeProject project =>
    simp only [step] at h
    split_ifs at h with hopen
    cases h
    exact .opens (.removes project hopen)
  | launch project kind label =>
    cases h
    exact .opens (.launches _ fun spawn hspawn => by cases hspawn)
  | close id =>
    simp only [step] at h
    split_ifs at h with hlive
    cases h
    exact .closes id hlive
  | send caller recipient body todoId =>
    cases h
    refine .opens ?_
    unfold openSend
    split
    · exact .refused _ rfl
    next project sender hidentity => exact .sends _ (isAgentIn_of_identity hidentity).1 rfl
  | broadcast caller body todoId =>
    cases h
    refine .opens ?_
    unfold openBroadcast
    split_ifs
    · exact .refused _ rfl
    · split
      · exact .refused _ rfl
      next project sender hidentity => exact .sends _ (isAgentIn_of_identity hidentity).1 rfl
  | acknowledge caller id =>
    cases h
    refine .opens ?_
    unfold openAcknowledge
    split
    · exact .refused _ rfl
    next project recipient hidentity =>
      exact .acknowledges project recipient id (isAgentIn_of_identity hidentity).1
  | report caller task todoId summary =>
    cases h
    refine .opens ?_
    unfold openReport
    split_ifs
    · exact .refused _ rfl
    · split
      · exact .refused _ rfl
      next project sender hidentity =>
        exact .reports project sender task todoId summary (isAgentIn_of_identity hidentity).1
  | spawn caller home request =>
    cases h
    refine .opens ?_
    unfold openSpawn
    split
    · exact .refused _ rfl
    next project hproject =>
      split_ifs
      · exact .refused _ rfl
      · split
        · refine .launches _ fun spawn hspawn => ?_
          cases hspawn
          rfl
        next prompt _ =>
          split_ifs
          · exact .refused _ rfl
          · split
            · exact .refused _ rfl
            next project' sender hidentity =>
              obtain ⟨hlive, hsame, -⟩ := isAgentIn_of_identity hidentity
              rw [hproject] at hsame
              cases hsame
              exact .spawns _ sender hlive
  | decide project requestedBy body =>
    simp only [step] at h
    split_ifs at h with hagent
    cases h
    obtain ⟨view, hview, -⟩ := any_eq_true _ _ |>.mp hagent
    exact .opens (.decides project requestedBy body (isSome_iff_exists.mpr ⟨view, hview⟩))
  | proceed c env =>
    obtain ⟨call, hcall, hturn⟩ := proceed_turn h
    exact .proceeds hcall hturn
  | todo op =>
    cases op with
    | removeProject p => cases h
    | _ =>
      cases h
      exact .stores (keepsProjects_apply s.board _ fun p hp => by cases hp)
  | classify id activity =>
    obtain ⟨current, -, ht⟩ := map_eq_some_iff.mp h
    subst ht
    exact .classifies _ s.parents
  | retainTracked live =>
    cases h
    exact .classifies _ s.parents
  | retainLineage live =>
    cases h
    exact .classifies s.tracker _
  | publish event =>
    simp only [step] at h
    split_ifs at h with hremoval
    cases h
    exact .publishes event (Bool.eq_false_iff.mpr hremoval)
  | receive =>
    simp only [step, receive] at h
    split_ifs at h with herrands hlag
    · cases h
      exact .lags (not_not.mp herrands) hlag
    · split at h
      · cases h
      next event rest hqueue =>
        cases h
        exact .receives event rest (not_not.mp herrands) (Bool.eq_false_iff.mpr hlag) hqueue
  | tick =>
    simp only [step] at h
    split_ifs at h with hidle
    cases h
    exact .ticks hidle
  | errand env =>
    simp only [step] at h
    split at h
    · cases h
    next e rest hnext => exact .errands hnext (runErrand_turn h)

end Inversion

end Facade

end Soloist
