import Soloist.Notify.Reactor
import Soloist.Supervisor.Windows

/-! A crash before the two reactors that hear of it: the restart policy relaunches the process or
holds it exhausted, and the notification reactor announces what the policy will not retry. Each
decides for itself, on what the registry holds at the time. -/
namespace Soloist

def Call.ended : Call → Bool
  | returned _ => true
  | _ => false

namespace Notify

/-- What the restart policy makes of a crash it takes up: it has not read the entry yet, it has read
it as one to restart, or as one that is not; or its call is over. -/
inductive Verdict
  | waiting
  | retrying
  | declined
  | over
  deriving DecidableEq, Repr

/-- How a process leaves the crash it is in: relaunched or held exhausted by the policy, or launched
or taken out by a user before the policy has decided. -/
inductive Outcome
  | standing
  | relaunched
  | held
  | intervened
  deriving DecidableEq, Repr

/-- What the notification reactor makes of a crash. -/
inductive NoticeOutcome
  | pending
  | spared
  | missed
  | alerted
  deriving DecidableEq, Repr

structure CrashRecord where
  process : ProcessId
  verdict : Verdict
  outcome : Outcome
  notice : NoticeOutcome
  deriving DecidableEq, Repr

def Verdict.undecided : Verdict → Bool
  | waiting | retrying => true
  | declined | «over» => false

/-- A user who comes after the policy's decision is too late. -/
def CrashRecord.leave (r : CrashRecord) (outcome : Outcome) : CrashRecord :=
  if outcome = .intervened ∧ r.verdict.undecided = false then r else { r with outcome }

def Stage.kind : Stage → Option AttentionKind
  | idle => none
  | classified _ trigger | admitted _ trigger _ | viewed _ trigger _ _ | surviving _ trigger _ _
  | leveled _ trigger _ _ _ => some trigger.kind
  | decided alert => some alert.kind
  | raising _ kind => some kind

/-- Past the check of the command's restart policy. -/
def Stage.survived : Stage → Bool
  | surviving .. | leveled .. | decided _ | raising _ _ => true
  | idle | classified .. | admitted .. | viewed .. => false

/-- What a step of the reactor decides about the event it is on. -/
def Stage.concludes : Stage → Stage → Option NoticeOutcome
  | raising .., idle => some .alerted
  | viewed .., idle => some .spared
  | admitted .., idle => some .missed
  | _, _ => none

def noticeOf : DomainEvent → NoticeEvent
  | .processStatusChanged id _ target _ => .processStatusChanged id target
  | .processRemoved id => .processRemoved id
  | .restartScheduled _ _ _ => .other
  | .restartExhausted id => .restartExhausted id

def NoticeEvent.foreign : NoticeEvent → Bool
  | processStatusChanged _ _ | restartExhausted _ | processRemoved _ => false
  | agentActivityChanged _ _ | terminalBell _ | terminalNotification _ _ _ | attentionChanged
  | notificationRaised _ _ _ | other => true

/-- The supervisor and the notification reactor, with a record of each crash, named by the actor
that left the process so. -/
structure CrashWatch where
  core : Supervisor
  labels : ProcessId → String
  notifier : NotificationReactor
  /-- The events that the reactor has not received, each with the crash it tells of. -/
  notices : List (NoticeEvent × Option ActorId)
  /-- The crash that the event the reactor is on tells of. -/
  telling : Option ActorId
  crashes : Slots ActorId CrashRecord
  /-- The crash that the restart policy has taken up, and the one it is holding exhausted. -/
  policyOn : Option ActorId
  holding : Option ActorId

inductive WatchStep
  | core (e : SupervisorEvent)
  | notice (e : NoticeStep)

namespace CrashWatch

def new (labels : ProcessId → String) : CrashWatch where
  core := .init
  labels
  notifier := .init
  notices := []
  telling := none
  crashes := .empty
  policyOn := none
  holding := none

def autoRestarts (s : CrashWatch) (id : ProcessId) : Bool :=
  (s.core.fleet.registry id).any Managed.autoRestart

def entries (s : CrashWatch) : Slots ProcessId NoticeEntry := fun id =>
  (s.core.fleet.registry id).map fun m => ⟨m.project, s.labels id, m.autoRestart⟩

def reads (s : CrashWatch) : NotificationReactor := { s.notifier with registered := s.entries }

def policyCall (s : CrashWatch) : Option CallId :=
  match s.core.reactor with
  | .idle => none
  | .handling c _ => some c

def advancing (s : CrashWatch) : SupervisorEvent → Option Call
  | .proceed c _ _ => if s.policyCall = some c then s.core.calls c else none
  | _ => none

def advanced (s : CrashWatch) (core : Supervisor) : Option Call :=
  s.policyCall.bind core.calls

def subject (s : CrashWatch) (e : SupervisorEvent) (event : DomainEvent) : Option ActorId :=
  match event, e with
  | .processStatusChanged _ _ .crashed _, .publish a => (s.crashes a).map fun _ => a
  | .restartExhausted _, _ => if (s.advancing e).isSome then s.holding else none
  | _, _ => none

def ending (s : CrashWatch) (e : SupervisorEvent) : Outcome :=
  match s.advancing e with
  | some (.relaunching _ _ _) => .relaunched
  | some (.exhausting _) => .held
  | _ => .intervened

def judge (s : CrashWatch) (r : CrashRecord) (call : Call) : Option Call → Verdict
  | some (.described _ _ _) => .retrying
  | some (.returned _) =>
    match call with
    | .policyBegun _ | .policyOpen _ => if s.autoRestarts r.process then .over else .declined
    | _ => .over
  | _ => r.verdict

def parted (s : CrashWatch) (e : SupervisorEvent) (core : Supervisor) (a : ActorId)
    (r : CrashRecord) : CrashRecord :=
  if s.core.fleet.crash r.process = some a ∧ core.fleet.crash r.process ≠ some a
  then r.leave (s.ending e) else r

def follow (s : CrashWatch) (e : SupervisorEvent) (core : Supervisor) (a : ActorId)
    (r : CrashRecord) : CrashRecord :=
  match s.advancing e with
  | some call =>
    if s.policyOn = some a
    then { s.parted e core a r with verdict := s.judge r call (s.advanced core) }
    else s.parted e core a r
  | none => s.parted e core a r

def entered (s : CrashWatch) (e : SupervisorEvent) (core : Supervisor) (a : ActorId) :
    Option CrashRecord :=
  match e, s.core.fleet.actors a with
  | .advance b, some x =>
    if a = b ∧ core.fleet.crash x.process = some a then
      some ⟨x.process, .waiting, .standing, .pending⟩
    else none
  | _, _ => none

/-- The policy takes up the crash a process is in, unless it has decided on it before. -/
def takenUp (s : CrashWatch) (e : SupervisorEvent) : Option ActorId :=
  ((s.core.takesUp e).bind s.core.fleet.crash).filter fun a =>
    (s.crashes a).any fun r => r.verdict.undecided

def policyNext (s : CrashWatch) (e : SupervisorEvent) (core : Supervisor) : Option ActorId :=
  match e with
  | .reactorRecv _ => s.takenUp e
  | _ => if (s.advancing e).isSome ∧ (s.advanced core).any Call.ended then none else s.policyOn

def holdingNext (s : CrashWatch) (e : SupervisorEvent) (core : Supervisor) : Option ActorId :=
  match s.advancing e, s.advanced core with
  | some (.exhausting id), some (.exhausted _) => s.core.fleet.crash id
  | some (.exhausted _), _ => none
  | _, _ => s.holding

/-- After a step of the supervisor, whose events go to both reactors. -/
def after (s : CrashWatch) (e : SupervisorEvent) (core : Supervisor) : CrashWatch :=
  { s with
    core
    notices := s.notices ++
      (core.bus.drop s.core.bus.length).map fun event => (noticeOf event, s.subject e event)
    crashes := fun a => ((s.crashes a).map (s.follow e core a)).or (s.entered e core a)
    policyOn := s.policyNext e core
    holding := s.holdingNext e core }

def coreStep [Sha256] (s : CrashWatch) : SupervisorEvent → Option CrashWatch
  | .overflow => none
  | e => (s.core.step e).map (s.after e)

/-- Takes over the notification reactor after a step; what it has published comes back to it. -/
def flush (s : CrashWatch) (n : NotificationReactor) : CrashWatch :=
  { s with
    notifier := { n with events := [] }
    notices := s.notices ++ n.events.map fun event => (event, none) }

/-- What the reactor concludes is about the crash it is told of; an alert is not taken back. -/
def conclude (s : CrashWatch) (stage : Stage) : Slots ActorId CrashRecord :=
  match s.telling, s.notifier.stage.concludes stage with
  | some a, some notice =>
    s.crashes.modify a fun r => if r.notice = .alerted then r else { r with notice }
  | _, _ => s.crashes

def noticeStep (s : CrashWatch) : NoticeStep → Option CrashWatch
  | .recv =>
    match s.notifier.stage, s.notices with
    | .idle, (event, telling) :: notices =>
      some ({ s with notices, telling }.flush (s.reads.react event))
    | _, _ => none
  | .advance fault =>
    (s.reads.advance fault).map fun n => { s.flush n with crashes := s.conclude n.stage }
  | .publish event =>
    if event.foreign then some { s with notices := s.notices ++ [(event, none)] } else none
  | .setNotifications notifications =>
    (s.reads.step (.setNotifications notifications)).map s.flush
  | .setProjectSettings project settings =>
    (s.reads.step (.setProjectSettings project settings)).map s.flush
  | .setPresence presence => (s.reads.step (.setPresence presence)).map s.flush
  | .see id => (s.reads.step (.see id)).map s.flush
  | .clearAttention id => (s.reads.step (.clearAttention id)).map s.flush
  | .clearAllAttention => (s.reads.step .clearAllAttention).map s.flush
  | .register _ | .update _ _ | .remove _ | .announceRemoval _ | .lag _ => none

def step [Sha256] (s : CrashWatch) : WatchStep → Option CrashWatch
  | .core e => s.coreStep e
  | .notice e => s.noticeStep e

/-- At its next access the reactor reads notifications as enabled, at level all, and the user as
elsewhere. -/
def Heeds (s : CrashWatch) (fault : Bool) : Stage → Prop
  | .classified _ _ => fault = false → s.notifier.notifications.enabled = true
  | .surviving _ _ _ view => fault = false →
    (s.notifier.projectSettings view.project).effectiveLevelFor view.label = .all
  | .leveled id _ _ _ _ => s.notifier.presence.focused = true →
    s.notifier.presence.viewing ≠ some id
  | _ => True

instance (s : CrashWatch) (fault : Bool) : DecidablePred (s.Heeds fault)
  | .classified _ _ => inferInstanceAs (Decidable (fault = false → _))
  | .surviving _ _ _ _ => inferInstanceAs (Decidable (fault = false → _))
  | .leveled _ _ _ _ _ =>
    inferInstanceAs (Decidable (s.notifier.presence.focused = true → _ ≠ _))
  | .idle | .admitted .. | .viewed .. | .decided _ | .raising .. => isTrue trivial

def Attentive (s : CrashWatch) : WatchStep → Prop
  | .notice (.advance fault) => s.Heeds fault s.notifier.stage
  | _ => True

instance (s : CrashWatch) : DecidablePred s.Attentive
  | .notice (.advance fault) => inferInstanceAs (Decidable (s.Heeds fault s.notifier.stage))
  | .core _ => isTrue trivial
  | .notice .recv | .notice (.publish _) | .notice (.setNotifications _)
  | .notice (.setProjectSettings _ _) | .notice (.setPresence _) | .notice (.see _)
  | .notice (.clearAttention _) | .notice .clearAllAttention | .notice (.register _)
  | .notice (.update _ _) | .notice (.remove _) | .notice (.announceRemoval _)
  | .notice (.lag _) => isTrue trivial

/-- The reactor is past the check of the policy, or the check of the registry, for a crash. -/
def Survived (s : CrashWatch) (a : ActorId) : Prop :=
  s.telling = some a ∧ s.notifier.stage.survived = true

def Viewed (s : CrashWatch) (a : ActorId) : Prop :=
  s.telling = some a ∧ s.notifier.stage.process ≠ none

instance (s : CrashWatch) (a : ActorId) : Decidable (s.Survived a) :=
  inferInstanceAs (Decidable (_ ∧ _))

instance (s : CrashWatch) (a : ActorId) : Decidable (s.Viewed a) :=
  inferInstanceAs (Decidable (_ ∧ _ ≠ _))

/-- One of the two reactors has decided on a crash by the declared policy, and the other has not. -/
def Awaits (s : CrashWatch) (a : ActorId) (r : CrashRecord) : Prop :=
  r.outcome = .standing ∧
    (r.verdict = .declined ∧ r.notice = .pending ∧ ¬s.Survived a ∨
      r.verdict = .waiting ∧ r.notice = .spared)

/-- The policy has left a crash to be announced, and the reactor has not seen the process yet. -/
def Owes (s : CrashWatch) (a : ActorId) (r : CrashRecord) : Prop :=
  r.outcome = .standing ∧ r.verdict = .declined ∧ r.notice = .pending ∧ ¬s.Viewed a ∨
    r.outcome = .held ∧ r.notice ≠ .alerted ∧
      ¬(s.Viewed a ∧ s.notifier.stage.kind = some .restartExhausted)

instance (s : CrashWatch) (a : ActorId) (r : CrashRecord) : Decidable (s.Awaits a r) :=
  inferInstanceAs (Decidable (_ ∧ (_ ∧ _ ∧ _ ∨ _ ∧ _)))

instance (s : CrashWatch) (a : ActorId) (r : CrashRecord) : Decidable (s.Owes a r) :=
  inferInstanceAs (Decidable (_ ∧ _ ∧ _ ∧ _ ∨ _ ∧ _ ∧ _))

def RecordsOf (s : CrashWatch) (id : ProcessId) (P : ActorId → CrashRecord → Prop) : Prop :=
  ∀ a < s.core.fleet.nextActor, ∀ r ∈ s.crashes a, r.process = id → P a r

instance (s : CrashWatch) (id : ProcessId) (P : ActorId → CrashRecord → Prop)
    [∀ a r, Decidable (P a r)] : Decidable (s.RecordsOf id P) :=
  inferInstanceAs (Decidable (∀ a < s.core.fleet.nextActor, ∀ r ∈ s.crashes a, _ → P a r))

/-- The policy lets go of no crash of an `auto_restart` command at the next access of a call, and
what a reactor has decided by is not reloaded. -/
def Retains (s : CrashWatch) (fault : Option StoreError) : Call → Prop
  | .policyBegun id => s.core.policy.shuttingDown = true →
    ∀ a ∈ s.policyOn, ∀ r ∈ s.crashes a, r.outcome = .standing → s.autoRestarts id = false
  | .described .policy _ info => ∀ a ∈ s.policyOn, ∀ r ∈ s.crashes a, r.outcome = .standing →
    ∀ variant ∈ info.trustVariant, fault = none ∧ s.core.trust info.project variant = true
  | .reloading id _ _ spec =>
    s.RecordsOf id fun a r => s.Awaits a r → spec.autoRestart = s.autoRestarts id
  | _ => True

instance (s : CrashWatch) (fault : Option StoreError) : DecidablePred (s.Retains fault)
  | .policyBegun id => inferInstanceAs (Decidable (_ → ∀ a ∈ s.policyOn, ∀ r ∈ s.crashes a,
      r.outcome = .standing → s.autoRestarts id = false))
  | .described .policy _ info => inferInstanceAs (Decidable (∀ a ∈ s.policyOn,
      ∀ r ∈ s.crashes a, r.outcome = .standing → ∀ variant ∈ info.trustVariant, _ ∧ _))
  | .reloading id _ _ spec => inferInstanceAs (Decidable (s.RecordsOf id fun a r => s.Awaits a r →
      spec.autoRestart = s.autoRestarts id))
  | .described .start _ _ | .described .restart _ _ | .described .resume _ _
  | .described (.bulkStart _) _ _ | .trusted .. | .ready .. | .policyOpen _ | .scheduled ..
  | .relaunching .. | .exhausting _ | .exhausted _ | .stopping _ | .closing .. | .reaping ..
  | .removed .. | .returned _ => isTrue trivial

/-- A step at which the policy lets go of no crash of an `auto_restart` command, and what the two
reactors decide by stays while one of them is still to decide. -/
def Guarded (s : CrashWatch) : WatchStep → Prop
  | .core (.proceed c _ fault) => ∀ call ∈ s.core.calls c, s.Retains fault call
  | .core (.close id) => s.RecordsOf id fun a r => ¬s.Owes a r
  | .core (.deregister id) =>
    (s.core.fleet.registry.status id).any (fun status => !status.isActive) = true →
      s.RecordsOf id fun a r => ¬s.Owes a r
  | _ => True

instance (s : CrashWatch) : DecidablePred s.Guarded
  | .core (.proceed c _ fault) =>
    inferInstanceAs (Decidable (∀ call ∈ s.core.calls c, s.Retains fault call))
  | .core (.close id) => inferInstanceAs (Decidable (s.RecordsOf id fun a r => ¬s.Owes a r))
  | .core (.deregister id) =>
    inferInstanceAs (Decidable (_ → s.RecordsOf id fun a r => ¬s.Owes a r))
  | .core (.register _) | .core (.reload ..) | .core (.launch ..) | .core (.stop _)
  | .core (.setTrusted ..) | .core .beginShutdown | .core (.attachJoin _) | .core (.advance _)
  | .core (.publish _) | .core (.move ..) | .core .overflow | .core (.reactorRecv _)
  | .core .reactorNext | .notice _ => isTrue trivial

/-- Every crash is published, and both reactors have consumed all there is. -/
structure Settled (s : CrashWatch) : Prop where
  published : ∀ a < s.core.fleet.nextActor, ∀ x ∈ s.core.fleet.actors a, x.outbox = none
  bus : s.core.bus = []
  reactor : s.core.reactor = .idle
  notices : s.notices = []
  stage : s.notifier.stage = .idle

instance (s : CrashWatch) : Decidable s.Settled :=
  decidable_of_iff
    ((∀ a < s.core.fleet.nextActor, ∀ x ∈ s.core.fleet.actors a, x.outbox = none) ∧
      s.core.bus = [] ∧ s.core.reactor = .idle ∧ s.notices = [] ∧ s.notifier.stage = .idle)
    ⟨fun ⟨hpublished, hbus, hreactor, hnotices, hstage⟩ =>
      ⟨hpublished, hbus, hreactor, hnotices, hstage⟩,
      fun h => ⟨h.published, h.bus, h.reactor, h.notices, h.stage⟩⟩

end CrashWatch

/-- The runs of the supervisor with the notification reactor. -/
def crashWatch [Sha256] : Machine CrashWatch WatchStep where
  init s := ∃ labels, s = .new labels
  step := CrashWatch.step

end Notify
end Soloist
