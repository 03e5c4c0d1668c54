import Soloist.Feed
import Soloist.Mailbox.Facade
import Soloist.Timer.Repo

/-! The timer scheduler among the parties it hears from: the supervisor's registry, the idle
sampler with its tracker, the façade's timer calls, and the bounded event bus. Each party advances
by one access to shared state at a time. -/
namespace Soloist

/-- The domain events, as the scheduler tells them apart. -/
inductive IdleEvent
  | agentActivityChanged (id : ProcessId) (state : AgentActivity)
  | processRemoved (id : ProcessId)
  | other
  deriving DecidableEq, Repr

def IdleEvent.about : IdleEvent → Option ProcessId
  | .agentActivityChanged id _ | .processRemoved id => some id
  | .other => none

/-- What a provider's heuristic makes of one terminal sample. -/
structure Sample where
  evidence : Bool
  classified : AgentActivity
  deriving DecidableEq, Repr

def Sample.observe (current : Option AgentActivity) (x : Sample) :
    Option AgentActivity × Option AgentActivity :=
  if current = none ∧ x.evidence = false then (current, none)
  else if current = some x.classified then (current, none)
  else (some x.classified, some x.classified)

/-- A tick of the idle sampler, as what it holds before its next access. -/
inductive Sampler
  | asleep
  | listed (tracked : List ProcessId)
  | snapped (statuses : Slots ProcessId ProcStatus) (tracked : List ProcessId)
  | visiting (statuses : Slots ProcessId ProcStatus) (rest : List ProcessId)
  | sampled (statuses : Slots ProcessId ProcStatus) (id : ProcessId) (x : Sample)
      (rest : List ProcessId)
  | announcing (statuses : Slots ProcessId ProcStatus) (id : ProcessId) (state : AgentActivity)
      (rest : List ProcessId)

/-- Where the scheduling loop stands: about to read the armed set, evaluating what it read, or
waiting. -/
inductive Pass
  | woken
  | evaluating (now : UInt64) (rest : List StoredTimer)
  | waiting
  deriving DecidableEq, Repr

/-- The scheduling loop, with its own record of each agent's activity. A panicked pass loses both
the record and the subscription. -/
inductive TimerScheduler
  | down
  | up (activity : Slots ProcessId AgentActivity) (events : Feed IdleEvent) (pass : Pass)

namespace TimerScheduler

def handle (activity : Slots ProcessId AgentActivity) :
    IdleEvent → Slots ProcessId AgentActivity
  | .agentActivityChanged id state => activity.put id state
  | .processRemoved id => activity.erase id
  | .other => activity

def isDue (timer : StoredTimer) (now : UInt64) (activity : Slots ProcessId AgentActivity)
    (inRegistry : ProcessId → Bool) : Bool :=
  if timer.deadlineUnixMillis ≤ now then true
  else
    match timer.fire.idleQuorum with
    | none => false
    | some (mode, watched) =>
      mode.quorumMet watched fun p => watchedIsIdle (activity p) (inRegistry p)

def wakeReasonHeader (timer : StoredTimer) (firedAtBackstop : Bool) : String :=
  let id := timer.id
  match timer.fire with
  | .atDeadline => s!"[Soloist timer #{id}] scheduled delivery"
  | .whenIdleAny watched =>
    let n := watched.length
    if firedAtBackstop then
      s!"[Soloist timer #{id}] max-wait backstop elapsed (when-any-idle, {n} watched)"
    else s!"[Soloist timer #{id}] a watched agent is idle (any-idle condition met)"
  | .whenIdleAll watched =>
    let n := watched.length
    if firedAtBackstop then
      s!"[Soloist timer #{id}] max-wait backstop elapsed (when-all-idle, {n} watched)"
    else s!"[Soloist timer #{id}] all {n} watched agents are idle"

def turn (timer : StoredTimer) (firedAtBackstop : Bool) : ProcessId × String :=
  (timer.owner, wakeReasonHeader timer firedAtBackstop ++ "\n" ++ timer.body)

end TimerScheduler

structure TimerSystem where
  registry : Slots ProcessId ProcStatus
  nextProcess : ProcessId
  /-- The agents registered by a launch that has not tracked them yet. -/
  launching : List ProcessId
  /-- The processes that left the registry and are not announced yet. -/
  closing : List ProcessId
  /-- The agents under classification, each with its current activity. -/
  tracker : Slots ProcessId (Option AgentActivity)
  sampler : Sampler
  timers : TimerTable
  scheduler : TimerScheduler
  /-- The turns fired timers submitted, oldest first. -/
  turns : List (ProcessId × String)

/-- One access by a party, with the clock and the store fault it meets. -/
inductive TimerEvent
  | register (agent : Bool)
  | track (id : ProcessId)
  | setStatus (id : ProcessId) (status : ProcStatus)
  | remove (id : ProcessId)
  | announceRemoval (id : ProcessId)
  /-- Any event the scheduler skips. -/
  | publishOther
  /-- A sampler tick lists the tracked agents, in some order. -/
  | tick (order : List ProcessId)
  /-- With no agent tracked and no lineage recorded, a tick goes back to sleep. -/
  | skipTick
  /-- The next access of a tick; `signals` is what the terminal of a running agent shows. -/
  | sample (signals : Option Sample)
  | timerSet (project : ProjectId) (owner : ProcessId) (body : String) (after : Option Duration)
      (now : UInt64) (fault : Option StoreError)
  | timerFireWhenIdle (project : ProjectId) (owner : ProcessId) (body : String)
      (watched : List ProcessId) (mode : IdleMode) (maxWait : Option Duration) (now : UInt64)
      (fault : Option StoreError)
  | timerCancel (id : TimerId) (owner : ProcessId) (fault : Option StoreError)
  | timerPause (id : TimerId) (owner : ProcessId) (now : UInt64) (fault : Option StoreError)
  | timerResume (id : TimerId) (owner : ProcessId) (now : UInt64) (fault : Option StoreError)
  | removeProject (project : ProjectId)
  | reconcileTimers (fault : Option StoreError)
  /-- The scheduling loop subscribes, at first or after a panicked pass. -/
  | start
  | panic
  | evaluate (now : UInt64) (fault : Option StoreError)
  | consider (fault : Option StoreError)
  /-- A notify or the end of the sleep. -/
  | wake
  | recv (fault : Option StoreError)

namespace TimerSystem

def init : TimerSystem where
  registry := Slots.empty
  nextProcess := 1
  launching := []
  closing := []
  tracker := Slots.empty
  sampler := .asleep
  timers := AutoTable.empty
  scheduler := .down
  turns := []

def inRegistry (s : TimerSystem) (p : ProcessId) : Bool := (s.registry p).isSome

/-- `IdleTracker::tracked`, up to the order of a hash map. -/
def tracked (s : TimerSystem) : List ProcessId :=
  (List.range s.nextProcess).filter fun p => (s.tracker p).isSome

def publish (s : TimerSystem) (e : IdleEvent) : TimerSystem :=
  match s.scheduler with
  | .down => s
  | .up activity events pass =>
    { s with scheduler := .up activity (events.publish eventBuffer e) pass }

def sampleNext (s : TimerSystem) (signals : Option Sample) : Option TimerSystem :=
  match s.sampler with
  | .asleep => none
  | .listed tracked => some { s with sampler := .snapped s.registry tracked }
  | .snapped statuses tracked =>
    some { s with
      tracker := fun p => if (statuses p).isSome then s.tracker p else none
      sampler := .visiting statuses tracked }
  | .visiting _ [] => some { s with sampler := .asleep }
  | .visiting statuses (id :: rest) =>
    match statuses id, signals with
    | some .running, some x => some { s with sampler := .sampled statuses id x rest }
    | some .running, none | none, _ => some { s with sampler := .visiting statuses rest }
    | some _, _ =>
      some { s with
        tracker := s.tracker.modify id fun _ => none
        sampler := .visiting statuses rest }
  | .sampled statuses id x rest =>
    match s.tracker id with
    | none => some { s with sampler := .visiting statuses rest }
    | some current =>
      some { s with
        tracker := s.tracker.put id (x.observe current).1
        sampler :=
          match (x.observe current).2 with
          | none => .visiting statuses rest
          | some state => .announcing statuses id state rest }
  | .announcing statuses id state rest =>
    some ({ s with sampler := .visiting statuses rest }.publish (.agentActivityChanged id state))

/-- `timer_set` and `timer_fire_when_idle` past their scope checks. -/
def arm (s : TimerSystem) (timer : NewTimer) (fault : Option StoreError) : TimerSystem :=
  if maxTimerBodyBytes < timer.body.utf8ByteSize ∨ fault.isSome then s
  else { s with timers := (s.timers.create timer).1 }

def store (s : TimerSystem) (fault : Option StoreError) (timers : TimerTable) : TimerSystem :=
  if fault.isSome then s else { s with timers }

def claim (s : TimerSystem) (activity : Slots ProcessId AgentActivity) (now : UInt64)
    (timer : StoredTimer) (fault : Option StoreError) : Option StoredTimer :=
  if TimerScheduler.isDue timer now activity s.inRegistry ∧ fault = none then
    (s.timers.takeIfArmed timer.id).2
  else none

def consider (s : TimerSystem) (fault : Option StoreError) : Option TimerSystem :=
  match s.scheduler with
  | .up activity events (.evaluating _ []) =>
    some { s with scheduler := .up activity events .waiting }
  | .up activity events (.evaluating now (timer :: rest)) =>
    let t := { s with scheduler := .up activity events (.evaluating now rest) }
    match s.claim activity now timer fault with
    | none => some t
    | some claimed =>
      some ({ t with
        timers := (s.timers.takeIfArmed timer.id).1
        turns :=
          s.turns ++
            [TimerScheduler.turn claimed (timer.deadlineUnixMillis ≤ now)] }.publish .other)
  | _ => none

/-- The loop reads its next event, or that it fell behind. -/
def recv (s : TimerSystem) (fault : Option StoreError) : Option TimerSystem :=
  match s.scheduler with
  | .up activity events .waiting =>
    match events.recv with
    | none => none
    | some (none, events) => some { s with scheduler := .up activity events .woken }
    | some (some (.processRemoved id), events) =>
      some ({ s with scheduler := .up (activity.erase id) events .woken }.store fault
        (s.timers.releaseOwner id).1)
    | some (some e, events) =>
      some { s with scheduler := .up (TimerScheduler.handle activity e) events .woken }
  | _ => none

def step (s : TimerSystem) : TimerEvent → Option TimerSystem
  | .register agent =>
    some { s with
      registry := s.registry.put s.nextProcess .stopped
      nextProcess := s.nextProcess + 1
      launching := if agent then s.nextProcess :: s.launching else s.launching }
  | .track id =>
    if id ∈ s.launching then
      some { s with launching := s.launching.erase id, tracker := s.tracker.put id none }
    else none
  | .setStatus id status =>
    if s.inRegistry id then some { s with registry := s.registry.put id status } else none
  | .remove id =>
    if s.inRegistry id then
      some { s with registry := s.registry.erase id, closing := id :: s.closing }
    else none
  | .announceRemoval id =>
    if id ∈ s.closing then
      some ({ s with closing := s.closing.erase id }.publish (.processRemoved id))
    else none
  | .publishOther => some (s.publish .other)
  | .tick order =>
    match s.sampler with
    | .asleep => if order.isPerm s.tracked then some { s with sampler := .listed order } else none
    | _ => none
  | .skipTick =>
    match s.sampler with
    | .listed [] => some { s with sampler := .asleep }
    | _ => none
  | .sample signals => s.sampleNext signals
  | .timerSet project owner body after now fault =>
    some (s.arm (Timers.scheduled project owner body after now) fault)
  | .timerFireWhenIdle project owner body watched mode maxWait now fault =>
    some (s.arm (Timers.whenIdle project owner body watched mode maxWait now) fault)
  | .timerCancel id owner fault => some (s.store fault (s.timers.cancel id owner).1)
  | .timerPause id owner now fault => some (s.store fault (s.timers.pause id owner now).1)
  | .timerResume id owner now fault => some (s.store fault (s.timers.resume id owner now).1)
  | .removeProject project => some { s with timers := s.timers.dropProject project }
  | .reconcileTimers fault => some (s.store fault s.timers.clear.1)
  | .start =>
    match s.scheduler with
    | .down => some { s with scheduler := .up Slots.empty Feed.empty .woken }
    | .up .. => none
  | .panic =>
    match s.scheduler with
    | .down => none
    | .up .. => some { s with scheduler := .down }
  | .evaluate now fault =>
    match s.scheduler with
    | .up activity events .woken =>
      some { s with
        scheduler :=
          .up activity events
            (.evaluating now (if fault.isSome then [] else s.timers.armed.getD [])) }
    | _ => none
  | .consider fault => s.consider fault
  | .wake =>
    match s.scheduler with
    | .up activity events .waiting => some { s with scheduler := .up activity events .woken }
    | _ => none
  | .recv fault => s.recv fault

/-- The idle test of the façade's report. -/
def isIdleNow (s : TimerSystem) (p : ProcessId) : Bool :=
  watchedIsIdle (s.tracker p).join (s.inRegistry p)

def activity (s : TimerSystem) : Slots ProcessId AgentActivity :=
  match s.scheduler with
  | .down => Slots.empty
  | .up activity _ _ => activity

def isIdleToFire (s : TimerSystem) (p : ProcessId) : Bool :=
  watchedIsIdle (s.activity p) (s.inRegistry p)

end TimerSystem

def timerMachine : Machine TimerSystem TimerEvent where
  init s := s = .init
  step := TimerSystem.step

end Soloist
