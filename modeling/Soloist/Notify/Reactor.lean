import Mathlib.Data.List.Sort
import Soloist.Mailbox.Calls

/-! What a signal asks of the user, where an alert goes, and the registry of what is unread. -/
namespace Soloist.Notify

inductive Severity
  | important
  | terminal
  deriving DecidableEq, Repr

inductive AttentionKind
  | crashed
  | restartExhausted
  | agentPermission
  | agentError
  | terminalBell
  | terminalNotification
  deriving DecidableEq, Repr

def AttentionKind.severity : AttentionKind → Severity
  | crashed | restartExhausted | agentPermission | agentError => .important
  | terminalBell | terminalNotification => .terminal

inductive NotificationLevel
  | all
  | important
  | none
  deriving DecidableEq, Repr

namespace NotificationLevel

def admits : NotificationLevel → Severity → Bool
  | all, _ => true
  | important, severity => severity = .important
  | none, _ => false

def mostRestrictive : NotificationLevel → NotificationLevel → NotificationLevel
  | none, _ | _, none => none
  | important, _ | _, important => important
  | all, all => all

end NotificationLevel

/-- The settings of a project that alerts are routed by. -/
structure ProjectSettings where
  notificationLevel : NotificationLevel
  commandNotificationLevels : String → Option NotificationLevel

namespace ProjectSettings

def default : ProjectSettings where
  notificationLevel := .all
  commandNotificationLevels _ := none

def effectiveLevelFor (settings : ProjectSettings) (command : String) : NotificationLevel :=
  match settings.commandNotificationLevels command with
  | some level => settings.notificationLevel.mostRestrictive level
  | none => settings.notificationLevel

end ProjectSettings

/-- The global Notifications document. -/
structure Notifications where
  enabled : Bool
  bell : Option String
  deriving DecidableEq, Repr

def Notifications.default : Notifications where
  enabled := true
  bell := none

/-- Where the user last reported being. -/
structure Presence where
  focused : Bool
  viewing : Option ProcessId
  deriving DecidableEq, Repr

def Presence.default : Presence where
  focused := false
  viewing := none

inductive Delivery
  | suppressed
  | toast
  | native
  deriving DecidableEq, Repr

def route (process : ProcessId) (kind : AttentionKind) (presence : Presence)
    (level : NotificationLevel) : Delivery :=
  if !level.admits kind.severity then .suppressed
  else if !presence.focused then .native
  else if presence.viewing = some process then .suppressed
  else .toast

structure Notification where
  title : String
  body : String
  sound : Option String
  deriving DecidableEq, Repr

/-- What an event asks of the user: a signal whose words follow from its kind, or a notification in
a process's own words. -/
inductive Trigger
  | recognised (kind : AttentionKind)
  | script (title : Option String) (body : String)
  deriving DecidableEq, Repr

namespace Trigger

def kind : Trigger → AttentionKind
  | recognised kind => kind
  | script _ _ => .terminalNotification

def notification (label : String) (sound : Option String) : Trigger → Option Notification
  | script title body => some ⟨title.getD label, body, sound⟩
  | recognised .crashed =>
    some ⟨label ++ " crashed", "The process exited unexpectedly.", sound⟩
  | recognised .restartExhausted =>
    some ⟨label ++ " stopped", "Auto-restart gave up after too many crashes.", sound⟩
  | recognised .agentPermission =>
    some ⟨label ++ " needs your input", "The agent is waiting for permission.", sound⟩
  | recognised .agentError =>
    some ⟨label ++ " hit an error", "The agent reported an error.", sound⟩
  | recognised .terminalBell =>
    some ⟨label ++ " rang the bell", "The terminal signalled for your attention.", sound⟩
  | recognised .terminalNotification => none

end Trigger

/-- The domain events, as the notification reactor tells them apart. -/
inductive NoticeEvent
  | processStatusChanged (id : ProcessId) (target : ProcStatus)
  | restartExhausted (id : ProcessId)
  | agentActivityChanged (id : ProcessId) (state : AgentActivity)
  | terminalBell (id : ProcessId)
  | terminalNotification (id : ProcessId) (title : Option String) (body : String)
  | processRemoved (id : ProcessId)
  | attentionChanged
  | notificationRaised (process : ProcessId) (kind : AttentionKind) (notification : Notification)
  | other
  deriving DecidableEq, Repr

def classify : NoticeEvent → Option (ProcessId × Trigger)
  | .processStatusChanged id .crashed => some (id, .recognised .crashed)
  | .restartExhausted id => some (id, .recognised .restartExhausted)
  | .agentActivityChanged id .permission => some (id, .recognised .agentPermission)
  | .agentActivityChanged id .error => some (id, .recognised .agentError)
  | .terminalBell id => some (id, .recognised .terminalBell)
  | .terminalNotification id title body => some (id, .script title body)
  | _ => none

def survivesRetryPolicy (kind : AttentionKind) (autoRestart : Bool) : Bool :=
  match kind with
  | .crashed => !autoRestart
  | .restartExhausted | .agentPermission | .agentError | .terminalBell | .terminalNotification =>
    true

def maxUnreadPerProcess : ℕ := 9999

/-- What a process has waiting: what started the run, and how many alerts have landed since. -/
structure Unread where
  first : AttentionKind
  count : ℕ
  deriving DecidableEq, Repr

structure ProcessAttention where
  process : ProcessId
  kind : AttentionKind
  alerts : ℕ
  deriving DecidableEq, Repr

structure AttentionSnapshot where
  processes : List ProcessAttention
  total : ℕ
  deriving DecidableEq, Repr

abbrev AttentionRegistry := Dict ProcessId Unread

namespace AttentionRegistry

def raise (r : AttentionRegistry) (process : ProcessId) (kind : AttentionKind) :
    AttentionRegistry :=
  match r.lookup process with
  | some unread =>
    AList.insert process { unread with count := min (unread.count + 1) maxUnreadPerProcess } r
  | none => AList.insert process ⟨kind, 1⟩ r

def clear (r : AttentionRegistry) (process : ProcessId) : AttentionRegistry × Bool :=
  (AList.erase process r, (r.lookup process).isSome)

def clearAll (r : AttentionRegistry) : AttentionRegistry × Bool := (∅, !r.entries.isEmpty)

def waiting (r : AttentionRegistry) : List ProcessAttention :=
  r.entries.map fun entry => ⟨entry.1, entry.2.first, entry.2.count⟩

def snapshot (r : AttentionRegistry) : AttentionSnapshot :=
  let processes := r.waiting.mergeSort fun a b => a.process ≤ b.process
  ⟨processes, (processes.map ProcessAttention.alerts).sum⟩

variable {r : AttentionRegistry} {process other : ProcessId} {kind : AttentionKind}

theorem lookup_raise :
    (r.raise process kind).lookup other =
      if other = process then
        some ((r.lookup process).elim ⟨kind, 1⟩ fun unread =>
          { unread with count := min (unread.count + 1) maxUnreadPerProcess })
      else r.lookup other := by
  unfold raise
  split
  next unread hunread => rw [Dict.lookup_insert, hunread, Option.elim_some]
  next hnone => rw [Dict.lookup_insert, hnone, Option.elim_none]

@[simp] theorem lookup_clear :
    (r.clear process).1.lookup other = if other = process then none else r.lookup other :=
  Dict.lookup_erase r process other

theorem mem_snapshot {entry : ProcessAttention} :
    entry ∈ r.snapshot.processes ↔ r.lookup entry.process = some ⟨entry.kind, entry.alerts⟩ := by
  have hsort : entry ∈ r.snapshot.processes ↔ entry ∈ r.waiting :=
    (List.mergeSort_perm r.waiting _).mem_iff
  rw [hsort]
  unfold waiting
  rw [List.mem_map]
  constructor
  · rintro ⟨⟨process, unread⟩, hentry, rfl⟩
    exact AList.mem_lookup_iff.mpr hentry
  · intro hlookup
    exact ⟨⟨entry.process, ⟨entry.kind, entry.alerts⟩⟩, AList.mem_lookup_iff.mp hlookup, rfl⟩

theorem total_snapshot : r.snapshot.total = Dict.total (fun _ unread => unread.count) r := by
  have hsort : r.snapshot.total = (r.waiting.map ProcessAttention.alerts).sum :=
    ((List.mergeSort_perm r.waiting _).map _).sum_eq
  rw [hsort]
  unfold waiting Dict.total
  rw [List.map_map]
  rfl

/-- Nothing is unread when no process has anything waiting. -/
theorem total_of_lookup (h : ∀ process, r.lookup process = none) : r.snapshot.total = 0 := by
  have hempty : r.entries = [] := by
    refine List.eq_nil_iff_forall_not_mem.mpr fun entry hentry => ?_
    have hlookup : r.lookup entry.1 = some entry.2 := AList.mem_lookup_iff.mpr hentry
    rw [h] at hlookup
    cases hlookup
  rw [total_snapshot]
  unfold Dict.total
  rw [hempty]
  rfl

def visited (r : AttentionRegistry) (processes : List ProcessId) : AttentionRegistry :=
  processes.foldl (fun r process => (r.clear process).1) r

variable {processes : List ProcessId}

theorem lookup_visited :
    (r.visited processes).lookup other =
      if other ∈ processes then none else r.lookup other := by
  induction processes generalizing r with
  | nil => rfl
  | cons process rest ih =>
    have hrest := ih (r := (r.clear process).1)
    rw [lookup_clear] at hrest
    refine hrest.trans ?_
    by_cases hmem : other ∈ rest
    · simp [hmem]
    · by_cases hsame : other = process
      · simp [hsame]
      · simp [hmem, hsame]

/-- Visiting every process that has something waiting clears the count. -/
theorem total_visited (h : ∀ process, r.lookup process ≠ none → process ∈ processes) :
    (r.visited processes).snapshot.total = 0 := by
  refine total_of_lookup fun process => ?_
  rw [lookup_visited]
  split_ifs with hmem
  · rfl
  · by_contra hwaiting
    exact hmem (h process hwaiting)

end AttentionRegistry
end Soloist.Notify

/-! The notification reactor over a registry that processes leave, an event channel that drops its
oldest events when it lags, and a user who visits processes and dismisses what is unread. -/
namespace Soloist.Notify

/-- What the reactor reads of a registered process. -/
structure NoticeEntry where
  project : ProjectId
  label : String
  autoRestart : Bool
  deriving DecidableEq, Repr

structure Alert where
  process : ProcessId
  kind : AttentionKind
  delivery : Delivery
  notification : Notification
  deriving DecidableEq, Repr

/-- The reactor before its next access: waiting for an event, deciding on one, or raising an
alert. -/
inductive Stage
  | idle
  | classified (id : ProcessId) (trigger : Trigger)
  | admitted (id : ProcessId) (trigger : Trigger) (notifications : Notifications)
  | viewed (id : ProcessId) (trigger : Trigger) (notifications : Notifications)
      (view : NoticeEntry)
  | surviving (id : ProcessId) (trigger : Trigger) (notifications : Notifications)
      (view : NoticeEntry)
  | leveled (id : ProcessId) (trigger : Trigger) (notifications : Notifications)
      (view : NoticeEntry) (level : NotificationLevel)
  | decided (alert : Alert)
  | raising (process : ProcessId) (kind : AttentionKind)
  deriving DecidableEq, Repr

/-- The process that an alert is on the way for, past the check that it is registered. -/
def Stage.process : Stage → Option ProcessId
  | idle | classified _ _ | admitted _ _ _ => none
  | viewed id _ _ _ | surviving id _ _ _ | leveled id _ _ _ _ => some id
  | decided alert => some alert.process
  | raising process _ => some process

def NoticeEvent.departed : NoticeEvent → Option ProcessId
  | processRemoved id => some id
  | _ => none

structure NotificationReactor where
  registered : Slots ProcessId NoticeEntry
  nextProcess : ProcessId
  /-- Out of the registry, and not announced as removed yet. -/
  leaving : List ProcessId
  notifications : Notifications
  projectSettings : ProjectId → ProjectSettings
  presence : Presence
  /-- Processes that a presence report shows, not cleared yet. -/
  visits : List ProcessId
  attention : AttentionRegistry
  events : List NoticeEvent
  stage : Stage
  /-- Shown on the desktop. -/
  notified : List Notification

inductive NoticeStep
  | register (entry : NoticeEntry)
  | update (id : ProcessId) (entry : NoticeEntry)
  | remove (id : ProcessId)
  | announceRemoval (id : ProcessId)
  /-- Anyone else publishes an event. -/
  | publish (event : NoticeEvent)
  | setNotifications (notifications : Notifications)
  | setProjectSettings (project : ProjectId) (settings : ProjectSettings)
  | setPresence (presence : Presence)
  | see (id : ProcessId)
  | clearAttention (id : ProcessId)
  | clearAllAttention
  /-- The reactor finds that its oldest events are gone. -/
  | lag (dropped : ℕ)
  | recv
  /-- The next access of the reactor; a settings document may fail to read. -/
  | advance (fault : Bool)

namespace NotificationReactor

def init : NotificationReactor where
  registered := .empty
  nextProcess := 0
  leaving := []
  notifications := .default
  projectSettings _ := .default
  presence := .default
  visits := []
  attention := ∅
  events := []
  stage := .idle
  notified := []

/-- `clear_attention`: dismisses what a process had unread, and says so if there was anything. -/
def clearUnread (s : NotificationReactor) (id : ProcessId) : NotificationReactor :=
  match s.attention.clear id with
  | (attention, true) => { s with attention, events := s.events ++ [.attentionChanged] }
  | (attention, false) => { s with attention }

def react (s : NotificationReactor) (event : NoticeEvent) : NotificationReactor :=
  match event.departed, classify event with
  | some id, _ => s.clearUnread id
  | none, some (id, trigger) => { s with stage := .classified id trigger }
  | none, none => s

def deliver (s : NotificationReactor) (alert : Alert) : NotificationReactor :=
  match alert.delivery with
  | .suppressed => { s with stage := .idle }
  | .native => { s with
      notified := s.notified ++ [alert.notification], stage := .raising alert.process alert.kind }
  | .toast => { s with
      events := s.events ++ [.notificationRaised alert.process alert.kind alert.notification]
      stage := .raising alert.process alert.kind }

def advance (s : NotificationReactor) (fault : Bool) : Option NotificationReactor :=
  match s.stage with
  | .idle => none
  | .classified id trigger =>
    let notifications := if fault then .default else s.notifications
    some { s with
      stage := if notifications.enabled then .admitted id trigger notifications else .idle }
  | .admitted id trigger notifications =>
    match s.registered id with
    | some view => some { s with stage := .viewed id trigger notifications view }
    | none => some { s with stage := .idle }
  | .viewed id trigger notifications view =>
    let autoRestarts := (s.registered id).any NoticeEntry.autoRestart
    some { s with
      stage := if survivesRetryPolicy trigger.kind autoRestarts
        then .surviving id trigger notifications view else .idle }
  | .surviving id trigger notifications view =>
    let settings := if fault then .default else s.projectSettings view.project
    let level := settings.effectiveLevelFor view.label
    some { s with stage := .leveled id trigger notifications view level }
  | .leveled id trigger notifications view level =>
    match trigger.notification view.label notifications.bell with
    | some notification => some { s with
        stage := .decided
          ⟨id, trigger.kind, route id trigger.kind s.presence level, notification⟩ }
    | none => some { s with stage := .idle }
  | .decided alert => some (s.deliver alert)
  | .raising process kind => some { s with
      attention := s.attention.raise process kind
      events := s.events ++ [.attentionChanged]
      stage := .idle }

def step (s : NotificationReactor) : NoticeStep → Option NotificationReactor
  | .register entry => some { s with
      registered := s.registered.put s.nextProcess entry, nextProcess := s.nextProcess + 1 }
  | .update id entry => some { s with registered := s.registered.modify id fun _ => entry }
  | .remove id =>
    match s.registered id with
    | some _ => some { s with
        registered := s.registered.erase id, leaving := s.leaving ++ [id] }
    | none => none
  | .announceRemoval id =>
    if id ∈ s.leaving then some { s with
      leaving := s.leaving.erase id, events := s.events ++ [.processRemoved id] }
    else none
  | .publish event =>
    if event.departed = none then some { s with events := s.events ++ [event] } else none
  | .setNotifications notifications => some { s with notifications }
  | .setProjectSettings project settings => some { s with
      projectSettings := fun p => if p = project then settings else s.projectSettings p }
  | .setPresence presence => some { s with
      presence
      events := if s.presence = presence then s.events else s.events ++ [.other]
      visits := if presence.focused then s.visits ++ presence.viewing.toList else s.visits }
  | .see id => if id ∈ s.visits then some { s.clearUnread id with visits := s.visits.erase id }
    else none
  | .clearAttention id => some (s.clearUnread id)
  | .clearAllAttention =>
    match s.attention.clearAll with
    | (attention, true) => some { s with attention, events := s.events ++ [.attentionChanged] }
    | (attention, false) => some { s with attention }
  | .lag dropped =>
    if s.stage = .idle ∧ 0 < dropped ∧ dropped ≤ s.events.length then
      some { s with events := s.events.drop dropped }
    else none
  | .recv =>
    match s.stage, s.events with
    | .idle, event :: events => some ({ s with events }.react event)
    | _, _ => none
  | .advance fault => s.advance fault

/-- Everything is consumed and nothing is on the way. -/
structure Settled (s : NotificationReactor) : Prop where
  events : s.events = []
  stage : s.stage = .idle
  leaving : s.leaving = []

instance (s : NotificationReactor) : Decidable s.Settled :=
  decidable_of_iff (s.events = [] ∧ s.stage = .idle ∧ s.leaving = [])
    ⟨fun h => ⟨h.1, h.2.1, h.2.2⟩, fun h => ⟨h.events, h.stage, h.leaving⟩⟩

/-- A step at which no departure is dropped of a process with something unread. -/
def Retains (s : NotificationReactor) : NoticeStep → Prop
  | .lag dropped => ∀ event ∈ s.events.take dropped, ∀ id ∈ event.departed,
      s.attention.lookup id = none
  | _ => True

instance (s : NotificationReactor) : DecidablePred s.Retains
  | .lag dropped => inferInstanceAs (Decidable (∀ event ∈ s.events.take dropped,
      ∀ id ∈ event.departed, s.attention.lookup id = none))
  | .register _ | .update _ _ | .remove _ | .announceRemoval _ | .publish _ | .setNotifications _
  | .setProjectSettings _ _ | .setPresence _ | .see _ | .clearAttention _ | .clearAllAttention
  | .recv | .advance _ => inferInstanceAs (Decidable True)

/-- Registered, or its departure is still to be announced or consumed. -/
def Tracked (s : NotificationReactor) (id : ProcessId) : Prop :=
  s.registered id ≠ none ∨ id ∈ s.leaving ∨ .processRemoved id ∈ s.events

/-- Whatever is unread, or on the way to be, is of a process that is tracked. -/
structure Accounted (s : NotificationReactor) : Prop where
  unread : ∀ id, s.attention.lookup id ≠ none → s.Tracked id
  alerting : ∀ id, s.stage.process = some id → s.Tracked id

end NotificationReactor
end Soloist.Notify
