import Soloist.Facade.SpawnCalls
import Soloist.Supervisor.Ownership

/-! What a refused spawn leaves behind. A process of which no launch was ever tried has no trace in
the lineage or in the mailbox; a spawn is refused before it registers, or at the start it makes, and
then its process is gone. -/
open List Option Slots

namespace Soloist

namespace MailboxOp

/-- The spawn whose reservation an operation makes or gives back. -/
def holder : MailboxOp → Option Nat
  | .reserve call _ | .cancel call | .enqueueReserved _ call _ => some call
  | _ => none

variable {op : MailboxOp}

theorem quiet (hop : op.isSpawning = false) : op.holder = none ∧ op.addresses = [] := by
  cases op with
  | enqueue | enqueueMany | reserve | cancel | enqueueReserved | queueOnboarding => cases hop
  | _ => exact ⟨rfl, rfl⟩

theorem holder_of_sender {sender : ProcessId} (hop : op.sender = some sender) :
    op.holder = none := by
  cases op with
  | reserve | cancel | enqueueReserved => cases hop
  | _ => rfl

end MailboxOp

namespace Mailroom
variable {m m' : Mailroom} {op : MailboxOp} {c : Nat} {p : ProcessId}

theorem lookup_prepared (h : m.step op = some m') (hop : op.holder ≠ some c) :
    AList.lookup c m'.prepared = AList.lookup c m.prepared := by
  cases op with
  | enqueueMany now project sender recipients kind body todoId =>
    obtain ⟨-, h⟩ := ite_none_right_eq_some.mp h
    cases h
    rfl
  | reserve call first =>
    obtain ⟨-, h⟩ := ite_none_left_eq_some.mp h
    have hc : c ≠ call := fun hc => hop (congrArg some hc.symm)
    split at h
    · cases h
      exact AList.lookup_insert_ne hc
    · cases h
      rfl
  | cancel call =>
    obtain ⟨first, -, rfl⟩ := map_eq_some_iff.mp h
    exact AList.lookup_erase_ne fun hc => hop (congrArg some hc.symm)
  | enqueueReserved now call recipient =>
    obtain ⟨first, -, rfl⟩ := map_eq_some_iff.mp h
    exact AList.lookup_erase_ne fun hc => hop (congrArg some hc.symm)
  | claim waker recipient =>
    obtain ⟨-, h⟩ := ite_none_left_eq_some.mp h
    split at h
    · cases h
      rfl
    · cases h
      rfl
  | mark waker | release waker =>
    obtain ⟨sub, -, rfl⟩ := map_eq_some_iff.mp h
    rfl
  | _ =>
    cases h
    rfl

theorem prepared_of_cancel (h : m.step (.cancel c) = some m') :
    (AList.lookup c m.prepared).isSome ∧ AList.lookup c m'.prepared = none := by
  obtain ⟨first, hfirst, rfl⟩ := map_eq_some_iff.mp h
  constructor
  · rw [hfirst]
    rfl
  · exact AList.lookup_erase c m.prepared

theorem prepared_of_enqueueReserved {now : UInt64} (h : m.step (.enqueueReserved now c p) = some m') :
    (AList.lookup c m.prepared).isSome ∧ AList.lookup c m'.prepared = none := by
  obtain ⟨first, hfirst, rfl⟩ := map_eq_some_iff.mp h
  constructor
  · rw [hfirst]
    rfl
  · exact AList.lookup_erase c m.prepared

theorem prepared_of_reserve {first : Prepared} (h : m.step (.reserve c first) = some m')
    (hok : (m.state.reserveProjectSlot first.project first.prompt.utf8ByteSize).2 = .ok ()) :
    AList.lookup c m.prepared = none ∧ AList.lookup c m'.prepared = some first := by
  obtain ⟨hfree, h⟩ := ite_none_left_eq_some.mp h
  rw [not_or, not_isSome_iff_eq_none] at hfree
  refine ⟨hfree.1, ?_⟩
  split at h
  next state _ _ =>
    cases h
    exact AList.lookup_insert _
  next state e hreserve =>
    rw [hreserve] at hok
    cases hok

/-- An operation that puts nothing in for a process leaves its letterbox bare. -/
theorem bare_unaddressed (hb : (m.letterbox p).Bare) (h : m.step op = some m')
    (hop : p ∉ op.addresses) : (m'.letterbox p).Bare := by
  rcases letterbox_step p h with hsame | ⟨act, hacts, -, hact⟩
  · rw [hsame]
    exact hb
  · refine hb.step hact fun hfills => hop ?_
    cases hacts with
    | enqueue | enqueueReserved | queueOnboarding => exact mem_singleton_self p
    | enqueueMany hmem => exact hmem
    | _ => exact absurd hfills id

end Mailroom

/-! ### The turns of a call -/

/-- How far a call has come: nothing is registered, the start of its process has not passed the
gate, the start has passed, the process has been launched, or the call is over. -/
inductive SpawnPhase
  | early
  | starting (id : ProcessId)
  | claiming (id : ProcessId)
  | started (id : ProcessId)
  | refused
  | over
  deriving DecidableEq, Repr

/-- The process registered, if any, is not to be launched by anyone else. -/
def SpawnPhase.waits : SpawnPhase → Bool
  | .starting _ | .refused => true
  | _ => false

namespace SpawnCall

def phase : SpawnCall → SpawnPhase
  | .scoping _ | .gating .. | .addressing .. | .reserving .. | .tooling .. | .rooting ..
  | .placing .. | .trusting .. | .registering .. => .early
  | .describing _ _ id | .guarding _ _ id _ => .starting id
  | .launching _ _ id => .claiming id
  | .nesting _ _ id | .labelling _ _ id | .briefing _ id _ | .queueing id | .recording id _ =>
    .started id
  | .cancelling _ => .refused
  | .returned reply => if reply.isError then .refused else .over

def unreserved : SpawnCall → Bool
  | .scoping _ | .gating .. | .addressing .. | .reserving .. => true
  | _ => false

end SpawnCall

theorem SpawnCall.refused_of_waits (call : SpawnCall) (hover : call.isReturned = true)
    (hwaits : call.phase.waits = true) : call.phase = .refused := by
  cases call with
  | returned reply =>
    simp only [phase] at hwaits ⊢
    split_ifs at hwaits ⊢
    · rfl
    · cases hwaits
  | _ => cases hover

def SpawnJob.isAgent : SpawnJob → Bool
  | .agent _ => true
  | .process _ _ => false

def SpawnCall.mayHold : SpawnCall → Bool
  | .tooling .. | .rooting .. | .labelling .. | .briefing .. | .queueing _ | .cancelling _ => true
  | .registering job _ _ | .describing job _ _ | .guarding job _ _ _ | .launching job _ _
  | .nesting job _ _ => job.isAgent
  | _ => false

namespace SpawnWorld

/-- When a spawn's process reaches the supervisor's gate, the trust store answers and still trusts
the command, or the process has been closed; and when its first task is queued, the inbox of the
worker has room. -/
def Passes (s : SpawnWorld) (c : Nat) (env : SpawnEnv) : SpawnCall → Prop
  | .guarding _ _ id info => ∀ variant ∈ info.trustVariant, (s.registry id).isSome →
      env.fault = none ∧ s.trust info.project variant = true
  | .queueing worker => (AList.lookup c s.room.prepared).isSome →
      (s.room.state.inbox worker).length < maxPendingMessagesPerRecipient
  | _ => True

def Upheld (s : SpawnWorld) : SpawnEvent → Prop
  | .proceed c env => ∀ call ∈ s.calls c, s.Passes c env call
  | _ => True

/-- From phase to phase, without a change of the shared state. -/
inductive Goes (s : SpawnWorld) : SpawnPhase → SpawnPhase → Prop
  | early : Goes s .early .early
  | refused : Goes s .early .refused
  | described (id : ProcessId) : Goes s (.starting id) (.starting id)
  | guarded (id : ProcessId) : Goes s (.starting id) (.claiming id)
  | active (id : ProcessId) (m : Managed) (hm : s.registry id = some m)
      (hactive : m.status.isActive = true) : Goes s (.starting id) (.started id)
  | gone (id : ProcessId) (hgone : s.registry id = none) : Goes s (.starting id) .refused
  | on (id : ProcessId) : Goes s (.started id) (.started id)
  | over (id : ProcessId) : Goes s (.started id) .over

/-- A reservation made is held until it is given back. -/
structure Holds (s : SpawnWorld) (c : Nat) (call call' : SpawnCall) : Prop where
  unreserved : call'.unreserved = true → call.unreserved = true
  held : call'.mayHold = false → call.mayHold = false ∨ AList.lookup c s.room.prepared = none

inductive Turn (s : SpawnWorld) (c : Nat) (env : SpawnEnv) : SpawnCall → SpawnWorld → Prop
  | goes {call call' : SpawnCall} (hphase : s.Goes call.phase call'.phase)
      (hholds : s.Holds c call call') : Turn s c env call (s.setCall c call')
  | reserved (request : SpawnAgentRequest) (project : ProjectId) (first : Prepared)
      (room : Mailroom) (hroom : s.room.step (.reserve c first) = some room)
      (hfirst : AList.lookup c room.prepared = some first) :
    Turn s c env (.reserving request project first)
      { s.setCall c (.tooling request project) with
        room, taken := Function.update s.taken c (s.taken c + 1) }
  | registered [Sha256] (job : SpawnJob) (r : Registration) (label : String) :
    Turn s c env (.registering job r label)
      { (s.register r label).setCall c (.describing job r.project s.nextProcess) with
        registered := (c, s.nextProcess) :: s.registered }
  | launched (job : SpawnJob) (project : ProjectId) (id : ProcessId) :
    Turn s c env (.launching job project id)
      ((s.launch id).setCall c (.nesting job project id))
  | nested {call' : SpawnCall} (job : SpawnJob) (project : ProjectId) (id lead : ProcessId)
      (hlead : env.bound = some lead) (hphase : s.Goes (.started id) call'.phase)
      (hholds : s.Holds c (.nesting job project id) call') :
    Turn s c env (.nesting job project id)
      { s.setCall c call' with lineage := s.lineage.record id lead }
  | mailed {call call' : SpawnCall} {op : MailboxOp} {id : ProcessId} (room : Mailroom)
      (hroom : s.room.step op = some room) (hop : op.holder = none)
      (hcall : call.phase = .started id) (haddresses : ∀ p ∈ op.addresses, p = id)
      (hphase : s.Goes (.started id) call'.phase) (hholds : s.Holds c call call') :
    Turn s c env call { s.setCall c call' with room }
  | gave {call call' : SpawnCall} {op : MailboxOp} (room : Mailroom)
      (hroom : s.room.step op = some room) (hop : op.holder = some c)
      (hgiven : (AList.lookup c s.room.prepared).isSome ∧ AList.lookup c room.prepared = none)
      (haddresses : ∀ p ∈ op.addresses, call.phase = .started p)
      (hphase : call'.phase = call.phase) (hholds : call'.unreserved = false) :
    Turn s c env call
      { s.setCall c call' with room, given := Function.update s.given c (s.given c + 1) }

section Proceed
variable {s t : SpawnWorld} {c : Nat} {env : SpawnEnv}

theorem perform_eq_some {op : MailboxOp} :
    s.perform op = some t ↔ ∃ room, s.room.step op = some room ∧ { s with room } = t := by
  unfold perform
  rw [map_eq_some_iff]

variable {call : SpawnCall}

theorem early_turn {call' : SpawnCall} (hcall : call.phase = .early) (hfree : call.mayHold = false)
    (hunreserved : call'.unreserved = true → call.unreserved = true)
    (hnext : call'.phase = .early ∨ call'.phase = .refused) :
    Turn s c env call (s.setCall c call') := by
  refine .goes ?_ ⟨hunreserved, fun _ => .inl hfree⟩
  rw [hcall]
  rcases hnext with hnext | hnext
  · rw [hnext]
    exact .early
  · rw [hnext]
    exact .refused

theorem scope_turn (ask : SpawnAsk) : Turn s c env (.scoping ask) (s.scope c env ask) := by
  unfold scope
  split
  · exact early_turn rfl rfl (fun _ => rfl) (.inl rfl)
  · exact early_turn rfl rfl nofun (.inr rfl)
  · exact early_turn rfl rfl nofun (.inr rfl)

theorem gate_turn (ask : SpawnAsk) (project : ProjectId) :
    Turn s c env (.gating ask project) (s.gate c env project ask) := by
  cases ask with
  | agent request =>
    simp only [gate]
    split_ifs
    · exact early_turn rfl rfl nofun (.inr rfl)
    · split
      · exact early_turn rfl rfl nofun (.inl rfl)
      · split_ifs
        · exact early_turn rfl rfl nofun (.inr rfl)
        · exact early_turn rfl rfl (fun _ => rfl) (.inl rfl)
  | process request =>
    simp only [gate]
    split_ifs
    · exact early_turn rfl rfl nofun (.inr rfl)
    · split
      · exact early_turn rfl rfl nofun (.inr rfl)
      · exact early_turn rfl rfl nofun (.inl rfl)

theorem address_turn (request : SpawnAgentRequest) (project : ProjectId) (prompt : String) :
    Turn s c env (.addressing request project prompt) (s.address c env request project prompt) := by
  unfold address
  split
  · exact early_turn rfl rfl nofun (.inr rfl)
  · exact early_turn rfl rfl nofun (.inr rfl)
  · split_ifs
    · exact early_turn rfl rfl (fun _ => rfl) (.inl rfl)
    · exact early_turn rfl rfl nofun (.inr rfl)
    · exact early_turn rfl rfl nofun (.inr rfl)

variable {project : ProjectId}

theorem reserve_turn {request : SpawnAgentRequest} {first : Prepared}
    (h : s.reserve c request project first = some t) :
    Turn s c env (.reserving request project first) t := by
  unfold reserve at h
  split at h
  next e _ =>
    cases h
    exact early_turn rfl rfl nofun (.inr rfl)
  next hok =>
    obtain ⟨u, hu, rfl⟩ := map_eq_some_iff.mp h
    obtain ⟨room, hroom, rfl⟩ := perform_eq_some.mp hu
    exact .reserved request project first room hroom (Mailroom.prepared_of_reserve hroom hok).2

/-- A launch that fails is refused at once, or gives its reservation back first. -/
theorem launchFailed_turn {e : LaunchAgentError} (hphase : s.Goes call.phase .refused) :
    Turn s c env call (s.launchFailed c e) := by
  unfold launchFailed
  split
  · exact .goes hphase ⟨nofun, nofun⟩
  next hnone => exact .goes hphase ⟨nofun, fun _ => .inr hnone⟩

variable {job : SpawnJob}

theorem startFailed_turn {e : SupervisorError} (hphase : s.Goes call.phase .refused)
    (hfree : call.mayHold = job.isAgent) : Turn s c env call (s.startFailed c e job) := by
  cases job with
  | agent request => exact launchFailed_turn hphase
  | process spec label => exact .goes hphase ⟨nofun, fun _ => .inl hfree⟩

theorem findTool_turn (request : SpawnAgentRequest) (project : ProjectId) :
    Turn s c env (.tooling request project) (s.findTool c env request project) := by
  unfold findTool
  split
  · exact launchFailed_turn .refused
  · exact launchFailed_turn .refused
  · exact .goes .early ⟨nofun, nofun⟩

theorem findRoot_turn (request : SpawnAgentRequest) (project : ProjectId) (tool : LaunchTool) :
    Turn s c env (.rooting request project tool) (s.findRoot c env request project tool) := by
  unfold findRoot
  split
  · exact launchFailed_turn .refused
  · exact launchFailed_turn .refused
  · exact .goes .early ⟨nofun, nofun⟩

theorem place_turn (spec : ProcessSpec) (label : String) (project : ProjectId) :
    Turn s c env (.placing spec label project) (s.place c env spec label project) := by
  unfold place
  split
  · exact early_turn rfl rfl nofun (.inr rfl)
  · exact early_turn rfl rfl nofun (.inr rfl)
  · exact early_turn rfl rfl nofun (.inl rfl)

theorem checkTrust_turn [Sha256] (spec : ProcessSpec) (label : String) (project : ProjectId)
    (root : PathBuf) :
    Turn s c env (.trusting spec label project root) (s.checkTrust c env spec label project root) := by
  unfold checkTrust
  split
  · exact early_turn rfl rfl nofun (.inr rfl)
  · split_ifs
    · exact early_turn rfl rfl nofun (.inl rfl)
    · exact early_turn rfl rfl nofun (.inr rfl)

theorem describe_turn (job : SpawnJob) (project : ProjectId) (id : ProcessId) :
    Turn s c env (.describing job project id) (s.describe c job project id) := by
  unfold describe
  cases hm : s.registry id with
  | none =>
    rw [Registry.describe, hm]
    exact startFailed_turn (.gone id hm) rfl
  | some m =>
    rw [Registry.describe_eq_some hm]
    dsimp only
    split_ifs with hactive
    · exact .goes (.active id m hm hactive) ⟨fun h => absurd h Bool.false_ne_true, fun h => .inl h⟩
    · exact .goes (.described id) ⟨fun h => absurd h Bool.false_ne_true, fun h => .inl h⟩

theorem guardTrust_turn {id : ProcessId} {info : EntryInfo}
    (hpasses : s.Passes c env (.guarding job project id info)) :
    Turn s c env (.guarding job project id info) (s.guardTrust c env job project id info) := by
  have hpass : Turn s c env (.guarding job project id info)
      (s.setCall c (.launching job project id)) :=
    .goes (.guarded id) ⟨nofun, fun h => .inl h⟩
  unfold guardTrust
  cases hvariant : info.trustVariant with
  | none => exact hpass
  | some variant =>
    dsimp only
    cases hm : s.registry id with
    | none =>
      have hfails : ∀ e, Turn s c env (.guarding job project id info) (s.startFailed c e job) :=
        fun e => startFailed_turn (.gone id hm) rfl
      split
      · exact hfails _
      · split_ifs
        · exact hpass
        · exact hfails _
    | some m =>
      obtain ⟨hfault, htrust⟩ := hpasses variant hvariant (hm ▸ rfl)
      rw [hfault]
      dsimp only
      rw [if_pos htrust]
      exact hpass

theorem nest_turn (job : SpawnJob) (project : ProjectId) (id : ProcessId) :
    Turn s c env (.nesting job project id) (s.nest c env project id job) := by
  have hphase : s.Goes (.started id) (job.afterNesting project id).phase := by
    cases job with
    | process spec label => exact .over id
    | agent request =>
      simp only [SpawnJob.afterNesting]
      split_ifs
      · exact .on id
      · exact .on id
  have hholds : s.Holds c (.nesting job project id) (job.afterNesting project id) := by
    cases job with
    | process spec label => exact ⟨nofun, fun _ => .inl rfl⟩
    | agent request =>
      simp only [SpawnJob.afterNesting]
      split_ifs
      · exact ⟨nofun, nofun⟩
      · exact ⟨nofun, nofun⟩
  unfold nest
  cases hlead : env.bound with
  | none => exact .goes hphase hholds
  | some lead => exact .nested job project id lead hlead hphase hholds

theorem queueTask_turn {now : UInt64} {worker : ProcessId}
    (hpasses : s.Passes c env (.queueing worker))
    (h : s.queueTask c now worker = some t) : Turn s c env (.queueing worker) t := by
  unfold queueTask at h
  split at h
  next hnone =>
    cases h
    exact .goes (.over worker) ⟨nofun, fun _ => .inr hnone⟩
  next first hfirst =>
    obtain ⟨u, hu, ht⟩ := map_eq_some_iff.mp h
    obtain ⟨room, hstep, rfl⟩ := perform_eq_some.mp hu
    have hspace := hpasses (hfirst ▸ rfl)
    rcases s.room.state.enqueueReserved_cases now first.project first.sender worker .task
      first.prompt first.todoId with ⟨e, hfull⟩ | ⟨-, hqueued⟩
    · unfold MailboxState.enqueueReserved at hfull
      have hspace' : ¬ maxPendingMessagesPerRecipient ≤ ((s.room.state.cancelProjectReservation
          first.project first.prompt.utf8ByteSize).inbox worker).length := Nat.not_le.mpr hspace
      simp only [if_neg hspace', Prod.mk.injEq, reduceCtorEq, and_false] at hfull
    · rw [hqueued] at ht
      subst ht
      refine .gave room hstep rfl (Mailroom.prepared_of_enqueueReserved hstep) ?_ rfl rfl
      intro p hp
      rw [mem_singleton.mp hp]
      rfl

theorem proceed_turn [Sha256] (hpasses : s.Passes c env call) (h : s.proceed c env call = some t) :
    Turn s c env call t := by
  cases call with
  | scoping ask =>
    cases h
    exact scope_turn ask
  | gating ask project =>
    cases h
    exact gate_turn ask project
  | addressing request project prompt =>
    cases h
    exact address_turn request project prompt
  | reserving request project first => exact reserve_turn h
  | tooling request project =>
    cases h
    exact findTool_turn request project
  | rooting request project tool =>
    cases h
    exact findRoot_turn request project tool
  | placing spec label project =>
    cases h
    exact place_turn spec label project
  | trusting spec label project root =>
    cases h
    exact checkTrust_turn spec label project root
  | registering job r label =>
    cases h
    exact .registered job r label
  | describing job project id =>
    cases h
    exact describe_turn job project id
  | guarding job project id info =>
    cases h
    exact guardTrust_turn hpasses
  | launching job project id =>
    cases h
    exact .launched job project id
  | nesting job project id =>
    cases h
    exact nest_turn job project id
  | labelling request project worker =>
    cases h
    exact .goes (.on worker) ⟨nofun, nofun⟩
  | briefing project worker label =>
    simp only [proceed] at h
    obtain ⟨u, hu, rfl⟩ := map_eq_some_iff.mp h
    obtain ⟨room, hroom, rfl⟩ := perform_eq_some.mp hu
    exact .mailed room hroom rfl rfl (fun p hp => mem_singleton.mp hp) (.on worker) ⟨nofun, nofun⟩
  | queueing worker => exact queueTask_turn hpasses h
  | recording worker d =>
    simp only [proceed] at h
    obtain ⟨u, hu, rfl⟩ := map_eq_some_iff.mp h
    obtain ⟨room, hroom, rfl⟩ := perform_eq_some.mp hu
    exact .mailed room hroom rfl rfl nofun (.over worker) ⟨nofun, fun _ => .inl rfl⟩
  | cancelling e =>
    obtain ⟨u, hu, rfl⟩ := map_eq_some_iff.mp h
    obtain ⟨room, hroom, rfl⟩ := perform_eq_some.mp hu
    exact .gave room hroom rfl (Mailroom.prepared_of_cancel hroom) nofun rfl rfl
  | returned reply => cases h

end Proceed

/-! ### What is known of every state -/

/-- What was minted has a number below the next; a process has one owner, and only a process whose
launch was tried is active. -/
structure Filed (s : SpawnWorld) : Prop where
  calls : ∀ c call, s.calls c = some call → c < s.nextCall
  rows : ∀ id m, s.registry id = some m → id < s.nextProcess
  launched : ∀ id ∈ s.launched, id < s.nextProcess
  registered : ∀ c id, (c, id) ∈ s.registered → c < s.nextCall ∧ id < s.nextProcess
  owner : ∀ c d id, (c, id) ∈ s.registered → (d, id) ∈ s.registered → c = d
  active : ∀ id m, s.registry id = some m → m.status.isActive = true → id ∈ s.launched

/-- A process of which no launch was tried has no part in the lineage or in the mailbox. -/
structure Traceless (s : SpawnWorld) : Prop where
  parents : ∀ a b, s.lineage.parentOf a = some b → a ∈ s.launched ∧ b ∈ s.launched
  letters : ∀ k op, s.letters k = some op → op.holder = none ∧ ∀ p ∈ op.addresses, p ∈ s.launched
  mail : ∀ p, p ∉ s.launched → (s.room.letterbox p).Bare

/-- A call took at most one place, and holds what it has not given back. -/
structure Booked (s : SpawnWorld) (c : Nat) : Prop where
  balance : s.taken c = s.given c + (if (AList.lookup c s.room.prepared).isSome then 1 else 0)
  once : s.taken c ≤ 1
  unreserved : (∀ call, s.calls c = some call → call.unreserved = true) → s.taken c = 0
  released : ∀ call, s.calls c = some call → call.mayHold = false →
    AList.lookup c s.room.prepared = none

/-- What the phase of a call says of the process it registered. -/
def Agrees (s : SpawnWorld) (c : Nat) : SpawnPhase → Prop
  | .early => ∀ id, (c, id) ∉ s.registered
  | .starting w => (∀ id, (c, id) ∈ s.registered ↔ id = w) ∧ w ∉ s.launched
  | .claiming w => ∀ id, (c, id) ∈ s.registered ↔ id = w
  | .started w => w ∈ s.launched
  | .refused => ∀ id, (c, id) ∈ s.registered → s.registry id = none ∧ id ∉ s.launched
  | .over => True

structure Sound (s : SpawnWorld) : Prop where
  filed : s.Filed
  traceless : s.Traceless
  booked : ∀ c, s.Booked c
  balanced : s.room.Balanced
  staged : ∀ c call, s.calls c = some call → s.Agrees c call.phase

theorem filed_init : Filed .init where
  calls _ _ h := by cases h
  rows _ _ h := by cases h
  launched _ h := by cases h
  registered _ _ h := by cases h
  owner _ _ _ h := by cases h
  active _ _ h := by cases h

theorem traceless_init : Traceless .init where
  parents a b h := by
    rw [AgentLineage.parentOf, init, AList.lookup_empty] at h
    cases h
  letters _ _ h := by cases h
  mail p _ := Mailroom.bare_iff.mpr ⟨rfl, rfl, rfl, Finset.notMem_empty p⟩

theorem booked_init (c : Nat) : Booked .init c where
  balance := rfl
  once := Nat.zero_le 1
  unreserved _ := rfl
  released _ h := by cases h

theorem sound_init : Sound .init :=
  ⟨filed_init, traceless_init, booked_init, Mailroom.balanced_empty, fun _ _ h => by cases h⟩

section Launch
variable {s : SpawnWorld} {id i : ProcessId} {m : Managed}

theorem launch_cases (s : SpawnWorld) (id : ProcessId) : (s.launch id).registry = s.registry ∨
    ∃ m m', s.registry id = some m ∧ (s.launch id).registry = s.registry.put id m' := by
  unfold launch
  cases hclaim : s.registry.beginLaunch id s.launched.length with
  | none => exact .inl rfl
  | some claim =>
    obtain ⟨source, registry⟩ := claim
    obtain ⟨m, hm, -, -, hregistry⟩ := Registry.beginLaunch_eq_some.mp hclaim
    exact .inr ⟨m, _, hm, hregistry⟩

theorem launch_absent : (s.launch id).registry i = none ↔ s.registry i = none := by
  rcases launch_cases s id with h | ⟨m, m', hm, h⟩
  · rw [h]
  · rw [h]
    by_cases hi : i = id
    · rw [hi, put_self, hm]
      simp
    · rw [put_of_ne hi]

theorem launch_row (h : (s.launch id).registry i = some m) : i = id ∨ s.registry i = some m := by
  rcases launch_cases s id with heq | ⟨m₀, m', -, heq⟩
  · rw [heq] at h
    exact .inr h
  · rw [heq] at h
    rcases put_eq_some.mp h with ⟨hi, -⟩ | ⟨-, h⟩
    · exact .inl hi
    · exact .inr h

theorem exists_row_of_launch (h : (s.launch id).registry i = some m) :
    ∃ m', s.registry i = some m' := by
  rw [← isSome_iff_exists, ← ne_none_iff_isSome]
  intro hnone
  rw [launch_absent.mpr hnone] at h
  cases h

end Launch

/-! ### The steps -/

section Step
variable [Sha256] {s t : SpawnWorld} {c : Nat} {env : SpawnEnv} {call : SpawnCall}

omit [Sha256] in
theorem Traceless.launched_of_related (hs : s.Traceless) {sender p : ProcessId}
    (hsender : sender ∈ s.launched) (h : s.lineage.related sender p = true) : p ∈ s.launched := by
  obtain ⟨x, hx, hxp⟩ := List.any_eq_true.mp h
  obtain ⟨a, ha, hax⟩ := AgentLineage.mem_needed.mp hx
  obtain ⟨b, hb, hbx⟩ := AgentLineage.mem_needed.mp (of_decide_eq_true hxp)
  rw [mem_singleton.mp ha] at hax
  rw [mem_singleton.mp hb] at hbx
  have hmem : x ∈ s.launched :=
    Closure.mem_of_leads (fun a _ b hab => (hs.parents a b hab).2) hsender hax
  rcases Relation.ReflTransGen.cases_head hbx with rfl | ⟨b, hpb, -⟩
  · exact hmem
  · exact (hs.parents p b hpb).1

variable {phase : SpawnPhase}

omit [Sha256] in
/-- The phases of the other calls, after a step that launches none of their processes. -/
theorem Agrees.frame (h : s.Agrees c phase)
    (hregistered : ∀ id, (c, id) ∈ t.registered ↔ (c, id) ∈ s.registered)
    (habsent : ∀ id, (c, id) ∈ s.registered → s.registry id = none → t.registry id = none)
    (hkept : ∀ id ∈ s.launched, id ∈ t.launched)
    (hnew : phase.waits = true → ∀ id, (c, id) ∈ s.registered → id ∈ t.launched →
      id ∈ s.launched) : t.Agrees c phase := by
  cases phase with
  | early => exact fun id hid => h id ((hregistered id).mp hid)
  | starting w =>
    obtain ⟨howns, hw⟩ := h
    refine ⟨fun id => (hregistered id).trans (howns id), fun hlaunched => hw ?_⟩
    exact hnew rfl w ((howns w).mpr rfl) hlaunched
  | claiming w => exact fun id => (hregistered id).trans (h id)
  | started w => exact hkept w h
  | refused =>
    intro id hid
    obtain ⟨hgone, hlaunched⟩ := h id ((hregistered id).mp hid)
    have hid := (hregistered id).mp hid
    exact ⟨habsent id hid hgone, fun hnewly => hlaunched (hnew rfl id hid hnewly)⟩
  | «over» => trivial

omit [Sha256] in
theorem Filed.put (hs : s.Filed) (hcall : s.calls c = some call) (call' : SpawnCall) :
    (s.setCall c call').Filed where
  calls d x hx := by
    rcases put_eq_some.mp hx with ⟨rfl, -⟩ | ⟨-, hx⟩
    · exact hs.calls d call hcall
    · exact hs.calls d x hx
  rows := hs.rows
  launched := hs.launched
  registered := hs.registered
  owner := hs.owner
  active := hs.active

omit [Sha256] in
/-- A process just registered is a row of its own, at rest. -/
theorem Filed.register [Sha256] (hs : s.Filed) (r : Registration) (label : String) :
    (s.register r label).Filed where
  calls := hs.calls
  rows id m hm := by
    rcases put_eq_some.mp hm with ⟨rfl, -⟩ | ⟨-, hm⟩
    · exact Nat.lt_succ_self _
    · exact Nat.lt_succ_of_lt (hs.rows id m hm)
  launched id hid := Nat.lt_succ_of_lt (hs.launched id hid)
  registered d id hid := ⟨(hs.registered d id hid).1, Nat.lt_succ_of_lt (hs.registered d id hid).2⟩
  owner := hs.owner
  active id m hm hactive := by
    rcases put_eq_some.mp hm with ⟨-, rfl⟩ | ⟨-, hm⟩
    · cases hactive
    · exact hs.active id m hm hactive

variable {id : ProcessId}

omit [Sha256] in
theorem Filed.launch (hs : s.Filed) (hid : id < s.nextProcess) :
    (s.launch id).Filed where
  calls := hs.calls
  rows i m hm := by
    obtain ⟨m', hm'⟩ := exists_row_of_launch hm
    exact hs.rows i m' hm'
  launched i hi := by
    rcases mem_cons.mp hi with rfl | hi
    · exact hid
    · exact hs.launched i hi
  registered := hs.registered
  owner := hs.owner
  active i m hm hactive := by
    rcases launch_row hm with rfl | hm
    · exact .head _
    · exact .tail _ (hs.active i m hm hactive)

omit [Sha256] in
theorem Sound.filed_turn (hs : s.Sound) (hcall : s.calls c = some call) (h : Turn s c env call t) :
    t.Filed := by
  have hput := hs.filed.put hcall
  cases h with
  | goes => exact hput _
  | reserved =>
    exact ⟨(hput _).calls, hs.filed.rows, hs.filed.launched, hs.filed.registered, hs.filed.owner,
      hs.filed.active⟩
  | registered job r label =>
    have h := (hs.filed.register r label).put hcall (.describing job r.project s.nextProcess)
    refine ⟨h.calls, h.rows, h.launched, fun d id hid => ?_, fun d e id hd he => ?_, h.active⟩
    · rcases mem_cons.mp hid with heq | hid
      · cases heq
        exact ⟨hs.filed.calls c _ hcall, Nat.lt_succ_self _⟩
      · exact h.registered d id hid
    · rcases mem_cons.mp hd with hd | hd
      · rcases mem_cons.mp he with he | he
        · cases hd
          cases he
          rfl
        · cases hd
          exact absurd (hs.filed.registered e _ he).2 (Nat.lt_irrefl _)
      · rcases mem_cons.mp he with he | he
        · cases he
          exact absurd (hs.filed.registered d _ hd).2 (Nat.lt_irrefl _)
        · exact hs.filed.owner d e id hd he
  | launched job project id =>
    have hid : (c, id) ∈ s.registered := (hs.staged c _ hcall id).mpr rfl
    exact (hs.filed.launch (hs.filed.registered c id hid).2).put hcall _
  | nested =>
    exact ⟨(hput _).calls, hs.filed.rows, hs.filed.launched, hs.filed.registered, hs.filed.owner,
      hs.filed.active⟩
  | mailed =>
    exact ⟨(hput _).calls, hs.filed.rows, hs.filed.launched, hs.filed.registered, hs.filed.owner,
      hs.filed.active⟩
  | gave =>
    exact ⟨(hput _).calls, hs.filed.rows, hs.filed.launched, hs.filed.registered, hs.filed.owner,
      hs.filed.active⟩

variable {op : MailboxOp} {room : Mailroom}

omit [Sha256] in
theorem Traceless.mailed (hs : s.Traceless) (hroom : s.room.step op = some room)
    (haddresses : ∀ p ∈ op.addresses, p ∈ s.launched) :
    ∀ p, p ∉ s.launched → (room.letterbox p).Bare := fun p hp =>
  Mailroom.bare_unaddressed (hs.mail p hp) hroom fun hmem => hp (haddresses p hmem)

omit [Sha256] in
theorem Traceless.launch (hs : s.Traceless) (id : ProcessId) : (s.launch id).Traceless where
  parents a b hab :=
    ⟨.tail _ (hs.parents a b hab).1, .tail _ (hs.parents a b hab).2⟩
  letters k op hop :=
    ⟨(hs.letters k op hop).1, fun p hp => .tail _ ((hs.letters k op hop).2 p hp)⟩
  mail p hp := hs.mail p fun hmem => hp (.tail _ hmem)

omit [Sha256] in
theorem Traceless.record (hs : s.Traceless) {child parent : ProcessId} (hchild : child ∈ s.launched)
    (hparent : parent ∈ s.launched) : ∀ a b, (s.lineage.record child parent).parentOf a = some b →
      a ∈ s.launched ∧ b ∈ s.launched := by
  intro a b hab
  rw [AgentLineage.parentOf_record] at hab
  split_ifs at hab with ha
  · cases hab
    exact ⟨ha ▸ hchild, hparent⟩
  · exact hs.parents a b hab

omit [Sha256] in
theorem Sound.traceless_turn (hs : s.Sound) (hcall : s.calls c = some call)
    (hbound : ∀ lead ∈ env.bound, lead ∈ s.launched) (h : Turn s c env call t) : t.Traceless := by
  have hstaged := hs.staged c call hcall
  cases h with
  | goes => exact ⟨hs.traceless.parents, hs.traceless.letters, hs.traceless.mail⟩
  | reserved request project first room hroom =>
    exact ⟨hs.traceless.parents, hs.traceless.letters, hs.traceless.mailed hroom nofun⟩
  | registered => exact ⟨hs.traceless.parents, hs.traceless.letters, hs.traceless.mail⟩
  | launched job project id =>
    have h := hs.traceless.launch id
    exact ⟨h.parents, h.letters, h.mail⟩
  | nested job project id lead hlead =>
    exact ⟨hs.traceless.record hstaged (hbound lead hlead), hs.traceless.letters, hs.traceless.mail⟩
  | mailed room hroom hop hphase haddresses =>
    rw [hphase] at hstaged
    refine ⟨hs.traceless.parents, hs.traceless.letters, hs.traceless.mailed hroom fun p hp => ?_⟩
    rw [haddresses p hp]
    exact hstaged
  | gave room hroom hop hgiven haddresses =>
    refine ⟨hs.traceless.parents, hs.traceless.letters, hs.traceless.mailed hroom fun p hp => ?_⟩
    rw [haddresses p hp] at hstaged
    exact hstaged

omit [Sha256] in
theorem Booked.next (hs : s.Booked c) {call' : SpawnCall} (hcall : s.calls c = some call)
    (hholds : s.Holds c call call') (htaken : t.taken c = s.taken c) (hgiven : t.given c = s.given c)
    (hprepared : AList.lookup c t.room.prepared = AList.lookup c s.room.prepared)
    (hnext : t.calls c = some call') : t.Booked c where
  balance := by
    rw [htaken, hgiven, hprepared]
    exact hs.balance
  once := htaken.trans_le hs.once
  unreserved h := by
    rw [htaken]
    apply hs.unreserved
    intro x hx
    rw [hcall] at hx
    cases hx
    exact hholds.unreserved (h call' hnext)
  released x hx hfree := by
    rw [hnext] at hx
    cases hx
    rw [hprepared]
    rcases hholds.held hfree with hfree | hnone
    · exact hs.released call hcall hfree
    · exact hnone

omit [Sha256] in
/-- The reservations of a call another turn leaves alone. -/
theorem Booked.same (hs : s.Booked c) (hcalls : t.calls c = s.calls c)
    (htaken : t.taken c = s.taken c) (hgiven : t.given c = s.given c)
    (hprepared : AList.lookup c t.room.prepared = AList.lookup c s.room.prepared) : t.Booked c where
  balance := by
    rw [htaken, hgiven, hprepared]
    exact hs.balance
  once := htaken.trans_le hs.once
  unreserved h := by
    rw [htaken]
    rw [hcalls] at h
    exact hs.unreserved h
  released := by
    rw [hcalls, hprepared]
    exact hs.released

variable {d : Nat}

omit [Sha256] in
theorem Turn.others (h : Turn s c env call t) (hd : d ≠ c) :
    t.calls d = s.calls d ∧ t.taken d = s.taken d ∧ t.given d = s.given d ∧
      AList.lookup d t.room.prepared = AList.lookup d s.room.prepared := by
  have hne : ∀ {op : MailboxOp}, op.holder = some c → op.holder ≠ some d := by
    intro op hop hopd
    rw [hop] at hopd
    exact hd (some.inj hopd).symm
  cases h with
  | goes => exact ⟨put_of_ne hd, rfl, rfl, rfl⟩
  | reserved request project first room hroom =>
    exact ⟨put_of_ne hd, Function.update_of_ne hd _ _, rfl,
      Mailroom.lookup_prepared hroom (hne rfl)⟩
  | registered => exact ⟨put_of_ne hd, rfl, rfl, rfl⟩
  | launched => exact ⟨put_of_ne hd, rfl, rfl, rfl⟩
  | nested => exact ⟨put_of_ne hd, rfl, rfl, rfl⟩
  | mailed room hroom hop =>
    refine ⟨put_of_ne hd, rfl, rfl, Mailroom.lookup_prepared hroom ?_⟩
    rw [hop]
    exact nofun
  | gave room hroom hop =>
    exact ⟨put_of_ne hd, rfl, Function.update_of_ne hd _ _,
      Mailroom.lookup_prepared hroom (hne hop)⟩

omit [Sha256] in
theorem Booked.turn (hs : s.Booked c) (hcall : s.calls c = some call) (h : Turn s c env call t) :
    t.Booked c := by
  have hbalance := hs.balance
  have honce := hs.once
  cases h with
  | goes hphase hholds => exact hs.next hcall hholds rfl rfl rfl put_self
  | reserved request project first room hroom hfirst =>
    have htaken : s.taken c = 0 := by
      apply hs.unreserved
      intro x hx
      rw [hcall] at hx
      cases hx
      rfl
    have htaken' : Function.update s.taken c (s.taken c + 1) c = 1 := by
      rw [Function.update_self, htaken]
    refine ⟨?_, htaken'.le, fun hfresh => ?_, fun x hx hfree => ?_⟩
    · have hone : Function.update s.taken c (s.taken c + 1) c = s.given c + 1 := by
        omega
      simpa only [setCall, hfirst, isSome_some, if_true] using hone
    · cases hfresh _ put_self
    · obtain rfl := some.inj (put_self.symm.trans hx)
      cases hfree
  | registered job r label =>
    have hholds : s.Holds c (.registering job r label)
        (.describing job r.project s.nextProcess) := ⟨fun h => absurd h Bool.false_ne_true, fun h => .inl h⟩
    exact hs.next hcall hholds rfl rfl rfl put_self
  | launched job project id =>
    have hholds : s.Holds c (.launching job project id) (.nesting job project id) :=
      ⟨fun h => absurd h Bool.false_ne_true, fun h => .inl h⟩
    exact hs.next hcall hholds rfl rfl rfl put_self
  | nested job project id lead hlead hphase hholds =>
    exact hs.next hcall hholds rfl rfl rfl put_self
  | mailed room hroom hop hstarted haddresses hphase hholds =>
    refine hs.next hcall hholds rfl rfl (Mailroom.lookup_prepared hroom ?_) put_self
    rw [hop]
    simp
  | @gave _ call' op room hroom hop hgiven haddresses hphase hholds =>
    obtain ⟨hheld, hfreed⟩ := hgiven
    rw [if_pos hheld] at hbalance
    have hgiven' : Function.update s.given c (s.given c + 1) c = s.given c + 1 :=
      Function.update_self _ _ _
    refine ⟨?_, honce, fun hfresh => ?_, fun _ _ _ => hfreed⟩
    · have hzero : s.taken c = Function.update s.given c (s.given c + 1) c + 0 := by
        omega
      simpa only [setCall, hfreed, isSome_none, Bool.false_eq_true, if_false] using hzero
    · have hnext := hfresh call' put_self
      rw [hholds] at hnext
      cases hnext

omit [Sha256] in
theorem Goes.agrees {phase' : SpawnPhase} (h : s.Goes phase phase') (hs : s.Filed)
    (hphase : s.Agrees c phase) : s.Agrees c phase' := by
  cases h with
  | early => exact hphase
  | refused => exact fun id hid => absurd hid (hphase id)
  | described id => exact hphase
  | guarded id => exact hphase.1
  | active id m hm hactive => exact hs.active id m hm hactive
  | gone id hgone =>
    intro i hi
    rw [(hphase.1 i).mp hi]
    exact ⟨hgone, hphase.2⟩
  | on id => exact hphase
  | «over» id => trivial

omit [Sha256] in
theorem Sound.agrees_others (hs : s.Sound) (hcall : s.calls c = some call) (h : Turn s c env call t)
    (hd : d ≠ c) (hphase : s.Agrees d phase) : t.Agrees d phase := by
  have hsame : ∀ u : SpawnWorld, u.registered = s.registered → u.registry = s.registry →
      u.launched = s.launched → u.Agrees d phase := by
    intro u hregistered hregistry hlaunched
    refine hphase.frame (fun id => by rw [hregistered]) (fun id _ hid => hregistry ▸ hid)
      (fun id hid => hlaunched ▸ hid) (fun _ id _ hid => hlaunched ▸ hid)
  cases h with
  | goes => exact hsame _ rfl rfl rfl
  | reserved => exact hsame _ rfl rfl rfl
  | nested => exact hsame _ rfl rfl rfl
  | mailed => exact hsame _ rfl rfl rfl
  | gave => exact hsame _ rfl rfl rfl
  | registered job r label =>
    refine hphase.frame (fun id => ?_) (fun id hid hgone => ?_) (fun id hid => hid)
      (fun _ id _ hid => hid)
    · constructor
      · intro hid
        rcases mem_cons.mp hid with heq | hid
        · cases heq
          exact absurd rfl hd
        · exact hid
      · exact fun hid => .tail _ hid
    · have hne : id ≠ s.nextProcess := (hs.filed.registered d id hid).2.ne
      exact (put_of_ne hne).trans hgone
  | launched job project id =>
    have howner : (c, id) ∈ s.registered := (hs.staged c _ hcall id).mpr rfl
    refine hphase.frame (fun _ => Iff.rfl) (fun i _ hgone => launch_absent.mpr hgone)
      (fun i hi => .tail _ hi) (fun _ i hi hlaunched => ?_)
    rcases mem_cons.mp hlaunched with rfl | hlaunched
    · exact absurd (hs.filed.owner d c i hi howner) hd
    · exact hlaunched

omit [Sha256] in
theorem Sound.agrees_turn (hs : s.Sound) (hcall : s.calls c = some call)
    (h : Turn s c env call t) : ∀ x, t.calls c = some x → t.Agrees c x.phase := by
  have hphase := hs.staged c call hcall
  intro x hx
  cases h with
  | goes hgoes =>
    obtain rfl := some.inj (put_self.symm.trans hx)
    exact hgoes.agrees hs.filed hphase
  | reserved =>
    obtain rfl := some.inj (put_self.symm.trans hx)
    exact hphase
  | registered job r label =>
    obtain rfl := some.inj (put_self.symm.trans hx)
    constructor
    · intro id
      constructor
      · intro hid
        rcases mem_cons.mp hid with heq | hid
        · cases heq
          rfl
        · exact absurd hid (hphase id)
      · rintro rfl
        exact .head _
    · exact fun hlaunched => absurd (hs.filed.launched _ hlaunched) (Nat.lt_irrefl _)
  | launched job project id =>
    obtain rfl := some.inj (put_self.symm.trans hx)
    exact .head _
  | nested job project id lead hlead hgoes =>
    obtain rfl := some.inj (put_self.symm.trans hx)
    have hnext := hgoes.agrees hs.filed hphase
    exact hnext
  | mailed room hroom hop hstarted haddresses hgoes =>
    obtain rfl := some.inj (put_self.symm.trans hx)
    rw [hstarted] at hphase
    have hnext := hgoes.agrees hs.filed hphase
    exact hnext
  | gave room hroom hop hgiven haddresses hsame =>
    obtain rfl := some.inj (put_self.symm.trans hx)
    rw [hsame]
    exact hphase

omit [Sha256] in
theorem Sound.turn (hs : s.Sound) (hcall : s.calls c = some call)
    (hbound : ∀ lead ∈ env.bound, lead ∈ s.launched) (h : Turn s c env call t) : t.Sound where
  filed := hs.filed_turn hcall h
  traceless := hs.traceless_turn hcall hbound h
  booked d := by
    by_cases hd : d = c
    · rw [hd]
      exact (hs.booked c).turn hcall h
    · obtain ⟨hcalls, htaken, hgiven, hprepared⟩ := h.others hd
      exact (hs.booked d).same hcalls htaken hgiven hprepared
  balanced := by
    cases h with
    | goes | registered | launched | nested => exact hs.balanced
    | reserved request project first room hroom => exact hs.balanced.step hroom
    | mailed room hroom => exact hs.balanced.step hroom
    | gave room hroom => exact hs.balanced.step hroom
  staged d x hx := by
    by_cases hd : d = c
    · rw [hd] at hx ⊢
      exact hs.agrees_turn hcall h x hx
    · rw [(h.others hd).1] at hx
      exact hs.agrees_others hcall h hd (hs.staged d x hx)

omit [Sha256] in
/-- A step of another context, which launches nothing and ends no call. -/
theorem Sound.amend (hs : s.Sound) (hfiled : t.Filed) (htraceless : t.Traceless)
    (hcalls : t.calls = s.calls) (htaken : t.taken = s.taken) (hgiven : t.given = s.given)
    (hprepared : ∀ c, AList.lookup c t.room.prepared = AList.lookup c s.room.prepared)
    (hbalanced : t.room.Balanced) (hregistered : t.registered = s.registered) (hlaunched : t.launched = s.launched)
    (habsent : ∀ id, id < s.nextProcess → s.registry id = none → t.registry id = none) :
    t.Sound where
  filed := hfiled
  traceless := htraceless
  booked c := (hs.booked c).same (congrFun hcalls c) (congrFun htaken c) (congrFun hgiven c)
    (hprepared c)
  balanced := hbalanced
  staged c x hx := by
    rw [hcalls] at hx
    refine (hs.staged c x hx).frame (fun id => by rw [hregistered]) (fun id hid => ?_)
      (fun id hid => hlaunched ▸ hid) (fun _ id _ hid => hlaunched ▸ hid)
    exact habsent id (hs.filed.registered c id hid).2

omit [Sha256] in
theorem Sound.spawn (hs : s.Sound) (ask : SpawnAsk) : Sound { s with
    calls := s.calls.put s.nextCall (.scoping ask), nextCall := s.nextCall + 1 } := by
  have hnone : s.calls s.nextCall = none := by
    rw [eq_none_iff_forall_not_mem]
    intro x hx
    exact absurd (hs.filed.calls _ x hx) (Nat.lt_irrefl _)
  have htaken : s.taken s.nextCall = 0 := by
    apply (hs.booked s.nextCall).unreserved
    intro x hx
    rw [hnone] at hx
    cases hx
  refine ⟨⟨fun d x hx => ?_, hs.filed.rows, hs.filed.launched, fun d id hid => ?_, hs.filed.owner,
    hs.filed.active⟩, ⟨hs.traceless.parents, hs.traceless.letters, hs.traceless.mail⟩,
    fun d => ?_, hs.balanced, fun d x hx => ?_⟩
  · rcases put_eq_some.mp hx with ⟨rfl, -⟩ | ⟨-, hx⟩
    · exact Nat.lt_succ_self _
    · exact Nat.lt_succ_of_lt (hs.filed.calls d x hx)
  · exact ⟨Nat.lt_succ_of_lt (hs.filed.registered d id hid).1, (hs.filed.registered d id hid).2⟩
  · have hbalance := (hs.booked d).balance
    refine ⟨hbalance, (hs.booked d).once, fun hfresh => ?_, fun x hx hfree => ?_⟩
    · by_cases hd : d = s.nextCall
      · rw [hd]
        exact htaken
      · apply (hs.booked d).unreserved
        intro x hx
        exact hfresh x ((put_of_ne hd).trans hx)
    · rcases put_eq_some.mp hx with ⟨rfl, -⟩ | ⟨-, hx⟩
      · rw [htaken] at hbalance
        have hnot : ¬ (AList.lookup s.nextCall s.room.prepared).isSome = true := by
          intro hheld
          rw [if_pos hheld] at hbalance
          omega
        exact not_isSome_iff_eq_none.mp hnot
      · exact (hs.booked d).released x hx hfree
  · rcases put_eq_some.mp hx with ⟨rfl, rfl⟩ | ⟨-, hx⟩
    · exact fun id hid => absurd (hs.filed.registered _ id hid).1 (Nat.lt_irrefl _)
    · exact hs.staged d x hx

omit [Sha256] in
theorem Sound.launch (hs : s.Sound) (hid : (s.registry id).isSome) (hfree : s.underWay id = false) :
    (s.launch id).Sound := by
  obtain ⟨m, hm⟩ := isSome_iff_exists.mp hid
  refine ⟨hs.filed.launch (hs.filed.rows id m hm), hs.traceless.launch id, fun c => ?_,
    hs.balanced, fun c x hx => ?_⟩
  · exact (hs.booked c).same rfl rfl rfl rfl
  · have hphase := hs.staged c x hx
    refine hphase.frame (fun _ => Iff.rfl) (fun i _ hgone => launch_absent.mpr hgone)
      (fun i hi => .tail _ hi) (fun hwaits i hi hlaunched => ?_)
    rcases mem_cons.mp hlaunched with rfl | hlaunched
    · by_cases hover : x.isReturned = true
      · rw [x.refused_of_waits hover hwaits] at hphase
        rw [(hphase i hi).1] at hm
        cases hm
      · have hcall : s.calls c = some x := hx
        have hunder : s.underWay i = true := by
          refine List.any_eq_true.mpr ⟨(c, i), hi, ?_⟩
          simp [hcall, hover]
        rw [hunder] at hfree
        cases hfree
    · exact hlaunched

omit [Sha256] in
/-- Nothing that is known of a state is about trust, the projects or the labels. -/
theorem Sound.aside (hs : s.Sound) (trust : ProjectId → Hash → Bool)
    (projects : Slots ProjectId PathBuf) (labels : Slots ProcessId String) :
    Sound { s with trust, projects, labels } := by
  have hfiled := hs.filed
  have htraceless := hs.traceless
  exact hs.amend ⟨hfiled.calls, hfiled.rows, hfiled.launched, hfiled.registered, hfiled.owner,
    hfiled.active⟩ ⟨htraceless.parents, htraceless.letters, htraceless.mail⟩ rfl rfl rfl
    (fun _ => rfl) hs.balanced rfl rfl (fun _ _ hgone => hgone)

omit [Sha256] in
theorem Sound.mail (hs : s.Sound) (hroom : s.room.step op = some room) (hop : op.holder = none)
    (haddresses : ∀ p ∈ op.addresses, p ∈ s.launched) : Sound { s with room } := by
  refine hs.amend ⟨hs.filed.calls, hs.filed.rows, hs.filed.launched, hs.filed.registered,
    hs.filed.owner, hs.filed.active⟩ ⟨hs.traceless.parents, hs.traceless.letters,
    hs.traceless.mailed hroom haddresses⟩ rfl rfl rfl (fun c => ?_) (hs.balanced.step hroom) rfl rfl
    (fun _ _ hgone => hgone)
  refine Mailroom.lookup_prepared hroom ?_
  rw [hop]
  exact nofun

/-- Under the condition, what is known of a state is known of the next. -/
theorem Sound.step {e : SpawnEvent} (hs : s.Sound) (hupheld : s.Upheld e) (h : s.step e = some t) :
    t.Sound := by
  have hfiled := hs.filed
  have htraceless := hs.traceless
  cases e with
  | spawn ask =>
    cases h
    exact hs.spawn ask
  | proceed c env =>
    obtain ⟨hbound, h⟩ := ite_none_right_eq_some.mp h
    obtain ⟨call, hcall, h⟩ := bind_eq_some_iff.mp h
    refine hs.turn hcall (fun lead hlead => ?_) (proceed_turn (hupheld call hcall) h)
    rw [mem_def] at hlead
    rw [hlead, all_some] at hbound
    exact of_decide_eq_true hbound
  | setTrusted project variant trusted =>
    cases h
    exact hs.aside _ _ _
  | openProject project root =>
    cases h
    exact hs.aside _ _ _
  | removeProject project =>
    cases h
    exact hs.aside _ _ _
  | rename id label =>
    cases h
    exact hs.aside _ _ _
  | register r label =>
    cases h
    refine hs.amend (hfiled.register r label) ⟨htraceless.parents, htraceless.letters,
      htraceless.mail⟩ rfl rfl rfl (fun _ => rfl) hs.balanced rfl rfl (fun id hid hgone => ?_)
    exact (put_of_ne hid.ne).trans hgone
  | launch id =>
    obtain ⟨⟨hid, hfree⟩, h⟩ := ite_none_right_eq_some.mp h
    cases h
    exact hs.launch hid hfree
  | setStatus id status exitCode =>
    obtain ⟨hlaunched, h⟩ := ite_none_right_eq_some.mp h
    cases h
    refine hs.amend ⟨hfiled.calls, fun i m hm => ?_, hfiled.launched, hfiled.registered,
      hfiled.owner, fun i m hm hactive => ?_⟩ ⟨htraceless.parents, htraceless.letters,
      htraceless.mail⟩ rfl rfl rfl (fun _ => rfl) hs.balanced rfl rfl (fun i _ hgone => ?_)
    · obtain ⟨m', hm', -⟩ := modify_eq_some.mp hm
      exact hfiled.rows i m' hm'
    · obtain ⟨m', hm', hrow⟩ := modify_eq_some.mp hm
      by_cases hi : i = id
      · exact hi ▸ hlaunched
      · rw [if_neg hi] at hrow
        exact hfiled.active i m (hrow ▸ hm') hactive
    · by_cases hi : i = id
      · simp [Registry.setStatus, Slots.modify, hgone]
      · exact (modify_of_ne hi).trans hgone
  | close id =>
    obtain ⟨removed, hremoved, rfl⟩ := map_eq_some_iff.mp h
    obtain ⟨m, -, rfl⟩ := map_eq_some_iff.mp hremoved
    refine hs.amend ⟨hfiled.calls, fun i m hm => ?_, hfiled.launched, hfiled.registered,
      hfiled.owner, fun i m hm hactive => ?_⟩ ⟨htraceless.parents, htraceless.letters,
      htraceless.mail⟩ rfl rfl rfl (fun _ => rfl) hs.balanced rfl rfl (fun i _ hgone => erase_of_none hgone)
    · exact hfiled.rows i m (erase_eq_some.mp hm).2
    · exact hfiled.active i m (erase_eq_some.mp hm).2 hactive
  | retainLineage live =>
    cases h
    refine hs.amend ⟨hfiled.calls, hfiled.rows, hfiled.launched, hfiled.registered, hfiled.owner,
      hfiled.active⟩ ⟨fun a b hab => ?_, htraceless.letters, htraceless.mail⟩ rfl rfl rfl
      (fun _ => rfl) hs.balanced rfl rfl (fun _ _ hgone => hgone)
    rw [AgentLineage.parentOf_retainLive] at hab
    exact htraceless.parents a b (ite_none_right_eq_some.mp hab).2
  | address letter op =>
    simp only [SpawnWorld.step] at h
    cases hsender : op.sender with
    | none =>
      rw [hsender] at h
      cases h
    | some sender =>
      rw [hsender] at h
      obtain ⟨⟨hlaunched, hrelated⟩, h⟩ := ite_none_right_eq_some.mp h
      cases h
      refine hs.amend ⟨hfiled.calls, hfiled.rows, hfiled.launched, hfiled.registered, hfiled.owner,
        hfiled.active⟩ ⟨htraceless.parents, fun k x hx => ?_, htraceless.mail⟩ rfl rfl rfl
        (fun _ => rfl) hs.balanced rfl rfl (fun _ _ hgone => hgone)
      rcases put_eq_some.mp hx with ⟨-, rfl⟩ | ⟨-, hx⟩
      · refine ⟨MailboxOp.holder_of_sender hsender, fun p hp => ?_⟩
        exact htraceless.launched_of_related hlaunched (List.all_eq_true.mp hrelated p hp)
      · exact htraceless.letters k x hx
  | deliver letter =>
    obtain ⟨op, hop, h⟩ := bind_eq_some_iff.mp h
    obtain ⟨u, hu, rfl⟩ := map_eq_some_iff.mp h
    obtain ⟨room, hroom, rfl⟩ := perform_eq_some.mp hu
    obtain ⟨hholder, haddresses⟩ := htraceless.letters letter op hop
    have hmail := hs.mail hroom hholder haddresses
    refine hmail.amend ⟨hmail.filed.calls, hmail.filed.rows, hmail.filed.launched,
      hmail.filed.registered, hmail.filed.owner, hmail.filed.active⟩ ⟨htraceless.parents,
      fun k x hx => ?_, hmail.traceless.mail⟩ rfl rfl rfl (fun _ => rfl) hmail.balanced
      rfl rfl (fun _ _ hgone => hgone)
    exact htraceless.letters k x (erase_eq_some.mp hx).2
  | mail op =>
    obtain ⟨hquiet, h⟩ := ite_none_left_eq_some.mp h
    obtain ⟨room, hroom, rfl⟩ := perform_eq_some.mp h
    obtain ⟨hholder, haddresses⟩ := MailboxOp.quiet (Bool.eq_false_iff.mpr hquiet)
    refine hs.mail hroom hholder fun p hp => ?_
    rw [haddresses] at hp
    cases hp

theorem sound_of_reachable (h : spawnMachine.ReachableUnder Upheld s) : s.Sound := by
  refine h.invariant (P := Sound) (fun s hs => ?_) fun s e t hupheld hs ht => hs.step hupheld ht
  rw [show s = .init from hs]
  exact sound_init

/-- Nothing is left of a process: it is not registered, no launch of it was ever tried, it has no
parent, no briefing, no message and no wake. -/
structure Nothing (s : SpawnWorld) (id : ProcessId) : Prop where
  unregistered : s.registry id = none
  unlaunched : id ∉ s.launched
  orphan : s.lineage.parentOf id = none
  bare : (s.room.letterbox id).Bare

omit [Sha256] in
theorem Sound.nothing (hs : s.Sound) (hgone : s.registry id = none) (hlaunched : id ∉ s.launched) :
    s.Nothing id := by
  refine ⟨hgone, hlaunched, ?_, hs.traceless.mail id hlaunched⟩
  rw [eq_none_iff_forall_not_mem]
  intro parent hparent
  exact hlaunched (hs.traceless.parents id parent hparent).1

/-- In every run in which the gate finds the command still trusted and the first task finds room, a
refused spawn leaves nothing of the process it registered, and has given back once what it
reserved; the counters of the mailbox hold the places of the other spawns alone. -/
theorem refused_spawn_leaves_nothing (hs : spawnMachine.ReachableUnder Upheld s) {reply : SpawnReply}
    (hcall : s.calls c = some (.returned reply)) (herror : reply.isError = true) :
    (∀ id, (c, id) ∈ s.registered → s.Nothing id) ∧ s.given c = s.taken c ∧ s.taken c ≤ 1 ∧
      AList.lookup c s.room.prepared = none ∧ s.room.Accounted := by
  have hsound := sound_of_reachable hs
  have hbooked := hsound.booked c
  have hphase := hsound.staged c _ hcall
  simp only [SpawnCall.phase, herror, if_true] at hphase
  have hreleased := hbooked.released _ hcall rfl
  refine ⟨fun id hid => ?_, ?_, hbooked.once, hreleased, hsound.balanced.accounted⟩
  · obtain ⟨hgone, hlaunched⟩ := hphase id hid
    exact hsound.nothing hgone hlaunched
  · have hbalance := hbooked.balance
    rw [hreleased] at hbalance
    simpa using hbalance.symm

end Step

instance (s : SpawnWorld) (c : Nat) (env : SpawnEnv) : DecidablePred (s.Passes c env)
  | .guarding _ _ _ info => inferInstanceAs (Decidable (∀ variant ∈ info.trustVariant, _ → _))
  | .queueing _ => inferInstanceAs (Decidable (_ → _))
  | .scoping _ | .gating .. | .addressing .. | .reserving .. | .tooling .. | .rooting ..
  | .placing .. | .trusting .. | .registering .. | .describing .. | .launching .. | .nesting ..
  | .labelling .. | .briefing .. | .recording .. | .cancelling _ | .returned _ => isTrue trivial

instance (s : SpawnWorld) : DecidablePred s.Upheld
  | .proceed c env => inferInstanceAs (Decidable (∀ call ∈ s.calls c, s.Passes c env call))
  | .spawn _ | .setTrusted .. | .openProject .. | .removeProject _ | .register .. | .launch _
  | .setStatus .. | .rename .. | .close _ | .retainLineage _ | .address .. | .deliver _
  | .mail _ => isTrue trivial

def reply (s : SpawnWorld) (c : Nat) : Option SpawnReply :=
  match s.calls c with
  | some (.returned reply) => some reply
  | _ => none

theorem calls_of_reply {s : SpawnWorld} {c : Nat} {reply : SpawnReply} (h : s.reply c = some reply) :
    s.calls c = some (.returned reply) := by
  unfold SpawnWorld.reply at h
  split at h
  next x hcall =>
    cases h
    exact hcall
  · cases h

/-- A lead asks for a worker with a first task; the user closes the worker before it starts. -/
def closedWorker : List SpawnEvent :=
  [.openProject 1 [.rootDir],
    .register (.launched 1 ⟨.agent, ProcessKind.agent_ne_command⟩ ⟨"claude", [.rootDir], []⟩ none) "lead", .launch 1,
    .spawn (.agent ⟨"codex", some "go", none, true⟩),
    .proceed 0 { project := some 1 }, .proceed 0 { bound := some 1 },
    .proceed 0 { project := some 1, bound := some 1 }, .proceed 0 {},
    .proceed 0 { tool := some ⟨"Codex", "codex", none⟩ }, .proceed 0 {}, .proceed 0 {},
    .close 2, .proceed 0 {}, .proceed 0 {}]

theorem refused_spawn_leaves_nothing_closed :
    letI := zeroSha
    ∃ s, spawnMachine.ReachableUnder Upheld s ∧
      s.reply 0 = some (.agent (.error (.launch .supervisor))) ∧ (0, 2) ∈ s.registered ∧
      s.taken 0 = 1 ∧
      (∀ id, (0, id) ∈ s.registered → s.Nothing id) ∧ s.given 0 = s.taken 0 ∧ s.taken 0 ≤ 1 ∧
        AList.lookup 0 s.room.prepared = none ∧ s.room.Accounted := by
  let _ := zeroSha
  obtain ⟨s, hs, hreply, hregistered, htaken⟩ := Machine.exists_reachableUnder_of_run
    (M := spawnMachine) (G := Upheld) rfl closedWorker (by decide)
    (fun s => s.reply 0 = some (.agent (.error (.launch .supervisor))) ∧ (0, 2) ∈ s.registered ∧
      s.taken 0 = 1) (by decide)
  exact ⟨s, hs, hreply, hregistered, htaken,
    refused_spawn_leaves_nothing hs (calls_of_reply hreply) rfl⟩

/-- The user takes the trust back between the two checks. -/
def revokedCommand : List SpawnEvent :=
  [.openProject 1 [.rootDir], .setTrusted 1 (Vector.replicate 32 0) true,
    .spawn (.process ⟨"make", none, [], none⟩),
    .proceed 0 { project := some 1 }, .proceed 0 {}, .proceed 0 {}, .proceed 0 {}, .proceed 0 {},
    .setTrusted 1 (Vector.replicate 32 0) false, .proceed 0 {}, .proceed 0 {}]

theorem refused_command_registered :
    letI := zeroSha
    ∃ s, spawnMachine.Reachable s ∧
      s.reply 0 = some (.process (.error (.supervisor .untrusted))) ∧ (0, 1) ∈ s.registered ∧
      (s.registry 1).isSome := by
  let _ := zeroSha
  exact Machine.exists_reachable_of_run (M := spawnMachine) rfl revokedCommand
    (fun s => s.reply 0 = some (.process (.error (.supervisor .untrusted))) ∧
      (0, 1) ∈ s.registered ∧ (s.registry 1).isSome) (by decide)

end SpawnWorld

end Soloist
