import Soloist.Supervisor.System

/-! What one step does to the calls under way and to the fleet they act on. -/
open Option

namespace Soloist

namespace Call

def launchInfo : Call → Option (LaunchKind × ProcessId × EntryInfo)
  | .described kind id info | .trusted kind id info | .ready kind id info => some (kind, id, info)
  | .scheduled id info _ | .relaunching id info _ => some (.policy, id, info)
  | _ => none

def checked : Call → Bool
  | .trusted .. | .ready .. | .scheduled .. | .relaunching .. => true
  | _ => false

def takenHandle : Call → Option (ProcessId × Handle)
  | .closing id (some h) => some (id, h)
  | _ => none

/-- Holds neither what a launch read nor a handle. -/
structure Plain (call : Call) : Prop where
  launchInfo : call.launchInfo = none
  takenHandle : call.takenHandle = none

theorem launchInfo_afterTrust (kind : LaunchKind) (id : ProcessId) (info : EntryInfo) :
    (kind.afterTrust id info).launchInfo = some (kind, id, info) := by
  cases kind <;> rfl

theorem takenHandle_afterTrust (kind : LaunchKind) (id : ProcessId) (info : EntryInfo) :
    (kind.afterTrust id info).takenHandle = none := by
  cases kind <;> rfl

end Call

namespace Supervisor
variable {s t : Supervisor} {c : CallId} {now : Instant} {fault : Option StoreError}

/-- Only a check the trust store affirms is recorded. -/
def ChecksGrow (s : Supervisor) (c : CallId) (t : Supervisor) : Prop :=
  t.checks = s.checks ∨
    ∃ project v, s.trust project v = true ∧ t.checks = (c, project, v) :: s.checks

theorem ChecksGrow.subset (h : ChecksGrow s c t) : s.checks ⊆ t.checks := by
  rcases h with hsame | ⟨project, v, -, hcons⟩
  · rw [hsame]
    exact List.Subset.refl _
  · rw [hcons]
    exact List.subset_cons_self _ _

/-- Everything the next access of a call may do, between the call's two program points. -/
inductive Proceeds [Sha256] (s : Supervisor) (c : CallId) (t : Supervisor) : Call → Call → Prop
  | guarded (kind : LaunchKind) (id : ProcessId) (info : EntryInfo) (hfleet : t.fleet = s.fleet)
      (hchecked : ∀ v, info.trustVariant = some v → (c, info.project, v) ∈ t.checks) :
    Proceeds s c t (.described kind id info) (kind.afterTrust id info)
  | cleared (kind : LaunchKind) (id : ProcessId) (info : EntryInfo) (hkind : kind ≠ .policy)
      (hfleet : t.fleet = s.fleet) :
    Proceeds s c t (.trusted kind id info) (.ready kind id info)
  | decided (id : ProcessId) (info : EntryInfo) (attempt : Nat) (hfleet : t.fleet = s.fleet) :
    Proceeds s c t (.trusted .policy id info) (.scheduled id info attempt)
  | announced (id : ProcessId) (info : EntryInfo) (attempt : Nat) (hfleet : t.fleet = s.fleet) :
    Proceeds s c t (.scheduled id info attempt) (.relaunching id info attempt)
  | opened (id : ProcessId) (info : EntryInfo) (hfleet : t.fleet = s.fleet)
      (hread : s.fleet.registry.describe id = some info) (hauto : info.autoRestart = true) :
    Proceeds s c t (.policyOpen id) (.described .policy id info)
  | launched (kind : LaunchKind) (id : ProcessId) (info : EntryInfo) (reply : Reply)
      (hclaim : ¬ (kind = .restart ∧ info.status.isActive = true))
      (hfleet : s.fleet.launchActor (s.request c kind id info) = some t.fleet) :
    Proceeds s c t (.ready kind id info) (.returned reply)
  | messaged (id : ProcessId) (info : EntryInfo) (hactive : info.status.isActive = true)
      (hfleet : t.fleet = s.fleet.signalRestart (s.request c .restart id info)) :
    Proceeds s c t (.ready .restart id info) (.returned (.done (.ok ())))
  | relaunched (id : ProcessId) (info : EntryInfo) (attempt : Nat) (reply : Reply)
      (hfleet : s.fleet.launchActor (s.request c .policy id info) = some t.fleet) :
    Proceeds s c t (.relaunching id info attempt) (.returned reply)
  | exhausted (id : ProcessId) (call' : Call) (hplain : call'.Plain)
      (hfleet : t.fleet = { s.fleet with
        registry := (s.fleet.registry.exhaustIfCrashed id).1 }) :
    Proceeds s c t (.exhausting id) call'
  | stopped (id : ProcessId) (hfleet : t.fleet = s.fleet.signal id .stop) :
    Proceeds s c t (.stopping id) (.returned (.messaged true))
  | closed (id : ProcessId) (h : Handle) (hfleet : t.fleet = s.fleet.signalStop h) :
    Proceeds s c t (.closing id (some h)) (.reaping id h.join)
  | reloaded (id : ProcessId) (project : ProjectId) (root : PathBuf) (spec : ProcessSpec)
      (hfleet : t.fleet = { s.fleet with
        registry := (s.fleet.registry.updateCommandSpec id (.command project root spec)).1 }) :
    Proceeds s c t (.reloading id project root spec)
      (.returned (.updated (s.fleet.registry id).isSome))
  | plain (call call' : Call) (hplain : call'.Plain) (htaken : call.takenHandle = none)
      (hfleet : t.fleet = s.fleet) : Proceeds s c t call call'

theorem Proceeds.takenHandle [Sha256] {call call' : Call} (h : Proceeds s c t call call') :
    call'.takenHandle = none := by
  cases h with
  | guarded kind id info => exact Call.takenHandle_afterTrust kind id info
  | exhausted id call' hplain | plain call call' hplain => exact hplain.takenHandle
  | cleared | decided | announced | opened | launched | messaged | relaunched | stopped | closed
  | reloaded => rfl

variable {kind : LaunchKind} {id : ProcessId} {info : EntryInfo}

theorem launch_cases [Sha256] {reply : Bool → Reply} (ht : s.launch c kind id info reply = t) :
    ∃ claimed, t.calls = s.calls.put c (.returned (reply claimed)) ∧ t.checks = s.checks ∧
      (s.fleet.launchActor (s.request c kind id info) = some t.fleet ∨ t.fleet = s.fleet) := by
  unfold launch at ht
  split at ht
  next fleet hlaunch =>
    subst ht
    exact ⟨true, rfl, rfl, .inl hlaunch⟩
  next =>
    subst ht
    exact ⟨false, rfl, rfl, .inr rfl⟩

theorem guardTrust_cases [Sha256] (ht : s.guardTrust c kind id info fault = t) :
    ∃ call', t.calls = s.calls.put c call' ∧ ChecksGrow s c t ∧
      Proceeds s c t (.described kind id info) call' := by
  unfold guardTrust at ht
  split at ht
  next hvariant =>
    subst ht
    refine ⟨_, rfl, .inl rfl, .guarded kind id info rfl ?_⟩
    intro v hv
    rw [hvariant] at hv
    cases hv
  next =>
    subst ht
    exact ⟨_, rfl, .inl rfl, .plain _ _ ⟨rfl, rfl⟩ rfl rfl⟩
  next variant hvariant =>
    split_ifs at ht with htrust
    · subst ht
      refine ⟨_, rfl, .inr ⟨info.project, variant, htrust, rfl⟩, .guarded kind id info rfl ?_⟩
      intro v hv
      rw [hvariant] at hv
      cases hv
      exact .head _
    · subst ht
      exact ⟨_, rfl, .inl rfl, .plain _ _ ⟨rfl, rfl⟩ rfl rfl⟩

theorem afterTrusted_cases [Sha256] (ht : s.afterTrusted c kind id info now = t) :
    ∃ call', t.calls = s.calls.put c call' ∧ ChecksGrow s c t ∧
      Proceeds s c t (.trusted kind id info) call' := by
  unfold afterTrusted at ht
  split at ht
  next =>
    split at ht
    next policy attempt hdecision =>
      subst ht
      exact ⟨_, rfl, .inl rfl, .decided id info attempt rfl⟩
    next policy hdecision =>
      subst ht
      exact ⟨_, rfl, .inl rfl, .plain _ _ ⟨rfl, rfl⟩ rfl rfl⟩
  next hkind =>
    subst ht
    exact ⟨_, rfl, .inl rfl, .cleared kind id info hkind rfl⟩

theorem accept_cases [Sha256] (ht : s.accept c kind id info = t) :
    ∃ call', t.calls = s.calls.put c call' ∧ ChecksGrow s c t ∧
      Proceeds s c t (.ready kind id info) call' := by
  unfold accept at ht
  split_ifs at ht with hmessage
  · obtain ⟨rfl, hactive⟩ := hmessage
    subst ht
    exact ⟨_, rfl, .inl rfl, .messaged id info hactive rfl⟩
  · obtain ⟨claimed, hcalls, hchecks, hfleet⟩ := launch_cases ht
    refine ⟨_, hcalls, .inl hchecks, ?_⟩
    rcases hfleet with hfleet | hfleet
    · exact .launched kind id info _ hmessage hfleet
    · exact .plain _ _ ⟨rfl, rfl⟩ rfl hfleet

theorem openPolicy_cases [Sha256] (hfleet : t.fleet = s.fleet) :
    Proceeds s c t (.policyOpen id) (s.openPolicy id) := by
  unfold openPolicy
  split
  next => exact .plain _ _ ⟨rfl, rfl⟩ rfl hfleet
  next info hread =>
    split_ifs with hauto
    · exact .opened id info hfleet hread hauto
    · exact .plain _ _ ⟨rfl, rfl⟩ rfl hfleet

theorem proceed_cases [Sha256] (h : s.proceed c now fault = some t) :
    ∃ call call', s.calls c = some call ∧ t.calls = s.calls.put c call' ∧ ChecksGrow s c t ∧
      Proceeds s c t call call' := by
  unfold proceed at h
  cases hc : s.calls c with
  | none =>
    rw [hc] at h
    cases h
  | some call =>
    rw [hc] at h
    refine ⟨call, ?_⟩
    cases call with
    | described kind id info =>
      obtain ⟨call', hcalls, hchecks, hstep⟩ := guardTrust_cases (some.inj h)
      exact ⟨call', rfl, hcalls, hchecks, hstep⟩
    | trusted kind id info =>
      obtain ⟨call', hcalls, hchecks, hstep⟩ := afterTrusted_cases (some.inj h)
      exact ⟨call', rfl, hcalls, hchecks, hstep⟩
    | ready kind id info =>
      obtain ⟨call', hcalls, hchecks, hstep⟩ := accept_cases (some.inj h)
      exact ⟨call', rfl, hcalls, hchecks, hstep⟩
    | policyBegun id =>
      dsimp only at h
      split_ifs at h with hlatch
      · cases h
        exact ⟨_, rfl, rfl, .inl rfl, .plain _ _ ⟨rfl, rfl⟩ rfl rfl⟩
      · cases h
        exact ⟨_, rfl, rfl, .inl rfl, .plain _ _ ⟨rfl, rfl⟩ rfl rfl⟩
    | policyOpen id =>
      cases h
      exact ⟨_, rfl, rfl, .inl rfl, openPolicy_cases rfl⟩
    | scheduled id info attempt =>
      cases h
      exact ⟨_, rfl, rfl, .inl rfl, .announced id info attempt rfl⟩
    | relaunching id info attempt =>
      obtain ⟨claimed, hcalls, hchecks, hfleet⟩ := launch_cases (some.inj h)
      refine ⟨_, rfl, hcalls, .inl hchecks, ?_⟩
      rcases hfleet with hfleet | hfleet
      · exact .relaunched id info attempt _ hfleet
      · exact .plain _ _ ⟨rfl, rfl⟩ rfl hfleet
    | exhausting id =>
      dsimp only at h
      split at h
      next registry hexhaust =>
        cases h
        refine ⟨_, rfl, rfl, .inl rfl, .exhausted id _ ⟨rfl, rfl⟩ ?_⟩
        rw [hexhaust]
      next =>
        cases h
        exact ⟨_, rfl, rfl, .inl rfl, .plain _ _ ⟨rfl, rfl⟩ rfl rfl⟩
    | exhausted id =>
      cases h
      exact ⟨_, rfl, rfl, .inl rfl, .plain _ _ ⟨rfl, rfl⟩ rfl rfl⟩
    | stopping id =>
      cases h
      exact ⟨_, rfl, rfl, .inl rfl, .stopped id rfl⟩
    | closing id handle =>
      cases h
      cases handle with
      | none => exact ⟨_, rfl, rfl, .inl rfl, .plain _ _ ⟨rfl, rfl⟩ rfl rfl⟩
      | some k => exact ⟨_, rfl, rfl, .inl rfl, .closed id k rfl⟩
    | reaping id join =>
      dsimp only at h
      split_ifs at h with hjoined
      cases h
      exact ⟨_, rfl, rfl, .inl rfl, .plain _ _ ⟨rfl, rfl⟩ rfl rfl⟩
    | removed id reply =>
      cases h
      exact ⟨_, rfl, rfl, .inl rfl, .plain _ _ ⟨rfl, rfl⟩ rfl rfl⟩
    | reloading id project root spec =>
      cases h
      exact ⟨_, rfl, rfl, .inl rfl, .reloaded id project root spec rfl⟩
    | returned reply => cases h

inductive Begins (s : Supervisor) : SupervisorEvent → Call → Prop
  | read (kind : LaunchKind) (id : ProcessId) (m : Managed) (hkind : kind ≠ .policy)
      (hm : s.fleet.registry id = some m) :
    Begins s (.launch kind id) (.described kind id m.info)
  | closing (id : ProcessId) (m : Managed) (hm : s.fleet.registry id = some m) :
    Begins s (.close id) (.closing id m.handle)
  | plain (e : SupervisorEvent) (call : Call) (hplain : call.Plain) : Begins s e call

/-- The step of the fleet an event takes by itself. -/
inductive Acts : SupervisorEvent → FleetAct → Prop
  | register (r : Registration) : Acts (.register r) (.register r)
  | deregister (id : ProcessId) : Acts (.deregister id) (.removeIfResting id)
  | close (id : ProcessId) : Acts (.close id) (.removeReturningHandle id)
  | attachJoin (a : ActorId) : Acts (.attachJoin a) (.attachJoin a)
  | advance (a : ActorId) : Acts (.advance a) (.advance a)
  | publish (a : ActorId) : Acts (.publish a) (.publish a)
  | move (a : ActorId) (mv : ActorMove) : Acts (.move a mv) (.move a mv)

structure Occurs [Sha256] (s : Supervisor) (e : SupervisorEvent) (t : Supervisor) : Prop where
  checks : t.checks = s.checks
  calls : t.calls = s.calls ∧ t.nextCall = s.nextCall ∨ ∃ call,
    t.calls = s.calls.put s.nextCall call ∧ t.nextCall = s.nextCall + 1 ∧ Begins s e call
  fleet : t.fleet = s.fleet ∨ ∃ act, s.fleet.step act = some t.fleet ∧ Acts e act

theorem openLaunch_cases {call : Call} (h : s.openLaunch kind id = some call) :
    Begins s (.launch kind id) call := by
  unfold openLaunch at h
  split at h
  next => cases h
  next => cases h
  next =>
    cases h
    exact .plain _ _ ⟨rfl, rfl⟩
  next m hm =>
    split_ifs at h with hactive
    · cases h
      exact .plain _ _ ⟨rfl, rfl⟩
    · cases h
      exact .read .start id m LaunchKind.noConfusion hm
  next m hm =>
    cases h
    exact .read .restart id m LaunchKind.noConfusion hm
  next m hm =>
    split_ifs at h with hresume hactive
    · cases h
      exact .plain _ _ ⟨rfl, rfl⟩
    · cases h
      exact .plain _ _ ⟨rfl, rfl⟩
    · cases h
      exact .read .resume id m LaunchKind.noConfusion hm
  next autoStartOnly m hm =>
    split_ifs at h with hcandidate
    cases h
    exact .read (.bulkStart autoStartOnly) id m LaunchKind.noConfusion hm

theorem plain_openStop (id : ProcessId) : (s.openStop id).Plain := by
  unfold openStop
  split
  next => split_ifs <;> exact ⟨rfl, rfl⟩
  next => exact ⟨rfl, rfl⟩

theorem offer_occurs [Sha256] (e : SupervisorEvent) (order : List ProcessId)
    (hcalls : t.calls = s.calls) (hnext : t.nextCall = s.nextCall) (hfleet : t.fleet = s.fleet)
    (hchecks : t.checks = s.checks) : Occurs s e (t.offer order) := by
  cases order with
  | nil => exact ⟨hchecks, .inl ⟨hcalls, hnext⟩, .inl hfleet⟩
  | cons id rest =>
    refine ⟨hchecks, .inr ⟨.policyBegun id, ?_, ?_, .plain _ _ ⟨rfl, rfl⟩⟩, .inl hfleet⟩
    · rw [← hcalls, ← hnext]
      rfl
    · rw [← hnext]
      rfl

theorem handle_occurs [Sha256] (e : SupervisorEvent) (event : DomainEvent)
    (hcalls : t.calls = s.calls) (hnext : t.nextCall = s.nextCall) (hfleet : t.fleet = s.fleet)
    (hchecks : t.checks = s.checks) : Occurs s e (t.handle event) := by
  unfold handle
  split
  next id _ _ => exact offer_occurs e [id] hcalls hnext hfleet hchecks
  next => exact ⟨hchecks, .inl ⟨hcalls, hnext⟩, .inl hfleet⟩
  next => exact ⟨hchecks, .inl ⟨hcalls, hnext⟩, .inl hfleet⟩
  next => exact ⟨hchecks, .inl ⟨hcalls, hnext⟩, .inl hfleet⟩

variable {e : SupervisorEvent}

theorem reactorRecv_occurs [Sha256] {order : List ProcessId} (h : s.reactorRecv order = some t) :
    Occurs s e t := by
  unfold reactorRecv at h
  split_ifs at h with hidle hlag hperm
  · cases h
    exact offer_occurs e order rfl rfl rfl rfl
  · split at h
    next => cases h
    next event rest hbus =>
      cases h
      exact handle_occurs e event rfl rfl rfl rfl

theorem reactorNext_occurs [Sha256] (h : s.reactorNext = some t) : Occurs s e t := by
  unfold reactorNext at h
  split at h
  next => cases h
  next c rest _ =>
    split at h
    next =>
      cases h
      exact offer_occurs e rest rfl rfl rfl rfl
    next => cases h

theorem step_cases [Sha256] (h : s.step e = some t) :
    (∃ c now fault call call', e = .proceed c now fault ∧ s.calls c = some call ∧
      t.calls = s.calls.put c call' ∧ ChecksGrow s c t ∧ Proceeds s c t call call') ∨
    Occurs s e t := by
  cases e with
  | proceed c now fault =>
    obtain ⟨call, call', hc, hcalls, hchecks, hstep⟩ := proceed_cases h
    exact .inl ⟨c, now, fault, call, call', rfl, hc, hcalls, hchecks, hstep⟩
  | register r =>
    cases h
    exact .inr ⟨rfl, .inl ⟨rfl, rfl⟩, .inr ⟨_, rfl, .register r⟩⟩
  | reload id project root spec =>
    simp only [step] at h
    split_ifs at h with hcommand
    cases h
    exact .inr ⟨rfl, .inr ⟨_, rfl, rfl, .plain _ _ ⟨rfl, rfl⟩⟩, .inl rfl⟩
  | deregister id =>
    simp only [step] at h
    split at h
    next registry hremove =>
      cases h
      refine .inr ⟨rfl, .inr ⟨_, rfl, rfl, .plain _ _ ⟨rfl, rfl⟩⟩, .inr ⟨_, ?_, .deregister id⟩⟩
      simp only [Fleet.step, hremove]
    next =>
      cases h
      exact .inr ⟨rfl, .inr ⟨_, rfl, rfl, .plain _ _ ⟨rfl, rfl⟩⟩, .inl rfl⟩
  | launch kind id =>
    obtain ⟨call, hopen, rfl⟩ := map_eq_some_iff.mp h
    exact .inr ⟨rfl, .inr ⟨_, rfl, rfl, openLaunch_cases hopen⟩, .inl rfl⟩
  | stop id =>
    cases h
    exact .inr ⟨rfl, .inr ⟨_, rfl, rfl, .plain _ _ (plain_openStop id)⟩, .inl rfl⟩
  | close id =>
    simp only [step] at h
    split at h
    next registry k hremove =>
      cases h
      obtain ⟨m, hm, rfl, rfl⟩ := Registry.removeReturningHandle_eq_some.mp hremove
      refine .inr ⟨rfl, .inr ⟨_, rfl, rfl, .closing id m hm⟩, .inr ⟨_, ?_, .close id⟩⟩
      simp only [Fleet.step, hremove, map_some]
    next =>
      cases h
      exact .inr ⟨rfl, .inr ⟨_, rfl, rfl, .plain _ _ ⟨rfl, rfl⟩⟩, .inl rfl⟩
  | setTrusted project variant trusted =>
    cases h
    exact .inr ⟨rfl, .inl ⟨rfl, rfl⟩, .inl rfl⟩
  | beginShutdown =>
    cases h
    exact .inr ⟨rfl, .inl ⟨rfl, rfl⟩, .inl rfl⟩
  | attachJoin a =>
    obtain ⟨fleet, hfleet, rfl⟩ := map_eq_some_iff.mp h
    exact .inr ⟨rfl, .inl ⟨rfl, rfl⟩, .inr ⟨.attachJoin a, hfleet, .attachJoin a⟩⟩
  | advance a =>
    obtain ⟨fleet, hfleet, rfl⟩ := map_eq_some_iff.mp h
    exact .inr ⟨rfl, .inl ⟨rfl, rfl⟩, .inr ⟨.advance a, hfleet, .advance a⟩⟩
  | publish a =>
    obtain ⟨published, hpublish, rfl⟩ := map_eq_some_iff.mp h
    refine .inr ⟨rfl, .inl ⟨rfl, rfl⟩, .inr ⟨_, ?_, .publish a⟩⟩
    exact map_eq_some_iff.mpr ⟨published, hpublish, rfl⟩
  | move a mv =>
    obtain ⟨fleet, hfleet, rfl⟩ := map_eq_some_iff.mp h
    exact .inr ⟨rfl, .inl ⟨rfl, rfl⟩, .inr ⟨.move a mv, hfleet, .move a mv⟩⟩
  | overflow =>
    simp only [step] at h
    split at h
    next => cases h
    next =>
      cases h
      exact .inr ⟨rfl, .inl ⟨rfl, rfl⟩, .inl rfl⟩
  | reactorRecv order => exact .inr (reactorRecv_occurs h)
  | reactorNext => exact .inr (reactorNext_occurs h)

def claims (s : Supervisor) (c : CallId) : Option (LaunchKind × ProcessId × EntryInfo) :=
  match s.calls c with
  | some (.ready kind id info) =>
    if kind = .restart ∧ info.status.isActive = true then none else some (kind, id, info)
  | some (.relaunching id info _) => some (.policy, id, info)
  | _ => none

theorem claims_eq_some (h : s.claims c = some (kind, id, info)) :
    ∃ call, s.calls c = some call ∧ call.launchInfo = some (kind, id, info) ∧
      call.checked = true := by
  unfold claims at h
  split at h
  next kind' id' info' hc =>
    split_ifs at h with hmessage
    cases h
    exact ⟨_, hc, rfl, rfl⟩
  next id' info' attempt hc =>
    cases h
    exact ⟨_, hc, rfl, rfl⟩
  next => cases h

/-- The step of the fleet an event takes, from the call it advances. -/
inductive Issues [Sha256] (s : Supervisor) : SupervisorEvent → FleetAct → Prop
  | direct (e : SupervisorEvent) (act : FleetAct) (h : Acts e act) : Issues s e act
  | launch (c : CallId) (now : Instant) (fault : Option StoreError) (kind : LaunchKind)
      (id : ProcessId) (info : EntryInfo) (hclaims : s.claims c = some (kind, id, info)) :
    Issues s (.proceed c now fault) (.launch (s.request c kind id info))
  | restart (c : CallId) (now : Instant) (fault : Option StoreError) (id : ProcessId)
      (info : EntryInfo) (hc : s.calls c = some (.ready .restart id info))
      (hactive : info.status.isActive = true) :
    Issues s (.proceed c now fault) (.restart (s.request c .restart id info))
  | exhaust (c : CallId) (now : Instant) (fault : Option StoreError) (id : ProcessId)
      (hc : s.calls c = some (.exhausting id)) : Issues s (.proceed c now fault) (.exhaust id)
  | stop (c : CallId) (now : Instant) (fault : Option StoreError) (id : ProcessId)
      (hc : s.calls c = some (.stopping id)) : Issues s (.proceed c now fault) (.stop id)
  | signalStop (c : CallId) (now : Instant) (fault : Option StoreError) (id : ProcessId)
      (h : Handle) (hc : s.calls c = some (.closing id (some h))) :
    Issues s (.proceed c now fault) (.signalStop h)
  | reload (c : CallId) (now : Instant) (fault : Option StoreError) (id : ProcessId)
      (project : ProjectId) (root : PathBuf) (spec : ProcessSpec)
      (hc : s.calls c = some (.reloading id project root spec)) :
    Issues s (.proceed c now fault) (.updateCommandSpec id (.command project root spec))

theorem step_fleet [Sha256] (h : s.step e = some t) :
    t.fleet = s.fleet ∨ ∃ act, s.fleet.step act = some t.fleet ∧ Issues s e act := by
  rcases step_cases h with ⟨c, now, fault, call, call', rfl, hc, -, -, hstep⟩ | hoccurs
  · cases hstep with
    | guarded kind id info hfleet hchecked => exact .inl hfleet
    | cleared kind id info hkind hfleet => exact .inl hfleet
    | decided id info attempt hfleet => exact .inl hfleet
    | announced id info attempt hfleet => exact .inl hfleet
    | opened id info hfleet hread hauto => exact .inl hfleet
    | launched kind id info reply hclaim hfleet =>
      refine .inr ⟨.launch (s.request c kind id info), hfleet, .launch c now fault kind id info ?_⟩
      simp only [claims, hc, if_neg hclaim]
    | messaged id info hactive hfleet =>
      refine .inr ⟨_, ?_, .restart c now fault id info hc hactive⟩
      rw [hfleet]
      rfl
    | relaunched id info attempt reply hfleet =>
      refine .inr ⟨.launch (s.request c .policy id info), hfleet,
        .launch c now fault .policy id info ?_⟩
      simp only [claims, hc]
    | exhausted id call' hplain hfleet =>
      refine .inr ⟨_, ?_, .exhaust c now fault id hc⟩
      rw [hfleet]
      rfl
    | stopped id hfleet =>
      refine .inr ⟨_, ?_, .stop c now fault id hc⟩
      rw [hfleet]
      rfl
    | closed id k hfleet =>
      refine .inr ⟨_, ?_, .signalStop c now fault id k hc⟩
      rw [hfleet]
      rfl
    | reloaded id project root spec hfleet =>
      refine .inr ⟨_, ?_, .reload c now fault id project root spec hc⟩
      rw [hfleet]
      rfl
    | plain call call' hplain htaken hfleet => exact .inl hfleet
  · rcases hoccurs.fleet with hfleet | ⟨act, hact, hacts⟩
    · exact .inl hfleet
    · exact .inr ⟨act, hact, .direct e act hacts⟩

end Supervisor
end Soloist
