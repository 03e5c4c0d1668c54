import Soloist.Supervisor.CrashOnce
import Soloist.Supervisor.Removal

/-! Crash windows and removals: whoever has a window has an entry, or a removal that the reactor is
still to hear of. -/
open List Option Slots

namespace Soloist

def Call.counting : Call → Option ProcessId
  | .described .policy id _ | .trusted .policy id _ => some id
  | _ => none

def DomainEvent.removed : DomainEvent → Option ProcessId
  | .processRemoved id => some id
  | .processStatusChanged .. | .restartScheduled .. | .restartExhausted _ => none

namespace Supervisor
variable {s t : Supervisor} {e : SupervisorEvent} {c : CallId} {call call' : Call} {id : ProcessId}
  {now : Instant} {fault : Option StoreError}

structure Accessed (s : Supervisor) (c : CallId) (call : Call) (t : Supervisor) (call' : Call) :
    Prop where
  calls : t.calls = s.calls.put c call'
  nextCall : t.nextCall = s.nextCall
  reactor : t.reactor = s.reactor
  bus : s.bus ⊆ t.bus
  windows : ∀ i, t.policy.windows i ≠ none → s.policy.windows i ≠ none ∨ call.counting = some i
  attends : call'.attends ≠ none → call.attends ≠ none
  counting : ∀ i, call'.counting = some i → call.counting = some i ∨ s.fleet.registry i ≠ none
  removing : ∀ i, call.removing = some i →
    call'.removing = some i ∨ .processRemoved i ∈ t.bus

variable {j : ProcessId}

theorem windows_forget (p : RestartPolicy) (i : ProcessId) (h : (p.forget i).windows j ≠ none) :
    p.windows j ≠ none := by
  have hput : p.windows.erase i j ≠ none := h
  unfold Slots.erase at hput
  split_ifs at hput with hj
  · exact absurd rfl hput
  · exact hput

theorem windows_onCrash (p : RestartPolicy) (i : ProcessId) (now : Instant)
    (h : (p.onCrash i now).1.windows j ≠ none) : p.windows j ≠ none ∨ i = j := by
  by_cases hj : j = i
  · exact .inr hj.symm
  · refine .inl ?_
    have hput : p.windows.put i (RestartWindow.onCrash ((p.windows i).getD []) now).1 j ≠ none := h
    rwa [put_of_ne hj] at hput

theorem Accessed.of_setCall (hcalls : t.calls = s.calls.put c call') (hnext : t.nextCall = s.nextCall)
    (hreactor : t.reactor = s.reactor) (hbus : s.bus ⊆ t.bus)
    (hwindows : ∀ i, t.policy.windows i ≠ none → s.policy.windows i ≠ none)
    (hattends : call'.attends ≠ none → call.attends ≠ none)
    (hcounting : ∀ i, call'.counting = some i → call.counting = some i ∨ s.fleet.registry i ≠ none)
    (hremoving : call.removing = none) : s.Accessed c call t call' where
  calls := hcalls
  nextCall := hnext
  reactor := hreactor
  bus := hbus
  windows i h := .inl (hwindows i h)
  attends := hattends
  counting := hcounting
  removing i h := by
    rw [hremoving] at h
    cases h

theorem Accessed.of_rest (hcalls : t.calls = s.calls.put c call') (hnext : t.nextCall = s.nextCall)
    (hreactor : t.reactor = s.reactor) (hbus : t.bus = s.bus) (hpolicy : t.policy = s.policy)
    (hattends : call'.attends = none) (hcounting : call'.counting = none)
    (hremoving : call.removing = none) : s.Accessed c call t call' := by
  refine .of_setCall hcalls hnext hreactor (hbus ▸ List.Subset.refl _) ?_ ?_ ?_ hremoving
  · intro i hi
    rwa [hpolicy] at hi
  · exact absurd hattends
  · intro i hi
    rw [hcounting] at hi
    cases hi

theorem counting_afterTrust (kind : LaunchKind) (i : ProcessId) (info : EntryInfo) :
    (kind.afterTrust i info).counting = (Call.described kind i info).counting ∧
      (kind.afterTrust i info).attends = (Call.described kind i info).attends := by
  cases kind <;> exact ⟨rfl, rfl⟩

variable {kind : LaunchKind} {info : EntryInfo}

theorem accessed_guardTrust :
    ∃ call', s.Accessed c (.described kind id info) (s.guardTrust c kind id info fault) call' := by
  obtain ⟨hcounting, hattends⟩ := counting_afterTrust kind id info
  unfold guardTrust
  split
  · exact ⟨_, .of_setCall rfl rfl rfl (List.Subset.refl _) (fun _ h => h)
      (fun h => hattends ▸ h) (fun i h => .inl (hcounting ▸ h)) rfl⟩
  · exact ⟨_, .of_rest rfl rfl rfl rfl rfl rfl rfl rfl⟩
  · split_ifs
    · exact ⟨_, .of_setCall rfl rfl rfl (List.Subset.refl _) (fun _ h => h)
        (fun h => hattends ▸ h) (fun i h => .inl (hcounting ▸ h)) rfl⟩
    · exact ⟨_, .of_rest rfl rfl rfl rfl rfl rfl rfl rfl⟩

theorem accessed_afterTrusted :
    ∃ call', s.Accessed c (.trusted kind id info) (s.afterTrusted c kind id info now) call' := by
  cases kind with
  | policy =>
    have hcounted : ∀ i, (s.policy.onCrash id now).1.windows i ≠ none →
        s.policy.windows i ≠ none ∨ (Call.trusted .policy id info).counting = some i := by
      intro i hi
      rcases windows_onCrash s.policy id now hi with hold | rfl
      · exact .inl hold
      · exact .inr rfl
    simp only [afterTrusted]
    split
    next decided attempt hcrash =>
      rw [hcrash] at hcounted
      exact ⟨.scheduled id info attempt, rfl, rfl, rfl, List.Subset.refl _, hcounted,
        fun _ => by simp [Call.attends], (fun i h => by cases h), (fun i h => by cases h)⟩
    next decided hcrash =>
      rw [hcrash] at hcounted
      exact ⟨.exhausting id, rfl, rfl, rfl, List.Subset.refl _, hcounted,
        fun _ => by simp [Call.attends], (fun i h => by cases h), (fun i h => by cases h)⟩
  | start | restart | resume | bulkStart =>
    exact ⟨_, .of_setCall rfl rfl rfl (List.Subset.refl _) (fun i h => windows_forget _ _ h)
      (fun h => absurd rfl h) (fun i h => by cases h) rfl⟩

theorem accessed_launch {reply : Bool → Reply} (hremoving : call.removing = none) :
    ∃ call', s.Accessed c call (s.launch c kind id info reply) call' := by
  unfold launch
  split
  · exact ⟨_, .of_rest rfl rfl rfl rfl rfl rfl rfl hremoving⟩
  · exact ⟨_, .of_rest rfl rfl rfl rfl rfl rfl rfl hremoving⟩

theorem proceed_accessed [Sha256] (h : s.proceed c now fault = some t) :
    ∃ call call', s.calls c = some call ∧ s.Accessed c call t call' := by
  cases hc : s.calls c with
  | none => simp [proceed, hc] at h
  | some call =>
    refine ⟨call, ?_⟩
    suffices hsuffices : ∃ call', s.Accessed c call t call' by
      obtain ⟨call', haccessed⟩ := hsuffices
      exact ⟨call', rfl, haccessed⟩
    cases call with
    | returned reply => simp [proceed, hc] at h
    | described kind i info =>
      simp only [proceed, hc, Option.some.injEq] at h
      subst h
      exact accessed_guardTrust
    | trusted kind i info =>
      simp only [proceed, hc, Option.some.injEq] at h
      subst h
      exact accessed_afterTrusted
    | ready kind i info =>
      simp only [proceed, hc, Option.some.injEq] at h
      subst h
      unfold accept
      split_ifs
      · exact ⟨_, .of_rest rfl rfl rfl rfl rfl rfl rfl rfl⟩
      · exact accessed_launch rfl
    | policyBegun i =>
      simp only [proceed, hc] at h
      split_ifs at h
      · cases h
        exact ⟨_, .of_rest rfl rfl rfl rfl rfl rfl rfl rfl⟩
      · cases h
        exact ⟨_, .of_setCall rfl rfl rfl (List.Subset.refl _) (fun _ h => h)
          (fun _ => by simp [Call.attends]) (fun i h => by cases h) rfl⟩
    | policyOpen i =>
      simp only [proceed, hc, Option.some.injEq] at h
      subst h
      refine ⟨_, .of_setCall rfl rfl rfl (List.Subset.refl _) (fun _ h => h)
        (fun _ => by simp [Call.attends]) ?_ rfl⟩
      intro j hj
      unfold openPolicy at hj
      split at hj
      · cases hj
      next info hread =>
        split_ifs at hj
        · cases hj
          right
          intro hnone
          rw [Registry.describe, hnone] at hread
          cases hread
        · cases hj
    | scheduled i info attempt =>
      simp only [proceed, hc, Option.some.injEq] at h
      subst h
      exact ⟨_, .of_setCall rfl rfl rfl (subset_append_left _ _) (fun _ h => h)
        (fun _ => by simp [Call.attends]) (fun i h => by cases h) rfl⟩
    | relaunching i info attempt =>
      simp only [proceed, hc, Option.some.injEq] at h
      subst h
      exact accessed_launch rfl
    | exhausting i =>
      simp only [proceed, hc] at h
      split at h
      · cases h
        exact ⟨_, .of_rest rfl rfl rfl rfl rfl rfl rfl rfl⟩
      · cases h
        exact ⟨_, .of_rest rfl rfl rfl rfl rfl rfl rfl rfl⟩
    | exhausted i =>
      simp only [proceed, hc, Option.some.injEq] at h
      subst h
      exact ⟨_, .of_setCall rfl rfl rfl (subset_append_left _ _)
        (fun j h => windows_forget _ _ h) (fun h => absurd rfl h) (fun i h => by cases h) rfl⟩
    | stopping i =>
      simp only [proceed, hc, Option.some.injEq] at h
      subst h
      exact ⟨_, .of_rest rfl rfl rfl rfl rfl rfl rfl rfl⟩
    | closing i handle =>
      simp only [proceed, hc, Option.some.injEq] at h
      subst h
      cases handle with
      | none =>
        exact ⟨.removed i (.done (.ok ())), rfl, rfl, rfl, List.Subset.refl _, fun _ h => .inl h,
          fun h => absurd rfl h, (fun i h => by cases h), fun j hj => .inl hj⟩
      | some k =>
        exact ⟨.reaping i k.join, rfl, rfl, rfl, List.Subset.refl _, fun _ h => .inl h,
          fun h => absurd rfl h, (fun i h => by cases h), fun j hj => .inl hj⟩
    | reaping i join =>
      simp only [proceed, hc] at h
      split_ifs at h
      cases h
      exact ⟨.removed i (.done (.ok ())), rfl, rfl, rfl, List.Subset.refl _, fun _ h => .inl h,
        fun h => absurd rfl h, (fun i h => by cases h), fun j hj => .inl hj⟩
    | removed i reply =>
      simp only [proceed, hc, Option.some.injEq] at h
      subst h
      refine ⟨.returned reply, rfl, rfl, rfl, subset_append_left _ _, fun _ h => .inl h,
        fun h => absurd rfl h, (fun i h => by cases h), fun j hj => .inr ?_⟩
      cases hj
      exact mem_append_right _ (.head _)
    | reloading i project root spec =>
      simp only [proceed, hc, Option.some.injEq] at h
      subst h
      exact ⟨_, .of_rest rfl rfl rfl rfl rfl rfl rfl rfl⟩

def Removing (s : Supervisor) (id : ProcessId) : Prop :=
  ∃ c call, s.calls c = some call ∧ call.removing = some id

/-- Crashes of the process are kept, or one is about to be counted. -/
def Counted (s : Supervisor) (id : ProcessId) : Prop :=
  s.policy.windows id ≠ none ∨ ∃ c call, s.calls c = some call ∧ call.counting = some id

def Accounted (s : Supervisor) (id : ProcessId) : Prop :=
  s.fleet.registry id ≠ none ∨ .processRemoved id ∈ s.bus ∨ s.Removing id

def Sole (s : Supervisor) : Prop :=
  ∀ c call, s.calls c = some call → call.attends ≠ none → ∃ rest, s.reactor = .handling c rest

/-- Whose crashes are counted is accounted for. -/
structure Tracked (s : Supervisor) : Prop where
  held : s.Held
  sole : s.Sole
  counted : ∀ id, s.Counted id → s.Accounted id

theorem tracked_init : Tracked .init := by
  constructor
  · exact held_init
  · intro c call hc
    cases hc
  · rintro id (hwindow | ⟨c, call, hc, -⟩)
    · exact absurd rfl hwindow
    · cases hc

theorem attends_of_counting (h : call.counting = some id) : call.attends = some id := by
  cases call with
  | described kind i info | trusted kind i info =>
    cases kind with
    | policy => exact h
    | start | restart | resume | bulkStart => cases h
  | _ => cases h

def counting (s : Supervisor) : Option ProcessId :=
  match s.reactor with
  | .idle => none
  | .handling c _ => (s.calls c).bind Call.counting

theorem Sole.not_counted (hs : s.Sole) (hwindow : s.policy.windows id = none)
    (hcounting : s.counting ≠ some id) : ¬ s.Counted id := by
  rintro (hid | ⟨c, call, hc, hid⟩)
  · exact hid hwindow
  · obtain ⟨rest, hreactor⟩ := hs c call hc (by rw [attends_of_counting hid]; simp)
    apply hcounting
    simp only [counting, hreactor, hc, bind_some, hid]

/-- The event the reactor loses is not the removal of a process whose crashes are counted. -/
def KeepsRemovals (s : Supervisor) : SupervisorEvent → Prop
  | .overflow =>
    ∀ id ∈ s.bus.head?.bind DomainEvent.removed, s.policy.windows id = none ∧ s.counting ≠ some id
  | _ => True

instance (s : Supervisor) : DecidablePred s.KeepsRemovals := fun e =>
  match e with
  | .overflow => inferInstanceAs (Decidable (∀ id ∈ s.bus.head?.bind DomainEvent.removed, _))
  | .register _ | .reload .. | .deregister _ | .launch .. | .stop _ | .close _ | .proceed ..
  | .setTrusted .. | .beginShutdown | .attachJoin _ | .advance _ | .publish _ | .move ..
  | .reactorRecv _ | .reactorNext => isTrue trivial

/-- A process goes out of the registry by a close, or at rest by a reload. -/
theorem Held.step_gone [Sha256] {m : Managed} (hs : s.Held) (h : s.step e = some t)
    (hm : s.fleet.registry id = some m) : (∃ m', t.fleet.registry id = some m') ∨
      e = .close id ∧ t.calls s.nextCall = some (.closing id m.handle) ∨
      e = .deregister id ∧ m.status.isActive = false ∧
        t.calls s.nextCall = some (.removed id (.updated true)) := by
  rcases step_fleet h with hsame | ⟨act, hact, hissues⟩
  · rw [hsame]
    exact .inl ⟨m, hm⟩
  rcases Fleet.step_registered hs.owned hact hm with hkept | rfl | ⟨rfl, hrest⟩
  · exact .inl hkept
  · cases hissues with
    | direct _ _ hacts =>
      cases hacts with
      | close =>
        rcases close_step h with ⟨m', hm', -, hcalls⟩ | ⟨hgone, -⟩
        · obtain rfl : m = m' := some.inj (hm.symm.trans hm')
          refine .inr (.inl ⟨rfl, ?_⟩)
          rw [hcalls]
          exact put_self
        · rw [hgone] at hm
          cases hm
  · cases hissues with
    | direct _ _ hacts =>
      cases hacts with
      | deregister =>
        simp only [step] at h
        split at h
        next =>
          cases h
          exact .inr (.inr ⟨rfl, hrest, put_self⟩)
        next =>
          cases h
          exact .inl ⟨m, hm⟩

theorem Held.step_registered [Sha256] (hs : s.Held) (h : s.step e = some t)
    (hid : s.fleet.registry id ≠ none) : t.fleet.registry id ≠ none ∨ t.Removing id := by
  obtain ⟨m, hm⟩ := ne_none_iff_exists'.mp hid
  rcases hs.step_gone h hm with ⟨m', hm'⟩ | ⟨-, hclosing⟩ | ⟨-, -, hremoved⟩
  · refine .inl ?_
    rw [hm']
    exact some_ne_none m'
  · exact .inr ⟨s.nextCall, _, hclosing, rfl⟩
  · exact .inr ⟨s.nextCall, _, hremoved, rfl⟩

theorem Removing.of_calls (hs : s.Held) (hcalls : t.calls = s.calls ∨
    ∃ call₀, t.calls = s.calls.put s.nextCall call₀ ∧ call₀.counting = none)
    (h : s.Removing id) : t.Removing id := by
  obtain ⟨c, call, hc, hid⟩ := h
  refine ⟨c, call, ?_, hid⟩
  rcases hcalls with hsame | ⟨call₀, hput, -⟩
  · rw [hsame]
    exact hc
  · have hlt := hs.call_lt c call hc
    rw [hput]
    exact (put_of_ne (Nat.ne_of_lt hlt)).trans hc

/-- What an event that is no access of a call does for the policy. -/
structure Aside (s t : Supervisor) : Prop where
  windows : ∀ i, t.policy.windows i ≠ none → s.policy.windows i ≠ none
  calls : t.calls = s.calls ∨ ∃ call, t.calls = s.calls.put s.nextCall call ∧ call.counting = none
  bus : ∀ i, t.Counted i → .processRemoved i ∈ s.bus → .processRemoved i ∈ t.bus
  sole : t.Sole

theorem counted_of_put {call₀ : Call} (hnone : call₀.counting = none)
    (hcalls : t.calls = s.calls.put s.nextCall call₀) (hc : t.calls c = some call)
    (hcounting : call.counting = some id) : s.calls c = some call := by
  rw [hcalls] at hc
  rcases put_eq_some.mp hc with ⟨-, rfl⟩ | ⟨-, hold⟩
  · rw [hnone] at hcounting
    cases hcounting
  · exact hold

theorem Aside.counted (h : s.Aside t) (hid : t.Counted id) : s.Counted id := by
  rcases hid with hwindow | ⟨c, call, hc, hcounting⟩
  · exact .inl (h.windows id hwindow)
  · refine .inr ⟨c, call, ?_, hcounting⟩
    rcases h.calls with hsame | ⟨call₀, hput, hnone⟩
    · rw [← hsame]
      exact hc
    · exact counted_of_put hnone hput hc hcounting

theorem sole_offer (hfree : ∀ c call, s.calls c = some call → call.attends = none)
    (order : List ProcessId) : (s.offer order).Sole := by
  intro c call hc hattends
  cases order with
  | nil => exact absurd (hfree c call hc) hattends
  | cons i rest =>
    rcases put_eq_some.mp hc with ⟨rfl, -⟩ | ⟨-, hold⟩
    · exact ⟨rest, rfl⟩
    · exact absurd (hfree c call hold) hattends

theorem calls_offer (order : List ProcessId) : (s.offer order).calls = s.calls ∨
    ∃ call, (s.offer order).calls = s.calls.put s.nextCall call ∧ call.counting = none := by
  cases order with
  | nil => exact .inl rfl
  | cons i rest => exact .inr ⟨.policyBegun i, rfl, rfl⟩

theorem policy_offer (order : List ProcessId) :
    (s.offer order).policy = s.policy ∧ (s.offer order).bus = s.bus := by
  cases order <;> exact ⟨rfl, rfl⟩

theorem Sole.free (h : s.Sole) (hidle : s.reactor = .idle) (hc : s.calls c = some call) :
    call.attends = none := by
  by_contra hattends
  obtain ⟨rest, hrest⟩ := h c call hc hattends
  rw [hidle] at hrest
  cases hrest

theorem counting_of_attends (h : call.attends = none) : call.counting = none := by
  cases hcounting : call.counting with
  | none => rfl
  | some i =>
    rw [attends_of_counting hcounting] at h
    cases h

theorem aside_offer (hpolicy : ∀ i, t.policy.windows i ≠ none → s.policy.windows i ≠ none)
    (hcalls : t.calls = s.calls) (hnext : t.nextCall = s.nextCall)
    (hbus : ∀ i, .processRemoved i ∈ s.bus → .processRemoved i ∈ t.bus)
    (hfree : ∀ c call, s.calls c = some call → call.attends = none) (order : List ProcessId) :
    s.Aside (t.offer order) where
  windows i hi := by
    rw [(policy_offer order).1] at hi
    exact hpolicy i hi
  calls := by
    have hoffer := calls_offer (s := t) order
    rw [hcalls, hnext] at hoffer
    exact hoffer
  bus i _ hi := by
    rw [(policy_offer order).2]
    exact hbus i hi
  sole := by
    apply sole_offer
    rw [hcalls]
    exact hfree

theorem aside_handle {event : DomainEvent} {rest : List DomainEvent} (hbus : s.bus = event :: rest)
    (hfree : ∀ c call, s.calls c = some call → call.attends = none) :
    s.Aside ({ s with bus := rest }.handle event) := by
  have hsole : ∀ t : Supervisor, t.calls = s.calls → t.Sole := by
    intro t hcalls c call hc hattends
    rw [hcalls] at hc
    exact absurd (hfree c call hc) hattends
  have hkept : ∀ i, event ≠ .processRemoved i → .processRemoved i ∈ s.bus →
      .processRemoved i ∈ rest := by
    intro i hne hi
    rw [hbus] at hi
    rcases mem_cons.mp hi with heq | hrest
    · exact absurd heq.symm hne
    · exact hrest
  unfold handle
  split
  next id source code =>
    exact aside_offer (s := s) (t := { s with bus := rest }) (fun _ h => h) rfl rfl
      (fun i => hkept i (fun h => by cases h)) hfree [id]
  next id source code =>
    exact ⟨fun i => windows_forget _ _, .inl rfl, fun i _ => hkept i (fun h => by cases h),
      hsole _ rfl⟩
  next id =>
    refine ⟨fun i => windows_forget _ _, .inl rfl, fun i hcounted => ?_, hsole _ rfl⟩
    refine hkept i ?_
    intro heq
    cases heq
    rcases hcounted with hwindow | ⟨c, call, hc, hcounting⟩
    · exact hwindow (if_pos rfl)
    · have hattends := attends_of_counting hcounting
      rw [hfree c call hc] at hattends
      cases hattends
  next hcrashed hstopped hremoved =>
    exact ⟨fun _ h => h, .inl rfl, fun i _ => hkept i (hremoved i), hsole _ rfl⟩

theorem aside_reactorRecv {order : List ProcessId} (hs : s.Sole)
    (h : s.reactorRecv order = some t) : s.Aside t := by
  unfold reactorRecv at h
  split_ifs at h with hidle hlagged hperm
  · cases h
    exact aside_offer (s := s) (t := { s with lagged := false }) (fun _ h => h) rfl rfl (fun _ h => h)
      (fun _ _ => hs.free hidle) order
  · split at h
    next => cases h
    next event rest hbus =>
      cases h
      exact aside_handle hbus fun _ _ => hs.free hidle

theorem aside_reactorNext (hs : s.Sole) (h : s.reactorNext = some t) : s.Aside t := by
  unfold reactorNext at h
  split at h
  next => cases h
  next c rest hreactor =>
    split at h
    next reply hc =>
      cases h
      refine aside_offer (fun _ h => h) rfl rfl (fun _ h => h) ?_ rest
      intro c' call hc'
      by_contra hattends
      obtain ⟨rest', hrest⟩ := hs c' call hc' hattends
      rw [hreactor] at hrest
      cases hrest
      rw [hc] at hc'
      cases hc'
      exact hattends rfl
    next => cases h

theorem aside_step [Sha256] (hs : s.Sole) (hkeeps : s.KeepsRemovals e) (h : s.step e = some t)
    (hproceed : ∀ c now fault, e ≠ .proceed c now fault) : s.Aside t := by
  by_cases hrecv : ∃ order, e = .reactorRecv order
  · obtain ⟨order, rfl⟩ := hrecv
    exact aside_reactorRecv hs h
  by_cases hnext : e = .reactorNext
  · subst hnext
    exact aside_reactorNext hs h
  have hunread : ∀ order, e ≠ .reactorRecv order := fun order heq => hrecv ⟨order, heq⟩
  obtain ⟨hreactor, hcalls, hwindows, hbus⟩ := step_apart h hproceed hunread hnext
  have hcalls' : t.calls = s.calls ∨
      ∃ call, t.calls = s.calls.put s.nextCall call ∧ call.counting = none := by
    rcases hcalls with hsame | ⟨call, hput, hnone⟩
    · exact .inl hsame
    · exact .inr ⟨call, hput, counting_of_attends hnone⟩
  have hback : ∀ i, t.Counted i → s.Counted i := by
    rintro i (hwindow | ⟨c, call, hc, hcounting⟩)
    · rw [hwindows] at hwindow
      exact .inl hwindow
    · rcases hcalls' with hsame | ⟨call₀, hput, hnone⟩
      · exact .inr ⟨c, call, hsame ▸ hc, hcounting⟩
      · exact .inr ⟨c, call, counted_of_put hnone hput hc hcounting, hcounting⟩
  refine ⟨fun i hi => by rwa [hwindows] at hi, hcalls', fun i hcounted hi => ?_, ?_⟩
  · rcases hbus with rfl | hsub
    · simp only [step] at h
      split at h
      next => cases h
      next head rest hhead =>
        cases h
        rw [hhead] at hi
        rcases mem_cons.mp hi with heq | hrest
        · obtain ⟨hwindow, hcounting⟩ := hkeeps i (by rw [hhead, ← heq]; exact rfl)
          exact absurd (hback i hcounted) (hs.not_counted hwindow hcounting)
        · exact hrest
    · exact hsub hi
  · intro c call hc hattends
    rw [hreactor]
    rcases hcalls with hsame | ⟨call₀, hput, hnone⟩
    · exact hs c call (hsame ▸ hc) hattends
    · rw [hput] at hc
      rcases put_eq_some.mp hc with ⟨-, rfl⟩ | ⟨-, hold⟩
      · exact absurd hnone hattends
      · exact hs c call hold hattends

theorem Accessed.sole (hs : s.Sole) (h : s.Accessed c call t call') (hc : s.calls c = some call) :
    t.Sole := by
  intro c' call₀ hc' hattends
  rw [h.reactor]
  rw [h.calls] at hc'
  rcases put_eq_some.mp hc' with ⟨rfl, rfl⟩ | ⟨-, hold⟩
  · exact hs c' call hc (h.attends hattends)
  · exact hs c' call₀ hold hattends

theorem Accessed.counted (h : s.Accessed c call t call') (hc : s.calls c = some call)
    (hid : t.Counted id) : s.Counted id ∨ s.fleet.registry id ≠ none := by
  rcases hid with hwindow | ⟨c', call₀, hc', hcounting⟩
  · rcases h.windows id hwindow with hold | hnew
    · exact .inl (.inl hold)
    · exact .inl (.inr ⟨c, call, hc, hnew⟩)
  · rw [h.calls] at hc'
    rcases put_eq_some.mp hc' with ⟨rfl, rfl⟩ | ⟨-, hold⟩
    · rcases h.counting id hcounting with hsame | hread
      · exact .inl (.inr ⟨c', call, hc, hsame⟩)
      · exact .inr hread
    · exact .inl (.inr ⟨c', call₀, hold, hcounting⟩)

theorem Accessed.removing_step (h : s.Accessed c call t call') (hc : s.calls c = some call)
    (hid : s.Removing id) : t.Removing id ∨ .processRemoved id ∈ t.bus := by
  obtain ⟨c', call₀, hc', hremoving⟩ := hid
  by_cases hcc : c' = c
  · subst hcc
    rw [hc] at hc'
    cases hc'
    rcases h.removing id hremoving with hsame | hsaid
    · refine .inl ⟨c', call', ?_, hsame⟩
      rw [h.calls]
      exact put_self
    · exact .inr hsaid
  · refine .inl ⟨c', call₀, ?_, hremoving⟩
    rw [h.calls]
    exact (put_of_ne hcc).trans hc'

/-- Whose crashes are counted stays accounted for, unless the reactor loses the word of a removal. -/
theorem tracked_step [Sha256] (hs : s.Tracked) (hkeeps : s.KeepsRemovals e)
    (h : s.step e = some t) : t.Tracked := by
  have hheld := held_step hs.held h
  by_cases hproceed : ∃ c now fault, e = .proceed c now fault
  · obtain ⟨c, now, fault, rfl⟩ := hproceed
    obtain ⟨call, call', hc, haccessed⟩ := proceed_accessed h
    refine ⟨hheld, haccessed.sole hs.sole hc, fun id hid => ?_⟩
    have haccounted : s.Accounted id := by
      rcases haccessed.counted hc hid with hcounted | hregistered
      · exact hs.counted id hcounted
      · exact .inl hregistered
    rcases haccounted with hregistered | hsaid | hremoving
    · rcases hs.held.step_registered h hregistered with hstill | hbegun
      · exact .inl hstill
      · exact .inr (.inr hbegun)
    · exact .inr (.inl (haccessed.bus hsaid))
    · rcases haccessed.removing_step hc hremoving with hstill | hsaid
      · exact .inr (.inr hstill)
      · exact .inr (.inl hsaid)
  · have haside : s.Aside t := by
      refine aside_step hs.sole hkeeps h ?_
      intro c now fault heq
      exact hproceed ⟨c, now, fault, heq⟩
    refine ⟨hheld, haside.sole, fun id hid => ?_⟩
    rcases hs.counted id (haside.counted hid) with hregistered | hsaid | hremoving
    · rcases hs.held.step_registered h hregistered with hstill | hbegun
      · exact .inl hstill
      · exact .inr (.inr hbegun)
    · exact .inr (.inl (haside.bus id hid hsaid))
    · exact .inr (.inr (hremoving.of_calls hs.held haside.calls))

end Supervisor
end Soloist
