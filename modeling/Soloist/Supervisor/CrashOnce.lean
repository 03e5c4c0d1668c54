import Soloist.Supervisor.StopWins

/-! One crash, one automatic restart: which crash each act of the restart policy is on. -/
open List Option Slots

namespace Soloist

namespace Call

/-- The process the restart policy has taken up and not let go of. -/
def attends : Call → Option ProcessId
  | .policyBegun id | .policyOpen id | .described .policy id _ | .trusted .policy id _
  | .scheduled id _ _ | .relaunching id _ _ | .exhausting id => some id
  | _ => none

def counted : Call → Bool
  | .scheduled _ _ _ | .relaunching _ _ _ | .exhausting _ => true
  | _ => false

def announced : Call → Bool
  | .relaunching _ _ _ => true
  | _ => false

end Call

def Fleet.crash (f : Fleet) (id : ProcessId) : Option ActorId :=
  if f.registry.status id = some .crashed then f.mailboxOf id else none

/-- What the restart policy does about a crash. -/
inductive PolicyAct
  | counted
  | announced
  | relaunched
  deriving DecidableEq, Repr

def PolicyAct.done (call : Call) : PolicyAct → Bool
  | .counted => call.counted
  | .announced => call.announced
  | .relaunched => false

inductive CrashEntry
  | crashed (id : ProcessId) (actor : ActorId)
  | acted (act : PolicyAct) (id : ProcessId) (crash : Option ActorId)
  deriving DecidableEq, Repr

namespace Supervisor

def policyAct (s : Supervisor) : Call → Option CrashEntry
  | .trusted .policy id _ => some (.acted .counted id (s.fleet.crash id))
  | .scheduled id _ _ => some (.acted .announced id (s.fleet.crash id))
  | .relaunching id _ _ =>
    if (s.fleet.registry.status id).any (fun status => !status.isActive) then
      some (.acted .relaunched id (s.fleet.crash id))
    else none
  | _ => none

def crashOf (x : Actor) (a : ActorId) : Option CrashEntry :=
  match x.outbox, x.pc.pending with
  | none, some (.crashed, _, _) => some (.crashed x.process a)
  | _, _ => none

/-- What a step adds to the record of crashes and of the policy's acts. -/
def crashEntry (s : Supervisor) : SupervisorEvent → Option CrashEntry
  | .proceed c _ _ => (s.calls c).bind s.policyAct
  | .advance a => (s.fleet.actors a).bind fun x => crashOf x a
  | _ => none

def attending (s : Supervisor) : Option ProcessId :=
  match s.reactor with
  | .idle => none
  | .handling c _ => (s.calls c).bind Call.attends

def takesUp (s : Supervisor) : SupervisorEvent → Option ProcessId
  | .reactorRecv _ =>
    match s.lagged, s.bus with
    | false, .processStatusChanged id _ .crashed _ :: _ => some id
    | _, _ => none
  | .reactorNext =>
    match s.reactor with
    | .handling _ (id :: _) => some id
    | _ => none
  | _ => none

def takesOut (id : ProcessId) : SupervisorEvent → Bool
  | .close i | .deregister i => i = id
  | _ => false

/-- The reactor takes up a process while it is still crashed, and while it attends to a process no
user launches it or takes it out. -/
def Undisturbed (s : Supervisor) (e : SupervisorEvent) : Prop :=
  (∀ id ∈ s.takesUp e, s.fleet.registry.status id = some .crashed) ∧
    ∀ id ∈ s.attending, s.accepts id e = false ∧ takesOut id e = false

instance (s : Supervisor) : DecidablePred s.Undisturbed :=
  fun e => inferInstanceAs (Decidable ((∀ id ∈ s.takesUp e, _) ∧ ∀ id ∈ s.attending, _))

end Supervisor

namespace Fleet
variable {f g : Fleet} {act : FleetAct} {id : ProcessId} {a : ActorId}

theorem crash_eq_some : f.crash id = some a ↔
    ∃ m join, f.registry id = some m ∧ m.status = .crashed ∧ m.handle = some ⟨a, join⟩ := by
  unfold crash
  constructor
  · intro h
    split_ifs at h with hstatus
    obtain ⟨m, join, hm, hhandle⟩ := mailboxOf_eq_some.mp h
    rw [Registry.status_eq_some hm] at hstatus
    exact ⟨m, join, hm, some.inj hstatus, hhandle⟩
  · rintro ⟨m, join, hm, hcrashed, hhandle⟩
    have hstatus : f.registry.status id = some .crashed := by
      rw [Registry.status_eq_some hm, hcrashed]
    rw [if_pos hstatus]
    exact mailboxOf_eq_some.mpr ⟨m, join, hm, hhandle⟩

/-- The handle of an entry is there once the process has been launched. -/
def Crashable (f : Fleet) : Prop :=
  ∀ id m, f.registry id = some m → m.status = .crashed → m.handle ≠ none

theorem crash_of_status (h : f.Crashable) (hstatus : f.registry.status id = some .crashed) :
    ∃ a, f.crash id = some a := by
  obtain ⟨m, hm, hcrashed⟩ := map_eq_some_iff.mp hstatus
  obtain ⟨⟨a, join⟩, hhandle⟩ := ne_none_iff_exists'.mp (h id m hm hcrashed)
  exact ⟨a, crash_eq_some.mpr ⟨m, join, hm, hcrashed, hhandle⟩⟩

theorem crashable_step [Sha256] (howned : f.Owned) (h : f.Crashable)
    (hstep : f.step act = some g) : g.Crashable := by
  intro i m hm hcrashed
  rcases step_entry howned.manned hstep hm with ⟨m₀, hm₀, hevolves⟩ | ⟨r, -, -, rfl⟩
  · cases hevolves with
    | same => exact h i m hm₀ hcrashed
    | updated r => exact h i m₀ hm₀ hcrashed
    | exhausted => cases hcrashed
    | claimed r hid hrest => cases hcrashed
    | attached b k hhandle => exact some_ne_none _
    | advanced b x target code hx hlive hprocess =>
      subst hprocess
      obtain ⟨join, hhandle⟩ := howned.handle_of_live hx hlive hm₀
      show m₀.handle ≠ none
      rw [hhandle]
      exact some_ne_none _
  · cases hcrashed

theorem crash_back [Sha256] (howned : f.Owned) (hstep : f.step act = some g)
    (hcrash : g.crash id = some a) : f.crash id = some a ∨
      ∃ x code next, act = .advance a ∧ f.actors a = some x ∧ x.outbox = none ∧
        x.pc.pending = some (.crashed, code, next) ∧ x.process = id := by
  obtain ⟨m, join, hm, hcrashed, hhandle⟩ := crash_eq_some.mp hcrash
  rcases step_entry howned.manned hstep hm with ⟨m₀, hm₀, hevolves⟩ | ⟨r, -, -, rfl⟩
  · cases hevolves with
    | same => exact .inl (crash_eq_some.mpr ⟨m, join, hm₀, hcrashed, hhandle⟩)
    | updated r => exact .inl (crash_eq_some.mpr ⟨m₀, join, hm₀, hcrashed, hhandle⟩)
    | exhausted => cases hcrashed
    | claimed r hid hrest => cases hcrashed
    | attached b k hk =>
      have hmailbox : k.mailbox = a := congrArg Handle.mailbox (some.inj hhandle)
      refine .inl (crash_eq_some.mpr ⟨m₀, k.join, hm₀, hcrashed, ?_⟩)
      rw [hk, ← hmailbox]
    | advanced b x target code hx hlive hprocess =>
      subst hprocess
      obtain rfl : target = .crashed := hcrashed
      obtain ⟨join', hlast⟩ := howned.handle_of_live hx hlive hm₀
      have hb : b = a := congrArg Handle.mailbox (some.inj (hlast.symm.trans hhandle))
      subst hb
      obtain ⟨x', target', code', next, hx', hout, hpending, rfl⟩ := advance_eq_some howned.manned hstep
      obtain rfl : x' = x := some.inj (hx'.symm.trans hx)
      have hset : some (m₀.withStatus target' code') = some (m₀.withStatus .crashed code) :=
        (modify_self hm₀).symm.trans hm
      have htarget : target' = .crashed := congrArg Managed.status (some.inj hset)
      subst htarget
      exact .inr ⟨x', code', next, rfl, hx, hout, hpending, rfl⟩
  · cases hcrashed

/-- A crash lasts until the process is launched, held exhausted or taken out. -/
theorem crash_stays [Sha256] (howned : f.Owned) (hstep : f.step act = some g)
    (hcrash : f.crash id = some a) : g.crash id = some a ∨ act = .removeReturningHandle id ∨
      act = .removeIfResting id ∨ act = .exhaust id ∨ ∃ r, act = .launch r ∧ r.process = id := by
  obtain ⟨m, join, hm, hcrashed, hhandle⟩ := crash_eq_some.mp hcrash
  have hrest : m.status.isActive = false := by
    rw [hcrashed]
    rfl
  rcases step_registered howned hstep hm with ⟨m', hm'⟩ | hclosed | ⟨hremoved, -⟩
  · rcases step_entry howned.manned hstep hm' with ⟨m₀, hm₀, hevolves⟩ | ⟨r, -, hid, -⟩
    · obtain rfl : m = m₀ := some.inj (hm.symm.trans hm₀)
      cases hevolves with
      | same => exact .inl (crash_eq_some.mpr ⟨m, join, hm', hcrashed, hhandle⟩)
      | updated r => exact .inl (crash_eq_some.mpr ⟨_, join, hm', hcrashed, hhandle⟩)
      | exhausted => exact .inr (.inr (.inr (.inl rfl)))
      | claimed r hr => exact .inr (.inr (.inr (.inr ⟨r, rfl, hr⟩)))
      | attached b k hk =>
        have hmailbox : k.mailbox = a := by
          have heq := some.inj (hk.symm.trans hhandle)
          rw [heq]
        refine .inl (crash_eq_some.mpr ⟨_, some b, hm', hcrashed, ?_⟩)
        rw [← hmailbox]
        rfl
      | advanced b x target code hx hlive hprocess =>
        subst hprocess
        have hactive := howned.active_of_live hx hlive hm
        rw [hrest] at hactive
        cases hactive
    · have hlt := howned.entry_lt id m hm
      rw [hid] at hlt
      exact absurd hlt (Nat.lt_irrefl _)
  · exact .inr (.inl hclosed)
  · exact .inr (.inr (.inl hremoved))

variable {r : Request}

theorem crash_launchActor (hg : f.launchActor r = some g) : g.crash r.process = none := by
  obtain ⟨claim, hclaim, rfl⟩ := map_eq_some_iff.mp hg
  obtain ⟨m, -, -, -, hregistry⟩ := Registry.beginLaunch_eq_some.mp hclaim
  have hstatus : claim.2.status r.process = some .starting := by
    rw [hregistry]
    exact Registry.status_eq_some put_self
  unfold crash
  rw [if_neg]
  rw [hstatus]
  intro h
  cases h

theorem launchActor_of_crash (h : f.crash r.process = some a) : ∃ g, f.launchActor r = some g := by
  obtain ⟨m, join, hm, hcrashed, -⟩ := crash_eq_some.mp h
  have hrest : m.status.isActive = false := by
    rw [hcrashed]
    rfl
  have hclaim : f.registry.beginLaunch r.process f.nextActor = some _ :=
    Registry.beginLaunch_eq_some.mpr ⟨m, hm, hrest, rfl, rfl⟩
  exact ⟨_, map_eq_some_iff.mpr ⟨_, hclaim, rfl⟩⟩

end Fleet

namespace Supervisor
variable {s t : Supervisor} {e : SupervisorEvent} {c : CallId} {call : Call} {id : ProcessId}
  {a : ActorId} {now : Instant} {fault : Option StoreError} {log : List CrashEntry}

theorem attends_afterTrust {kind : LaunchKind} {info : EntryInfo} (hkind : kind ≠ .policy) :
    (kind.afterTrust id info).attends = none := by
  cases kind with
  | policy => exact absurd rfl hkind
  | start | restart | resume | bulkStart => rfl

theorem proceed_apart [Sha256] (h : s.proceed c now fault = some t) (hc : s.calls c = some call)
    (hnone : call.attends = none) : ∃ call', t.calls = s.calls.put c call' ∧
      t.reactor = s.reactor ∧ call'.attends = none := by
  cases call with
  | policyBegun i | policyOpen i | exhausting i => cases hnone
  | scheduled i info attempt | relaunching i info attempt => cases hnone
  | returned reply => simp [proceed, hc] at h
  | described kind i info =>
    have hkind : kind ≠ .policy := by
      rintro rfl
      cases hnone
    simp only [proceed, hc, Option.some.injEq] at h
    subst h
    unfold guardTrust
    split
    · exact ⟨_, rfl, rfl, attends_afterTrust hkind⟩
    · exact ⟨_, rfl, rfl, rfl⟩
    · split_ifs
      · exact ⟨_, rfl, rfl, attends_afterTrust hkind⟩
      · exact ⟨_, rfl, rfl, rfl⟩
  | trusted kind i info =>
    simp only [proceed, hc, Option.some.injEq] at h
    subst h
    cases kind with
    | policy => cases hnone
    | start | restart | resume | bulkStart => exact ⟨_, rfl, rfl, rfl⟩
  | ready kind i info =>
    simp only [proceed, hc, Option.some.injEq] at h
    subst h
    unfold accept launch
    split_ifs
    · exact ⟨_, rfl, rfl, rfl⟩
    · split
      · exact ⟨_, rfl, rfl, rfl⟩
      · exact ⟨_, rfl, rfl, rfl⟩
  | exhausted i | stopping i =>
    simp only [proceed, hc, Option.some.injEq] at h
    subst h
    exact ⟨_, rfl, rfl, rfl⟩
  | closing i handle =>
    simp only [proceed, hc, Option.some.injEq] at h
    subst h
    cases handle with
    | none => exact ⟨_, rfl, rfl, rfl⟩
    | some k => exact ⟨_, rfl, rfl, rfl⟩
  | reaping i join =>
    simp only [proceed, hc] at h
    split_ifs at h
    cases h
    exact ⟨_, rfl, rfl, rfl⟩
  | removed i reply | reloading i project root spec =>
    simp only [proceed, hc, Option.some.injEq] at h
    subst h
    exact ⟨_, rfl, rfl, rfl⟩

/-- Before the trust check has passed the policy has done nothing. -/
theorem no_act (hcounted : call.counted = false) (hannounced : call.announced = false)
    (hnone : s.policyAct call = none) (act : PolicyAct) :
    ¬(act.done call = true ∨ ∃ k, s.policyAct call = some (.acted act id k)) := by
  rintro (hdone | ⟨k, hk⟩)
  · cases act with
    | counted =>
      rw [PolicyAct.done, hcounted] at hdone
      cases hdone
    | announced =>
      rw [PolicyAct.done, hannounced] at hdone
      cases hdone
    | relaunched => cases hdone
  · rw [hnone] at hk
    cases hk

theorem crash_exhausted (hcrash : s.fleet.crash id = some a) :
    ∃ m : Managed, s.fleet.registry.exhaustIfCrashed id =
      (s.fleet.registry.put id (m.withStatus .restartExhausted none), true) := by
  obtain ⟨m, join, hm, hcrashed, -⟩ := Fleet.crash_eq_some.mp hcrash
  have hallowed : m.status.allowed .restartExhausted = true := by
    rw [hcrashed]
    rfl
  refine ⟨m, ?_⟩
  simp only [Registry.exhaustIfCrashed, hm, ProcStatus.transition_of_allowed hallowed]

/-- The next access of the policy's call on a process that is crashed: it goes on attending to the
crash, or ends it, or lets go of it uncounted. -/
theorem proceed_attended [Sha256] (h : s.proceed c now fault = some t)
    (hc : s.calls c = some call) (hattends : call.attends = some id)
    (hcrash : s.fleet.crash id = some a) : ∃ call', t.calls = s.calls.put c call' ∧
      t.reactor = s.reactor ∧ (call'.attends = some id ∧ t.fleet = s.fleet ∨ call'.attends = none) ∧
      ∀ act : PolicyAct, (act.done call = true ∨
          ∃ k, s.policyAct call = some (.acted act id k)) →
        t.fleet.crash id = none ∨ call'.attends = some id ∧ act.done call' = true := by
  cases call with
  | stopping | closing | reaping | removed | reloading | returned | exhausted | ready =>
    cases hattends
  | policyBegun i =>
    cases hattends
    simp only [proceed, hc] at h
    split_ifs at h
    · cases h
      exact ⟨_, rfl, rfl, .inr rfl, fun act hact => absurd hact (no_act rfl rfl rfl act)⟩
    · cases h
      exact ⟨_, rfl, rfl, .inl ⟨rfl, rfl⟩, fun act hact => absurd hact (no_act rfl rfl rfl act)⟩
  | policyOpen i =>
    cases hattends
    simp only [proceed, hc, Option.some.injEq] at h
    subst h
    refine ⟨_, rfl, rfl, ?_, fun act hact => absurd hact (no_act rfl rfl rfl act)⟩
    unfold openPolicy
    split
    · exact .inr rfl
    · split_ifs
      · exact .inl ⟨rfl, rfl⟩
      · exact .inr rfl
  | described kind i info =>
    cases kind with
    | start | restart | resume | bulkStart => cases hattends
    | policy =>
      cases hattends
      simp only [proceed, hc, Option.some.injEq] at h
      subst h
      unfold guardTrust
      split
      · exact ⟨_, rfl, rfl, .inl ⟨rfl, rfl⟩, fun act hact => absurd hact (no_act rfl rfl rfl act)⟩
      · exact ⟨_, rfl, rfl, .inr rfl, fun act hact => absurd hact (no_act rfl rfl rfl act)⟩
      · split_ifs
        · exact ⟨_, rfl, rfl, .inl ⟨rfl, rfl⟩, fun act hact => absurd hact (no_act rfl rfl rfl act)⟩
        · exact ⟨_, rfl, rfl, .inr rfl, fun act hact => absurd hact (no_act rfl rfl rfl act)⟩
  | trusted kind i info =>
    cases kind with
    | start | restart | resume | bulkStart => cases hattends
    | policy =>
      cases hattends
      have hcounted : ∀ act : PolicyAct, (act.done (.trusted .policy id info) = true ∨
          ∃ k, s.policyAct (.trusted .policy id info) = some (.acted act id k)) →
            act = .counted := by
        rintro act (hdone | ⟨k, hk⟩)
        · cases act <;> cases hdone
        · cases hk
          rfl
      simp only [proceed, hc, Option.some.injEq] at h
      subst h
      unfold afterTrusted
      dsimp only
      split
      · refine ⟨_, rfl, rfl, .inl ⟨rfl, rfl⟩, fun act hact => .inr ⟨rfl, ?_⟩⟩
        rw [hcounted act hact]
        rfl
      · refine ⟨_, rfl, rfl, .inl ⟨rfl, rfl⟩, fun act hact => .inr ⟨rfl, ?_⟩⟩
        rw [hcounted act hact]
        rfl
  | scheduled i info attempt =>
    cases hattends
    simp only [proceed, hc, Option.some.injEq] at h
    subst h
    refine ⟨_, rfl, rfl, .inl ⟨rfl, rfl⟩, ?_⟩
    rintro act (hdone | ⟨k, hk⟩)
    · cases act with
      | counted => exact .inr ⟨rfl, rfl⟩
      | announced | relaunched => cases hdone
    · cases hk
      exact .inr ⟨rfl, rfl⟩
  | relaunching i info attempt =>
    cases hattends
    simp only [proceed, hc, Option.some.injEq] at h
    subst h
    obtain ⟨g, hg⟩ := Fleet.launchActor_of_crash (r := s.request c .policy id info) hcrash
    unfold launch
    rw [hg]
    exact ⟨_, rfl, rfl, .inr rfl, fun act _ => .inl (Fleet.crash_launchActor hg)⟩
  | exhausting i =>
    cases hattends
    obtain ⟨m, hexhaust⟩ := crash_exhausted hcrash
    simp only [proceed, hc] at h
    rw [hexhaust] at h
    cases h
    refine ⟨_, rfl, rfl, .inr rfl, fun act _ => .inl ?_⟩
    have hstatus : Registry.status (s.fleet.registry.put id (m.withStatus .restartExhausted none))
        id = some .restartExhausted := Registry.status_eq_some put_self
    unfold Fleet.crash
    rw [if_neg]
    rw [hstatus]
    intro heq
    cases heq

/-- What happens outside the policy leaves it alone. -/
theorem step_apart [Sha256] (h : s.step e = some t)
    (hproceed : ∀ c now fault, e ≠ .proceed c now fault) (hrecv : ∀ order, e ≠ .reactorRecv order)
    (hnext : e ≠ .reactorNext) : t.reactor = s.reactor ∧
      (t.calls = s.calls ∨
        ∃ call, t.calls = s.calls.put s.nextCall call ∧ call.attends = none) ∧
      t.policy.windows = s.policy.windows ∧ (e = .overflow ∨ s.bus ⊆ t.bus) := by
  have hbus := List.Subset.refl s.bus
  cases e with
  | proceed c now fault => exact absurd rfl (hproceed c now fault)
  | reactorRecv order => exact absurd rfl (hrecv order)
  | reactorNext => exact absurd rfl hnext
  | register r | setTrusted project variant trusted | beginShutdown =>
    cases h
    exact ⟨rfl, .inl rfl, rfl, .inr hbus⟩
  | reload i project root spec =>
    simp only [step] at h
    split_ifs at h
    cases h
    exact ⟨rfl, .inr ⟨_, rfl, rfl⟩, rfl, .inr hbus⟩
  | deregister i | close i =>
    simp only [step] at h
    split at h
    · cases h
      exact ⟨rfl, .inr ⟨_, rfl, rfl⟩, rfl, .inr hbus⟩
    · cases h
      exact ⟨rfl, .inr ⟨_, rfl, rfl⟩, rfl, .inr hbus⟩
  | launch kind i =>
    obtain ⟨call, hopen, rfl⟩ := map_eq_some_iff.mp h
    refine ⟨rfl, .inr ⟨call, rfl, ?_⟩, rfl, .inr hbus⟩
    unfold openLaunch at hopen
    split at hopen
    · cases hopen
    · cases hopen
    · cases hopen
      rfl
    · split_ifs at hopen
      · cases hopen
        rfl
      · cases hopen
        rfl
    · cases hopen
      rfl
    · split_ifs at hopen
      · cases hopen
        rfl
      · cases hopen
        rfl
      · cases hopen
        rfl
    · split_ifs at hopen
      cases hopen
      rfl
  | stop i =>
    cases h
    refine ⟨rfl, .inr ⟨_, rfl, ?_⟩, rfl, .inr hbus⟩
    unfold openStop
    split
    · split_ifs
      · rfl
      · rfl
    · rfl
  | attachJoin b | advance b | move b mv =>
    obtain ⟨fleet, -, rfl⟩ := map_eq_some_iff.mp h
    exact ⟨rfl, .inl rfl, rfl, .inr hbus⟩
  | publish b =>
    obtain ⟨published, -, rfl⟩ := map_eq_some_iff.mp h
    exact ⟨rfl, .inl rfl, rfl, .inr (List.subset_append_left _ _)⟩
  | overflow =>
    simp only [step] at h
    split at h
    · cases h
    · cases h
      exact ⟨rfl, .inl rfl, rfl, .inl rfl⟩

/-- A crash that no user disturbs stays through every step but the policy's own. -/
theorem crash_kept [Sha256] (hs : s.Held) (h : s.step e = some t)
    (hcrash : s.fleet.crash id = some a) (haccepts : s.accepts id e = false)
    (hout : takesOut id e = false)
    (hapart : ∀ c now fault call, e = .proceed c now fault → s.calls c = some call →
      call.attends = none) : t.fleet.crash id = some a := by
  rcases step_fleet h with hsame | ⟨act, hact, hissues⟩
  · rw [hsame]
    exact hcrash
  · obtain hkept | rfl | rfl | rfl | ⟨r, rfl, hprocess⟩ :=
      Fleet.crash_stays hs.owned hact hcrash
    · exact hkept
    · cases hissues with
      | direct _ _ hacts =>
        cases hacts
        simp [takesOut] at hout
    · cases hissues with
      | direct _ _ hacts =>
        cases hacts
        simp [takesOut] at hout
    · cases hissues with
      | direct _ _ hacts => cases hacts
      | exhaust c now fault i hc => cases hapart c now fault _ rfl hc
    · cases hissues with
      | direct _ _ hacts => cases hacts
      | launch c now fault kind i info hclaims =>
        obtain rfl : i = id := hprocess
        unfold claims at hclaims
        split at hclaims
        next kind' i' info' hc =>
          split_ifs at hclaims
          cases hclaims
          obtain ⟨m, join, hm, hcrashed, -⟩ := Fleet.crash_eq_some.mp hcrash
          have hstatus : s.fleet.registry.status i = some .crashed := by
            rw [Registry.status_eq_some hm, hcrashed]
          simp [accepts, hc, hstatus, ProcStatus.isActive] at haccepts
        next i' info' attempt hc => cases hapart c now fault _ rfl hc
        next => cases hclaims

/-- The record of a run: every crash the registry shows is in it with its ended actor, every act of
the policy is on a recorded crash, and a crash acted on is one the policy still attends to or one
that is over. -/
structure Attended (s : Supervisor) (log : List CrashEntry) : Prop where
  held : s.Held
  crashable : s.fleet.Crashable
  sole : ∀ c call, s.calls c = some call → call.attends ≠ none →
    ∃ rest, s.reactor = .handling c rest
  crashed : ∀ c call id, s.calls c = some call → call.attends = some id →
    ∃ a, s.fleet.crash id = some a
  recorded : ∀ id a, s.fleet.crash id = some a → .crashed id a ∈ log
  ended : ∀ id a, .crashed id a ∈ log → ∃ x, s.fleet.actors a = some x ∧ ¬x.Live
  acted : ∀ act id k, .acted act id k ∈ log → ∃ a, k = some a ∧ .crashed id a ∈ log ∧
    (s.fleet.crash id = some a →
      ∃ c call, s.calls c = some call ∧ call.attends = some id ∧ act.done call = true)
  nodup : log.Nodup

theorem attended_init : Attended .init [] := by
  constructor
  · exact held_init
  · intro id m hm
    cases hm
  · intro c call hc
    cases hc
  · intro c call id hc
    cases hc
  · intro id a hcrash
    obtain ⟨m, join, hm, -⟩ := Fleet.crash_eq_some.mp hcrash
    cases hm
  · intro id a hmem
    cases hmem
  · intro act id k hmem
    cases hmem
  · exact nodup_nil

theorem crashable_step [Sha256] (hs : s.Held) (hcrashable : s.fleet.Crashable)
    (h : s.step e = some t) : t.fleet.Crashable := by
  rcases step_fleet h with hsame | ⟨act, hact, -⟩
  · rw [hsame]
    exact hcrashable
  · exact Fleet.crashable_step hs.owned hcrashable hact

variable {x : Actor}

theorem ended_step [Sha256] (hs : s.Held) (h : s.step e = some t) (hx : s.fleet.actors a = some x)
    (hended : ¬x.Live) : ∃ y, t.fleet.actors a = some y ∧ ¬y.Live := by
  obtain ⟨y, hy, rfl | ⟨act, -, -, hevolves⟩⟩ := step_evolves hs.owned h hx
  · exact ⟨y, hy, hended⟩
  · exact ⟨y, hy, fun hlive => hended (hevolves.live hlive)⟩

theorem crash_of_ended [Sha256] (hs : s.Held) (h : s.step e = some t)
    (hx : s.fleet.actors a = some x) (hended : ¬x.Live) (hcrash : t.fleet.crash id = some a) :
    s.fleet.crash id = some a := by
  rcases step_fleet h with hsame | ⟨act, hact, -⟩
  · rw [← hsame]
    exact hcrash
  · obtain hold | ⟨y, code, next, -, hy, -, hpending, -⟩ :=
      Fleet.crash_back hs.owned hact hcrash
    · exact hold
    · obtain rfl : x = y := some.inj (hx.symm.trans hy)
      exact absurd (Pc.pending_spec hpending).1 hended

theorem crash_recorded [Sha256] (hs : s.Held) (h : s.step e = some t)
    (hcrash : t.fleet.crash id = some a) :
    s.fleet.crash id = some a ∨ s.crashEntry e = some (.crashed id a) := by
  rcases step_fleet h with hsame | ⟨act, hact, hissues⟩
  · rw [hsame] at hcrash
    exact .inl hcrash
  · obtain hold | ⟨x, code, next, rfl, hx, hout, hpending, rfl⟩ :=
      Fleet.crash_back hs.owned hact hcrash
    · exact .inl hold
    · cases hissues with
      | direct e act hacts =>
        cases hacts with
        | advance b =>
          apply Or.inr
          simp [crashEntry, crashOf, hx, hout, hpending]

variable {entry : CrashEntry}

theorem crashOf_eq_some (h : crashOf x a = some entry) :
    entry = .crashed x.process a ∧ x.outbox = none ∧
      ∃ code next, x.pc.pending = some (.crashed, code, next) := by
  unfold crashOf at h
  split at h
  next code next hout hpending =>
    cases h
    exact ⟨rfl, hout, code, next, hpending⟩
  next => cases h

theorem policyAct_eq_some (h : s.policyAct call = some entry) :
    ∃ act id, call.attends = some id ∧ entry = .acted act id (s.fleet.crash id) ∧
      act.done call = false := by
  unfold policyAct at h
  split at h
  next i info =>
    cases h
    exact ⟨.counted, i, rfl, rfl, rfl⟩
  next i info attempt =>
    cases h
    exact ⟨.announced, i, rfl, rfl, rfl⟩
  next i info attempt =>
    split_ifs at h
    cases h
    exact ⟨.relaunched, i, rfl, rfl, rfl⟩
  next => cases h

theorem crashEntry_crashed [Sha256] (hs : s.Held) (h : s.step e = some t)
    (hentry : s.crashEntry e = some (.crashed id a)) :
    (∃ x, s.fleet.actors a = some x ∧ x.Live) ∧
      ∃ y, t.fleet.actors a = some y ∧ ¬y.Live := by
  cases e with
  | proceed c now fault =>
    obtain ⟨call, -, hact⟩ := bind_eq_some_iff.mp hentry
    obtain ⟨act, i, -, heq, -⟩ := policyAct_eq_some hact
    cases heq
  | advance b =>
    obtain ⟨x, hx, hof⟩ := bind_eq_some_iff.mp hentry
    obtain ⟨heq, hout, code, next, hpending⟩ := crashOf_eq_some hof
    cases heq
    obtain ⟨hlive, -, hmirror, -, -⟩ := Pc.pending_spec hpending
    have hdone : next = .done := by
      by_contra hne
      have htarget := hmirror hne
      cases next <;> cases htarget
    obtain ⟨fleet, hfleet, rfl⟩ := map_eq_some_iff.mp h
    obtain ⟨x', target, code', next', hx', -, hpending', rfl⟩ :=
      Fleet.advance_eq_some hs.owned.manned hfleet
    obtain rfl : x = x' := some.inj (hx.symm.trans hx')
    have hsame : (ProcStatus.crashed, code, next) = (target, code', next') :=
      some.inj (hpending.symm.trans hpending')
    cases hsame
    refine ⟨⟨x, hx, hlive⟩, _, put_self, ?_⟩
    intro hlive'
    exact hlive' hdone
  | _ => cases hentry

variable (hs : s.Attended log)
include hs

theorem Attended.attending (hc : s.calls c = some call)
    (hattends : call.attends = some id) : s.attending = some id := by
  have hne : call.attends ≠ none := by
    rw [hattends]
    exact some_ne_none id
  obtain ⟨rest, hreactor⟩ := hs.sole c call hc hne
  simp only [Supervisor.attending, hreactor, hc, bind_some, hattends]

theorem Attended.sole_eq {c' : CallId} {call' : Call} {id' : ProcessId}
    (hc : s.calls c = some call) (hattends : call.attends = some id)
    (hc' : s.calls c' = some call') (hattends' : call'.attends = some id') : c = c' := by
  have hne : call.attends ≠ none := by
    rw [hattends]
    exact some_ne_none id
  have hne' : call'.attends ≠ none := by
    rw [hattends']
    exact some_ne_none id'
  obtain ⟨rest, hreactor⟩ := hs.sole c call hc hne
  obtain ⟨rest', hreactor'⟩ := hs.sole c' call' hc' hne'
  rw [hreactor] at hreactor'
  injection hreactor'

theorem Attended.ended_step [Sha256] (h : s.step e = some t)
    (hmem : .crashed id a ∈ log ++ (s.crashEntry e).toList) :
    ∃ x, t.fleet.actors a = some x ∧ ¬x.Live := by
  rcases mem_append.mp hmem with hold | hnew
  · obtain ⟨x, hx, hended⟩ := hs.ended id a hold
    exact Supervisor.ended_step hs.held h hx hended
  · exact (crashEntry_crashed hs.held h (mem_toList.mp hnew)).2

theorem Attended.recorded_step [Sha256] (h : s.step e = some t)
    (hcrash : t.fleet.crash id = some a) : .crashed id a ∈ log ++ (s.crashEntry e).toList := by
  rcases crash_recorded hs.held h hcrash with hold | hnew
  · exact mem_append_left _ (hs.recorded id a hold)
  · exact mem_append_right _ (mem_toList.mpr hnew)

theorem Attended.acted_step [Sha256] (h : s.step e = some t)
    {act : PolicyAct} {k : Option ActorId} (hmem : .acted act id k ∈ log) :
    ∃ a, k = some a ∧ .crashed id a ∈ log ∧ (t.fleet.crash id = some a →
      ∃ c call, s.calls c = some call ∧ call.attends = some id ∧ act.done call = true) := by
  obtain ⟨a, hk, hcrashed, hcall⟩ := hs.acted act id k hmem
  refine ⟨a, hk, hcrashed, fun hcrash => ?_⟩
  obtain ⟨x, hx, hended⟩ := hs.ended id a hcrashed
  exact hcall (crash_of_ended hs.held h hx hended hcrash)

theorem Attended.apart [Sha256] (h : s.step e = some t)
    (hundisturbed : s.Undisturbed e) (hreactor : t.reactor = s.reactor)
    (hcalls : t.calls = s.calls ∨ ∃ c call', t.calls = s.calls.put c call' ∧
      call'.attends = none ∧ ∀ call, s.calls c = some call → call.attends = none)
    (hpolicy : ∀ c now fault call, e = .proceed c now fault → s.calls c = some call →
      call.attends = none) : t.Attended (log ++ (s.crashEntry e).toList) := by
  have hold : ∀ c call, call.attends ≠ none → (t.calls c = some call ↔ s.calls c = some call) := by
    intro c call hattends
    rcases hcalls with hsame | ⟨c', call', hput, hnone, hnone'⟩
    · rw [hsame]
    · rw [hput]
      constructor
      · intro hc
        rcases put_eq_some.mp hc with ⟨-, rfl⟩ | ⟨-, hc⟩
        · exact absurd hnone hattends
        · exact hc
      · intro hc
        have hne : c ≠ c' := by
          rintro rfl
          exact hattends (hnone' call hc)
        rw [put_of_ne hne]
        exact hc
  have hno_act : ∀ act id k, s.crashEntry e ≠ some (.acted act id k) := by
    intro act id k hentry
    cases e with
    | proceed c now fault =>
      obtain ⟨call, hc, hact⟩ := bind_eq_some_iff.mp hentry
      obtain ⟨-, i, hattends, -⟩ := policyAct_eq_some hact
      rw [hpolicy c now fault call rfl hc] at hattends
      cases hattends
    | advance b =>
      obtain ⟨x, -, hof⟩ := bind_eq_some_iff.mp hentry
      obtain ⟨heq, -⟩ := crashOf_eq_some hof
      cases heq
    | _ => cases hentry
  constructor
  · exact held_step hs.held h
  · exact crashable_step hs.held hs.crashable h
  · intro c call hc hattends
    rw [hreactor]
    exact hs.sole c call ((hold c call hattends).mp hc) hattends
  · intro c call id hc hattends
    have hne : call.attends ≠ none := by
      rw [hattends]
      exact some_ne_none id
    have hc' := (hold c call hne).mp hc
    obtain ⟨a, hcrash⟩ := hs.crashed c call id hc' hattends
    obtain ⟨haccepts, hout⟩ := hundisturbed.2 id (hs.attending hc' hattends)
    exact ⟨a, crash_kept hs.held h hcrash haccepts hout hpolicy⟩
  · intro id a hcrash
    exact hs.recorded_step h hcrash
  · intro id a hmem
    exact hs.ended_step h hmem
  · intro act id k hmem
    rcases mem_append.mp hmem with hmem | hnew
    · obtain ⟨a, hk, hcrashed, hcall⟩ := hs.acted_step h hmem
      refine ⟨a, hk, mem_append_left _ hcrashed, fun hcrash => ?_⟩
      obtain ⟨c, call, hc, hattends, hdone⟩ := hcall hcrash
      have hne : call.attends ≠ none := by
        rw [hattends]
        exact some_ne_none id
      exact ⟨c, call, (hold c call hne).mpr hc, hattends, hdone⟩
    · exact absurd (mem_toList.mp hnew) (hno_act act id k)
  · cases hentry : s.crashEntry e with
    | none =>
      rw [toList_none, append_nil]
      exact hs.nodup
    | some entry =>
      cases entry with
      | acted act id k => exact absurd hentry (hno_act act id k)
      | crashed id a =>
        obtain ⟨⟨x, hx, hlive⟩, -⟩ := crashEntry_crashed hs.held h hentry
        refine nodup_append.mpr ⟨hs.nodup, nodup_singleton _, ?_⟩
        rintro entry hmem entry' hmem' rfl
        cases mem_singleton.mp hmem'
        obtain ⟨x', hx', hended⟩ := hs.ended id a hmem
        obtain rfl : x = x' := some.inj (hx.symm.trans hx')
        exact hended hlive

theorem Attended.proceed [Sha256] (h : s.proceed c now fault = some t)
    (hc : s.calls c = some call) (hattends : call.attends = some id) :
    t.Attended (log ++ (s.policyAct call).toList) := by
  have hstep : s.step (.proceed c now fault) = some t := h
  have hentry : s.crashEntry (.proceed c now fault) = s.policyAct call := by
    simp only [crashEntry, hc, bind_some]
  obtain ⟨a, hcrash⟩ := hs.crashed c call id hc hattends
  obtain ⟨call', hcalls, hreactor, hnext, hacts⟩ := proceed_attended h hc hattends hcrash
  have hleft : ∀ c' call₀ id', t.calls c' = some call₀ → call₀.attends = some id' →
      c' = c ∧ call₀ = call' := by
    intro c' call₀ id' hc' hattends'
    rw [hcalls] at hc'
    rcases put_eq_some.mp hc' with ⟨rfl, rfl⟩ | ⟨hne, hold⟩
    · exact ⟨rfl, rfl⟩
    · exact absurd (hs.sole_eq hold hattends' hc hattends) hne
  rw [← hentry]
  constructor
  · exact held_step hs.held hstep
  · exact crashable_step hs.held hs.crashable hstep
  · intro c' call₀ hc' hne
    obtain ⟨id', hattends'⟩ := ne_none_iff_exists'.mp hne
    obtain ⟨rfl, rfl⟩ := hleft c' call₀ id' hc' hattends'
    have hne₀ : call.attends ≠ none := by
      rw [hattends]
      exact some_ne_none id
    rw [hreactor]
    exact hs.sole c' call hc hne₀
  · intro c' call₀ id' hc' hattends'
    obtain ⟨rfl, rfl⟩ := hleft c' call₀ id' hc' hattends'
    rcases hnext with ⟨hsame, hfleet⟩ | hnone
    · obtain rfl : id = id' := some.inj (hsame.symm.trans hattends')
      rw [hfleet]
      exact ⟨a, hcrash⟩
    · rw [hnone] at hattends'
      cases hattends'
  · intro id a hcrash
    exact hs.recorded_step hstep hcrash
  · intro id a hmem
    exact hs.ended_step hstep hmem
  · intro act id' k hmem
    rcases mem_append.mp hmem with hmem | hnew
    · obtain ⟨b, hk, hcrashed, hcall⟩ := hs.acted_step hstep hmem
      refine ⟨b, hk, mem_append_left _ hcrashed, fun hcrash' => ?_⟩
      obtain ⟨c', call₀, hc', hattends', hdone⟩ := hcall hcrash'
      obtain rfl := hs.sole_eq hc' hattends' hc hattends
      obtain rfl : call₀ = call := some.inj (hc'.symm.trans hc)
      obtain rfl : id' = id := some.inj (hattends'.symm.trans hattends)
      rcases hacts act (.inl hdone) with hover | ⟨hattends₁, hdone₁⟩
      · rw [hover] at hcrash'
        cases hcrash'
      · refine ⟨c', call', ?_, hattends₁, hdone₁⟩
        rw [hcalls]
        exact put_self
    · rw [hentry] at hnew
      have hact := mem_toList.mp hnew
      obtain ⟨act', i, hi, heq, -⟩ := policyAct_eq_some hact
      obtain rfl : i = id := some.inj (hi.symm.trans hattends)
      cases heq
      refine ⟨a, hcrash, mem_append_left _ (hs.recorded _ a hcrash), fun hcrash' => ?_⟩
      rcases hacts act (.inr ⟨_, hact⟩) with hover | ⟨hattends₁, hdone₁⟩
      · rw [hover] at hcrash'
        cases hcrash'
      · refine ⟨c, call', ?_, hattends₁, hdone₁⟩
        rw [hcalls]
        exact put_self
  · rw [hentry]
    cases hact : s.policyAct call with
    | none =>
      rw [toList_none, append_nil]
      exact hs.nodup
    | some entry =>
      obtain ⟨act, i, hi, rfl, hdone⟩ := policyAct_eq_some hact
      refine nodup_append.mpr ⟨hs.nodup, nodup_singleton _, ?_⟩
      rintro entry hmem entry' hmem' rfl
      cases mem_singleton.mp hmem'
      obtain ⟨b, hk, -, hcall⟩ := hs.acted act i _ hmem
      obtain ⟨c', call₀, hc', hattends', hdone'⟩ := hcall hk
      obtain rfl := hs.sole_eq hc' hattends' hc hattends
      obtain rfl : call₀ = call := some.inj (hc'.symm.trans hc)
      rw [hdone] at hdone'
      cases hdone'

/-- The reactor lets go of a crash and takes up at most one process, which is crashed. -/
theorem Attended.offered [Sha256] (h : s.step e = some t)
    (hfleet : t.fleet = s.fleet) (hentry : s.crashEntry e = none)
    (hfree : ∀ c call, s.calls c = some call → call.attends = none)
    (hcalls : t.calls = s.calls ∨ ∃ i rest, t.calls = s.calls.put s.nextCall (.policyBegun i) ∧
      t.reactor = .handling s.nextCall rest ∧ s.fleet.registry.status i = some .crashed) :
    t.Attended (log ++ (s.crashEntry e).toList) := by
  have hbegun : ∀ c call id, t.calls c = some call → call.attends = some id →
      s.fleet.registry.status id = some .crashed ∧ ∃ rest, t.reactor = .handling c rest := by
    intro c call id hc hattends
    rcases hcalls with hsame | ⟨i, rest, hput, hreactor, hstatus⟩
    · rw [hsame] at hc
      rw [hfree c call hc] at hattends
      cases hattends
    · rw [hput] at hc
      rcases put_eq_some.mp hc with ⟨rfl, rfl⟩ | ⟨-, hold⟩
      · cases hattends
        exact ⟨hstatus, rest, hreactor⟩
      · rw [hfree c call hold] at hattends
        cases hattends
  constructor
  · exact held_step hs.held h
  · exact crashable_step hs.held hs.crashable h
  · intro c call hc hne
    obtain ⟨id, hattends⟩ := ne_none_iff_exists'.mp hne
    exact (hbegun c call id hc hattends).2
  · intro c call id hc hattends
    rw [hfleet]
    exact Fleet.crash_of_status hs.crashable (hbegun c call id hc hattends).1
  · intro id a hcrash
    exact hs.recorded_step h hcrash
  · intro id a hmem
    exact hs.ended_step h hmem
  · intro act id k hmem
    rw [hentry, toList_none, append_nil] at hmem ⊢
    obtain ⟨a, hk, hcrashed, hcall⟩ := hs.acted_step h hmem
    refine ⟨a, hk, hcrashed, fun hcrash => ?_⟩
    obtain ⟨c, call, hc, hattends, -⟩ := hcall hcrash
    rw [hfree c call hc] at hattends
    cases hattends
  · rw [hentry, toList_none, append_nil]
    exact hs.nodup

omit hs

theorem offer_spec (order : List ProcessId)
    (hcrashed : ∀ i ∈ order.head?, s.fleet.registry.status i = some .crashed)
    (hfleet : t.fleet = s.fleet) (hcalls : t.calls = s.calls) (hnext : t.nextCall = s.nextCall) :
    (t.offer order).fleet = s.fleet ∧ ((t.offer order).calls = s.calls ∨ ∃ i rest,
      (t.offer order).calls = s.calls.put s.nextCall (.policyBegun i) ∧
        (t.offer order).reactor = .handling s.nextCall rest ∧
        s.fleet.registry.status i = some .crashed) := by
  cases order with
  | nil => exact ⟨hfleet, .inl hcalls⟩
  | cons i rest =>
    refine ⟨hfleet, .inr ⟨i, rest, ?_, ?_, hcrashed i rfl⟩⟩
    · rw [← hcalls, ← hnext]
      rfl
    · rw [← hnext]
      rfl

theorem reactorRecv_spec [Sha256] {order : List ProcessId} (h : s.reactorRecv order = some t)
    (hundisturbed : s.Undisturbed (.reactorRecv order)) : s.reactor = .idle ∧
      t.fleet = s.fleet ∧ (t.calls = s.calls ∨ ∃ i rest,
        t.calls = s.calls.put s.nextCall (.policyBegun i) ∧
          t.reactor = .handling s.nextCall rest ∧ s.fleet.registry.status i = some .crashed) := by
  unfold reactorRecv at h
  split_ifs at h with hidle hlagged hperm
  · cases h
    refine ⟨hidle, offer_spec order ?_ rfl rfl rfl⟩
    intro i hi
    have hmem : i ∈ s.crashed := (isPerm_iff.mp hperm).subset (mem_of_mem_head? hi)
    exact of_decide_eq_true (mem_filter.mp hmem).2
  · split at h
    next => cases h
    next event rest hbus =>
      cases h
      refine ⟨hidle, ?_⟩
      unfold handle
      split
      next i source code =>
        refine offer_spec [i] ?_ rfl rfl rfl
        intro j hj
        cases hj
        apply hundisturbed.1
        simp [takesUp, hlagged, hbus]
      next => exact ⟨rfl, .inl rfl⟩
      next => exact ⟨rfl, .inl rfl⟩
      next => exact ⟨rfl, .inl rfl⟩

theorem reactorNext_spec [Sha256] (h : s.reactorNext = some t)
    (hundisturbed : s.Undisturbed .reactorNext) :
    (∃ c rest reply, s.reactor = .handling c rest ∧ s.calls c = some (.returned reply)) ∧
      t.fleet = s.fleet ∧ (t.calls = s.calls ∨ ∃ i rest,
        t.calls = s.calls.put s.nextCall (.policyBegun i) ∧
          t.reactor = .handling s.nextCall rest ∧ s.fleet.registry.status i = some .crashed) := by
  unfold reactorNext at h
  split at h
  next => cases h
  next c rest hreactor =>
    split at h
    next reply hc =>
      cases h
      refine ⟨⟨c, rest, reply, hreactor, hc⟩, offer_spec rest ?_ rfl rfl rfl⟩
      intro i hi
      cases rest with
      | nil => cases hi
      | cons j rest =>
        cases hi
        apply hundisturbed.1
        simp [takesUp, hreactor]
    next => cases h

theorem attended_step [Sha256] (hs : s.Attended log) (hundisturbed : s.Undisturbed e)
    (h : s.step e = some t) : t.Attended (log ++ (s.crashEntry e).toList) := by
  by_cases hproceed : ∃ c now fault, e = .proceed c now fault
  · obtain ⟨c, now, fault, rfl⟩ := hproceed
    have hproceed : s.proceed c now fault = some t := h
    obtain ⟨call, -, hc, -⟩ := proceed_cases hproceed
    cases hattends : call.attends with
    | some id =>
      have hentry : s.crashEntry (.proceed c now fault) = s.policyAct call := by
        simp only [crashEntry, hc, bind_some]
      rw [hentry]
      exact hs.proceed hproceed hc hattends
    | none =>
      obtain ⟨call', hcalls, hreactor, hnone⟩ := proceed_apart hproceed hc hattends
      refine hs.apart h hundisturbed hreactor (.inr ⟨c, call', hcalls, hnone, ?_⟩) ?_
      · intro call₀ hc₀
        obtain rfl : call = call₀ := some.inj (hc.symm.trans hc₀)
        exact hattends
      · intro c₀ now₀ fault₀ call₀ heq hc₀
        cases heq
        obtain rfl : call = call₀ := some.inj (hc.symm.trans hc₀)
        exact hattends
  · by_cases hrecv : ∃ order, e = .reactorRecv order
    · obtain ⟨order, rfl⟩ := hrecv
      obtain ⟨hidle, hfleet, hcalls⟩ := reactorRecv_spec h hundisturbed
      refine hs.offered h hfleet rfl ?_ hcalls
      intro c call hc
      by_contra hne
      obtain ⟨rest, hreactor⟩ := hs.sole c call hc hne
      rw [hidle] at hreactor
      cases hreactor
    · by_cases hnext : e = .reactorNext
      · subst hnext
        obtain ⟨⟨c, rest, reply, hreactor, hc⟩, hfleet, hcalls⟩ :=
          reactorNext_spec h hundisturbed
        refine hs.offered h hfleet rfl ?_ hcalls
        intro c' call hc'
        by_contra hne
        obtain ⟨rest', hreactor'⟩ := hs.sole c' call hc' hne
        rw [hreactor] at hreactor'
        cases hreactor'
        rw [hc] at hc'
        cases hc'
        exact hne rfl
      · have hother : ∀ c now fault, e ≠ .proceed c now fault := by
          intro c now fault heq
          exact hproceed ⟨c, now, fault, heq⟩
        have hunread : ∀ order, e ≠ .reactorRecv order := fun order heq => hrecv ⟨order, heq⟩
        obtain ⟨hreactor, hcalls, -⟩ := step_apart h hother hunread hnext
        refine hs.apart h hundisturbed hreactor ?_ ?_
        · rcases hcalls with hsame | ⟨call, hput, hnone⟩
          · exact .inl hsame
          · refine .inr ⟨s.nextCall, call, hput, hnone, ?_⟩
            intro call₀ hc₀
            have hlt := hs.held.call_lt s.nextCall call₀ hc₀
            exact absurd hlt (Nat.lt_irrefl _)
        · intro c now fault call heq hc
          exact absurd heq (hother c now fault)

end Supervisor

/-- Every act of the policy is on a crash that happened and is not over, and no act is repeated on a
crash. -/
def OneRestart (log : List CrashEntry) : Prop :=
  log.Nodup ∧ ∀ act id k, .acted act id k ∈ log → ∃ a, k = some a ∧ .crashed id a ∈ log

/-- Each crash is counted, announced and relaunched at most once and only while it lasts, as long as
the reactor takes up processes that are still crashed and no user comes between. -/
theorem one_crash_one_restart [Sha256] {t : Supervisor} {es : List SupervisorEvent}
    (hrun : supervisorMachine.run .init es = some t)
    (hes : supervisorMachine.Along Supervisor.Undisturbed .init es) :
    OneRestart (supervisorMachine.trace Supervisor.crashEntry .init es) := by
  have h : t.Attended ([] ++ supervisorMachine.trace Supervisor.crashEntry .init es) :=
    Machine.invariant_trace (I := Supervisor.Attended) (fun s log e t hundisturbed hs hstep =>
      Supervisor.attended_step hs hundisturbed hstep) Supervisor.attended_init hes hrun
  rw [List.nil_append] at h
  refine ⟨h.nodup, fun act id k hmem => ?_⟩
  obtain ⟨a, hk, hcrashed, -⟩ := h.acted act id k hmem
  exact ⟨a, hk, hcrashed⟩

/-- An `auto_restart` command crashes, and the channel drops the event before its crash. -/
def laggedCrash [Sha256] : List SupervisorEvent :=
  [.register (.command 1 [.rootDir] ⟨"npm start", none, false, true, [], []⟩),
    .setTrusted 1 (ProcessSpec.variantHash ⟨"npm start", none, false, true, [], []⟩) true,
    .launch .start 1, .proceed 0 0 none, .proceed 0 0 none, .proceed 0 0 none, .publish 0,
    .reactorRecv [], .move 0 .spawnTask, .attachJoin 0, .move 0 .poll, .move 0 .tryRecv,
    .move 0 (.spawn []), .advance 0, .publish 0, .move 0 (.childExit ⟨some 1, none⟩),
    .move 0 .exit, .advance 0, .publish 0, .overflow]

/-- The rescan finds the crash, and the policy relaunches the command. -/
def rescanCrash : List SupervisorEvent :=
  .reactorRecv [1] :: List.replicate 6 (.proceed 1 0 none) ++ [.reactorNext]

/-- The crash event the channel kept is read after the rescan. -/
def staleCrash : List SupervisorEvent :=
  .reactorRecv [] :: List.replicate 5 (.proceed 2 0 none)

theorem one_crash_one_restart_rescanned :
    letI := zeroSha
    ∃ t, supervisorMachine.run .init (laggedCrash ++ rescanCrash) = some t ∧
      .acted .relaunched 1 (some 0) ∈
        supervisorMachine.trace Supervisor.crashEntry .init (laggedCrash ++ rescanCrash) ∧
      OneRestart
        (supervisorMachine.trace Supervisor.crashEntry .init (laggedCrash ++ rescanCrash)) := by
  let _ := zeroSha
  refine ⟨_, rfl, ?_, ?_⟩
  · decide
  · apply one_crash_one_restart rfl
    decide

/-- The stale event has the policy count the crash again and announce a restart of a process that is
already starting. -/
theorem stale_crash_announced :
    letI := zeroSha
    ∃ t, supervisorMachine.run .init (laggedCrash ++ rescanCrash ++ staleCrash) = some t ∧
      t.fleet.registry.status 1 = some .starting ∧
      supervisorMachine.trace Supervisor.crashEntry .init
          (laggedCrash ++ rescanCrash ++ staleCrash) =
        [.crashed 1 0, .acted .counted 1 (some 0), .acted .announced 1 (some 0),
          .acted .relaunched 1 (some 0), .acted .counted 1 none, .acted .announced 1 none] ∧
      ¬OneRestart (supervisorMachine.trace Supervisor.crashEntry .init
        (laggedCrash ++ rescanCrash ++ staleCrash)) := by
  let _ := zeroSha
  have htrace : supervisorMachine.trace Supervisor.crashEntry .init
      (laggedCrash ++ rescanCrash ++ staleCrash) =
        [.crashed 1 0, .acted .counted 1 (some 0), .acted .announced 1 (some 0),
          .acted .relaunched 1 (some 0), .acted .counted 1 none, .acted .announced 1 none] := by
    decide
  refine ⟨_, rfl, rfl, htrace, ?_⟩
  rw [htrace]
  rintro ⟨-, hacts⟩
  obtain ⟨a, hk, -⟩ := hacts .counted 1 none (by decide)
  cases hk

end Soloist
