import Soloist.Notify.CrashWatch
import Soloist.Supervisor.Publications

/-! No crash is left to itself: while it stands the restart policy is on it, or is still to hear of
it, and what the policy does not take up the notification reactor announces. -/
open List Option Slots

namespace Soloist.Notify

/-- The reactor is on a signal about a process, of a level that is shown, the user elsewhere. -/
def Stage.Tells (kind : AttentionKind) (id : ProcessId) : Stage → Prop
  | idle => False
  | classified i trigger | admitted i trigger _ | viewed i trigger _ _ | surviving i trigger _ _ =>
    i = id ∧ trigger = .recognised kind
  | leveled i trigger _ _ level => i = id ∧ trigger = .recognised kind ∧ level = .all
  | decided alert => alert.process = id ∧ alert.kind = kind ∧ alert.delivery ≠ .suppressed
  | raising i k => i = id ∧ k = kind

theorem Stage.Tells.kind {stage : Stage} {kind : AttentionKind} {id : ProcessId}
    (h : stage.Tells kind id) : stage.kind = some kind := by
  cases stage with
  | idle => cases h
  | classified i trigger | admitted i trigger _ | viewed i trigger _ _ | surviving i trigger _ _ =>
    rw [Stage.kind, h.2]
    rfl
  | leveled i trigger _ _ level =>
    rw [Stage.kind, h.2.1]
    rfl
  | decided alert => exact congrArg some h.2.1
  | raising i k => exact congrArg some h.2

def CrashRecord.At (r : CrashRecord) : Call → Prop
  | .policyBegun id | .policyOpen id => id = r.process ∧ r.verdict = .waiting
  | .described .policy id _ | .trusted .policy id _ | .scheduled id _ _ | .relaunching id _ _
  | .exhausting id => id = r.process ∧ r.verdict = .retrying
  | .exhausted _ => r.verdict = .retrying ∧ r.outcome ≠ .standing
  | _ => False

namespace CrashWatch
variable {s t : CrashWatch} {e : SupervisorEvent} {core : Supervisor} {a : ActorId}
  {r r' : CrashRecord} {id : ProcessId} {call : Call}

def Unpublished (s : CrashWatch) (a : ActorId) (id : ProcessId) : Prop :=
  ∃ x source code, s.core.fleet.actors a = some x ∧
    x.outbox = some (.processStatusChanged id source .crashed code)

def Heralded (s : CrashWatch) (id : ProcessId) : Prop :=
  ∃ source code, .processStatusChanged id source .crashed code ∈ s.core.bus

structure Followed (s : CrashWatch) (a : ActorId) (r : CrashRecord) : Prop where
  ended : ∃ x, s.core.fleet.actors a = some x ∧ x.process = r.process ∧ ¬x.Live
  left : r.outcome ≠ .standing → s.core.fleet.crash r.process ≠ some a
  pursued : r.outcome = .standing → r.verdict.undecided = true →
    s.core.fleet.crash r.process = some a ∧
      (s.policyOn = some a ∨ s.Unpublished a r.process ∨ s.Heralded r.process)
  carried : r.verdict = .over → r.outcome ≠ .standing
  retrying : r.verdict = .retrying → s.policyOn = some a
  known : r.notice = .pending → s.Unpublished a r.process ∨
    (.processStatusChanged r.process .crashed, some a) ∈ s.notices ∨
      s.telling = some a ∧ s.notifier.stage.Tells .crashed r.process
  declined : r.outcome = .standing → r.verdict = .declined → r.notice = .alerted ∨
    r.notice = .pending ∧ (s.Survived a ∨ s.autoRestarts r.process = false ∧
      (s.Viewed a ∨ s.core.fleet.registry r.process ≠ none))
  spared : r.outcome = .standing → r.verdict = .waiting → r.notice = .spared →
    s.autoRestarts r.process = true
  present : r.outcome = .standing → r.verdict.undecided = true → r.notice ≠ .missed
  exhausted : r.outcome = .held → r.notice = .alerted ∨
    s.Viewed a ∧ s.notifier.stage.kind = some .restartExhausted ∨
      s.core.fleet.registry r.process ≠ none ∧ (s.holding = some a ∨
        (.restartExhausted r.process, some a) ∈ s.notices ∨
          s.telling = some a ∧ s.notifier.stage.Tells .restartExhausted r.process)

structure Watching (s : CrashWatch) : Prop where
  held : s.core.Held
  sole : s.core.Sole
  ordered : s.core.lagged = false
  flushed : s.notifier.events = []
  mail : ∀ a x id source code, s.core.fleet.actors a = some x →
    x.outbox = some (.processStatusChanged id source .crashed code) → x.process = id
  recorded : ∀ id a, s.core.fleet.crash id = some a → ∃ r, s.crashes a = some r ∧ r.process = id
  policy : ∀ a, s.policyOn = some a → ∃ r c rest call, s.crashes a = some r ∧
    s.core.reactor = .handling c rest ∧ s.core.calls c = some call ∧ r.At call
  holding : ∀ a, s.holding = some a → ∃ r c rest, s.crashes a = some r ∧ r.outcome = .held ∧
    s.core.reactor = .handling c rest ∧ s.core.calls c = some (.exhausted r.process)
  tells : ∀ event a, (event, some a) ∈ s.notices → ∃ r, s.crashes a = some r ∧
    (event = .processStatusChanged r.process .crashed ∨
      event = .restartExhausted r.process ∧ r.outcome = .held)
  told : ∀ a, s.telling = some a → s.notifier.stage ≠ .idle → ∃ r kind, s.crashes a = some r ∧
    s.notifier.stage.Tells kind r.process ∧
      (kind = .crashed ∨ kind = .restartExhausted ∧ r.outcome = .held)
  followed : ∀ a r, s.crashes a = some r → s.Followed a r

theorem watching_new (labels : ProcessId → String) : (new labels).Watching where
  held := Supervisor.held_init
  sole c call hc := by cases hc
  ordered := rfl
  flushed := rfl
  mail a x id source code hx := by cases hx
  recorded id a hcrash := by
    obtain ⟨m, join, hm, -⟩ := Fleet.crash_eq_some.mp hcrash
    cases hm
  policy a ha := by cases ha
  holding a ha := by cases ha
  tells event a hmem := by cases hmem
  told a ha := by cases ha
  followed a r hr := by cases hr

theorem coreStep_eq_some [Sha256] (h : s.coreStep e = some t) :
    ∃ core, s.core.step e = some core ∧ e ≠ .overflow ∧ t = s.after e core := by
  unfold coreStep at h
  split at h
  next => cases h
  next hoverflow =>
    obtain ⟨core, hcore, rfl⟩ := map_eq_some_iff.mp h
    exact ⟨core, hcore, hoverflow, rfl⟩

theorem after_notices [Sha256] (hs : s.Watching) (h : s.core.step e = some core)
    (hoverflow : e ≠ .overflow) : (s.after e core).notices =
      s.notices ++ (s.core.published e).map fun event => (noticeOf event, s.subject e event) := by
  have hdrop : core.bus.drop s.core.bus.length = s.core.published e := by
    by_cases hrecv : ∃ order, e = .reactorRecv order
    · obtain ⟨order, rfl⟩ := hrecv
      obtain ⟨-, event, rest, hbus, rfl⟩ := Supervisor.reactorRecv_ordered h hs.ordered
      rw [Supervisor.handle_bus, hbus]
      exact drop_of_length_le (Nat.le_succ _)
    · have hunread : ∀ order, e ≠ .reactorRecv order := fun order heq => hrecv ⟨order, heq⟩
      rw [(Supervisor.step_bus h hoverflow hunread).1]
      exact drop_left
  show s.notices ++ (core.bus.drop s.core.bus.length).map _ = _
  rw [hdrop]

theorem after_crashes (h : (s.after e core).crashes a = some r') :
    (∃ r, s.crashes a = some r ∧ r' = s.follow e core a r) ∨
      s.crashes a = none ∧ s.entered e core a = some r' := by
  have hor : ((s.crashes a).map (s.follow e core a)).or (s.entered e core a) = some r' := h
  cases hr : s.crashes a with
  | none =>
    rw [hr] at hor
    exact .inr ⟨rfl, hor⟩
  | some r =>
    rw [hr] at hor
    exact .inl ⟨r, rfl, (some.inj hor).symm⟩

theorem after_of_crashes (h : s.crashes a = some r) :
    (s.after e core).crashes a = some (s.follow e core a r) := by
  show ((s.crashes a).map (s.follow e core a)).or (s.entered e core a) = _
  rw [h]
  rfl

def Leaves (s : CrashWatch) (core : Supervisor) (a : ActorId) (id : ProcessId) : Prop :=
  s.core.fleet.crash id = some a ∧ core.fleet.crash id ≠ some a

section follow

theorem ending_ne : s.ending e ≠ .standing := by
  unfold ending
  split
  · intro h
    cases h
  · intro h
    cases h
  · intro h
    cases h

theorem leave_spec (outcome : Outcome) : (r.leave outcome).process = r.process ∧
    (r.leave outcome).verdict = r.verdict ∧ (r.leave outcome).notice = r.notice ∧
      ((r.leave outcome).outcome = outcome ∨
        outcome = .intervened ∧ r.verdict.undecided = false ∧ r.leave outcome = r) := by
  unfold CrashRecord.leave
  split_ifs with h
  · exact ⟨rfl, rfl, rfl, .inr ⟨h.1, h.2, rfl⟩⟩
  · exact ⟨rfl, rfl, rfl, .inl rfl⟩

theorem parted_spec : (s.parted e core a r).process = r.process ∧
    (s.parted e core a r).verdict = r.verdict ∧ (s.parted e core a r).notice = r.notice ∧
    (¬s.Leaves core a r.process → (s.parted e core a r).outcome = r.outcome) ∧
    (s.Leaves core a r.process → (s.parted e core a r).outcome = s.ending e ∨
      s.ending e = .intervened ∧ r.verdict.undecided = false ∧
        (s.parted e core a r).outcome = r.outcome) := by
  unfold parted
  split_ifs with hleaves
  · obtain ⟨hprocess, hverdict, hnotice, houtcome⟩ := leave_spec (r := r) (s.ending e)
    refine ⟨hprocess, hverdict, hnotice, fun hkept => absurd hleaves hkept, fun _ => ?_⟩
    rcases houtcome with hnew | ⟨hintervened, hdecided, hsame⟩
    · exact .inl hnew
    · exact .inr ⟨hintervened, hdecided, congrArg CrashRecord.outcome hsame⟩
  · exact ⟨rfl, rfl, rfl, fun _ => rfl, fun h => absurd h hleaves⟩

theorem follow_parted : (s.follow e core a r).process = (s.parted e core a r).process ∧
    (s.follow e core a r).notice = (s.parted e core a r).notice ∧
      (s.follow e core a r).outcome = (s.parted e core a r).outcome := by
  unfold follow
  split
  · split_ifs
    · exact ⟨rfl, rfl, rfl⟩
    · exact ⟨rfl, rfl, rfl⟩
  · exact ⟨rfl, rfl, rfl⟩

@[simp] theorem follow_process : (s.follow e core a r).process = r.process :=
  follow_parted.1.trans parted_spec.1

@[simp] theorem follow_notice : (s.follow e core a r).notice = r.notice :=
  follow_parted.2.1.trans parted_spec.2.2.1

theorem follow_kept (h : ¬s.Leaves core a r.process) :
    (s.follow e core a r).outcome = r.outcome :=
  follow_parted.2.2.trans (parted_spec.2.2.2.1 h)

theorem follow_left (h : s.Leaves core a r.process) :
    (s.follow e core a r).outcome = s.ending e ∨ s.ending e = .intervened ∧
      r.verdict.undecided = false ∧ (s.follow e core a r).outcome = r.outcome := by
  rw [follow_parted.2.2]
  exact parted_spec.2.2.2.2 h

theorem follow_judged (hcall : s.advancing e = some call) (ha : s.policyOn = some a) :
    (s.follow e core a r).verdict = s.judge r call (s.advanced core) := by
  unfold follow
  rw [hcall]
  simp only [if_pos ha]

theorem follow_verdict (h : s.advancing e = none ∨ s.policyOn ≠ some a) :
    (s.follow e core a r).verdict = r.verdict := by
  unfold follow
  split
  next call hcall =>
    rcases h with hnone | hother
    · rw [hcall] at hnone
      cases hnone
    · rw [if_neg hother]
      exact parted_spec.2.1
  next => exact parted_spec.2.1

theorem follow_standing (h : (s.follow e core a r).outcome = .standing) :
    r.outcome = .standing ∧ (r.verdict.undecided = true → ¬s.Leaves core a r.process) := by
  by_cases hleaves : s.Leaves core a r.process
  · rcases follow_left (e := e) hleaves with hnew | ⟨-, hdecided, hsame⟩
    · rw [hnew] at h
      exact absurd h ending_ne
    · rw [hsame] at h
      refine ⟨h, fun hundecided => ?_⟩
      rw [hdecided] at hundecided
      cases hundecided
  · rw [follow_kept hleaves] at h
    exact ⟨h, fun _ => hleaves⟩

end follow

section policy
variable {c : CallId} {now : Instant} {fault : Option StoreError} {rest : List ProcessId}

theorem advancing_eq_some (h : s.advancing e = some call) : ∃ c now fault rest,
    e = .proceed c now fault ∧ s.core.reactor = .handling c rest ∧
      s.core.calls c = some call := by
  unfold advancing at h
  split at h
  next c now fault =>
    split_ifs at h with hpolicy
    unfold policyCall at hpolicy
    split at hpolicy
    next => cases hpolicy
    next c' rest hreactor =>
      cases hpolicy
      exact ⟨c, now, fault, rest, rfl, hreactor, h⟩
  next => cases h

variable (h : s.core.reactor = .handling c rest)
include h

theorem policyCall_of_handling :
    s.policyCall = some c := by
  unfold policyCall
  rw [h]

theorem advancing_proceed :
    s.advancing (.proceed c now fault) = s.core.calls c := by
  unfold advancing
  exact if_pos (policyCall_of_handling h)

theorem advanced_of_handling :
    s.advanced core = core.calls c := by
  unfold advanced
  rw [policyCall_of_handling h]
  rfl

omit h

theorem not_leaves_of_fleet (h : core.fleet = s.core.fleet) : ¬s.Leaves core a id := by
  rintro ⟨hcrash, hgone⟩
  rw [h] at hgone
  exact hgone hcrash

theorem At.undecided (h : r.At call) : r.verdict.undecided = true := by
  cases call with
  | policyBegun i | policyOpen i =>
    rw [h.2]
    rfl
  | described kind i info | trusted kind i info =>
    cases kind with
    | policy =>
      rw [h.2]
      rfl
    | start | restart | resume | bulkStart => cases h
  | scheduled i info attempt | relaunching i info attempt | exhausting i =>
    rw [h.2]
    rfl
  | exhausted i =>
    rw [h.1]
    rfl
  | ready | stopping | closing | reaping | removed | reloading | returned => cases h

/-- Where the policy's call and the verdict stand after an access of the call. -/
inductive Judged (s : CrashWatch) (core : Supervisor) (r r' : CrashRecord) : Call → Prop
  | on (call : Call) (hcall : call.ended = false) (hat : r'.At call) : Judged s core r r' call
  | over (reply : Reply) (hverdict : r'.verdict = .over) (hleft : r'.outcome ≠ .standing) :
    Judged s core r r' (.returned reply)
  | declined (reply : Reply) (hverdict : r'.verdict = .declined) (hwaiting : r.verdict = .waiting)
      (hauto : s.autoRestarts r.process = false) (hfleet : core.fleet = s.core.fleet) :
    Judged s core r r' (.returned reply)

/-- The policy reads no `auto_restart` of the process in crash, or takes it up, or lets go. -/
theorem judged_read (reply : Reply) (hcall : s.advancing e = some call) (ha : s.policyOn = some a)
    (hread : call = .policyBegun r.process ∨ call = .policyOpen r.process)
    (hadvanced : s.advanced core = some (.returned reply)) (hwaiting : r.verdict = .waiting)
    (hfleet : core.fleet = s.core.fleet)
    (hauto : r.outcome = .standing → s.autoRestarts r.process = false) :
    s.Judged core r (s.follow e core a r) (.returned reply) := by
  have hverdict : (s.follow e core a r).verdict =
      if s.autoRestarts r.process then .over else .declined := by
    rw [follow_judged hcall ha, hadvanced]
    rcases hread with rfl | rfl
    · rfl
    · rfl
  by_cases hdeclared : s.autoRestarts r.process = true
  · rw [if_pos hdeclared] at hverdict
    refine .over reply hverdict fun hstanding => ?_
    rw [hauto (follow_standing hstanding).1] at hdeclared
    cases hdeclared
  · rw [if_neg hdeclared] at hverdict
    exact .declined reply hverdict hwaiting (Bool.eq_false_iff.mpr hdeclared) hfleet

theorem judged_over (reply : Reply) (hcall : s.advancing e = some call) (ha : s.policyOn = some a)
    (hread : (∀ i, call ≠ .policyBegun i) ∧ ∀ i, call ≠ .policyOpen i)
    (hadvanced : s.advanced core = some (.returned reply)) (hat : r.At call)
    (hleft : r.outcome = .standing → s.Leaves core a r.process) :
    s.Judged core r (s.follow e core a r) (.returned reply) := by
  have hverdict : (s.follow e core a r).verdict = .over := by
    rw [follow_judged hcall ha, hadvanced]
    unfold judge
    split
    next heq => cases heq
    next =>
      split
      next i => exact absurd rfl (hread.1 i)
      next i => exact absurd rfl (hread.2 i)
      next => rfl
    next heq => exact absurd rfl (heq reply)
  refine .over reply hverdict fun hstanding => ?_
  obtain ⟨hstands, hkept⟩ := follow_standing hstanding
  exact hkept (At.undecided hat) (hleft hstands)

theorem openPolicy_cases (s : CrashWatch) (id : ProcessId) :
    s.autoRestarts id = false ∧ s.core.openPolicy id = .returned (.policy .notEligible) ∨
      ∃ info, s.core.openPolicy id = .described .policy id info := by
  unfold Supervisor.openPolicy autoRestarts Registry.describe
  cases hm : s.core.fleet.registry id with
  | none => exact .inl ⟨rfl, rfl⟩
  | some m =>
    by_cases hauto : m.autoRestart = true
    · exact .inr ⟨m.info, if_pos hauto⟩
    · exact .inl ⟨Bool.eq_false_iff.mpr hauto, if_neg hauto⟩

theorem guardTrust_cases (s : CrashWatch) (id : ProcessId) (info : EntryInfo)
    (fault : Option StoreError) :
    (s.core.guardTrust c .policy id info fault).calls c = some (.trusted .policy id info) ∨
      ∃ reply, (s.core.guardTrust c .policy id info fault).calls c = some (.returned reply) ∧
        ∃ variant ∈ info.trustVariant,
          ¬(fault = none ∧ s.core.trust info.project variant = true) := by
  unfold Supervisor.guardTrust
  split
  · exact .inl put_self
  next variant failure hvariant =>
    refine .inr ⟨_, put_self, variant, hvariant, ?_⟩
    rintro ⟨hnone, -⟩
    cases hnone
  next variant hvariant =>
    split_ifs with htrust
    · exact .inl put_self
    · exact .inr ⟨_, put_self, variant, hvariant, fun hboth => htrust hboth.2⟩

theorem judged_step [Sha256] (hs : s.Watching) (hguard : s.Guarded (.core e))
    (h : s.core.step e = some core) (hcall : s.advancing e = some call)
    (ha : s.policyOn = some a) (hr : s.crashes a = some r) (hat : r.At call) :
    ∃ call', s.advanced core = some call' ∧ s.Judged core r (s.follow e core a r) call' := by
  obtain ⟨c, now, fault, rest, rfl, hreactor, hc⟩ := advancing_eq_some hcall
  have hproceed : s.core.proceed c now fault = some core := h
  have hadvanced : s.advanced core = core.calls c := advanced_of_handling hreactor
  have hverdict : ∀ call', core.calls c = some call' →
      (s.follow (.proceed c now fault) core a r).verdict = s.judge r call (some call') := by
    intro call' hcall'
    rw [follow_judged hcall ha, hadvanced, hcall']
  have hcrash := (hs.followed a r hr).pursued
  rw [hadvanced]
  have hguard : s.Retains fault call := hguard call hc
  unfold Supervisor.proceed at hproceed
  rw [hc] at hproceed
  cases call with
  | policyBegun i =>
    obtain ⟨rfl, hwaiting⟩ := hat
    dsimp only at hproceed
    split_ifs at hproceed with hdown
    · cases hproceed
      refine ⟨_, put_self, judged_read _ hcall ha (.inl rfl) ?_ hwaiting rfl ?_⟩
      · exact hadvanced.trans put_self
      · exact hguard hdown a ha r hr
    · cases hproceed
      refine ⟨_, put_self, .on _ rfl ⟨follow_process.symm, ?_⟩⟩
      exact (hverdict _ put_self).trans hwaiting
  | policyOpen i =>
    obtain ⟨rfl, hwaiting⟩ := hat
    cases hproceed
    refine ⟨_, put_self, ?_⟩
    rcases s.openPolicy_cases r.process with ⟨hauto, hopen⟩ | ⟨info, hopen⟩
    · have hadvanced := hadvanced.trans put_self
      rw [hopen] at hadvanced ⊢
      exact judged_read _ hcall ha (.inr rfl) hadvanced hwaiting rfl fun _ => hauto
    · have hverdict := hverdict _ put_self
      rw [hopen] at hverdict ⊢
      exact .on _ rfl ⟨follow_process.symm, hverdict⟩
  | described kind i info =>
    cases kind with
    | start | restart | resume | bulkStart => cases hat
    | policy =>
      obtain ⟨rfl, hretrying⟩ := hat
      rcases s.guardTrust_cases (c := c) r.process info fault with hpassed | ⟨reply, hrefused, hwhy⟩
      · have hcalls : core.calls c = some (.trusted .policy r.process info) := by
          rw [← some.inj hproceed]
          exact hpassed
        refine ⟨_, hcalls, .on _ rfl ⟨follow_process.symm, ?_⟩⟩
        exact (hverdict _ hcalls).trans hretrying
      · have hcalls : core.calls c = some (.returned reply) := by
          rw [← some.inj hproceed]
          exact hrefused
        refine ⟨_, hcalls, judged_over _ hcall ha ⟨nofun, nofun⟩ (hadvanced.trans hcalls) ⟨rfl, hretrying⟩ fun hstanding => ?_⟩
        obtain ⟨variant, hvariant, hdistrust⟩ := hwhy
        exact absurd (hguard a ha r hr hstanding variant hvariant) hdistrust
  | trusted kind i info =>
    cases kind with
    | start | restart | resume | bulkStart => cases hat
    | policy =>
      obtain ⟨rfl, hretrying⟩ := hat
      have hnext : (∃ attempt, core.calls c = some (.scheduled r.process info attempt)) ∨
          core.calls c = some (.exhausting r.process) := by
        rw [← some.inj hproceed]
        unfold Supervisor.afterTrusted
        dsimp only
        split
        · exact .inl ⟨_, put_self⟩
        · exact .inr put_self
      rcases hnext with ⟨attempt, hcalls⟩ | hcalls
      · exact ⟨_, hcalls, .on _ rfl ⟨follow_process.symm, (hverdict _ hcalls).trans hretrying⟩⟩
      · exact ⟨_, hcalls, .on _ rfl ⟨follow_process.symm, (hverdict _ hcalls).trans hretrying⟩⟩
  | scheduled i info attempt =>
    obtain ⟨rfl, hretrying⟩ := hat
    cases hproceed
    refine ⟨_, put_self, .on _ rfl ⟨follow_process.symm, ?_⟩⟩
    exact (hverdict _ put_self).trans hretrying
  | relaunching i info attempt =>
    obtain ⟨rfl, hretrying⟩ := hat
    obtain ⟨claimed, hcalls, -, -⟩ := Supervisor.launch_cases (some.inj hproceed)
    have hcalls : core.calls c = some (.returned (.policy (.restarted attempt))) := by
      rw [hcalls]
      exact put_self
    refine ⟨_, hcalls, judged_over _ hcall ha ⟨nofun, nofun⟩ (hadvanced.trans hcalls) ⟨rfl, hretrying⟩ fun hstanding => ?_⟩
    obtain ⟨hstands, -⟩ := hcrash hstanding (by rw [hretrying]; rfl)
    obtain ⟨fleet, hlaunch⟩ := Fleet.launchActor_of_crash
      (r := s.core.request c .policy r.process info) hstands
    refine ⟨hstands, ?_⟩
    have hgone := Fleet.crash_launchActor hlaunch
    rw [← some.inj hproceed]
    unfold Supervisor.launch
    rw [hlaunch]
    intro hcrashed
    have hnone : fleet.crash r.process = none := hgone
    rw [hnone] at hcrashed
    cases hcrashed
  | exhausting i =>
    obtain ⟨rfl, hretrying⟩ := hat
    dsimp only at hproceed
    by_cases hstands : r.outcome = .standing
    · obtain ⟨hcrashed, -⟩ := hcrash hstands (by rw [hretrying]; rfl)
      obtain ⟨m, hexhaust⟩ := Supervisor.crash_exhausted hcrashed
      rw [hexhaust] at hproceed
      cases hproceed
      refine ⟨_, put_self, .on _ rfl ⟨(hverdict _ put_self).trans hretrying, ?_⟩⟩
      intro hstanding
      refine (follow_standing hstanding).2 (by rw [hretrying]; rfl) ⟨hcrashed, fun hcrash' => ?_⟩
      obtain ⟨m', join, hm', hcrashed', -⟩ := Fleet.crash_eq_some.mp hcrash'
      have heq : m.withStatus .restartExhausted none = m' :=
        some.inj (put_self.symm.trans hm')
      rw [← heq] at hcrashed'
      cases hcrashed'
    · have hleft : (s.follow (.proceed c now fault) core a r).outcome ≠ .standing :=
        fun hstanding => hstands (follow_standing hstanding).1
      split at hproceed
      · cases hproceed
        exact ⟨_, put_self, .on _ rfl ⟨(hverdict _ put_self).trans hretrying, hleft⟩⟩
      · cases hproceed
        exact ⟨_, put_self, judged_over _ hcall ha ⟨nofun, nofun⟩
          (hadvanced.trans put_self) ⟨rfl, hretrying⟩ fun hstanding =>
            absurd hstanding hstands⟩
  | exhausted i =>
    cases hproceed
    refine ⟨_, put_self, judged_over _ hcall ha ⟨nofun, nofun⟩
      (hadvanced.trans put_self) hat fun hstanding => ?_⟩
    exact absurd hstanding hat.2
  | ready | stopping | closing | reaping | removed | reloading | returned => cases hat

end policy

section step
variable {c : CallId} {rest : List ProcessId}

theorem Watching.follow_ended (hs : s.Watching) (hr : s.crashes a = some r)
    (hleft : r.outcome ≠ .standing) : (s.follow e core a r).outcome = r.outcome :=
  follow_kept fun hleaves => (hs.followed a r hr).left hleft hleaves.1

theorem At.mono (h : r.At call) (hprocess : r'.process = r.process)
    (hverdict : r'.verdict = r.verdict)
    (houtcome : r'.outcome = .standing → r.outcome = .standing) : r'.At call := by
  cases call with
  | policyBegun i | policyOpen i | scheduled i info attempt | relaunching i info attempt
  | exhausting i => exact ⟨h.1.trans hprocess.symm, hverdict.trans h.2⟩
  | described kind i info | trusted kind i info =>
    cases kind with
    | policy => exact ⟨h.1.trans hprocess.symm, hverdict.trans h.2⟩
    | start | restart | resume | bulkStart => cases h
  | exhausted i => exact ⟨hverdict.trans h.1, fun hstanding => h.2 (houtcome hstanding)⟩
  | ready | stopping | closing | reaping | removed | reloading | returned => cases h

theorem At.not_returned {reply : Reply} (h : r.At call) : call ≠ .returned reply := by
  rintro rfl
  cases h

theorem Watching.kept [Sha256] (hs : s.Watching) (h : s.core.step e = some core)
    (hreactor : s.core.reactor = .handling c rest) (hc : s.core.calls c = some call)
    (hcall : ∀ reply, call ≠ .returned reply) (hapart : s.advancing e = none) :
    core.reactor = .handling c rest ∧ core.calls c = some call := by
  obtain ⟨hsame, hcalls⟩ := Supervisor.policy_kept hs.held h hreactor hc hcall (by
    rintro now fault rfl
    rw [advancing_proceed hreactor, hc] at hapart
    cases hapart)
  exact ⟨hsame.trans hreactor, hcalls⟩

theorem mail_step [Sha256] (hs : s.Watching) (h : s.core.step e = some core) {x : Actor}
    {source : ProcStatus} {code : Option Int} (hx : core.fleet.actors a = some x)
    (hout : x.outbox = some (.processStatusChanged id source .crashed code)) : x.process = id := by
  rcases Supervisor.step_fleet h with hsame | ⟨act, hact, -⟩
  · rw [hsame] at hx
    exact hs.mail a x id source code hx hout
  · rcases Fleet.step_actor hs.held.owned.manned hact hx with ⟨y, hy, hevolves⟩ | ⟨r, from', -, -, rfl⟩
    · have hold := hs.mail a y id source code hy
      cases hevolves with
      | same | attached => exact hold hout
      | toldStop | toldRestart | closed =>
        exact Actor.trySend_process.trans (hold (Actor.trySend_outbox.symm.trans hout))
      | advanced target code next hnone hpending =>
        cases hout
        rfl
      | published event hpublished => cases hout
      | moved mv x' hmoves =>
        rw [hmoves.same.1]
        exact hold (hmoves.outbox.symm.trans hout)
    · cases hout

theorem recorded_step [Sha256] (hs : s.Watching) (h : s.core.step e = some core)
    (hcrash : core.fleet.crash id = some a) :
    ∃ r, (s.after e core).crashes a = some r ∧ r.process = id := by
  have hold : ∀ r, s.crashes a = some r → r.process = id →
      ∃ r, (s.after e core).crashes a = some r ∧ r.process = id :=
    fun r hr hprocess => ⟨_, after_of_crashes hr, follow_process.trans hprocess⟩
  rcases Supervisor.step_fleet h with hsame | ⟨act, hact, hissues⟩
  · rw [hsame] at hcrash
    obtain ⟨r, hr, hprocess⟩ := hs.recorded id a hcrash
    exact hold r hr hprocess
  · rcases Fleet.crash_back hs.held.owned hact hcrash with hcrashed | ⟨x, code, next, rfl, hx, -, -, rfl⟩
    · obtain ⟨r, hr, hprocess⟩ := hs.recorded id a hcrashed
      exact hold r hr hprocess
    · cases hissues with
      | direct _ _ hacts =>
        cases hacts with
        | advance =>
          cases hr : s.crashes a with
          | some r =>
            obtain ⟨y, hy, hprocess, -⟩ := (hs.followed a r hr).ended
            obtain rfl : x = y := some.inj (hx.symm.trans hy)
            exact hold r hr hprocess.symm
          | none =>
            refine ⟨⟨x.process, .waiting, .standing, .pending⟩, ?_, rfl⟩
            show ((s.crashes a).map (s.follow (.advance a) core a)).or
              (s.entered (.advance a) core a) = _
            rw [hr]
            unfold entered
            rw [hx]
            exact if_pos ⟨rfl, hcrash⟩

theorem takenUp_eq_some [Sha256] {order : List ProcessId} (hs : s.Watching)
    (h : s.core.step (.reactorRecv order) = some core)
    (ha : s.takenUp (.reactorRecv order) = some a) : ∃ r, s.crashes a = some r ∧
      r.verdict = .waiting ∧ core.reactor = .handling s.core.nextCall [] ∧
        core.calls s.core.nextCall = some (.policyBegun r.process) := by
  obtain ⟨hbind, hundecided⟩ := filter_eq_some_iff.mp ha
  obtain ⟨id, htakes, hcrash⟩ := bind_eq_some_iff.mp hbind
  obtain ⟨r, hr, rfl⟩ := hs.recorded id a hcrash
  rw [hr] at hundecided
  have hundecided : r.verdict.undecided = true := hundecided
  obtain ⟨hidle, event, rest, hbus, rfl⟩ := Supervisor.reactorRecv_ordered h hs.ordered
  have hevent : ∃ source code, event = .processStatusChanged r.process source .crashed code := by
    unfold Supervisor.takesUp at htakes
    simp only [hs.ordered, hbus] at htakes
    split at htakes
    next i source code rest' heq hcons =>
      cases htakes
      cases hcons
      exact ⟨source, code, rfl⟩
    next => cases htakes
  obtain ⟨source, code, rfl⟩ := hevent
  refine ⟨r, hr, ?_, rfl, put_self⟩
  cases hverdict : r.verdict with
  | waiting => rfl
  | retrying =>
    obtain ⟨r', c, rest', call, -, hreactor, -⟩ :=
      hs.policy a ((hs.followed a r hr).retrying hverdict)
    rw [hidle] at hreactor
    cases hreactor
  | declined | «over» =>
    rw [hverdict] at hundecided
    cases hundecided

theorem policyNext_eq_some [Sha256] (ha : s.policyNext e core = some a) :
    (∃ order, e = .reactorRecv order ∧ s.takenUp e = some a) ∨
      s.policyOn = some a ∧ ¬((s.advancing e).isSome ∧ (s.advanced core).any Call.ended) := by
  unfold policyNext at ha
  split at ha
  next order => exact .inl ⟨order, rfl, ha⟩
  next =>
    split_ifs at ha with hended
    exact .inr ⟨ha, hended⟩

theorem policy_step [Sha256] (hs : s.Watching) (hguard : s.Guarded (.core e))
    (h : s.core.step e = some core) (hnext : (s.after e core).policyOn = some a) :
    ∃ r c rest call, (s.after e core).crashes a = some r ∧ core.reactor = .handling c rest ∧
      core.calls c = some call ∧ r.At call := by
  rcases policyNext_eq_some hnext with ⟨order, rfl, htaken⟩ | ⟨ha, hstands⟩
  · obtain ⟨r, hr, hwaiting, hreactor, hcalls⟩ := takenUp_eq_some hs h htaken
    refine ⟨_, _, _, _, after_of_crashes hr, hreactor, hcalls, follow_process.symm, ?_⟩
    exact (follow_verdict (.inl rfl)).trans hwaiting
  · obtain ⟨r, c, rest, call, hr, hreactor, hc, hat⟩ := hs.policy a ha
    cases hadvancing : s.advancing e with
    | none =>
      obtain ⟨hreactor', hc'⟩ :=
        hs.kept h hreactor hc (fun _ => At.not_returned hat) hadvancing
      refine ⟨_, c, rest, call, after_of_crashes hr, hreactor', hc', ?_⟩
      exact At.mono hat follow_process (follow_verdict (.inl hadvancing))
        fun hstanding => (follow_standing hstanding).1
    | some call₀ =>
      obtain ⟨c', now, fault, rest', rfl, hreactor', hc'⟩ := advancing_eq_some hadvancing
      rw [hreactor] at hreactor'
      cases hreactor'
      obtain rfl : call = call₀ := some.inj (hc.symm.trans hc')
      obtain ⟨call', hcalls, hjudged⟩ := judged_step hs hguard h hadvancing ha hr hat
      obtain ⟨_, _, _, haccessed⟩ := Supervisor.proceed_accessed h
      have hended : call'.ended = false := by
        rw [hadvancing, hcalls] at hstands
        exact Bool.eq_false_iff.mpr fun hended => hstands ⟨rfl, hended⟩
      rw [advanced_of_handling hreactor] at hcalls
      cases hjudged with
      | on _ _ hat' =>
        exact ⟨_, c, rest, call', after_of_crashes hr, haccessed.reactor.trans hreactor, hcalls,
          hat'⟩
      | «over» | declined => cases hended

theorem exhausting_step [Sha256] (h : s.core.step e = some core)
    (hadvancing : s.advancing e = some (.exhausting id)) (hcrash : s.core.fleet.crash id = some a) :
    s.Leaves core a id ∧ ∃ c rest, core.reactor = .handling c rest ∧
      core.calls c = some (.exhausted id) ∧ core.fleet.registry id ≠ none := by
  obtain ⟨c, now, fault, rest, rfl, hreactor, hc⟩ := advancing_eq_some hadvancing
  obtain ⟨m, hexhaust⟩ := Supervisor.crash_exhausted hcrash
  have hproceed : s.core.proceed c now fault = some core := h
  unfold Supervisor.proceed at hproceed
  simp only [hc, hexhaust, Option.some.injEq] at hproceed
  subst hproceed
  have hput : (s.core.fleet.registry.put id (m.withStatus .restartExhausted none)) id =
    some (m.withStatus .restartExhausted none) := put_self
  refine ⟨⟨hcrash, fun hcrash' => ?_⟩, c, rest, hreactor, put_self, ?_⟩
  · obtain ⟨m', join, hm', hcrashed', -⟩ := Fleet.crash_eq_some.mp hcrash'
    have heq : m.withStatus .restartExhausted none = m' := some.inj (hput.symm.trans hm')
    rw [← heq] at hcrashed'
    cases hcrashed'
  · intro hnone
    have hnone : s.core.fleet.registry.put id (m.withStatus .restartExhausted none) id = none :=
      hnone
    rw [hput] at hnone
    cases hnone

theorem ending_exhausting (h : s.advancing e = some (.exhausting id)) : s.ending e = .held := by
  unfold ending
  rw [h]

theorem holdingNext_eq_some (ha : s.holdingNext e core = some a) :
    (∃ id, s.advancing e = some (.exhausting id) ∧ s.core.fleet.crash id = some a) ∨
      s.holding = some a ∧ ∀ id, s.advancing e ≠ some (.exhausted id) := by
  unfold holdingNext at ha
  split at ha
  next id _ hadvancing _ => exact .inl ⟨id, hadvancing, ha⟩
  next => cases ha
  next hother _ => exact .inr ⟨ha, fun id hid => hother id hid⟩

variable (hs : s.Watching)
include hs

theorem holding_step [Sha256] (h : s.core.step e = some core)
    (hnext : (s.after e core).holding = some a) : ∃ r c rest, (s.after e core).crashes a = some r ∧
      r.outcome = .held ∧ core.reactor = .handling c rest ∧
        core.calls c = some (.exhausted r.process) := by
  rcases holdingNext_eq_some hnext with ⟨id, hadvancing, hcrash⟩ | ⟨ha, hapart⟩
  · obtain ⟨r, hr, rfl⟩ := hs.recorded id a hcrash
    obtain ⟨hleaves, c, rest, hreactor, hcalls, -⟩ := exhausting_step h hadvancing hcrash
    refine ⟨_, c, rest, after_of_crashes hr, ?_, hreactor, ?_⟩
    · rcases follow_left (e := e) hleaves with hheld | ⟨hintervened, -⟩
      · exact hheld.trans (ending_exhausting hadvancing)
      · rw [ending_exhausting hadvancing] at hintervened
        cases hintervened
    · rw [follow_process]
      exact hcalls
  · obtain ⟨r, c, rest, hr, hheld, hreactor, hc⟩ := hs.holding a ha
    have hnone : s.advancing e = none := by
      cases hadvancing : s.advancing e with
      | none => rfl
      | some call =>
        obtain ⟨c', now, fault, rest', rfl, hreactor', hc'⟩ := advancing_eq_some hadvancing
        rw [hreactor] at hreactor'
        cases hreactor'
        obtain rfl : call = .exhausted r.process := some.inj (hc'.symm.trans hc)
        exact absurd hadvancing (hapart r.process)
    obtain ⟨hreactor', hc'⟩ := hs.kept h hreactor hc nofun hnone
    refine ⟨_, c, rest, after_of_crashes hr, ?_, hreactor', ?_⟩
    · rw [hs.follow_ended hr (by rw [hheld]; exact Outcome.noConfusion)]
      exact hheld
    · rw [follow_process]
      exact hc'

theorem subject_eq_some [Sha256] {event : DomainEvent}
    (hevent : event ∈ s.core.published e) (ha : s.subject e event = some a) :
    ∃ r, s.crashes a = some r ∧ (noticeOf event = .processStatusChanged r.process .crashed ∨
      noticeOf event = .restartExhausted r.process ∧ r.outcome = .held) := by
  unfold subject at ha
  split at ha
  next i source code b =>
    obtain ⟨r, hr, hb⟩ := map_eq_some_iff.mp ha
    obtain rfl : b = a := hb
    obtain ⟨x, hx, hprocess, -⟩ := (hs.followed b r hr).ended
    have hout : x.outbox = some (.processStatusChanged i source .crashed code) := by
      have hpublished := mem_toList.mp hevent
      rw [hx] at hpublished
      exact hpublished
    refine ⟨r, hr, .inl ?_⟩
    rw [← hprocess, hs.mail b x i source code hx hout]
    rfl
  next i =>
    split_ifs at ha with hsome
    obtain ⟨call, hadvancing⟩ := isSome_iff_exists.mp hsome
    obtain ⟨r, c, rest, hr, hheld, hreactor, hc⟩ := hs.holding a ha
    obtain ⟨c', now, fault, rest', rfl, hreactor', hc'⟩ := advancing_eq_some hadvancing
    rw [hreactor] at hreactor'
    cases hreactor'
    rw [Supervisor.published_proceed hc] at hevent
    simp only [Supervisor.tells, mem_cons, not_mem_nil, or_false, reduceCtorEq,
      false_or, DomainEvent.restartExhausted.injEq] at hevent
    subst hevent
    exact ⟨r, hr, .inr ⟨rfl, hheld⟩⟩
  next => cases ha

theorem tells_step [Sha256] (h : s.core.step e = some core)
    (hoverflow : e ≠ .overflow) {event : NoticeEvent}
    (hmem : (event, some a) ∈ (s.after e core).notices) : ∃ r, (s.after e core).crashes a = some r ∧
      (event = .processStatusChanged r.process .crashed ∨
        event = .restartExhausted r.process ∧ r.outcome = .held) := by
  rw [after_notices hs h hoverflow] at hmem
  have hold : ∃ r, s.crashes a = some r ∧ (event = .processStatusChanged r.process .crashed ∨
      event = .restartExhausted r.process ∧ r.outcome = .held) := by
    rcases mem_append.mp hmem with hmem | hmem
    · exact hs.tells event a hmem
    · obtain ⟨published, hpublished, heq⟩ := List.mem_map.mp hmem
      obtain ⟨rfl, hsubject⟩ := Prod.mk.inj heq
      exact subject_eq_some hs hpublished hsubject
  obtain ⟨r, hr, hevent⟩ := hold
  refine ⟨_, after_of_crashes hr, ?_⟩
  rw [follow_process]
  rcases hevent with hcrashed | ⟨hexhausted, hheld⟩
  · exact .inl hcrashed
  · refine .inr ⟨hexhausted, ?_⟩
    rw [hs.follow_ended hr (by rw [hheld]; exact Outcome.noConfusion)]
    exact hheld

theorem told_step [Sha256] (ha : s.telling = some a)
    (hstage : s.notifier.stage ≠ .idle) : ∃ r kind, (s.after e core).crashes a = some r ∧
      s.notifier.stage.Tells kind r.process ∧
        (kind = .crashed ∨ kind = .restartExhausted ∧ r.outcome = .held) := by
  obtain ⟨r, kind, hr, htells, hkind⟩ := hs.told a ha hstage
  refine ⟨_, kind, after_of_crashes hr, follow_process.symm ▸ htells, ?_⟩
  rcases hkind with hcrashed | ⟨hexhausted, hheld⟩
  · exact .inl hcrashed
  · refine .inr ⟨hexhausted, ?_⟩
    rw [hs.follow_ended hr (by rw [hheld]; exact Outcome.noConfusion)]
    exact hheld

theorem Watching.on_policy (hcall : s.advancing e = some call)
    (ha : s.policyOn = some a) (hr : s.crashes a = some r) : r.At call := by
  obtain ⟨r', c, rest, call', hr', hreactor, hc, hat⟩ := hs.policy a ha
  obtain rfl : r = r' := some.inj (hr.symm.trans hr')
  obtain ⟨c', now, fault, rest', rfl, hreactor', hc'⟩ := advancing_eq_some hcall
  rw [hreactor] at hreactor'
  cases hreactor'
  obtain rfl : call = call' := some.inj (hc'.symm.trans hc)
  exact hat

variable (hguard : s.Guarded (.core e))
include hguard

theorem Watching.judged_or [Sha256]
    (h : s.core.step e = some core) (hr : s.crashes a = some r) :
    (s.follow e core a r).verdict = r.verdict ∧
        ¬(s.policyOn = some a ∧ (s.advancing e).isSome) ∨
      s.policyOn = some a ∧ r.verdict.undecided = true ∧ ∃ call', s.advanced core = some call' ∧
        s.Judged core r (s.follow e core a r) call' := by
  cases hcall : s.advancing e with
  | none => exact .inl ⟨follow_verdict (.inl hcall), fun h => by cases h.2⟩
  | some call =>
    by_cases ha : s.policyOn = some a
    · have hat := hs.on_policy hcall ha hr
      exact .inr ⟨ha, At.undecided hat, judged_step hs hguard h hcall ha hr hat⟩
    · exact .inl ⟨follow_verdict (.inr ha), fun h => ha h.1⟩

theorem Watching.undecided_back [Sha256]
    (h : s.core.step e = some core) (hr : s.crashes a = some r)
    (hundecided : (s.follow e core a r).verdict.undecided = true) : r.verdict.undecided = true := by
  rcases hs.judged_or hguard h hr with ⟨hsame, -⟩ | ⟨-, hr, -⟩
  · rw [hsame] at hundecided
    exact hundecided
  · exact hr

theorem Watching.policy_stays [Sha256]
    (h : s.core.step e = some core) (hr : s.crashes a = some r) (ha : s.policyOn = some a)
    (hundecided : (s.follow e core a r).verdict.undecided = true) :
    (s.after e core).policyOn = some a := by
  show s.policyNext e core = some a
  unfold policyNext
  split
  next order =>
    obtain ⟨r', c, rest, call, -, hreactor, -⟩ := hs.policy a ha
    obtain ⟨hidle, -⟩ := Supervisor.reactorRecv_ordered h hs.ordered
    rw [hidle] at hreactor
    cases hreactor
  next =>
    rw [if_neg]
    · exact ha
    rintro ⟨hadvancing, hended⟩
    rcases hs.judged_or hguard h hr with ⟨-, hapart⟩ | ⟨-, -, call', hadvanced, hjudged⟩
    · exact hapart ⟨ha, hadvancing⟩
    · rw [hadvanced] at hended
      have hended : call'.ended = true := hended
      cases hjudged with
      | on _ hcall hat =>
        rw [hcall] at hended
        cases hended
      | «over» reply hverdict hleft | declined reply hverdict hwaiting hauto hfleet =>
        rw [hverdict] at hundecided
        cases hundecided

theorem Watching.crash_after [Sha256]
    (h : s.core.step e = some core) (hr : s.crashes a = some r)
    (hstanding : (s.follow e core a r).outcome = .standing)
    (hundecided : (s.follow e core a r).verdict.undecided = true) :
    core.fleet.crash r.process = some a := by
  have hback := hs.undecided_back hguard h hr hundecided
  obtain ⟨hstands, hkept⟩ := follow_standing hstanding
  obtain ⟨hcrash, -⟩ := (hs.followed a r hr).pursued hstands hback
  by_contra hgone
  exact hkept hback ⟨hcrash, hgone⟩

omit hguard

theorem Watching.unpublished_step [Sha256] (h : s.core.step e = some core)
    (hr : s.crashes a = some r) (hunpublished : s.Unpublished a r.process) :
    (s.after e core).Unpublished a r.process ∨ e = .publish a ∧ ∃ source code,
      s.core.published e = [.processStatusChanged r.process source .crashed code] := by
  obtain ⟨x, source, code, hx, hout⟩ := hunpublished
  obtain ⟨y, hy, -, hended⟩ := (hs.followed a r hr).ended
  obtain rfl : x = y := some.inj (hx.symm.trans hy)
  obtain ⟨z, hz, -, -, hsame | ⟨rfl, -⟩⟩ := Supervisor.ended_outbox hs.held h hx hended
  · exact .inl ⟨z, source, code, hz, hsame.trans hout⟩
  · refine .inr ⟨rfl, source, code, ?_⟩
    show ((s.core.fleet.actors a).bind Actor.outbox).toList = _
    rw [hx, bind_some, hout]
    rfl

theorem Watching.heralded_step [Sha256] (h : s.core.step e = some core)
    (hoverflow : e ≠ .overflow) (hr : s.crashes a = some r)
    (hundecided : r.verdict.undecided = true) (hcrash : s.core.fleet.crash r.process = some a)
    (hheralded : s.Heralded r.process) :
    (s.after e core).policyOn = some a ∨ (s.after e core).Heralded r.process := by
  obtain ⟨source, code, hmem⟩ := hheralded
  by_cases hrecv : ∃ order, e = .reactorRecv order
  · obtain ⟨order, rfl⟩ := hrecv
    obtain ⟨hidle, event, rest, hbus, rfl⟩ := Supervisor.reactorRecv_ordered h hs.ordered
    rw [hbus] at hmem
    rcases mem_cons.mp hmem with heq | hrest
    · refine .inl ?_
      have htakes : s.core.takesUp (.reactorRecv order) = some r.process := by
        unfold Supervisor.takesUp
        rw [hs.ordered, hbus, ← heq]
      show ((s.core.takesUp (.reactorRecv order)).bind s.core.fleet.crash).filter _ = some a
      rw [htakes, bind_some, hcrash, filter_eq_some_iff]
      refine ⟨rfl, ?_⟩
      rw [hr]
      exact hundecided
    · refine .inr ⟨source, code, ?_⟩
      show _ ∈ (Supervisor.handle _ event).bus
      rw [Supervisor.handle_bus]
      exact hrest
  · have hunread : ∀ order, e ≠ .reactorRecv order := fun order heq => hrecv ⟨order, heq⟩
    refine .inr ⟨source, code, ?_⟩
    show _ ∈ core.bus
    rw [(Supervisor.step_bus h hoverflow hunread).1]
    exact mem_append_left _ hmem

theorem pursued_step [Sha256] (hguard : s.Guarded (.core e))
    (h : s.core.step e = some core) (hoverflow : e ≠ .overflow) (hr : s.crashes a = some r)
    (hstanding : (s.follow e core a r).outcome = .standing)
    (hundecided : (s.follow e core a r).verdict.undecided = true) :
    (s.after e core).policyOn = some a ∨ (s.after e core).Unpublished a r.process ∨
      (s.after e core).Heralded r.process := by
  have hback := hs.undecided_back hguard h hr hundecided
  obtain ⟨hcrash, hon | hunpublished | hheralded⟩ :=
    (hs.followed a r hr).pursued (follow_standing hstanding).1 hback
  · exact .inl (hs.policy_stays hguard h hr hon hundecided)
  · rcases hs.unpublished_step h hr hunpublished with hkept | ⟨rfl, source, code, hpublished⟩
    · exact .inr (.inl hkept)
    · refine .inr (.inr ⟨source, code, ?_⟩)
      show _ ∈ core.bus
      rw [(Supervisor.step_bus h hoverflow nofun).1, hpublished]
      exact mem_append_right _ (.head _)
  · rcases hs.heralded_step h hoverflow hr hback hcrash hheralded with hon | hkept
    · exact .inl hon
    · exact .inr (.inr hkept)

theorem known_step [Sha256] (h : s.core.step e = some core)
    (hoverflow : e ≠ .overflow) (hr : s.crashes a = some r) (hpending : r.notice = .pending) :
    (s.after e core).Unpublished a r.process ∨
      (.processStatusChanged r.process .crashed, some a) ∈ (s.after e core).notices ∨
        s.telling = some a ∧ s.notifier.stage.Tells .crashed r.process := by
  rw [after_notices hs h hoverflow]
  rcases (hs.followed a r hr).known hpending with hunpublished | hnotice | htelling
  · rcases hs.unpublished_step h hr hunpublished with hkept | ⟨rfl, source, code, hpublished⟩
    · exact .inl hkept
    · refine .inr (.inl (mem_append_right _ ?_))
      rw [hpublished]
      have hsubject : s.subject (.publish a)
          (.processStatusChanged r.process source .crashed code) = some a := by
        show (s.crashes a).map _ = some a
        rw [hr]
        rfl
      rw [map_singleton, hsubject]
      exact .head _
  · exact .inr (.inl (mem_append_left _ hnotice))
  · exact .inr (.inr htelling)

theorem Watching.actor_lt (hr : s.crashes a = some r) :
    a < s.core.fleet.nextActor ∧ r.process < s.core.fleet.nextProcess := by
  obtain ⟨x, hx, hprocess, -⟩ := (hs.followed a r hr).ended
  refine ⟨hs.held.owned.actor_lt a x hx, ?_⟩
  rw [← hprocess]
  exact hs.held.owned.process_lt a x hx

variable (hguard : s.Guarded (.core e))
include hguard

theorem Watching.declared_step [Sha256]
    (h : s.core.step e = some core) (hr : s.crashes a = some r) (hawaits : s.Awaits a r) :
    (s.after e core).autoRestarts r.process = s.autoRestarts r.process ∨
      core.fleet.registry r.process = none := by
  cases hm' : core.fleet.registry r.process with
  | none => exact .inr rfl
  | some m' =>
    have hafter : (s.after e core).autoRestarts r.process = m'.autoRestart := by
      show (core.fleet.registry r.process).any Managed.autoRestart = _
      rw [hm']
      rfl
    obtain ⟨hactor, hprocess⟩ := hs.actor_lt hr
    cases hm : s.core.fleet.registry r.process with
    | none =>
      rw [Supervisor.step_forgotten hs.held.owned h hprocess hm] at hm'
      cases hm'
    | some m =>
      have hbefore : s.autoRestarts r.process = m.autoRestart := by
        unfold autoRestarts
        rw [hm]
        rfl
      rcases Supervisor.step_autoRestart hs.held h hm hm' with
        hsame | ⟨c, now, fault, project, root, spec, rfl, hc, hspec⟩
      · exact .inl (hafter.trans (hsame.trans hbefore.symm))
      · refine .inl ((hafter.trans hspec).trans ?_)
        exact hguard _ hc a hactor r hr rfl hawaits

theorem Watching.registered_step [Sha256]
    (h : s.core.step e = some core) (hr : s.crashes a = some r) (howes : s.Owes a r)
    (hregistered : s.core.fleet.registry r.process ≠ none) :
    core.fleet.registry r.process ≠ none := by
  obtain ⟨m, hm⟩ := ne_none_iff_exists'.mp hregistered
  obtain ⟨hactor, -⟩ := hs.actor_lt hr
  rcases hs.held.step_gone h hm with ⟨m', hm'⟩ | ⟨rfl, -⟩ | ⟨rfl, hrest, -⟩
  · rw [hm']
    exact some_ne_none m'
  · exact absurd howes (hguard a hactor r hr rfl)
  · refine absurd howes (hguard ?_ a hactor r hr rfl)
    rw [Registry.status_eq_some hm, any_some, hrest]
    rfl

theorem declined_step [Sha256]
    (h : s.core.step e = some core) (hr : s.crashes a = some r)
    (hstanding : (s.follow e core a r).outcome = .standing)
    (hdeclined : (s.follow e core a r).verdict = .declined) : r.notice = .alerted ∨
      r.notice = .pending ∧ (s.Survived a ∨ (s.after e core).autoRestarts r.process = false ∧
        (s.Viewed a ∨ core.fleet.registry r.process ≠ none)) := by
  have hf := hs.followed a r hr
  obtain ⟨hstands, -⟩ := follow_standing hstanding
  rcases hs.judged_or hguard h hr with ⟨hsame, -⟩ | ⟨-, hundecided, call', -, hjudged⟩
  · rw [hsame] at hdeclined
    rcases hf.declined hstands hdeclined with halerted | ⟨hpending, hdeclared⟩
    · exact .inl halerted
    · refine .inr ⟨hpending, ?_⟩
      by_cases hsurvived : s.Survived a
      · exact .inl hsurvived
      · obtain hsurvived' | ⟨hauto, hseen⟩ := hdeclared
        · exact absurd hsurvived' hsurvived
        refine .inr ⟨?_, ?_⟩
        · have hawaits : s.Awaits a r := ⟨hstands, .inl ⟨hdeclined, hpending, hsurvived⟩⟩
          rcases hs.declared_step hguard h hr hawaits with hkept | hgone
          · rw [hkept]
            exact hauto
          · show (core.fleet.registry r.process).any Managed.autoRestart = false
            rw [hgone]
            rfl
        · by_cases hviewed : s.Viewed a
          · exact .inl hviewed
          · obtain hviewed' | hregistered := hseen
            · exact absurd hviewed' hviewed
            · exact .inr (hs.registered_step hguard h hr
                (.inl ⟨hstands, hdeclined, hpending, hviewed⟩) hregistered)
  · cases hjudged with
    | on _ _ hat =>
      have hundecided' := At.undecided hat
      rw [hdeclined] at hundecided'
      cases hundecided'
    | «over» reply hover =>
      rw [hdeclined] at hover
      cases hover
    | declined reply hverdict hwaiting hauto hfleet =>
      obtain ⟨hcrash, -⟩ := hf.pursued hstands hundecided
      have hregistered : core.fleet.registry r.process ≠ none := by
        obtain ⟨m, join, hm, -⟩ := Fleet.crash_eq_some.mp hcrash
        rw [hfleet, hm]
        exact some_ne_none m
      have hauto' : (s.after e core).autoRestarts r.process = false := by
        show (core.fleet.registry r.process).any Managed.autoRestart = false
        rw [hfleet]
        exact hauto
      cases hnotice : r.notice with
      | alerted => exact .inl rfl
      | pending => exact .inr ⟨rfl, .inr ⟨hauto', .inr hregistered⟩⟩
      | missed => exact absurd hnotice (hf.present hstands hundecided)
      | spared =>
        rw [hf.spared hstands hwaiting hnotice] at hauto
        cases hauto

theorem spared_step [Sha256]
    (h : s.core.step e = some core) (hr : s.crashes a = some r)
    (hstanding : (s.follow e core a r).outcome = .standing)
    (hwaiting : (s.follow e core a r).verdict = .waiting) (hspared : r.notice = .spared) :
    (s.after e core).autoRestarts r.process = true := by
  have hundecided : (s.follow e core a r).verdict.undecided = true := by
    rw [hwaiting]
    rfl
  have hcrash := hs.crash_after hguard h hr hstanding hundecided
  obtain ⟨hstands, -⟩ := follow_standing hstanding
  have hwaited : r.verdict = .waiting := by
    by_contra hne
    have hretrying : r.verdict = .retrying := by
      have hback := hs.undecided_back hguard h hr hundecided
      cases hverdict : r.verdict with
      | waiting => exact absurd hverdict hne
      | retrying => rfl
      | declined | «over» =>
        rw [hverdict] at hback
        cases hback
    cases hadvancing : s.advancing e with
    | none =>
      rw [follow_verdict (.inl hadvancing), hretrying] at hwaiting
      cases hwaiting
    | some call =>
      have ha := (hs.followed a r hr).retrying hretrying
      rw [follow_judged hadvancing ha] at hwaiting
      unfold judge at hwaiting
      split at hwaiting
      · cases hwaiting
      · split at hwaiting
        · split_ifs at hwaiting
        · split_ifs at hwaiting
        · cases hwaiting
      · rw [hretrying] at hwaiting
        cases hwaiting
  have hauto := (hs.followed a r hr).spared hstands hwaited hspared
  rcases hs.declared_step hguard h hr ⟨hstands, .inr ⟨hwaited, hspared⟩⟩ with hkept | hgone
  · exact hkept.trans hauto
  · obtain ⟨m, join, hm, -⟩ := Fleet.crash_eq_some.mp hcrash
    rw [hgone] at hm
    cases hm

omit hguard

theorem Watching.held_by [Sha256] (h : s.core.step e = some core)
    (hleaves : s.Leaves core a id) (hheld : s.ending e = .held) :
    s.advancing e = some (.exhausting id) := by
  have hcall : ∃ i, s.advancing e = some (.exhausting i) := by
    unfold ending at hheld
    split at hheld
    · cases hheld
    next i hadvancing => exact ⟨i, hadvancing⟩
    · cases hheld
  obtain ⟨i, hadvancing⟩ := hcall
  obtain ⟨c, now, fault, rest, rfl, hreactor, hc⟩ := advancing_eq_some hadvancing
  rcases Supervisor.step_fleet h with hsame | ⟨act, hact, hissues⟩
  · exact absurd hleaves (not_leaves_of_fleet hsame)
  rcases Fleet.crash_stays hs.held.owned hact hleaves.1 with
    hkept | rfl | rfl | rfl | ⟨request, rfl, -⟩
  · exact absurd hkept hleaves.2
  · cases hissues with
    | direct _ _ hacts => cases hacts
  · cases hissues with
    | direct _ _ hacts => cases hacts
  · cases hissues with
    | direct _ _ hacts => cases hacts
    | exhaust _ _ _ _ hc' =>
      rw [hc] at hc'
      cases hc'
      exact hadvancing
  · cases hissues with
    | direct _ _ hacts => cases hacts
    | launch _ _ _ kind i' info hclaims =>
      unfold Supervisor.claims at hclaims
      rw [hc] at hclaims
      cases hclaims

theorem exhausted_step [Sha256] (hguard : s.Guarded (.core e))
    (h : s.core.step e = some core) (hoverflow : e ≠ .overflow) (hr : s.crashes a = some r)
    (hheld : (s.follow e core a r).outcome = .held) : r.notice = .alerted ∨
      s.Viewed a ∧ s.notifier.stage.kind = some .restartExhausted ∨
        core.fleet.registry r.process ≠ none ∧ ((s.after e core).holding = some a ∨
          (.restartExhausted r.process, some a) ∈ (s.after e core).notices ∨
            s.telling = some a ∧ s.notifier.stage.Tells .restartExhausted r.process) := by
  have hf := hs.followed a r hr
  by_cases hbefore : r.outcome = .held
  · by_cases halerted : r.notice = .alerted
    · exact .inl halerted
    by_cases hviewed : s.Viewed a ∧ s.notifier.stage.kind = some .restartExhausted
    · exact .inr (.inl hviewed)
    obtain halerted' | hviewed' | ⟨hregistered, hnews⟩ := hf.exhausted hbefore
    · exact absurd halerted' halerted
    · exact absurd hviewed' hviewed
    have howes : s.Owes a r := .inr ⟨hbefore, halerted, hviewed⟩
    refine .inr (.inr ⟨hs.registered_step hguard h hr howes hregistered, ?_⟩)
    rw [after_notices hs h hoverflow]
    rcases hnews with hholding | hnotice | htelling
    · obtain ⟨r', c, rest, hr', -, hreactor, hc⟩ := hs.holding a hholding
      obtain rfl : r = r' := some.inj (hr.symm.trans hr')
      cases hadvancing : s.advancing e with
      | none =>
        refine .inl ?_
        show s.holdingNext e core = some a
        unfold holdingNext
        rw [hadvancing]
        exact hholding
      | some call =>
        obtain ⟨c', now, fault, rest', rfl, hreactor', hc'⟩ := advancing_eq_some hadvancing
        rw [hreactor] at hreactor'
        cases hreactor'
        refine .inr (.inl (mem_append_right _ ?_))
        rw [Supervisor.published_proceed hc]
        refine List.mem_map.mpr ⟨.restartExhausted r.process, ?_, ?_⟩
        · exact .tail _ (.head _)
        · have hsubject : s.subject (.proceed c now fault) (.restartExhausted r.process) = some a := by
            show (if (s.advancing (.proceed c now fault)).isSome then s.holding else none) = some a
            rw [hadvancing]
            exact hholding
          rw [hsubject]
          rfl
    · exact .inr (.inl (mem_append_left _ hnotice))
    · exact .inr (.inr htelling)
  · have hleaves : s.Leaves core a r.process := by
      by_contra hkept
      exact hbefore ((follow_kept hkept).symm.trans hheld)
    have hending : s.ending e = .held := by
      rcases follow_left (e := e) hleaves with hnew | ⟨-, -, hsame⟩
      · exact hnew.symm.trans hheld
      · exact absurd (hsame.symm.trans hheld) hbefore
    have hadvancing := hs.held_by h hleaves hending
    obtain ⟨-, c, rest, hreactor, hcalls, hregistered⟩ := exhausting_step h hadvancing hleaves.1
    refine .inr (.inr ⟨hregistered, .inl ?_⟩)
    show s.holdingNext e core = some a
    have hadvanced : s.advanced core = some (.exhausted r.process) := by
      obtain ⟨c', now, fault, rest', rfl, hreactor', -⟩ := advancing_eq_some hadvancing
      obtain ⟨_, _, _, haccessed⟩ := Supervisor.proceed_accessed h
      rw [haccessed.reactor, hreactor'] at hreactor
      cases hreactor
      rw [advanced_of_handling hreactor']
      exact hcalls
    unfold holdingNext
    rw [hadvancing, hadvanced]
    exact hleaves.1

theorem followed_step [Sha256] (hguard : s.Guarded (.core e))
    (h : s.core.step e = some core) (hoverflow : e ≠ .overflow) (hr : s.crashes a = some r) :
    (s.after e core).Followed a (s.follow e core a r) := by
  have hf := hs.followed a r hr
  obtain ⟨x, hx, hprocess, hended⟩ := hf.ended
  constructor
  · obtain ⟨y, hy, hprocess', hended', -⟩ := Supervisor.ended_outbox hs.held h hx hended
    exact ⟨y, hy, hprocess'.trans (hprocess.trans follow_process.symm), hended'⟩
  · rw [follow_process]
    intro hleft hcrash
    have hbefore := Supervisor.crash_of_ended hs.held h hx hended hcrash
    have hkept : (s.follow e core a r).outcome = r.outcome :=
      follow_kept fun hleaves => hleaves.2 hcrash
    rw [hkept] at hleft
    exact hf.left hleft hbefore
  · rw [follow_process]
    intro hstanding hundecided
    exact ⟨hs.crash_after hguard h hr hstanding hundecided,
      pursued_step hs hguard h hoverflow hr hstanding hundecided⟩
  · intro hover
    rcases hs.judged_or hguard h hr with ⟨hsame, -⟩ | ⟨-, -, call', -, hjudged⟩
    · rw [hsame] at hover
      rw [hs.follow_ended hr (hf.carried hover)]
      exact hf.carried hover
    · cases hjudged with
      | on _ _ hat =>
        have hundecided := At.undecided hat
        rw [hover] at hundecided
        cases hundecided
      | «over» reply hverdict hleft => exact hleft
      | declined reply hverdict =>
        rw [hover] at hverdict
        cases hverdict
  · intro hretrying
    have hundecided : (s.follow e core a r).verdict.undecided = true := by
      rw [hretrying]
      rfl
    have ha : s.policyOn = some a := by
      rcases hs.judged_or hguard h hr with ⟨hsame, -⟩ | ⟨ha, -⟩
      · exact hf.retrying (hsame.symm.trans hretrying)
      · exact ha
    exact hs.policy_stays hguard h hr ha hundecided
  · rw [follow_notice, follow_process]
    exact known_step hs h hoverflow hr
  · rw [follow_notice, follow_process]
    exact declined_step hs hguard h hr
  · rw [follow_notice, follow_process]
    exact spared_step hs hguard h hr
  · rw [follow_notice]
    intro hstanding hundecided
    exact hf.present (follow_standing hstanding).1 (hs.undecided_back hguard h hr hundecided)
  · rw [follow_notice, follow_process]
    exact exhausted_step hs hguard h hoverflow hr

theorem followed_entered [Sha256] (h : s.core.step e = some core)
    (hnone : s.crashes a = none) (hentered : s.entered e core a = some r) :
    (s.after e core).Followed a r := by
  unfold entered at hentered
  split at hentered
  next b x hx =>
    split_ifs at hentered with hcrash
    obtain ⟨rfl, hcrash⟩ := hcrash
    cases hentered
    have hnew : s.core.crashEntry (.advance a) = some (.crashed x.process a) := by
      rcases Supervisor.crash_recorded hs.held h hcrash with hold | hnew
      · obtain ⟨r, hr, -⟩ := hs.recorded _ _ hold
        rw [hnone] at hr
        cases hr
      · exact hnew
    obtain ⟨-, y, hy, hended⟩ := Supervisor.crashEntry_crashed hs.held h hnew
    obtain ⟨hprocess, source, code, hout⟩ : y.process = x.process ∧ ∃ source code,
        y.outbox = some (.processStatusChanged x.process source .crashed code) := by
      obtain ⟨x', hx', hof⟩ := bind_eq_some_iff.mp hnew
      obtain ⟨-, -, code, next, hpending⟩ := Supervisor.crashOf_eq_some hof
      obtain ⟨fleet, hfleet, rfl⟩ := map_eq_some_iff.mp h
      obtain ⟨x'', target, code', next', hx'', -, hpending', rfl⟩ :=
        Fleet.advance_eq_some hs.held.owned.manned hfleet
      obtain rfl : x' = x'' := some.inj (hx'.symm.trans hx'')
      obtain rfl : x = x' := some.inj (hx.symm.trans hx')
      have hsame : (ProcStatus.crashed, code, next) = (target, code', next') :=
        some.inj (hpending.symm.trans hpending')
      cases hsame
      rw [← some.inj (put_self.symm.trans hy)]
      exact ⟨rfl, _, _, rfl⟩
    have hunpublished : (s.after (.advance a) core).Unpublished a x.process :=
      ⟨y, source, code, hy, hout⟩
    constructor
    · exact ⟨y, hy, hprocess, hended⟩
    · intro hleft
      exact absurd rfl hleft
    · intro _ _
      exact ⟨hcrash, .inr (.inl hunpublished)⟩
    · intro hover
      cases hover
    · intro hretrying
      cases hretrying
    · intro _
      exact .inl hunpublished
    · intro _ hdeclined
      cases hdeclined
    · intro _ _ hspared
      cases hspared
    · intro _ _ hmissed
      cases hmissed
    · intro hheld
      cases hheld
  next => cases hentered

theorem watching_core [Sha256] (hguard : s.Guarded (.core e))
    (h : s.core.step e = some core) (hoverflow : e ≠ .overflow) : (s.after e core).Watching where
  held := Supervisor.held_step hs.held h
  sole := Supervisor.sole_step hs.sole h hoverflow
  ordered := Supervisor.lagged_step h hoverflow hs.ordered
  flushed := hs.flushed
  mail a x id source code hx hout := mail_step hs h hx hout
  recorded id a hcrash := recorded_step hs h hcrash
  policy a ha := policy_step hs hguard h ha
  holding a ha := holding_step hs h ha
  tells event a hmem := tells_step hs h hoverflow hmem
  told a ha hstage := told_step hs ha hstage
  followed a r' hr' := by
    rcases after_crashes hr' with ⟨r, hr, rfl⟩ | ⟨hnone, hentered⟩
    · exact followed_step hs hguard h hoverflow hr
    · exact followed_entered hs h hnone hentered

omit hs

end step

end CrashWatch
end Soloist.Notify
