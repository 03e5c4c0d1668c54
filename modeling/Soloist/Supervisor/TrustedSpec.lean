import Soloist.Supervisor.LaunchSpec

/-! Trust of the spec that runs: every launch path checks a variant next to the spec it launches,
and what a live actor respawns is the spec it was launched with. -/
namespace Soloist

/-- A command's launch spec and variant come from one `solo.yml` spec, and it has no session to
resume. -/
def EntryInfo.Gated [Sha256] (info : EntryInfo) : Prop :=
  info.kind = .command → info.resumeCommand = none ∧ ∃ project root spec,
    info.launch = (Registration.command project root spec).launch ∧
      info.trustVariant = some spec.variantHash

structure Request.Checked [Sha256] (r : Request) (checks : List (CallId × ProjectId × Hash)) :
    Prop where
  gated : r.kind = .command → ∃ project root spec,
    r.launch = (Registration.command project root spec).launch ∧
      r.variant = some spec.variantHash
  passed : ∀ v, r.variant = some v → (r.call, r.project, v) ∈ checks

namespace Managed
variable [Sha256]

theorem gated_register (r : Registration) : (register r).info.Gated := by
  intro hkind
  cases r with
  | command project root spec => exact ⟨rfl, project, root, spec, rfl, rfl⟩
  | launched project kind launch resumeCommand => exact absurd hkind kind.property

theorem gated_withSpec {m : Managed} (h : m.info.Gated) (project : ProjectId) (root : PathBuf)
    (spec : ProcessSpec) : (m.withSpec (.command project root spec)).info.Gated := by
  intro hkind
  exact ⟨(h hkind).1, project, root, spec, rfl, rfl⟩

end Managed

namespace Supervisor
variable [Sha256] {s t : Supervisor} {e : SupervisorEvent}

/-- What trust rests on in every reachable state. -/
structure Checked (s : Supervisor) : Prop where
  entries : ∀ id m, s.fleet.registry id = some m → m.info.Gated
  reads : ∀ c call kind id info, s.calls c = some call →
    call.launchInfo = some (kind, id, info) → info.Gated
  passed : ∀ c call kind id info, s.calls c = some call →
    call.launchInfo = some (kind, id, info) → call.checked = true →
      ∀ v, info.trustVariant = some v → (c, info.project, v) ∈ s.checks
  requests : ∀ r, s.fleet.Mentions r → r.Checked s.checks

variable {id : ProcessId}

theorem gated_entries (h : s.Checked) (howned : s.fleet.Owned) (hstep : s.step e = some t)
    {m : Managed} (hm : t.fleet.registry id = some m) : m.info.Gated := by
  rcases step_fleet hstep with hsame | ⟨act, hact, hissues⟩
  · rw [hsame] at hm
    exact h.entries id m hm
  · rcases Fleet.step_entry howned.manned hact hm with ⟨m₀, hm₀, hevolves⟩ | ⟨r, -, -, rfl⟩
    · have hgated := h.entries id m₀ hm₀
      cases hevolves with
      | same | exhausted | claimed | attached | advanced => exact hgated
      | updated r =>
        cases hissues with
        | direct _ _ hacts => cases hacts
        | reload c now fault i project root spec hc =>
          exact Managed.gated_withSpec hgated project root spec
    · exact Managed.gated_register r

variable {c : CallId} {call : Call} {kind : LaunchKind} {info : EntryInfo}

theorem checked_calls (h : s.Checked) (hstep : s.step e = some t) (hc : t.calls c = some call)
    (hinfo : call.launchInfo = some (kind, id, info)) :
    info.Gated ∧ (call.checked = true →
      ∀ v, info.trustVariant = some v → (c, info.project, v) ∈ t.checks) := by
  rcases step_cases hstep with
    ⟨c', now, fault, before, after, rfl, hbefore, hcalls, hgrow, hproceeds⟩ | hoccurs
  · have hchecks := hgrow.subset
    rw [hcalls] at hc
    rcases Slots.put_eq_some.mp hc with ⟨rfl, rfl⟩ | ⟨-, hc⟩
    · cases hproceeds with
      | guarded kind' id' info' hfleet hchecked =>
        rw [Call.launchInfo_afterTrust] at hinfo
        cases hinfo
        exact ⟨h.reads c _ kind id info hbefore rfl, fun _ => hchecked⟩
      | cleared kind' id' info' hkind hfleet | decided id' info' attempt hfleet
      | announced id' info' attempt hfleet =>
        cases hinfo
        exact ⟨h.reads c _ _ id info hbefore rfl,
          fun _ v hv => hchecks (h.passed c _ _ id info hbefore rfl rfl v hv)⟩
      | opened id' info' hfleet hread hauto =>
        cases hinfo
        obtain ⟨m, hm, rfl⟩ := Option.map_eq_some_iff.mp hread
        exact ⟨h.entries id m hm, Bool.noConfusion⟩
      | exhausted _ _ hplain hfleet =>
        rw [hplain.launchInfo] at hinfo
        cases hinfo
      | plain _ _ hplain htaken hfleet =>
        rw [hplain.launchInfo] at hinfo
        cases hinfo
      | launched | messaged | relaunched | stopped | closed | reloaded => cases hinfo
    · exact ⟨h.reads c call kind id info hc hinfo,
        fun hpast v hv => hchecks (h.passed c call kind id info hc hinfo hpast v hv)⟩
  · have hold : s.calls c = some call → info.Gated ∧ (call.checked = true →
        ∀ v, info.trustVariant = some v → (c, info.project, v) ∈ t.checks) := by
      intro hc
      rw [hoccurs.checks]
      exact ⟨h.reads c call kind id info hc hinfo, h.passed c call kind id info hc hinfo⟩
    rcases hoccurs.calls with ⟨hsame, -⟩ | ⟨call', hcalls, -, hbegins⟩
    · exact hold (hsame ▸ hc)
    · rw [hcalls] at hc
      rcases Slots.put_eq_some.mp hc with ⟨-, rfl⟩ | ⟨-, hc⟩
      · cases hbegins with
        | read kind' id' m hkind hm =>
          cases hinfo
          exact ⟨h.entries id m hm, Bool.noConfusion⟩
        | closing id' m hm => cases hinfo
        | plain _ _ hplain =>
          rw [hplain.launchInfo] at hinfo
          cases hinfo
      · exact hold hc

theorem checked_request (h : s.Checked) (hc : s.calls c = some call)
    (hinfo : call.launchInfo = some (kind, id, info)) (hpast : call.checked = true) :
    (s.request c kind id info).Checked s.checks := by
  constructor
  · intro hkind
    obtain ⟨hresume, project, root, spec, hlaunch, hvariant⟩ :=
      h.reads c call kind id info hc hinfo hkind
    refine ⟨project, root, spec, ?_, hvariant⟩
    have hspec : kind.spec info = info.launch := by
      unfold LaunchKind.spec
      rw [hresume]
      cases kind <;> rfl
    exact hspec.trans hlaunch
  · exact h.passed c call kind id info hc hinfo hpast

theorem step_checks (hstep : s.step e = some t) : s.checks ⊆ t.checks := by
  rcases step_cases hstep with ⟨c, now, fault, call, call', -, -, -, hgrow, -⟩ | hoccurs
  · exact hgrow.subset
  · rw [hoccurs.checks]
    exact List.Subset.refl _

theorem checked_step (h : s.Checked) (howned : s.fleet.Owned) (hstep : s.step e = some t) :
    t.Checked where
  entries id m hm := gated_entries h howned hstep hm
  reads c call kind id info hc hinfo := (checked_calls h hstep hc hinfo).1
  passed c call kind id info hc hinfo := (checked_calls h hstep hc hinfo).2
  requests r hr := by
    have hmono : ∀ q : Request, q.Checked s.checks → q.Checked t.checks :=
      fun q hq => ⟨hq.gated, fun v hv => step_checks hstep (hq.passed v hv)⟩
    rcases step_fleet hstep with hsame | ⟨act, hact, hissues⟩
    · rw [hsame] at hr
      exact hmono r (h.requests r hr)
    · rcases Fleet.step_mentions howned hact hr with hr | ⟨hacts | hacts, -⟩
      · exact hmono r (h.requests r hr)
      · subst hacts
        cases hissues with
        | direct _ _ hacts => cases hacts
        | launch c now fault kind id info hclaims =>
          obtain ⟨call, hc, hinfo, hpast⟩ := claims_eq_some hclaims
          exact hmono _ (checked_request h hc hinfo hpast)
      · subst hacts
        cases hissues with
        | direct _ _ hacts => cases hacts
        | restart c now fault id info hc hactive =>
          exact hmono _ (checked_request h hc rfl rfl)

theorem checked_init : init.Checked := by
  constructor
  · intro id m hm
    cases hm
  · intro c call kind id info hc
    cases hc
  · intro c call kind id info hc
    cases hc
  · rintro r (⟨a, x, hx, -⟩ | ⟨sp, hsp, -⟩)
    · cases hx
    · cases hsp

theorem checked_of_reachable (h : supervisorMachine.Reachable s) : s.Checked := by
  have hboth : s.fleet.Owned ∧ s.Checked := by
    refine h.invariant (P := fun s => s.fleet.Owned ∧ s.Checked) ?_ ?_
    · intro s hs
      rw [hs]
      exact ⟨Fleet.owned_empty, checked_init⟩
    · intro s e t hs hstep
      exact ⟨owned_step hs.1 hstep, checked_step hs.2 hs.1 hstep⟩
  exact hboth.2

/-- Every restart taken off a mailbox was sent by a call that checked the variant the actor was
launched with. -/
def TakesCheckedVariant (s : Supervisor) (e : SupervisorEvent) : Prop :=
  ∀ p ∈ s.takes e, p.2.variant = p.1.origin.variant

instance (s : Supervisor) (e : SupervisorEvent) : Decidable (s.TakesCheckedVariant e) :=
  inferInstanceAs (Decidable (∀ p ∈ s.takes e, p.2.variant = p.1.origin.variant))

end Supervisor

/-- The two specs of a `solo.yml` edit. -/
def startSpec : ProcessSpec := ⟨"npm start", none, false, false, [], []⟩
def devSpec : ProcessSpec := ⟨"npm run dev", none, false, false, [], []⟩

@[reducible] def editSha : Sha256 where
  digest input :=
    if input.length = 42 then
      ⟨#[130, 179, 105, 48, 153, 88, 221, 253, 177, 238, 133, 53, 98, 168, 52, 254, 38, 145, 5, 111,
        34, 128, 118, 156, 136, 22, 244, 115, 225, 65, 79, 205], rfl⟩
    else
      ⟨#[147, 131, 184, 212, 76, 43, 7, 165, 0, 66, 121, 139, 168, 153, 117, 71, 141, 241, 126, 28,
        2, 248, 174, 179, 115, 99, 21, 7, 126, 242, 240, 58], rfl⟩

def startCommand [Sha256] : List SupervisorEvent :=
  [.register (.command 1 [.rootDir] startSpec), .setTrusted 1 startSpec.variantHash true,
    .launch .start 1, .proceed 0 0 none, .proceed 0 0 none, .proceed 0 0 none,
    .publish 0, .move 0 .spawnTask, .attachJoin 0, .move 0 .poll, .move 0 .tryRecv,
    .move 0 (.spawn []), .advance 0, .publish 0]

/-- Its spec is edited and the new variant trusted in place of the old one. -/
def reloadCommand [Sha256] : List SupervisorEvent :=
  [.setTrusted 1 startSpec.variantHash false, .setTrusted 1 devSpec.variantHash true,
    .reload 1 1 [.rootDir] devSpec, .proceed 1 0 none]

/-- The call `c` restarts the running command: its actor cycles in place. -/
def restartCommand (c : CallId) : List SupervisorEvent :=
  [.launch .restart 1, .proceed c 0 none, .proceed c 0 none, .proceed c 0 none,
    .move 0 .recv, .advance 0, .publish 0, .move 0 .reap, .advance 0, .publish 0,
    .move 0 .tryRecv, .move 0 (.spawn [])]

/-- A command's child runs a spec whose variant every request that led to it had checked. -/
structure Spawn.RunsChecked [Sha256] (sp : Spawn) (checks : List (CallId × ProjectId × Hash)) :
    Prop where
  launched : ∃ project root spec,
    sp.launch = (Registration.command project root spec).launch ∧
      sp.origin.variant = some spec.variantHash
  spec : ∃ captured, sp.spec = sp.launch.child sp.process captured
  asked : sp.causes ≠ []
  checked : ∀ r ∈ sp.causes, r.process = sp.process ∧ r.variant = sp.origin.variant ∧
    ∀ v, r.variant = some v → (r.call, r.project, v) ∈ checks

/-- Whatever the interleaving of launches, reloads and trust changes, if each restart an actor
takes had checked the variant the actor was launched with, every child of a command runs a spec
that passed the trust check of what caused it. -/
theorem spawn_runs_checked [Sha256] {s : Supervisor}
    (h : supervisorMachine.ReachableUnder Supervisor.TakesCheckedVariant s) {sp : Spawn}
    (hsp : sp ∈ s.fleet.spawns) (hkind : sp.origin.kind = .command) :
    sp.RunsChecked s.checks := by
  have hchecked := Supervisor.checked_of_reachable h.reachable
  have hmatched : s.fleet.Matched fun o r => r.variant = o.variant := by
    refine Supervisor.matched_of_reachableUnder ?_ h
    intro s e act _ hguard hissues
    refine Supervisor.admits_of_issues hissues ?_ ?_
    · intro c now fault kind id info _ _ _
      rfl
    · intro x r htakes
      exact hguard (x, r) htakes
  have horigin := hchecked.requests sp.origin (.inr ⟨sp, hsp, .inl rfl⟩)
  have hm := hmatched.spawns sp hsp
  constructor
  · obtain ⟨project, root, spec, hlaunch, hvariant⟩ := horigin.gated hkind
    exact ⟨project, root, spec, hm.launch.trans hlaunch, hvariant⟩
  · exact hm.spec
  · exact hm.asked
  · intro r hr
    obtain ⟨hvariant, hprocess⟩ := hm.causes r hr
    exact ⟨hprocess, hvariant, (hchecked.requests r (.inr ⟨sp, hsp, .inr hr⟩)).passed⟩

theorem spawn_runs_checked_restarted :
    letI := editSha
    ∃ s sp, supervisorMachine.run .init (startCommand ++ restartCommand 1) = some s ∧
      s.fleet.spawns[1]? = some sp ∧ sp.launch.command = "npm start" ∧
      sp.RunsChecked s.checks := by
  let _ := editSha
  refine ⟨_, _, rfl, rfl, rfl, ?_⟩
  have hrun : supervisorMachine.ReachableUnder Supervisor.TakesCheckedVariant _ :=
    ⟨.init, startCommand ++ restartCommand 1, rfl, by decide, rfl⟩
  exact spawn_runs_checked hrun (.tail _ (.head _)) rfl

/-- After a reload, a restart checks the new variant and its actor respawns the old spec, which is
no longer trusted. -/
theorem restart_respawns_unchecked :
    letI := editSha
    ∃ s sp, supervisorMachine.run .init (startCommand ++ reloadCommand ++ restartCommand 2) = some s ∧
      s.fleet.spawns[1]? = some sp ∧ sp.origin.kind = .command ∧ sp.launch.command = "npm start" ∧
      s.trust 1 startSpec.variantHash = false ∧
      (∃ r ∈ sp.causes, r.call = 2 ∧ r.variant = some devSpec.variantHash) ∧
      ¬ sp.RunsChecked s.checks := by
  let _ := editSha
  refine ⟨_, _, rfl, rfl, rfl, rfl, rfl, ⟨_, (.head _), rfl, rfl⟩, ?_⟩
  intro h
  have hvariant := (h.checked _ (.head _)).2.1
  revert hvariant
  decide

end Soloist
