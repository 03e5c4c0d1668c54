import Soloist.Facade.Scope

/-! Delegation is one level deep as long as the gate can see it: the gate looks a caller up by its
peer's group and by its binding, and judges it by the lineage edge that its spawn records. -/
open List Option Slots

namespace Soloist.Facade

def Point.worker : Point → Option ProcessId
  | .starting worker _ | .recording worker _ => some worker
  | .resolving _ _ | .acting _ _ | .actingAll _ _ | .gateHome _ _ | .gateOrigin _ _ _
  | .judging _ _ _ | .rooting _ _ | .registering _ _ | .bindHome _ | .binding _ | .naming _
  | .selectHome _ | .selectView _ _ | .selectDirectory _ | .selecting _ | .returned _ => none

def Point.Has (process : ProcessId) : Point → Prop
  | .binding bound => bound = process
  | .gateOrigin _ _ home => home = some process
  | .judging _ _ callers => process ∈ callers
  | _ => False

/-- A call on behalf of a process that was itself delegated is on its way to a refusal. -/
def Point.Gate (bound : Option ProcessId) (process : ProcessId) : Point → Prop
  | .gateOrigin _ _ home => home = some process ∨ bound = some process
  | .judging _ _ callers => process ∈ callers
  | .rooting _ _ | .registering _ _ | .starting _ _ | .recording _ _
  | .returned (.spawned _ _) => False
  | _ => True

/-- A call has nothing to do with delegation. -/
structure Point.Plain (point : Point) : Prop where
  worker : point.worker = none
  has : ∀ process, ¬point.Has process
  gate : ∀ bound process, point.Gate bound process

namespace System
variable {es : List Event} {s t : System} {session other : SessionId} {process : ProcessId} {pgid : Pgid}
  {point next : Point} {fault : Option StoreError} {e : Event}

/-- The groups, the actors and the registry agree on which process runs where. -/
structure Placed (s : System) : Prop where
  filed : s.core.Filed
  acting : ∀ id actor, s.actors id = some actor → id < s.core.nextProcess
  child : ∀ id actor pgid, s.actors id = some actor → actor.pgid = some pgid →
    s.groups pgid = some id
  registered : ∀ id entry pgid, s.core.processes.lookup id = some entry →
    entry.pgid = some pgid → s.actors id = some (.recorded pgid)
  tracked : ∀ pgid id, s.groups pgid = some id → id < s.core.nextProcess

theorem placed_new : Placed .new where
  filed id entry h := by cases h
  acting id actor h := by cases h
  child id actor pgid h := by cases h
  registered id entry pgid h := by cases h
  tracked pgid id h := by cases h

theorem Filed.lt {id : ProcessId} (h : s.core.Filed) (hview : s.core.processView id ≠ none) :
    id < s.core.nextProcess := by
  obtain ⟨row, hrow⟩ := ne_none_iff_exists'.mp hview
  obtain ⟨entry, hentry, -⟩ := Core.processView_eq_some.mp hrow
  exact (h id entry hentry).2

theorem Placed.quiet (hs : s.Placed) (hcore : s.core.Follows t.core)
    (hpgids : s.core.KeepsGroups t.core) (hactors : s.Launches t) (hgroups : t.groups = s.groups) :
    t.Placed where
  filed := hs.filed.follows hcore
  acting id actor hactor := by
    refine Nat.lt_of_lt_of_le ?_ hcore.next
    rcases hactors id with hsame | ⟨-, -, hview⟩
    · exact hs.acting id actor (hsame ▸ hactor)
    · exact Filed.lt hs.filed hview
  child id actor pgid hactor hpgid := by
    rw [hgroups]
    rcases hactors id with hsame | ⟨-, hlaunching, -⟩
    · exact hs.child id actor pgid (hsame ▸ hactor) hpgid
    · obtain rfl := some.inj (hlaunching.symm.trans hactor)
      cases hpgid
  registered id entry pgid hentry hpgid := by
    obtain ⟨before, hbefore, hgroup⟩ := hpgids id entry pgid hentry hpgid
    have hrecorded := hs.registered id before pgid hbefore hgroup
    rcases hactors id with hsame | ⟨hnone, -, -⟩
    · exact hsame.trans hrecorded
    · rw [hnone] at hrecorded
      cases hrecorded
  tracked pgid id hgroup := by
    rw [hgroups] at hgroup
    exact Nat.lt_of_lt_of_le (hs.tracked pgid id hgroup) hcore.next

theorem freeGroup_iff : s.freeGroup pgid = true ↔
    (∀ session < s.core.nextSession, s.core.peerPgid session ≠ some pgid) ∧
      ∀ process < s.core.nextProcess, (s.actors process).bind Actor.pgid ≠ some pgid := by
  unfold freeGroup
  rw [Bool.and_eq_true, decide_eq_true_eq, decide_eq_true_eq]

theorem placed_spawnChild (hs : s.Placed) (hactor : s.actors process = some .launching)
    (hfree : s.freeGroup pgid = true) :
    Placed { s with
      actors := s.actors.put process (.spawned pgid), groups := s.groups.put pgid process } where
  filed := hs.filed
  acting id actor hid := by
    rcases put_eq_some.mp hid with ⟨rfl, -⟩ | ⟨-, hid⟩
    · exact hs.acting id _ hactor
    · exact hs.acting id actor hid
  child id actor group hid hpgid := by
    rcases put_eq_some.mp hid with ⟨rfl, rfl⟩ | ⟨-, hold⟩
    · cases hpgid
      exact put_self
    · have hgroup : group ≠ pgid := by
        rintro rfl
        refine (freeGroup_iff.mp hfree).2 id (hs.acting id actor hold) ?_
        rw [hold]
        exact hpgid
      exact (put_of_ne hgroup).trans (hs.child id actor group hold hpgid)
  registered id entry group hentry hpgid := by
    have hrecorded := hs.registered id entry group hentry hpgid
    have hne : id ≠ process := by
      rintro rfl
      rw [hactor] at hrecorded
      cases hrecorded
    exact (put_of_ne hne).trans hrecorded
  tracked group id hgroup := by
    rcases put_eq_some.mp hgroup with ⟨-, rfl⟩ | ⟨-, hgroup⟩
    · exact hs.acting process _ hactor
    · exact hs.tracked group id hgroup

theorem placed_recordGroup (hs : s.Placed) (hactor : s.actors process = some (.spawned pgid)) :
    Placed { s with
      core := s.core.setPgid process (some pgid)
      actors := s.actors.put process (.recorded pgid) } where
  filed := hs.filed.follows (.setPgid s.core process (some pgid))
  acting id actor hid := by
    refine Nat.lt_of_lt_of_le ?_ (Core.Follows.setPgid s.core process (some pgid)).next
    rcases put_eq_some.mp hid with ⟨rfl, -⟩ | ⟨-, hid⟩
    · exact hs.acting id _ hactor
    · exact hs.acting id actor hid
  child id actor group hid hpgid := by
    rcases put_eq_some.mp hid with ⟨rfl, rfl⟩ | ⟨-, hid⟩
    · exact hs.child id _ group hactor hpgid
    · exact hs.child id actor group hid hpgid
  registered id entry group hentry hpgid := by
    have hlookup := (Core.lookup_amend id).symm.trans hentry
    by_cases hid : id = process
    · rw [if_pos hid] at hlookup
      obtain ⟨before, -, rfl⟩ := map_eq_some_iff.mp hlookup
      cases hpgid
      rw [hid]
      exact put_self
    · rw [if_neg hid] at hlookup
      exact (put_of_ne hid).trans (hs.registered id entry group hlookup hpgid)
  tracked group id hgroup := by
    exact Nat.lt_of_lt_of_le (hs.tracked group id hgroup)
      (Core.Follows.setPgid s.core process (some pgid)).next

theorem placed_reap (hs : s.Placed) :
    Placed { s with core := s.core.setPgid process none, actors := s.actors.erase process } where
  filed := hs.filed.follows (.setPgid s.core process none)
  acting id actor hid := by
    refine Nat.lt_of_lt_of_le ?_ (Core.Follows.setPgid s.core process none).next
    exact hs.acting id actor (erase_eq_some.mp hid).2
  child id actor group hid hpgid :=
    hs.child id actor group (erase_eq_some.mp hid).2 hpgid
  registered id entry group hentry hpgid := by
    have hlookup := (Core.lookup_amend id).symm.trans hentry
    by_cases hid : id = process
    · rw [if_pos hid] at hlookup
      obtain ⟨before, -, rfl⟩ := map_eq_some_iff.mp hlookup
      cases hpgid
    · rw [if_neg hid] at hlookup
      have hrecorded := hs.registered id entry group hlookup hpgid
      exact erase_eq_some.mpr ⟨hid, hrecorded⟩
  tracked group id hgroup := by
    exact Nat.lt_of_lt_of_le (hs.tracked group id hgroup)
      (Core.Follows.setPgid s.core process none).next

theorem placed_step (hs : s.Placed) (h : s.step e = some t) : t.Placed := by
  have hcore := (step_changes h).1
  cases e with
  | ask session request fault =>
    obtain ⟨-, -, rfl⟩ := step_ask h
    exact hs.quiet hcore (.of_eq rfl) (fun _ => .inl rfl) rfl
  | proceed session fault =>
    obtain ⟨point, -, ht⟩ := bind_eq_some_iff.mp h
    have hframe := proceed_frame ht
    exact hs.quiet hframe.core hframe.pgids hframe.actors hframe.groups
  | openSession peer =>
    cases h
    exact hs.quiet hcore (.of_eq rfl) (fun _ => .inl rfl) rfl
  | closeSession session =>
    simp only [step] at h
    split_ifs at h
    cases h
    exact hs.quiet hcore (.of_eq rfl) (fun _ => .inl rfl) rfl
  | register project kind label requiresTrust resumable =>
    cases h
    exact hs.quiet hcore .register (fun _ => .inl rfl) rfl
  | refresh row =>
    cases h
    exact hs.quiet hcore (.amend fun _ _ h => h) (fun _ => .inl rfl) rfl
  | remove process =>
    cases h
    exact hs.quiet hcore .removeProcess (fun _ => .inl rfl) rfl
  | start process =>
    simp only [step] at h
    split_ifs at h with hview
    cases h
    have hlaunch := frame_launch 0 hview
    exact hs.quiet hcore hlaunch.pgids hlaunch.actors hlaunch.groups
  | spawnChild process pgid =>
    simp only [step] at h
    split_ifs at h with hguard
    cases h
    exact placed_spawnChild hs hguard.1 hguard.2
  | recordGroup process =>
    simp only [step] at h
    split at h
    · rename_i pgid hactor
      cases h
      exact placed_recordGroup hs hactor
    all_goals cases h
  | reap process =>
    simp only [step] at h
    split_ifs at h
    cases h
    exact placed_reap hs
  | addProject root =>
    cases h
    exact hs.quiet hcore (.of_eq rfl) (fun _ => .inl rfl) rfl
  | removeProject project =>
    cases h
    exact hs.quiet hcore (.of_eq rfl) (fun _ => .inl rfl) rfl
  | reorder projects =>
    simp only [step] at h
    split_ifs at h
    cases h
    exact hs.quiet hcore (.of_eq rfl) (fun _ => .inl rfl) rfl
  | observe =>
    cases h
    exact hs.quiet hcore (.of_eq rfl) (fun _ => .inl rfl) rfl
  | prune =>
    obtain ⟨live, -, rfl⟩ := map_eq_some_iff.mp h
    exact hs.quiet hcore (.of_eq rfl) (fun _ => .inl rfl) rfl

def RunsFrom (s : System) (session : SessionId) (process : ProcessId) : Prop :=
  (s.core.peerPgid session).bind s.groups = some process

instance (session : SessionId) (process : ProcessId) : Decidable (s.RunsFrom session process) :=
  inferInstanceAs (Decidable (_ = _))

theorem runsFrom_home (hs : s.Placed) (h : s.core.homeProcess session = some process) :
    s.RunsFrom session process := by
  obtain ⟨pgid, entry, hpeer, hentry, hpgid⟩ := Core.homeProcess_entry hs.filed h
  have hactor := hs.registered process entry pgid hentry hpgid
  unfold RunsFrom
  rw [hpeer]
  exact hs.child process _ pgid hactor rfl

/-- A spawn of the process has yet to record its lead. -/
def Launching (s : System) (process : ProcessId) : Prop :=
  ∃ session < s.core.nextSession, (s.calls session).bind Point.worker = some process

/-- The process is registered, or the peer of an open session runs in a group of it. -/
def Reached (s : System) (process : ProcessId) : Prop :=
  s.core.processView process ≠ none ∨
    ∃ session < s.core.nextSession, s.RunsFrom session process

/-- The gate sees what it has to see. When it looks up the caller of a session that runs in a group
of a delegated process, the registry shows that group as the process's, or the session has bound the
process; when it judges a delegated process, its spawn has recorded the lead. -/
def GateSees (s : System) (session : SessionId) : Point → Prop
  | .gateHome _ _ => ∀ process ∈ s.delegated, s.RunsFrom session process →
      s.core.homeProcess session = some process ∨ (s.core.origin session).bound = some process
  | .judging _ _ (caller :: _) => caller ∈ s.delegated → ¬s.Launching caller
  | _ => True

def PruneKeeps (s : System) (live : List ProcessId) : Prop :=
  ∀ process ∈ s.delegated, s.lineage.parentOf process ≠ none → s.Reached process →
    process ∈ s.lineage.needed live

/-- A step at which the gate sees its callers and a prune keeps their edges. -/
def Orderly (s : System) : Event → Prop
  | .proceed session _ => ∀ point ∈ s.calls session, s.GateSees session point
  | .prune => ∀ live ∈ s.live, s.PruneKeeps live
  | _ => True

instance (process : ProcessId) : Decidable (s.Launching process) :=
  inferInstanceAs (Decidable (∃ session < s.core.nextSession,
    (s.calls session).bind Point.worker = some process))

instance (process : ProcessId) : Decidable (s.Reached process) :=
  inferInstanceAs (Decidable (_ ∨ ∃ session < s.core.nextSession, s.RunsFrom session process))

instance decidableGateSees (session : SessionId) : ∀ point, Decidable (s.GateSees session point)
  | .gateHome _ _ => inferInstanceAs (Decidable (∀ process ∈ s.delegated,
      s.RunsFrom session process → s.core.homeProcess session = some process ∨
        (s.core.origin session).bound = some process))
  | .judging _ _ (caller :: _) =>
    inferInstanceAs (Decidable (caller ∈ s.delegated → ¬s.Launching caller))
  | .judging _ _ [] | .resolving _ _ | .acting _ _ | .actingAll _ _ | .gateOrigin _ _ _
  | .rooting _ _ | .registering _ _ | .starting _ _ | .recording _ _ | .bindHome _ | .binding _
  | .naming _ | .selectHome _ | .selectView _ _ | .selectDirectory _ | .selecting _
  | .returned _ => isTrue trivial

instance (live : List ProcessId) : Decidable (s.PruneKeeps live) :=
  inferInstanceAs (Decidable (∀ process ∈ s.delegated, s.lineage.parentOf process ≠ none →
    s.Reached process → process ∈ s.lineage.needed live))

instance decidableOrderly : ∀ e, Decidable (s.Orderly e)
  | .proceed session _ =>
    inferInstanceAs (Decidable (∀ point ∈ s.calls session, s.GateSees session point))
  | .prune => inferInstanceAs (Decidable (∀ live ∈ s.live, s.PruneKeeps live))
  | .ask _ _ _ | .openSession _ | .closeSession _ | .register _ _ _ _ _ | .refresh _ | .remove _
  | .start _ | .spawnChild _ _ | .recordGroup _ | .reap _ | .addProject _ | .removeProject _
  | .reorder _ | .observe => isTrue trivial

def Holds (s : System) (session : SessionId) (process : ProcessId) : Prop :=
  (s.core.origin session).bound = some process ∨
    ∃ point, s.calls session = some point ∧ point.Has process

def Kept (s : System) (process : ProcessId) : Prop :=
  s.core.processView process ≠ none ∨ ∃ session, s.Holds session process

structure Gated (s : System) : Prop where
  named : ∀ process ∈ s.delegated, process < s.core.nextProcess
  work : ∀ session worker, (s.calls session).bind Point.worker = some worker →
    worker < s.core.nextProcess ∧
      (worker ∈ s.delegated → (s.core.origin session).bound ≠ none)
  held : ∀ session process, s.Holds session process → s.RunsFrom session process
  edges : ∀ process ∈ s.delegated, s.Kept process →
    s.lineage.parentOf process ≠ none ∨ s.Launching process
  gate : ∀ session point process, s.calls session = some point → process ∈ s.delegated →
    s.RunsFrom session process → point.Gate (s.core.origin session).bound process

theorem gated_new : Gated .new where
  named process h := by cases h
  work session worker h := by cases h
  held session process h := by
    rcases h with h | ⟨point, h, -⟩ <;> cases h
  edges process h := by cases h
  gate session point process h := by cases h

theorem session_lt (hsound : Sound es s) (hpoint : s.calls session = some point) :
    session < s.core.nextSession := by
  obtain ⟨x, hx⟩ := ne_none_iff_exists'.mp (hsound.calling session point hpoint)
  exact hsound.assigned session x hx

theorem runsFrom_lt (hsound : Sound es s) (h : s.RunsFrom session process) :
    session < s.core.nextSession := by
  obtain ⟨pgid, hpeer, -⟩ := bind_eq_some_iff.mp h
  obtain ⟨x, hx, -⟩ := bind_eq_some_iff.mp hpeer
  exact hsound.assigned session x hx

theorem Kept.reached (hsound : Sound es s) (hs : s.Gated) (h : s.Kept process) :
    s.Reached process := by
  rcases h with h | ⟨session, h⟩
  · exact .inl h
  · have hruns := hs.held session process h
    exact .inr ⟨session, runsFrom_lt hsound hruns, hruns⟩

variable {worker : ProcessId}

theorem not_idle_of_worker (h : (s.calls session).bind Point.worker = some worker) :
    s.idle session = false := by
  obtain ⟨point, hpoint, hworker⟩ := bind_eq_some_iff.mp h
  unfold idle
  rw [hpoint]
  cases point <;> first | rfl | cases hworker

/-- A process that is registered later is registered already, or newly. -/
theorem processView_back {id : ProcessId} (hcore : s.core.Follows t.core)
    (hlt : id < s.core.nextProcess) (h : t.core.processView id ≠ none) : s.core.processView id ≠ none := by
  obtain ⟨row, hrow⟩ := ne_none_iff_exists'.mp h
  obtain ⟨entry, hentry, -⟩ := Core.processView_eq_some.mp hrow
  rcases hcore.rows id entry hentry with ⟨before, hbefore, -, -⟩ | ⟨hle, -, -⟩
  · exact ne_none_iff_exists'.mpr
      ⟨before.view, Core.processView_eq_some.mpr ⟨before, hbefore, rfl⟩⟩
  · exact absurd hlt (Nat.not_lt.mpr hle)

/-- What the events outside the calls do to the ledger of delegation. -/
theorem other_changes (hmover : e.mover = none) (h : s.step e = some t) :
    t.delegated = s.delegated ∧
    (∀ session process, session < s.core.nextSession →
      t.core.sessions session = s.core.sessions session →
        (t.RunsFrom session process ↔ s.RunsFrom session process)) ∧
    (t.lineage = s.lineage ∨ e = .prune ∧
      ∃ live, s.live = some live ∧ t.lineage = s.lineage.retainLive live) := by
  have hsame : ∀ t : System, t.groups = s.groups → ∀ session process,
      session < s.core.nextSession → t.core.sessions session = s.core.sessions session →
        (t.RunsFrom session process ↔ s.RunsFrom session process) := by
    intro t hgroups session process _ hsessions
    unfold RunsFrom Core.peerPgid
    rw [hsessions, hgroups]
  cases e with
  | ask session request fault => cases hmover
  | proceed session fault => cases hmover
  | openSession peer =>
    cases h
    exact ⟨rfl, hsame _ rfl, .inl rfl⟩
  | closeSession session =>
    simp only [step] at h
    split_ifs at h
    cases h
    exact ⟨rfl, hsame _ rfl, .inl rfl⟩
  | register project kind label requiresTrust resumable =>
    cases h
    exact ⟨rfl, hsame _ rfl, .inl rfl⟩
  | refresh row =>
    cases h
    exact ⟨rfl, hsame _ rfl, .inl rfl⟩
  | remove process =>
    cases h
    exact ⟨rfl, hsame _ rfl, .inl rfl⟩
  | start process =>
    simp only [step] at h
    split_ifs at h
    cases h
    unfold launch
    split_ifs
    all_goals exact ⟨rfl, hsame _ rfl, .inl rfl⟩
  | spawnChild process pgid =>
    simp only [step] at h
    split_ifs at h with hguard
    cases h
    refine ⟨rfl, fun session id hlt _ => ?_, .inl rfl⟩
    -- no open session's peer runs in the new group
    have hpeer := (freeGroup_iff.mp hguard.2).1 session hlt
    have hgroups : (s.core.peerPgid session).bind (s.groups.put pgid process) =
        (s.core.peerPgid session).bind s.groups := by
      cases hgroup : s.core.peerPgid session with
      | none => rfl
      | some group =>
        refine put_of_ne ?_
        rintro rfl
        exact hpeer hgroup
    unfold RunsFrom
    rw [← hgroups]
  | recordGroup process =>
    simp only [step] at h
    split at h
    · cases h
      exact ⟨rfl, hsame _ rfl, .inl rfl⟩
    all_goals cases h
  | reap process =>
    simp only [step] at h
    split_ifs at h
    cases h
    exact ⟨rfl, hsame _ rfl, .inl rfl⟩
  | addProject root =>
    cases h
    exact ⟨rfl, hsame _ rfl, .inl rfl⟩
  | removeProject project =>
    cases h
    exact ⟨rfl, hsame _ rfl, .inl rfl⟩
  | reorder projects =>
    simp only [step] at h
    split_ifs at h
    cases h
    exact ⟨rfl, hsame _ rfl, .inl rfl⟩
  | observe =>
    cases h
    exact ⟨rfl, hsame _ rfl, .inl rfl⟩
  | prune =>
    obtain ⟨live, hlive, rfl⟩ := map_eq_some_iff.mp h
    exact ⟨rfl, hsame _ rfl, .inr ⟨rfl, live, hlive, rfl⟩⟩

/-- Nobody holds a process through an event outside the calls. -/
theorem Holds.back (hsound : Sound es s) (hstands : Bystander session s t)
    (h : t.Holds session process) :
    s.Holds session process ∧ t.core.sessions session = s.core.sessions session := by
  rcases hstands with ⟨hsessions, hcalls⟩ | ⟨peer, hfresh, -, hsessions, hcalls⟩ |
    ⟨-, hsessions, hcalls⟩
  · refine ⟨?_, hsessions⟩
    unfold Holds at h ⊢
    rw [origin_congr hsessions, hcalls] at h
    exact h
  · rcases h with hbound | ⟨point, hpoint, -⟩
    · unfold Core.origin at hbound
      rw [hsessions] at hbound
      cases hbound
    · rw [hcalls] at hpoint
      exact absurd (session_lt hsound hpoint) (hfresh ▸ Nat.lt_irrefl _)
  · rcases h with hbound | ⟨point, hpoint, -⟩
    · unfold Core.origin at hbound
      rw [hsessions] at hbound
      cases hbound
    · rw [hcalls] at hpoint
      cases hpoint

theorem gated_other (hsound : Sound es s) (hs : s.Gated) (hmover : e.mover = none)
    (horderly : s.Orderly e) (h : s.step e = some t) : t.Gated := by
  obtain ⟨hcore, hothers⟩ := step_changes h
  obtain ⟨hdelegated, hruns, hlineage⟩ := other_changes hmover h
  have hstands : ∀ session, Bystander session s t := by
    intro session
    refine hothers session fun hmoves => ?_
    rw [hmover] at hmoves
    cases hmoves
  -- a call under way is where it was
  have hcalls : ∀ session point, t.calls session = some point → s.calls session = some point ∧
      t.core.sessions session = s.core.sessions session := by
    intro session point hpoint
    rcases hstands session with ⟨hsessions, hcalls⟩ | ⟨peer, hfresh, -, -, hcalls⟩ |
      ⟨-, -, hcalls⟩
    · exact ⟨hcalls ▸ hpoint, hsessions⟩
    · rw [hcalls] at hpoint
      exact absurd (session_lt hsound hpoint) (hfresh ▸ Nat.lt_irrefl _)
    · rw [hcalls] at hpoint
      cases hpoint
  have hkept : ∀ process ∈ s.delegated, t.Kept process → s.Kept process := by
    intro process hprocess hkept
    rcases hkept with hview | ⟨session, hholds⟩
    · exact .inl (processView_back hcore (hs.named process hprocess) hview)
    · exact .inr ⟨session, (hholds.back hsound (hstands session)).1⟩
  refine ⟨?_, ?_, ?_, ?_, ?_⟩
  · intro process hprocess
    exact Nat.lt_of_lt_of_le (hs.named process (hdelegated ▸ hprocess)) hcore.next
  · intro session worker hworker
    obtain ⟨point, hpoint, hw⟩ := bind_eq_some_iff.mp hworker
    obtain ⟨hbefore, hsessions⟩ := hcalls session point hpoint
    obtain ⟨hlt, hbound⟩ := hs.work session worker (by rw [hbefore]; exact hw)
    rw [hdelegated, origin_congr hsessions]
    exact ⟨Nat.lt_of_lt_of_le hlt hcore.next, hbound⟩
  · intro session process hholds
    obtain ⟨hbefore, hsessions⟩ := hholds.back hsound (hstands session)
    have hrunning := hs.held session process hbefore
    exact (hruns session process (runsFrom_lt hsound hrunning) hsessions).mpr hrunning
  · intro process hprocess hprocesses
    rw [hdelegated] at hprocess
    have hbefore := hkept process hprocess hprocesses
    rcases hs.edges process hprocess hbefore with hedge | ⟨session, hlt, hworker⟩
    · left
      rcases hlineage with hsame | ⟨rfl, live, hlive, hpruned⟩
      · rw [hsame]
        exact hedge
      · have hneeded := horderly live hlive process hprocess hedge (hbefore.reached hsound hs)
        rw [hpruned, AgentLineage.parentOf_retainLive, if_pos hneeded]
        exact hedge
    · right
      refine ⟨session, Nat.lt_of_lt_of_le hlt hcore.nextSession, ?_⟩
      rcases hstands session with ⟨-, hsame⟩ | ⟨peer, hfresh, -, -, -⟩ | ⟨hidle, -, -⟩
      · rw [hsame]
        exact hworker
      · exact absurd hlt (hfresh ▸ Nat.lt_irrefl _)
      · rw [not_idle_of_worker hworker] at hidle
        cases hidle
  · intro session point process hpoint hprocess hrunning
    obtain ⟨hbefore, hsessions⟩ := hcalls session point hpoint
    have hlt := session_lt hsound hbefore
    rw [origin_congr hsessions]
    exact hs.gate session point process hbefore (hdelegated ▸ hprocess)
      ((hruns session process hlt hsessions).mp hrunning)

variable {write : Session → Session}

theorem Frame.runsFrom (h : Frame session write s t) (hwrite : ∀ x, (write x).peer = x.peer)
    (other : SessionId) (process : ProcessId) :
    t.RunsFrom other process ↔ s.RunsFrom other process := by
  unfold RunsFrom
  rw [h.peerPgid hwrite, h.groups]

theorem Frame.holds_of_ne (h : Frame session write s t) (hother : other ≠ session) :
    t.Holds other process ↔ s.Holds other process := by
  unfold Holds
  rw [origin_congr (h.session_of_ne hother), h.calls other hother]

/-- Nobody else begins or ends a launch. -/
theorem Frame.launching_of_ne (h : Frame session write s t) (hother : other ≠ session)
    (hlt : other < s.core.nextSession)
    (hworker : (s.calls other).bind Point.worker = some process) : t.Launching process := by
  refine ⟨other, h.nextSession ▸ hlt, ?_⟩
  rw [h.calls other hother]
  exact hworker

/-- A process is not kept for something the call newly knows, unless it is still listed. -/
theorem Frame.kept_back (hs : s.Gated) (h : Frame session write s t)
    (hheld : t.Holds session process → s.Holds session process ∨
      s.core.processView process ≠ none)
    (hprocess : process ∈ s.delegated) (hkept : t.Kept process) : s.Kept process := by
  rcases hkept with hview | ⟨other, hholds⟩
  · exact .inl (processView_back h.core (hs.named process hprocess) hview)
  · by_cases hother : other = session
    · rcases hheld (hother ▸ hholds) with hbefore | hview
      · exact .inr ⟨session, hbefore⟩
      · exact .inl hview
    · exact .inr ⟨other, (h.holds_of_ne hother).mp hholds⟩

theorem Holds.at_point (h : t.Holds session process) (hpoint : t.calls session = some point) :
    (t.core.origin session).bound = some process ∨ point.Has process := by
  rcases h with hbound | ⟨after, hafter, hhas⟩
  · exact .inl hbound
  · obtain rfl := some.inj (hpoint.symm.trans hafter)
    exact .inr hhas

/-- A call moves on, and neither registers a process nor records a lead. -/
theorem gated_turn (hs : s.Gated) (h : Frame session write s t)
    (hwrite : ∀ x, (write x).peer = x.peer) (hdelegated : t.delegated = s.delegated)
    (hlineage : t.lineage = s.lineage)
    (hworker : (t.calls session).bind Point.worker = (s.calls session).bind Point.worker)
    (hbound : (t.calls session).bind Point.worker ≠ none → write = id)
    (hheld : ∀ process, t.Holds session process → s.Holds session process ∨
      s.core.processView process ≠ none ∧ s.RunsFrom session process)
    (hgate : ∀ point process, t.calls session = some point → process ∈ s.delegated →
      s.RunsFrom session process → point.Gate (t.core.origin session).bound process) :
    t.Gated := by
  have hkept : ∀ process ∈ s.delegated, t.Kept process → s.Kept process := by
    intro process hprocess
    refine h.kept_back hs (fun hholds => ?_) hprocess
    exact (hheld process hholds).imp_right And.left
  refine ⟨?_, ?_, ?_, ?_, ?_⟩
  · intro process hprocess
    exact Nat.lt_of_lt_of_le (hs.named process (hdelegated ▸ hprocess)) h.core.next
  · intro other worker hw
    rw [hdelegated]
    by_cases hother : other = session
    · rw [hother] at hw ⊢
      have hsame : t.core.sessions session = s.core.sessions session := by
        rw [h.session_self, hbound (by rw [hw]; exact some_ne_none _), Option.map_id]
        rfl
      obtain ⟨hlt, hlead⟩ := hs.work session worker (hworker ▸ hw)
      rw [origin_congr hsame]
      exact ⟨Nat.lt_of_lt_of_le hlt h.core.next, hlead⟩
    · rw [h.calls other hother] at hw
      obtain ⟨hlt, hlead⟩ := hs.work other worker hw
      rw [origin_congr (h.session_of_ne hother)]
      exact ⟨Nat.lt_of_lt_of_le hlt h.core.next, hlead⟩
  · intro other process hholds
    rw [h.runsFrom hwrite]
    by_cases hother : other = session
    · subst hother
      rcases hheld process hholds with hbefore | ⟨-, hruns⟩
      · exact hs.held other process hbefore
      · exact hruns
    · exact hs.held other process ((h.holds_of_ne hother).mp hholds)
  · intro process hprocess hprocesses
    rw [hdelegated] at hprocess
    rw [hlineage]
    rcases hs.edges process hprocess (hkept process hprocess hprocesses) with
      hedge | ⟨other, hlt, hw⟩
    · exact .inl hedge
    · right
      by_cases hother : other = session
      · refine ⟨session, ?_, ?_⟩
        · rw [h.nextSession, ← hother]
          exact hlt
        · rw [hworker, ← hother]
          exact hw
      · exact h.launching_of_ne hother hlt hw
  · intro other point process hpoint hprocess hruns
    rw [hdelegated] at hprocess
    rw [h.runsFrom hwrite] at hruns
    by_cases hother : other = session
    · subst hother
      exact hgate point process hpoint hprocess hruns
    · rw [h.calls other hother] at hpoint
      rw [origin_congr (h.session_of_ne hother)]
      exact hs.gate other point process hpoint hprocess hruns

theorem asked_plain (request : Request) : (s.asked fault request).Plain := by
  cases request with
  | act action process =>
    simp only [asked]
    split <;> exact ⟨rfl, fun _ h => h, fun _ _ => trivial⟩
  | actAll action => exact ⟨rfl, fun _ h => h, fun _ _ => trivial⟩
  | spawn spawning => exact ⟨rfl, fun _ h => h, fun _ _ => trivial⟩
  | bindSessionProcess process =>
    simp only [asked]
    split_ifs <;> exact ⟨rfl, fun _ h => h, fun _ _ => trivial⟩
  | registerAgent label => exact ⟨rfl, fun _ h => h, fun _ _ => trivial⟩
  | selectProject project =>
    simp only [asked]
    split_ifs <;> exact ⟨rfl, fun _ h => h, fun _ _ => trivial⟩

theorem settle_plain (purpose : Purpose) (scope : Option ProjectId) :
    (purpose.settle scope).Plain := by
  cases scope with
  | none => cases purpose <;> exact ⟨rfl, fun _ h => h, fun _ _ => trivial⟩
  | some project =>
    cases purpose with
    | act action view =>
      simp only [Purpose.settle]
      split_ifs <;> exact ⟨rfl, fun _ h => h, fun _ _ => trivial⟩
    | actAll action => exact ⟨rfl, fun _ h => h, fun _ _ => trivial⟩
    | spawn spawning => exact ⟨rfl, fun _ h => h, fun _ _ => trivial⟩

theorem gated_ask {request : Request} (hs : s.Gated)
    (h : s.step (.ask session request fault) = some t) : t.Gated := by
  obtain ⟨-, hidle, rfl⟩ := step_ask h
  have hplain : (s.asked fault request).Plain := asked_plain request
  have hafter : (s.goTo session (s.asked fault request)).calls session =
      some (s.asked fault request) := put_self
  have hnone : (s.calls session).bind Point.worker = none := by
    cases hworker : (s.calls session).bind Point.worker with
    | none => rfl
    | some worker =>
      rw [not_idle_of_worker hworker] at hidle
      cases hidle
  refine gated_turn hs ((Frame.refl session s).goTo _) (fun _ => rfl) rfl rfl ?_
    (fun _ => rfl) ?_ ?_
  · rw [hafter, hnone]
    exact hplain.worker
  · intro process hholds
    rcases Holds.at_point hholds hafter with hbound | hhas
    · exact .inl (.inl hbound)
    · exact absurd hhas (hplain.has process)
  · intro point process hpoint _ _
    obtain rfl := some.inj (hafter.symm.trans hpoint)
    exact hplain.gate _ process

theorem gated_plain (hs : s.Gated) (hpoint : s.calls session = some point)
    (hworker : point.worker = none) (h : Frame session point.write s t)
    (hdelegated : t.delegated = s.delegated) (hlineage : t.lineage = s.lineage)
    (hnext : t.calls session = some next) (hplain : next.Plain) : t.Gated := by
  refine gated_turn hs h (write_peer point) hdelegated hlineage ?_ ?_ ?_ ?_
  · rw [hnext, hpoint]
    exact hplain.worker.trans hworker.symm
  · intro hsome
    rw [hnext] at hsome
    exact absurd hplain.worker hsome
  · intro process hholds
    left
    rcases Holds.at_point hholds hnext with hbound | hhas
    · rcases h.bound hbound with rfl | hbefore
      · exact .inr ⟨_, hpoint, rfl⟩
      · exact .inl hbefore
    · exact absurd hhas (hplain.has process)
  · intro after process hafter _ _
    obtain rfl := some.inj (hnext.symm.trans hafter)
    exact hplain.gate _ process

theorem gated_reads (hs : s.Gated) (hpoint : s.calls session = some point)
    (hworker : next.worker = point.worker)
    (hhas : ∀ process, next.Has process → s.Holds session process ∨
      s.core.processView process ≠ none ∧ s.RunsFrom session process)
    (hgate : ∀ process ∈ s.delegated, s.RunsFrom session process →
      next.Gate (s.core.origin session).bound process) : (s.goTo session next).Gated := by
  have hafter : (s.goTo session next).calls session = some next := put_self
  refine gated_turn hs ((Frame.refl session s).goTo _) (fun _ => rfl) rfl rfl ?_
    (fun _ => rfl) ?_ ?_
  · rw [hafter, hpoint]
    exact hworker
  · intro process hholds
    rcases Holds.at_point hholds hafter with hbound | hafter'
    · exact .inl (.inl hbound)
    · exact hhas process hafter'
  · intro after process hpoint' hprocess hruns
    obtain rfl := some.inj (hafter.symm.trans hpoint')
    exact hgate process hprocess hruns

theorem launch_ledger (worker : ProcessId) : (s.launch worker).delegated = s.delegated ∧
    (s.launch worker).lineage = s.lineage := by
  unfold launch
  split_ifs <;> exact ⟨rfl, rfl⟩

theorem perform_ledger {action : Action} (h : s.perform process fault action = .ok t) :
    t.delegated = s.delegated ∧ t.lineage = s.lineage := by
  cases action with
  | start =>
    simp only [perform] at h
    split_ifs at h
    cases h
    exact launch_ledger process
  | restart =>
    simp only [perform] at h
    split_ifs at h
    cases h
    exact launch_ledger process
  | stop =>
    cases h
    exact ⟨rfl, rfl⟩
  | rename label =>
    simp only [perform] at h
    split_ifs at h
    cases h
    exact ⟨rfl, rfl⟩
  | close =>
    simp only [perform] at h
    split_ifs at h
    cases h
    exact ⟨rfl, rfl⟩
  | sendInput =>
    simp only [perform] at h
    split_ifs at h
    cases h
    exact ⟨rfl, rfl⟩

variable {project : ProjectId}

theorem gated_registering (hsound : Sound es s) (hplaced : s.Placed) (hs : s.Gated)
    {spawning : Spawning} (hpoint : s.calls session = some (.registering spawning project))
    (h : s.proceed session none (.registering spawning project) = some t) : t.Gated := by
  have hframe := proceed_frame h
  have hruns : ∀ other process, t.RunsFrom other process ↔ s.RunsFrom other process :=
    hframe.runsFrom fun _ => rfl
  have hnew : ∀ other, ¬t.RunsFrom other s.core.nextProcess := by
    intro other hother
    obtain ⟨pgid, -, hgroup⟩ := bind_eq_some_iff.mp ((hruns other _).mp hother)
    exact absurd (hplaced.tracked pgid _ hgroup) (Nat.lt_irrefl _)
  cases h
  have hafter : (({ s with
      core := s.core.register project spawning.kind spawning.label false spawning.resumable
      delegated := if (s.core.origin session).bound = none then s.delegated
        else s.core.nextProcess :: s.delegated } : System).goTo session
          (.starting s.core.nextProcess project)).calls session =
      some (.starting s.core.nextProcess project) := put_self
  have hmem : ∀ process, process ∈ (if (s.core.origin session).bound = none then s.delegated
      else s.core.nextProcess :: s.delegated) → process = s.core.nextProcess ∧
        (s.core.origin session).bound ≠ none ∨ process ∈ s.delegated := by
    intro process hprocess
    split_ifs at hprocess with hbound
    · exact .inr hprocess
    · rcases mem_cons.mp hprocess with hsame | hold
      · exact .inl ⟨hsame, hbound⟩
      · exact .inr hold
  refine ⟨?_, ?_, ?_, ?_, ?_⟩
  · intro process hprocess
    rcases hmem process hprocess with ⟨rfl, -⟩ | hold
    · exact Nat.lt_succ_self _
    · exact Nat.lt_succ_of_lt (hs.named process hold)
  · intro other worker hworker
    by_cases hother : other = session
    · rw [hother, hafter] at hworker
      cases hworker
      refine ⟨Nat.lt_succ_self _, fun hdelegated => ?_⟩
      rw [hother]
      rcases hmem _ hdelegated with ⟨-, hbound⟩ | hold
      · exact hbound
      · exact absurd (hs.named _ hold) (Nat.lt_irrefl _)
    · rw [hframe.calls other hother] at hworker
      obtain ⟨hlt, hlead⟩ := hs.work other worker hworker
      refine ⟨Nat.lt_succ_of_lt hlt, fun hdelegated => ?_⟩
      rcases hmem _ hdelegated with ⟨rfl, -⟩ | hold
      · exact absurd hlt (Nat.lt_irrefl _)
      · exact hlead hold
  · intro other process hholds
    rw [hruns]
    by_cases hother : other = session
    · subst hother
      rcases Holds.at_point hholds hafter with hbound | hhas
      · exact hs.held other process (.inl hbound)
      · exact hhas.elim
    · exact hs.held other process ((hframe.holds_of_ne hother).mp hholds)
  · intro process hprocess hkept
    rcases hmem process hprocess with ⟨rfl, -⟩ | hold
    · have hlt : session < s.core.nextSession := session_lt hsound hpoint
      exact .inr ⟨session, hlt, by rw [hafter]; rfl⟩
    · have hbefore : s.Kept process := by
        refine hframe.kept_back hs (fun hholds => ?_) hold hkept
        rcases Holds.at_point hholds hafter with hbound | hhas
        · exact .inl (.inl hbound)
        · exact hhas.elim
      rcases hs.edges process hold hbefore with hedge | ⟨other, hlt, hworker⟩
      · exact .inl hedge
      · right
        have hother : other ≠ session := by
          rintro rfl
          rw [hpoint] at hworker
          cases hworker
        exact hframe.launching_of_ne hother hlt hworker
  · intro other point process hpoint' hprocess hrunning
    rcases hmem process hprocess with ⟨rfl, -⟩ | hold
    · exact absurd hrunning (hnew other)
    · have hbefore := (hruns other process).mp hrunning
      by_cases hother : other = session
      · subst hother
        exact (hs.gate other _ process hpoint hold hbefore).elim
      · rw [hframe.calls other hother] at hpoint'
        exact hs.gate other point process hpoint' hold hbefore

theorem gated_launched (hs : s.Gated)
    (hpoint : s.calls session = some point) (hworker : point.worker = some worker)
    (h : Frame session id s t) {outcome : Outcome}
    (hafter : t.calls session = some (.returned outcome))
    (hdelegated : ∀ process ∈ t.delegated, process ∈ s.delegated)
    (hlineage : ∀ process ≠ worker, t.lineage.parentOf process = s.lineage.parentOf process)
    (hlead : worker ∈ t.delegated → t.lineage.parentOf worker ≠ none)
    (hsuccess : ∀ process ∈ s.delegated, s.RunsFrom session process →
      (Point.returned outcome).Gate (s.core.origin session).bound process) : t.Gated := by
  have horigin : t.core.origin session = s.core.origin session :=
    origin_congr (by rw [h.session_self, Option.map_id]; rfl)
  have hheld : ∀ other process, t.Holds other process → s.Holds other process := by
    intro other process hholds
    by_cases hother : other = session
    · subst hother
      rcases Holds.at_point hholds hafter with hbound | hhas
      · exact .inl (horigin ▸ hbound)
      · exact hhas.elim
    · exact (h.holds_of_ne hother).mp hholds
  refine ⟨?_, ?_, ?_, ?_, ?_⟩
  · intro process hprocess
    exact Nat.lt_of_lt_of_le (hs.named process (hdelegated process hprocess)) h.core.next
  · intro other w hw
    have hother : other ≠ session := by
      rintro rfl
      rw [hafter] at hw
      cases hw
    rw [h.calls other hother] at hw
    obtain ⟨hlt, hbound⟩ := hs.work other w hw
    rw [origin_congr (h.session_of_ne hother)]
    exact ⟨Nat.lt_of_lt_of_le hlt h.core.next, fun hw => hbound (hdelegated w hw)⟩
  · intro other process hholds
    rw [h.runsFrom fun _ => rfl]
    exact hs.held other process (hheld other process hholds)
  · intro process hprocess hkept
    by_cases hsame : process = worker
    · subst hsame
      exact .inl (hlead hprocess)
    · have hbefore : s.Kept process := h.kept_back hs
        (fun hholds => .inl (hheld session process hholds)) (hdelegated process hprocess) hkept
      rw [hlineage process hsame]
      rcases hs.edges process (hdelegated process hprocess) hbefore with
        hedge | ⟨other, hlt, hw⟩
      · exact .inl hedge
      · right
        have hother : other ≠ session := by
          rintro rfl
          rw [hpoint] at hw
          exact hsame (some.inj (hw.symm.trans hworker))
        exact h.launching_of_ne hother hlt hw
  · intro other after process hpoint' hprocess hruns
    have hold := hdelegated process hprocess
    rw [h.runsFrom fun _ => rfl] at hruns
    by_cases hother : other = session
    · subst hother
      obtain rfl := some.inj (hafter.symm.trans hpoint')
      rw [horigin]
      exact hsuccess process hold hruns
    · rw [h.calls other hother] at hpoint'
      rw [origin_congr (h.session_of_ne hother)]
      exact hs.gate other after process hpoint' hold hruns

/-- What a peer's group leads to is listed, and the session runs in it. -/
theorem Placed.home (hplaced : s.Placed) (hhome : s.core.homeProcess session = some process) :
    s.core.processView process ≠ none ∧ s.RunsFrom session process := by
  obtain ⟨pgid, entry, -, hentry, -⟩ := Core.homeProcess_entry hplaced.filed hhome
  refine ⟨?_, runsFrom_home hplaced hhome⟩
  exact ne_none_iff_exists'.mpr
    ⟨entry.view, Core.processView_eq_some.mpr ⟨entry, hentry, rfl⟩⟩

theorem plain_refused (refusal : Refusal) : (Point.returned (.refused refusal)).Plain :=
  ⟨rfl, fun _ h => h, fun _ _ => trivial⟩

theorem gated_judging (hs : s.Gated) {spawning : Spawning} {caller : ProcessId}
    {rest : List ProcessId}
    (hpoint : s.calls session = some (.judging spawning project (caller :: rest)))
    (hsees : s.GateSees session (.judging spawning project (caller :: rest)))
    (hparent : ¬s.lineage.parentOf caller ≠ none) :
    (s.goTo session (.judging spawning project rest)).Gated := by
  refine gated_reads hs hpoint rfl ?_ ?_
  · intro process hhas
    exact .inl (.inr ⟨_, hpoint, .tail _ hhas⟩)
  · intro process hprocess hruns
    rcases mem_cons.mp (hs.gate session _ process hpoint hprocess hruns) with rfl | hrest
    · have hkept : s.Kept process :=
        .inr ⟨session, .inr ⟨_, hpoint, (.head _)⟩⟩
      rcases hs.edges process hprocess hkept with hedge | hlaunching
      · exact absurd hedge hparent
      · exact absurd hlaunching (hsees hprocess)
    · exact hrest

theorem gated_starting (hs : s.Gated)
    (hpoint : s.calls session = some (.starting worker project))
    (hframe : Frame session (Point.starting worker project).write s
      ((s.launch worker).goTo session (.recording worker project))) :
    ((s.launch worker).goTo session (.recording worker project)).Gated := by
  obtain ⟨hdelegated, hlineage⟩ := launch_ledger (s := s) worker
  have hnow : ((s.launch worker).goTo session (.recording worker project)).calls session =
      some (.recording worker project) := put_self
  refine gated_turn hs hframe (fun _ => rfl) hdelegated hlineage ?_ (fun _ => rfl) ?_ ?_
  · rw [hpoint, hnow]
    rfl
  · intro process hholds
    left
    rcases Holds.at_point hholds hnow with hbound | hhas
    · rcases hframe.bound hbound with hpoint' | hbefore
      · cases hpoint'
      · exact .inl hbefore
    · exact hhas.elim
  · intro after process _ hprocess hruns
    exact (hs.gate session _ process hpoint hprocess hruns).elim

theorem gated_proceed (hsound : Sound es s) (hplaced : s.Placed) (hs : s.Gated)
    (horderly : s.Orderly (.proceed session fault))
    (h : s.step (.proceed session fault) = some t) : t.Gated := by
  obtain ⟨point, hpoint, ht⟩ := bind_eq_some_iff.mp h
  have hframe := proceed_frame ht
  have hcaller := hs.gate session point
  -- most calls move on to a point that has nothing to do with delegation
  have hplainly : ∀ {next : Point}, point.worker = none → t.delegated = s.delegated →
      t.lineage = s.lineage → t.calls session = some next → next.Plain → t.Gated :=
    fun hworker hdelegated hlineage hnext hplain =>
      gated_plain hs hpoint hworker hframe hdelegated hlineage hnext hplain
  cases point with
  | returned outcome => cases ht
  | resolving look purpose =>
    simp only [proceed] at ht
    split at ht
    · cases ht
      exact hplainly rfl rfl rfl put_self ⟨rfl, fun _ h => h, fun _ _ => trivial⟩
    · cases ht
      exact hplainly rfl rfl rfl put_self (settle_plain purpose _)
  | acting action view =>
    simp only [proceed] at ht
    split at ht
    · rename_i u hu
      cases ht
      obtain ⟨hdelegated, hlineage⟩ := perform_ledger hu
      exact hplainly rfl hdelegated hlineage put_self
        ⟨rfl, fun _ h => h, fun _ _ => trivial⟩
    · cases ht
      exact hplainly rfl rfl rfl put_self (plain_refused _)
  | actingAll action project =>
    simp only [proceed] at ht
    split_ifs at ht
    · cases ht
      exact hplainly rfl rfl rfl put_self (plain_refused _)
    · cases ht
      cases action <;>
        exact hplainly rfl rfl rfl put_self ⟨rfl, fun _ h => h, fun _ _ => trivial⟩
  | gateHome spawning project =>
    cases ht
    have hseen : s.GateSees session (.gateHome spawning project) := horderly _ hpoint
    refine gated_reads hs hpoint rfl ?_ hseen
    intro process hhome
    exact .inr (hplaced.home hhome)
  | gateOrigin spawning project home =>
    cases ht
    refine gated_reads hs hpoint rfl ?_ ?_
    · intro process hhas
      left
      rcases mem_append.mp hhas with hhome | hbound
      · exact .inr ⟨_, hpoint, mem_toList.mp hhome⟩
      · exact .inl (mem_toList.mp hbound)
    · intro process hprocess hruns
      rcases hcaller process hpoint hprocess hruns with hhome | hbound
      · exact mem_append_left _ (mem_toList.mpr hhome)
      · exact mem_append_right _ (mem_toList.mpr hbound)
  | judging spawning project callers =>
    cases callers with
    | nil =>
      cases ht
      refine gated_reads hs hpoint rfl (fun _ h => h.elim) ?_
      intro process hprocess hruns
      exact absurd (hcaller process hpoint hprocess hruns) not_mem_nil
    | cons caller rest =>
      simp only [proceed] at ht
      split_ifs at ht with hparent
      · cases ht
        exact gated_judging hs hpoint (horderly _ hpoint) (fun hedge => hedge hparent)
      · cases ht
        exact hplainly rfl rfl rfl put_self (plain_refused _)
  | rooting spawning project =>
    simp only [proceed] at ht
    split_ifs at ht
    · cases ht
      exact hplainly rfl rfl rfl put_self (plain_refused _)
    · cases ht
      refine gated_reads hs hpoint rfl (fun _ h => h.elim) ?_
      intro process hprocess hruns
      exact (hcaller process hpoint hprocess hruns).elim
    · cases ht
      exact hplainly rfl rfl rfl put_self (plain_refused _)
  | registering spawning project =>
    cases fault with
    | none => exact gated_registering hsound hplaced hs hpoint ht
    | some error =>
      cases ht
      exact hplainly rfl rfl rfl put_self (plain_refused _)
  | starting worker project =>
    simp only [proceed] at ht
    split_ifs at ht with hrefused
    · cases ht
      refine gated_launched hs hpoint rfl hframe put_self ?_ (fun _ _ => rfl) ?_
        fun _ _ _ => trivial
      · intro process hprocess
        exact (mem_filter.mp hprocess).1
      · intro hworker
        have hkept := (mem_filter.mp hworker).2
        simp only [ne_eq, not_true_eq_false, decide_false, Bool.false_eq_true] at hkept
    · cases ht
      exact gated_starting hs hpoint hframe
  | recording worker project =>
    have hlead := (hs.work session worker (by rw [hpoint]; rfl)).2
    simp only [proceed] at ht
    split at ht
    · cases ht
      refine gated_launched hs hpoint rfl hframe put_self (fun _ h => h) ?_ ?_ ?_
      · intro process hprocess
        exact (AgentLineage.parentOf_record process).trans (if_neg hprocess)
      · intro _ hnone
        have hedge := (AgentLineage.parentOf_record worker).symm.trans hnone
        rw [if_pos rfl] at hedge
        cases hedge
      · intro process hprocess hruns
        exact (hcaller process hpoint hprocess hruns).elim
    · rename_i hbound
      cases ht
      refine gated_launched hs hpoint rfl hframe put_self (fun _ h => h)
        (fun _ _ => rfl) (fun hworker => absurd hbound (hlead hworker)) ?_
      intro process hprocess hruns
      exact (hcaller process hpoint hprocess hruns).elim
  | bindHome process =>
    simp only [proceed] at ht
    split_ifs at ht with hhome
    · cases ht
      refine gated_reads hs hpoint rfl ?_ fun _ _ _ => trivial
      intro bound hhas
      obtain rfl : process = bound := hhas
      exact .inr (hplaced.home hhome)
    · cases ht
      exact hplainly rfl rfl rfl put_self (plain_refused _)
  | binding process =>
    cases ht
    exact hplainly rfl rfl rfl put_self ⟨rfl, fun _ h => h, fun _ _ => trivial⟩
  | naming label =>
    cases ht
    exact hplainly rfl rfl rfl put_self ⟨rfl, fun _ h => h, fun _ _ => trivial⟩
  | selectHome project =>
    simp only [proceed] at ht
    split at ht
    all_goals
      cases ht
      exact hplainly rfl rfl rfl put_self ⟨rfl, fun _ h => h, fun _ _ => trivial⟩
  | selectView project home =>
    simp only [proceed] at ht
    split at ht
    · split_ifs at ht
      all_goals
        cases ht
        exact hplainly rfl rfl rfl put_self ⟨rfl, fun _ h => h, fun _ _ => trivial⟩
    · cases ht
      exact hplainly rfl rfl rfl put_self ⟨rfl, fun _ h => h, fun _ _ => trivial⟩
  | selectDirectory project =>
    simp only [proceed] at ht
    split_ifs at ht
    all_goals
      cases ht
      exact hplainly rfl rfl rfl put_self ⟨rfl, fun _ h => h, fun _ _ => trivial⟩
  | selecting project =>
    cases ht
    exact hplainly rfl rfl rfl put_self ⟨rfl, fun _ h => h, fun _ _ => trivial⟩

end System

/-- Delegation stays one level deep in every run whose gate sees what it has to see: no session that
runs in a group of a delegated process is past the gate of a spawn, or has spawned. -/
theorem delegation_one_level {s : System} (h : system.ReachableUnder System.Orderly s)
    {session : SessionId} {process : ProcessId} (hdelegated : process ∈ s.delegated)
    (hruns : s.RunsFrom session process) (worker : ProcessId) (project : ProjectId) :
    s.calls session ≠ some (.returned (.spawned worker project)) ∧
      s.calls session ≠ some (.starting worker project) ∧
      s.calls session ≠ some (.recording worker project) := by
  obtain ⟨s₀, es, rfl, halong, hrun⟩ := h
  have hinvariant : s.Placed ∧ s.Gated := by
    refine Machine.invariant_history_along (I := fun _ s => s.Placed ∧ s.Gated)
      ⟨System.placed_new, System.gated_new⟩ ?_ halong hrun
    intro es s e t hrun horderly hinvariant hstep
    obtain ⟨hplaced, hgated⟩ := hinvariant
    have hsound := sound_run hrun
    refine ⟨System.placed_step hplaced hstep, ?_⟩
    cases hmover : e.mover with
    | none => exact System.gated_other hsound hgated hmover horderly hstep
    | some session =>
      rcases System.mover_eq_some hmover with ⟨request, fault, rfl⟩ | ⟨fault, rfl⟩
      · exact System.gated_ask hgated hstep
      · exact System.gated_proceed hsound hplaced hgated horderly hstep
  refine ⟨?_, ?_, ?_⟩
  all_goals
    intro hpoint
    exact hinvariant.2.gate session _ process hpoint hdelegated hruns

/-- A lead binds its session and spawns a command, up to where the command is launched and the lead
is not recorded. -/
def leadSpawns : List Event :=
  [.addProject [.rootDir, .normal "a"], .register 1 .agent "lead" false false, .start 1,
    .spawnChild 1 100, .recordGroup 1, .openSession ⟨some 100, none⟩,
    .ask 1 (.bindSessionProcess 1) none, .proceed 1 none, .proceed 1 none,
    .ask 1 (.spawn (.process "build")) none] ++
  List.replicate 11 (.proceed 1 none)

def workerAsks : List Event :=
  [.spawnChild 2 200, .recordGroup 2, .openSession ⟨some 200, none⟩,
    .ask 2 (.spawn (.process "nested")) none]

/-- A worker whose lead is recorded is refused. -/
theorem delegation_one_level_refused : ∃ s, system.ReachableUnder System.Orderly s ∧
    (2 ∈ s.delegated ∧ s.RunsFrom 2 2 ∧
      s.calls 2 = some (.returned (.refused .workerMayNotSpawn))) ∧
    ∀ worker project, s.calls 2 ≠ some (.returned (.spawned worker project)) := by
  obtain ⟨s, hs, hworker⟩ := Machine.exists_reachableUnder_of_run (M := system)
    (G := System.Orderly) rfl
    (leadSpawns ++ [.proceed 1 none] ++ workerAsks ++ List.replicate 7 (.proceed 2 none))
    (by decide)
    (fun s => 2 ∈ s.delegated ∧ s.RunsFrom 2 2 ∧
      s.calls 2 = some (.returned (.refused .workerMayNotSpawn))) (by decide)
  refine ⟨s, hs, hworker, fun worker project => ?_⟩
  exact (delegation_one_level hs hworker.1 hworker.2.1 worker project).1

/-- A worker that asks before its lead is recorded spawns a process of its own. -/
theorem delegation_nested : ∃ s, system.Reachable s ∧
    2 ∈ s.delegated ∧ s.RunsFrom 2 2 ∧ s.calls 2 = some (.returned (.spawned 3 1)) :=
  Machine.exists_reachable_of_run rfl
    (leadSpawns ++ workerAsks ++ List.replicate 12 (.proceed 2 none)) _ (by decide)

end Soloist.Facade
