import Soloist.Agents.System

/-! What the sampler's pruning keeps. A tick prunes both maps to a snapshot of the registry taken
some steps before, so an agent that is registered and tracked in between is not in it. -/
open Option

namespace Soloist
namespace AgentSystem

def Keeps (s t : AgentSystem) : Prop :=
  ∀ id, t.inRegistry id = true → (s.tracked id = true → t.tracked id = true) ∧
    ∀ parent, s.lineage.parentOf id = some parent → t.lineage.parentOf id = some parent

/-- A prune finds no process that came after its snapshot: what is tracked in the registry is in
the snapshot, and what has an edge there is in it, or an ancestor of what is. -/
def PrunesTheGone (s : AgentSystem) : AgentEvent → Prop
  | .sample _ =>
    match s.sampler with
    | .snapped registry _ => ∀ id, s.inRegistry id = true → s.tracked id = true → id ∈ registry.keys
    | .pruned registry _ => ∀ id, s.inRegistry id = true →
        ∀ parent, s.lineage.parentOf id = some parent →
          ∃ p ∈ registry.keys, s.lineage.Descends p id
    | _ => True
  | _ => True

/-- How a step may add to the registry, the launches and the two maps. -/
structure Grows (s t : AgentSystem) : Prop where
  next : s.nextProcess ≤ t.nextProcess
  registered : ∀ id, t.inRegistry id = true →
    s.inRegistry id = true ∨ s.nextProcess ≤ id ∧ id < t.nextProcess
  tracked : ∀ id, t.tracked id = true → s.tracked id = true ∨ ∃ call, s.launches id = some call
  edges : ∀ id parent, t.lineage.parentOf id = some parent →
    s.lineage.parentOf id = some parent ∨ s.launches id = some .recording ∧ t.launches id = none
  launches : ∀ id call, t.launches id = some call →
    (∃ call, s.launches id = some call) ∨ s.nextProcess ≤ id ∧ id < t.nextProcess

/-- Whatever is known of a process, its id was handed out; a launch still to record its edge has
none. -/
structure Numbered (s : AgentSystem) : Prop where
  registered : ∀ id, s.inRegistry id = true → id < s.nextProcess
  tracked : ∀ id, s.tracked id = true → id < s.nextProcess
  edges : ∀ id parent, s.lineage.parentOf id = some parent → id < s.nextProcess
  launching : ∀ id call, s.launches id = some call →
    id < s.nextProcess ∧ s.lineage.parentOf id = none

variable {s t u : AgentSystem} {id : ProcessId} {e : AgentEvent}

theorem numbered_new : new.Numbered where
  registered := by
    intro id h
    cases h
  tracked := by
    intro id h
    cases h
  edges := by
    intro id parent h
    cases h
  launching := by
    intro id call h
    cases h

theorem Numbered.grows (hs : s.Numbered) (h : s.Grows t) : t.Numbered where
  registered := by
    intro id hid
    obtain hid | ⟨-, hid⟩ := h.registered id hid
    · exact Nat.lt_of_lt_of_le (hs.registered id hid) h.next
    · exact hid
  tracked := by
    intro id hid
    obtain hid | ⟨call, hcall⟩ := h.tracked id hid
    · exact Nat.lt_of_lt_of_le (hs.tracked id hid) h.next
    · exact Nat.lt_of_lt_of_le (hs.launching id call hcall).1 h.next
  edges := by
    intro id parent hid
    obtain hid | ⟨hcall, -⟩ := h.edges id parent hid
    · exact Nat.lt_of_lt_of_le (hs.edges id parent hid) h.next
    · exact Nat.lt_of_lt_of_le (hs.launching id _ hcall).1 h.next
  launching := by
    intro id call hcall
    have hedge : ∀ parent, t.lineage.parentOf id = some parent →
        s.lineage.parentOf id = some parent := by
      intro parent hparent
      obtain hparent | ⟨-, hdone⟩ := h.edges id parent hparent
      · exact hparent
      · rw [hdone] at hcall
        cases hcall
    have hnone : s.lineage.parentOf id = none → t.lineage.parentOf id = none := by
      intro hold
      rw [eq_none_iff_forall_ne_some]
      intro parent hparent
      rw [hedge parent hparent] at hold
      cases hold
    obtain ⟨call', hold⟩ | ⟨hfresh, hlt⟩ := h.launches id call hcall
    · obtain ⟨hlt, hroot⟩ := hs.launching id call' hold
      exact ⟨Nat.lt_of_lt_of_le hlt h.next, hnone hroot⟩
    · refine ⟨hlt, hnone ?_⟩
      rw [eq_none_iff_forall_ne_some]
      intro parent hparent
      exact absurd (hs.edges id parent hparent) (Nat.not_lt_of_le hfresh)

/-- A step that leaves the launches and the ids, and what is in the registry and in the maps. -/
structure Leaves (s t : AgentSystem) : Prop where
  next : t.nextProcess = s.nextProcess
  launches : t.launches = s.launches
  registered : ∀ id, t.inRegistry id = s.inRegistry id
  tracked : ∀ id, t.tracked id = s.tracked id
  lineage : t.lineage = s.lineage

theorem Leaves.grows (h : s.Leaves t) : s.Grows t where
  next := Nat.le_of_eq h.next.symm
  registered := by
    intro id hid
    rw [h.registered] at hid
    exact .inl hid
  tracked := by
    intro id hid
    rw [h.tracked] at hid
    exact .inl hid
  edges := by
    intro id parent hid
    rw [h.lineage] at hid
    exact .inl hid
  launches := by
    intro id call hid
    rw [h.launches] at hid
    exact .inl ⟨call, hid⟩

theorem Leaves.keeps (h : s.Leaves t) : s.Keeps t := by
  intro id _
  rw [h.tracked, h.lineage]
  exact ⟨fun htracked => htracked, fun _ hparent => hparent⟩

theorem keeps_refl (s : AgentSystem) : s.Keeps s :=
  fun _ _ => ⟨fun htracked => htracked, fun _ hparent => hparent⟩

theorem leaves_refl (s : AgentSystem) : s.Leaves s :=
  ⟨rfl, rfl, fun _ => rfl, fun _ => rfl, rfl⟩

theorem isSome_insert {α : Type} {d : Dict ProcessId α} {x y : α} (h : d.lookup id = some x)
    (i : ProcessId) : (AList.lookup i (AList.insert id y d)).isSome = (d.lookup i).isSome := by
  rw [Dict.lookup_insert]
  split_ifs with hi
  · rw [hi, h]
    rfl
  · rfl

theorem leaves_advance (h : s.advance id e = some t) : s.Leaves t := by
  obtain ⟨p, hp, hmap⟩ := bind_eq_some_iff.mp h
  obtain ⟨p', -, rfl⟩ := map_eq_some_iff.mp hmap
  exact ⟨rfl, rfl, fun i => isSome_insert hp i, fun _ => rfl, rfl⟩

theorem leaves_classify (f : Classifier → Classifier) (sampler : SamplerTick) :
    s.Leaves { s with
      tracker := (s.tracker.lookup id).elim s.tracker fun c => AList.insert id (f c) s.tracker
      sampler } := by
  refine ⟨rfl, rfl, fun _ => rfl, ?_, rfl⟩
  intro i
  unfold AgentSystem.tracked
  cases h : s.tracker.lookup id with
  | none => rfl
  | some c => exact isSome_insert h i

theorem leaves_sampler (sampler : SamplerTick) : s.Leaves { s with sampler } :=
  ⟨rfl, rfl, fun _ => rfl, fun _ => rfl, rfl⟩

theorem grows_register (launches : Slots ProcessId LaunchCall)
    (h : ∀ i call, launches i = some call →
      s.launches i = some call ∨ i = s.nextProcess) :
    s.Grows { s with
      registry := AList.insert s.nextProcess .new s.registry
      nextProcess := s.nextProcess + 1
      launches } where
  next := Nat.le_succ _
  registered := by
    intro i hi
    unfold inRegistry at hi
    rw [Dict.lookup_insert] at hi
    split_ifs at hi with hnew
    · exact .inr ⟨Nat.le_of_eq hnew.symm, hnew ▸ Nat.lt_succ_self _⟩
    · exact .inl hi
  tracked := by
    intro i hi
    exact .inl hi
  edges := by
    intro i parent hi
    exact .inl hi
  launches := by
    intro i call hi
    obtain hold | rfl := h i call hi
    · exact .inl ⟨call, hold⟩
    · exact .inr ⟨le_rfl, Nat.lt_succ_self _⟩

/-- The launch of `id` goes on, ends, or has nothing left to do. -/
theorem grows_launches (launches : Slots ProcessId LaunchCall)
    (h : ∀ i call, launches i = some call → ∃ call, s.launches i = some call) :
    s.Grows { s with launches } where
  next := Nat.le_refl _
  registered := by
    intro i hi
    exact .inl hi
  tracked := by
    intro i hi
    exact .inl hi
  edges := by
    intro i parent hi
    exact .inl hi
  launches := by
    intro i call hi
    exact .inl (h i call hi)

variable {launches : Slots ProcessId LaunchCall}

theorem exists_of_put {call call' : LaunchCall} (h : launches id = some call') (i : ProcessId)
    (c : LaunchCall) (hi : launches.put id call i = some c) : ∃ c, launches i = some c := by
  obtain ⟨rfl, -⟩ | ⟨-, hi⟩ := Slots.put_eq_some.mp hi
  · exact ⟨call', h⟩
  · exact ⟨c, hi⟩

theorem exists_of_erase (i : ProcessId) (c : LaunchCall) (hi : launches.erase id i = some c) :
    ∃ c, launches i = some c :=
  ⟨c, (Slots.erase_eq_some.mp hi).2⟩

variable {tail : List String}

theorem sample_cases (h : s.sampleNext tail = some t) :
    (∃ registry tracked, s.sampler = .snapped registry tracked ∧ t =
      { s with
        tracker := s.tracker.retain fun id => id ∈ registry.keys
        sampler := .pruned registry tracked }) ∨
    (∃ registry tracked, s.sampler = .pruned registry tracked ∧ t =
      { s with
        lineage := s.lineage.retainLive registry.keys
        sampler := .visiting registry tracked }) ∨
    s.Leaves t ∧ s.PrunesTheGone (.sample tail) := by
  unfold sampleNext at h
  unfold PrunesTheGone
  cases hsampler : s.sampler with
  | asleep =>
    rw [hsampler] at h
    cases h
  | listed tracked =>
    rw [hsampler] at h
    dsimp only at h
    right; right
    refine ⟨?_, trivial⟩
    split_ifs at h
    · exact some.inj h ▸ leaves_sampler _
    · exact some.inj h ▸ leaves_sampler _
  | snapping tracked =>
    rw [hsampler] at h
    exact .inr (.inr ⟨some.inj h ▸ leaves_sampler _, trivial⟩)
  | snapped registry tracked =>
    rw [hsampler] at h
    exact .inl ⟨registry, tracked, rfl, (some.inj h).symm⟩
  | pruned registry tracked =>
    rw [hsampler] at h
    exact .inr (.inl ⟨registry, tracked, rfl, (some.inj h).symm⟩)
  | visiting registry rest =>
    rw [hsampler] at h
    right; right
    refine ⟨?_, trivial⟩
    cases rest with
    | nil => exact some.inj h ▸ leaves_sampler _
    | cons id rest =>
      dsimp only at h
      split at h
      · exact some.inj h ▸ leaves_sampler _
      · split_ifs at h
        · split at h
          · exact some.inj h ▸ leaves_sampler _
          · exact some.inj h ▸ leaves_sampler _
        · exact some.inj h ▸ leaves_classify Classifier.reset _
  | sampled registry id signals rest =>
    rw [hsampler] at h
    right; right
    exact ⟨some.inj h ▸ leaves_classify (fun c => (c.observe signals).1) _, trivial⟩

theorem tracked_retain (keys : List ProcessId) :
    (AList.lookup id (s.tracker.retain fun i => i ∈ keys)).isSome = true ↔
      id ∈ keys ∧ s.tracked id = true := by
  rw [Dict.lookup_retain]
  unfold AgentSystem.tracked
  by_cases hid : id ∈ keys
  · simp [hid]
  · simp [hid]

theorem grows_sample (h : s.sampleNext tail = some t) : s.Grows t := by
  obtain ⟨registry, tracked, -, rfl⟩ | ⟨registry, tracked, -, rfl⟩ | ⟨hleaves, -⟩ := sample_cases h
  · refine ⟨le_rfl, fun i hi => .inl hi, fun i hi => ?_, fun i parent hi => .inl hi,
      fun i call hi => .inl ⟨call, hi⟩⟩
    exact .inl ((tracked_retain _).mp hi).2
  · refine ⟨le_rfl, fun i hi => .inl hi, fun i hi => .inl hi, fun i parent hi => ?_,
      fun i call hi => .inl ⟨call, hi⟩⟩
    left
    have hkept : (s.lineage.retainLive registry.keys).parentOf i = some parent := hi
    rw [AgentLineage.parentOf_retainLive] at hkept
    split_ifs at hkept
    exact hkept
  · exact hleaves.grows

theorem keeps_sample_iff (h : s.sampleNext tail = some t) :
    s.Keeps t ↔ s.PrunesTheGone (.sample tail) := by
  obtain ⟨registry, tracked, hsampler, rfl⟩ | ⟨registry, tracked, hsampler, rfl⟩ |
    ⟨hleaves, hgone⟩ := sample_cases h
  · unfold PrunesTheGone
    rw [hsampler]
    constructor
    · intro hkeeps i hi htracked
      exact ((tracked_retain _).mp ((hkeeps i hi).1 htracked)).1
    · intro hgone i hi
      refine ⟨fun htracked => ?_, fun parent hparent => hparent⟩
      exact (tracked_retain _).mpr ⟨hgone i hi htracked, htracked⟩
  · unfold PrunesTheGone
    rw [hsampler]
    have hprune : ∀ i, (s.lineage.retainLive registry.keys).parentOf i =
        if i ∈ s.lineage.needed registry.keys then s.lineage.parentOf i else none :=
      fun i => AgentLineage.parentOf_retainLive
    constructor
    · intro hkeeps i hi parent hparent
      have hkept := (hkeeps i hi).2 parent hparent
      rw [hprune i] at hkept
      split_ifs at hkept with hneeded
      exact AgentLineage.mem_needed.mp hneeded
    · intro hgone i hi
      refine ⟨fun htracked => htracked, fun parent hparent => ?_⟩
      have hneeded := AgentLineage.mem_needed.mpr (hgone i hi parent hparent)
      exact (hprune i).trans ((if_pos hneeded).trans hparent)
  · exact iff_of_true hleaves.keeps hgone

theorem leaves_start : s.Leaves ((s.advance id (.start id)).getD s) := by
  cases h : s.advance id (.start id) with
  | none => exact leaves_refl s
  | some t => exact leaves_advance h

theorem launchStart_cases (accepted : Bool) (kind : Option AgentKind) :
    ∃ r launches, s.Leaves r ∧ s.launchStart id accepted kind = { r with launches } ∧
      (launches = s.launches.put id (kind.elim .recording .tracking) ∨
        launches = s.launches.erase id) := by
  unfold launchStart
  split_ifs
  · exact ⟨_, _, leaves_start, rfl, .inl rfl⟩
  · exact ⟨s, _, leaves_refl s, rfl, .inr rfl⟩

theorem Leaves.then (h : s.Leaves t) (hg : t.Grows u) : s.Grows u where
  next := h.next ▸ hg.next
  registered := by
    intro i hi
    rw [← h.registered, ← h.next]
    exact hg.registered i hi
  tracked := by
    intro i hi
    rw [← h.tracked, ← h.launches]
    exact hg.tracked i hi
  edges := by
    intro i parent hi
    rw [← h.lineage, ← h.launches]
    exact hg.edges i parent hi
  launches := by
    intro i call hi
    rw [← h.launches, ← h.next]
    exact hg.launches i call hi

theorem grows_launchStart {kind : Option AgentKind} (accepted : Bool)
    (h : s.launches id = some (.starting kind)) : s.Grows (s.launchStart id accepted kind) := by
  obtain ⟨r, launches, hr, heq, hlaunches⟩ := @launchStart_cases s id accepted kind
  rw [heq]
  apply hr.then
  apply grows_launches
  rw [hr.launches]
  obtain rfl | rfl := hlaunches
  · exact exists_of_put h
  · exact exists_of_erase

theorem keeps_launchStart (accepted : Bool) (kind : Option AgentKind) :
    s.Keeps (s.launchStart id accepted kind) := by
  obtain ⟨r, launches, hr, heq, -⟩ := @launchStart_cases s id accepted kind
  rw [heq]
  exact hr.keeps

theorem grows_track {kind : AgentKind} (h : s.launches id = some (.tracking kind)) :
    s.Grows { s with
      tracker := AList.insert id (.new kind) s.tracker
      launches := s.launches.put id .recording } where
  next := Nat.le_refl _
  registered := by
    intro i hi
    exact .inl hi
  tracked := by
    intro i hi
    unfold AgentSystem.tracked at hi
    rw [Dict.lookup_insert] at hi
    split_ifs at hi with hid
    · exact .inr ⟨.tracking kind, hid ▸ h⟩
    · exact .inl hi
  edges := by
    intro i parent hi
    exact .inl hi
  launches := by
    intro i call hi
    exact .inl (exists_of_put h i call hi)

theorem keeps_track (kind : AgentKind) (launches : Slots ProcessId LaunchCall) :
    s.Keeps { s with tracker := AList.insert id (.new kind) s.tracker, launches } := by
  intro i _
  refine ⟨fun htracked => ?_, fun _ hparent => hparent⟩
  unfold AgentSystem.tracked
  rw [Dict.lookup_insert]
  split_ifs
  · rfl
  · exact htracked

theorem parentOf_recorded (lead : Option ProcessId) (i : ProcessId) :
    (lead.elim s.lineage (s.lineage.record id)).parentOf i =
      if i = id then lead.or (s.lineage.parentOf i) else s.lineage.parentOf i := by
  cases lead with
  | none =>
    split_ifs
    · exact (none_or).symm
    · rfl
  | some lead => exact AgentLineage.parentOf_record i

variable {lead : Option ProcessId}

theorem grows_record (h : s.launches id = some .recording) :
    s.Grows { s with
      lineage := lead.elim s.lineage (s.lineage.record id)
      launches := s.launches.erase id } where
  next := Nat.le_refl _
  registered := by
    intro i hi
    exact .inl hi
  tracked := by
    intro i hi
    exact .inl hi
  edges := by
    intro i parent hi
    have hparent : (lead.elim s.lineage (s.lineage.record id)).parentOf i = some parent := hi
    rw [parentOf_recorded] at hparent
    split_ifs at hparent with hid
    · right
      exact ⟨hid ▸ h, if_pos hid⟩
    · exact .inl hparent
  launches := by
    intro i call hi
    exact .inl (exists_of_erase i call hi)

theorem Numbered.keeps_record (hs : s.Numbered) (h : s.launches id = some .recording)
    (launches : Slots ProcessId LaunchCall) :
    s.Keeps { s with lineage := lead.elim s.lineage (s.lineage.record id), launches } := by
  intro i _
  refine ⟨fun htracked => htracked, fun parent hparent => ?_⟩
  show (lead.elim s.lineage (s.lineage.record id)).parentOf i = some parent
  rw [parentOf_recorded]
  split_ifs with hid
  · rw [hid, (hs.launching id _ h).2] at hparent
    cases hparent
  · exact hparent

theorem step_grows (h : s.step e = some t) : s.Grows t := by
  cases e with
  | register =>
    cases h
    exact grows_register s.launches fun i call hi => .inl hi
  | launch kind =>
    cases h
    apply grows_register
    intro i call hi
    obtain ⟨hi, -⟩ | ⟨-, hi⟩ := Slots.put_eq_some.mp hi
    · exact .inr hi
    · exact .inl hi
  | launchStart id accepted =>
    simp only [AgentSystem.step] at h
    split at h
    next kind hcall =>
      cases h
      exact grows_launchStart accepted hcall
    next => cases h
  | track id =>
    simp only [AgentSystem.step] at h
    split at h
    next kind hcall =>
      cases h
      exact grows_track hcall
    next => cases h
  | record id lead =>
    simp only [AgentSystem.step] at h
    split at h
    next hcall =>
      cases h
      exact grows_record hcall
    next => cases h
  | start | markRestart | halt | spawn | spawnFailed | run | output | exit | stop | stopped |
    restart | cycle | panic | exhaust => exact (leaves_advance h).grows
  | clear id =>
    cases h
    exact Leaves.grows ⟨rfl, rfl, fun _ => rfl, fun _ => rfl, rfl⟩
  | remove id =>
    simp only [AgentSystem.step, ite_none_right_eq_some, Option.some.injEq] at h
    obtain ⟨-, rfl⟩ := h
    refine ⟨le_rfl, fun i hi => .inl ?_, fun i hi => .inl hi,
      fun i parent hi => .inl hi, fun i call hi => .inl ⟨call, hi⟩⟩
    unfold inRegistry at hi
    rw [Dict.lookup_erase] at hi
    split_ifs at hi
    · cases hi
    · exact hi
  | removeTerminal id =>
    simp only [AgentSystem.step, ite_none_left_eq_some, Option.some.injEq] at h
    obtain ⟨-, rfl⟩ := h
    exact Leaves.grows ⟨rfl, rfl, fun _ => rfl, fun _ => rfl, rfl⟩
  | tick order =>
    simp only [AgentSystem.step] at h
    split at h
    · split_ifs at h
      exact some.inj h ▸ (leaves_sampler _).grows
    · cases h
  | sample tail => exact grows_sample h
  | samplerPanic =>
    simp only [AgentSystem.step] at h
    split at h
    · cases h
    · exact some.inj h ▸ (leaves_sampler _).grows

theorem Numbered.step_keeps_iff (hs : s.Numbered) :
    (∀ t, s.step e = some t → s.Keeps t) ↔ s.PrunesTheGone e := by
  cases e with
  | sample tail =>
    constructor
    · intro h
      cases hnext : s.sampleNext tail with
      | some t => exact (keeps_sample_iff hnext).mp (h t hnext)
      | none =>
        have hasleep : s.sampler = .asleep := by
          unfold sampleNext at hnext
          split at hnext <;> first | assumption | (repeat' split at hnext) <;> cases hnext
        unfold PrunesTheGone
        rw [hasleep]
        trivial
    · intro h t ht
      exact (keeps_sample_iff ht).mpr h
  | register | launch =>
    refine iff_of_true (fun t h => ?_) trivial
    cases h
    exact fun i _ => ⟨fun htracked => htracked, fun _ hparent => hparent⟩
  | launchStart id accepted =>
    refine iff_of_true (fun t h => ?_) trivial
    simp only [AgentSystem.step] at h
    split at h
    next kind hcall =>
      cases h
      exact keeps_launchStart accepted kind
    next => cases h
  | track id =>
    refine iff_of_true (fun t h => ?_) trivial
    simp only [AgentSystem.step] at h
    split at h
    next kind hcall =>
      cases h
      exact keeps_track kind _
    next => cases h
  | record id lead =>
    refine iff_of_true (fun t h => ?_) trivial
    simp only [AgentSystem.step] at h
    split at h
    next hcall =>
      cases h
      exact hs.keeps_record hcall _
    next => cases h
  | start | markRestart | halt | spawn | spawnFailed | run | output | exit | stop | stopped |
    restart | cycle | panic | exhaust =>
    refine iff_of_true (fun t h => ?_) trivial
    exact (leaves_advance h).keeps
  | clear id =>
    refine iff_of_true (fun t h => ?_) trivial
    cases h
    exact Leaves.keeps ⟨rfl, rfl, fun _ => rfl, fun _ => rfl, rfl⟩
  | remove id =>
    refine iff_of_true (fun t h => ?_) trivial
    simp only [AgentSystem.step, ite_none_right_eq_some, Option.some.injEq] at h
    obtain ⟨-, rfl⟩ := h
    exact fun i _ => ⟨fun htracked => htracked, fun _ hparent => hparent⟩
  | removeTerminal id =>
    refine iff_of_true (fun t h => ?_) trivial
    simp only [AgentSystem.step, ite_none_left_eq_some, Option.some.injEq] at h
    obtain ⟨-, rfl⟩ := h
    exact Leaves.keeps ⟨rfl, rfl, fun _ => rfl, fun _ => rfl, rfl⟩
  | tick order =>
    refine iff_of_true (fun t h => ?_) trivial
    simp only [AgentSystem.step] at h
    split at h
    · split_ifs at h
      exact some.inj h ▸ (leaves_sampler _).keeps
    · cases h
  | samplerPanic =>
    refine iff_of_true (fun t h => ?_) trivial
    simp only [AgentSystem.step] at h
    split at h
    · cases h
    · exact some.inj h ▸ (leaves_sampler _).keeps

variable {events : List AgentEvent}

theorem run_registered (h : agentMachine.run s events = some t) :
    s.nextProcess ≤ t.nextProcess ∧
      ∀ id, id < s.nextProcess → t.inRegistry id = true → s.inRegistry id = true := by
  refine Machine.invariant_run (M := agentMachine)
    (P := fun t => s.nextProcess ≤ t.nextProcess ∧
      ∀ id, id < s.nextProcess → t.inRegistry id = true → s.inRegistry id = true) ?_
    ⟨le_rfl, fun _ _ hid => hid⟩ h
  intro t e u ⟨hle, hold⟩ hstep
  have hg := step_grows hstep
  refine ⟨Nat.le_trans hle hg.next, fun id hlt hid => ?_⟩
  obtain hid | ⟨hfresh, -⟩ := hg.registered id hid
  · exact hold id hlt hid
  · exact absurd (Nat.lt_of_lt_of_le hlt hle) (Nat.not_lt_of_le hfresh)

/-- Keeping composes along a run: what is in the registry at its end was there all along. -/
theorem Numbered.keeps_trans (hs : s.Numbered) (hst : s.step e = some t)
    (hrun : agentMachine.run t events = some u) (hkt : s.Keeps t) (hku : t.Keeps u) :
    s.Keeps u := by
  have hle := (step_grows hst).next
  have hback : ∀ id, id < s.nextProcess → u.inRegistry id = true → t.inRegistry id = true :=
    fun id hlt => (run_registered hrun).2 id (Nat.lt_of_lt_of_le hlt hle)
  intro id hid
  constructor
  · intro htracked
    have hmid := hback id (hs.tracked id htracked) hid
    exact (hku id hid).1 ((hkt id hmid).1 htracked)
  · intro parent hparent
    have hmid := hback id (hs.edges id parent hparent) hid
    exact (hku id hid).2 parent ((hkt id hmid).2 parent hparent)

end AgentSystem

/-- Whatever is tracked or has an edge stays so for as long as it is in the registry, in exactly the
runs whose prunes all find every registered agent in their snapshot. -/
theorem sampling_keeps_agents (events : List AgentEvent) :
    agentMachine.Lasting AgentSystem.Keeps .new events ↔
      agentMachine.Along AgentSystem.PrunesTheGone .new events :=
  Machine.lasting_iff_along (I := AgentSystem.Numbered)
    (fun _ _ _ hs hst => hs.grows (AgentSystem.step_grows hst)) AgentSystem.keeps_refl
    (fun _ _ _ _ _ hs hst hrun hkt hku => hs.keeps_trans hst hrun hkt hku)
    (fun _ _ hs => hs.step_keeps_iff) AgentSystem.numbered_new

/-- A lead at work, and a tick that has listed the agents and taken its snapshot. -/
def tickUnderWay : List AgentEvent :=
  [.launch (some .claude), .launchStart 1 true, .track 1, .record 1 none, .tick [1], .sample [],
    .sample []]

def workerLaunched : List AgentEvent :=
  [.launch (some .claude), .launchStart 2 true, .track 2, .record 2 (some 1)]

theorem worker_forgotten :
    ¬ agentMachine.Lasting AgentSystem.Keeps .new
      (tickUnderWay ++ workerLaunched ++ [.sample [], .sample []]) := by
  intro h
  have hrun : (agentMachine.run .new (tickUnderWay ++ workerLaunched)).any (fun s =>
      s.tracked 2 && (agentMachine.run s [.sample [], .sample []]).any fun t =>
        t.inRegistry 2 && !t.tracked 2) = true := by decide
  obtain ⟨s, hs, hafter⟩ := (Option.any_eq_true _ _).mp hrun
  obtain ⟨hbefore, hprune⟩ := Bool.and_eq_true_iff.mp hafter
  obtain ⟨t, ht, hlost⟩ := (Option.any_eq_true _ _).mp hprune
  obtain ⟨hthere, huntracked⟩ := Bool.and_eq_true_iff.mp hlost
  have hkept := (h _ _ s t (List.prefix_refl _) hs ht 2 hthere).1 hbefore
  rw [hkept] at huntracked
  cases huntracked

end Soloist
