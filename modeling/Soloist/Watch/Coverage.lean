import Mathlib.Data.List.Dedup
import Soloist.Watch.Accounts
import Soloist.Watch.Status

/-! What a project's reported limits say about the directories it holds, over every run. -/
open List

namespace Soloist

namespace Registered
variable {entry : Registered} {lost more : PathBuf → Prop}

/-- An entry whose plan is not degraded, and that overlooked nothing, wants every directory its
scans found, save those in `lost`. -/
structure SoundUpTo (lost : PathBuf → Prop) (entry : Registered) : Prop where
  limits : ∀ purpose limit, entry.limit purpose = some limit →
    limit = .degraded ∧ (purpose = .restarts → entry.globs ≠ [])
  covers : entry.coverage.overlooked = false → ¬entry.limit.Degraded →
    entry.coverage.truncated = false ∧ ∀ d ∈ entry.coverage.directories, d ∈ entry.paths ∨ lost d

theorem SoundUpTo.mono (h : entry.SoundUpTo lost) (hmore : ∀ d, lost d → more d) :
    entry.SoundUpTo more where
  limits := h.limits
  covers := by
    intro hseen hplain
    obtain ⟨hcomplete, hall⟩ := h.covers hseen hplain
    exact ⟨hcomplete, fun d hd => (hall d hd).imp_right (hmore d)⟩

def Sound (entry : Registered) : Prop := entry.SoundUpTo fun _ => False

end Registered

theorem Resync.sound_plannedEntry (i : Resync) (share : ℕ) (record : WatchRecord) :
    (i.plannedEntry share record).Sound := by
  have hprefixes : i.globs record.id = [] →
      (prefixRequests record.root (i.globs record.id) share).map (i.scan record.id) = [] := by
    intro hglobs
    rw [hglobs, prefixRequests_nil, map_nil]
  constructor
  · intro purpose limit hlimit
    exact plan_limit hlimit
  · intro _ hplain
    obtain hdegraded | hcovers := @plan_covers record.root (i.globs record.id)
      (i.scan record.id (treeRequest record.root share)) _ share hprefixes
    · exact absurd hdegraded hplain
    · constructor
      · show (List.any _ _) = false
        rw [any_eq_false]
        intro scan hscan
        rw [(hcovers scan hscan).1]
        exact Bool.false_ne_true
      · intro d hd
        obtain ⟨scan, hscan, hfound⟩ := mem_flatMap.mp hd
        left
        exact mem_dedup.mpr (mem_append_left _ ((hcovers scan hscan).2 hfound))

namespace RunState
variable {s : RunState} {project q : ProjectId} {lost : ProjectId → PathBuf → Prop}
  {f : Registered → Registered}

def CoveredUpTo (lost : ProjectId → PathBuf → Prop) (s : RunState) : Prop :=
  ∀ q entry, AList.lookup q s.projects = some entry → entry.SoundUpTo (lost q)

def Covered (s : RunState) : Prop := s.CoveredUpTo fun _ _ => False

variable {more : ProjectId → PathBuf → Prop}

theorem CoveredUpTo.mono (h : s.CoveredUpTo lost) (hmore : ∀ q d, lost q d → more q d) :
    s.CoveredUpTo more :=
  fun q entry hentry => (h q entry hentry).mono (hmore q)

/-- Holding more or less leaves the entries. -/
theorem CoveredUpTo.watching (h : s.CoveredUpTo lost) (w : Watching) :
    ({ s with watching := w } : RunState).CoveredUpTo lost := h

theorem CoveredUpTo.editEntry (h : s.CoveredUpTo lost)
    (hself : ∀ entry : Registered, entry.SoundUpTo (lost project) →
      (f entry).SoundUpTo (more project))
    (hothers : ∀ q, q ≠ project → ∀ d, lost q d → more q d) :
    (s.editEntry project f).CoveredUpTo more := by
  intro q entry hentry
  rw [lookup_editEntry] at hentry
  by_cases hq : q = project
  · rw [if_pos hq] at hentry
    obtain ⟨old, hold, rfl⟩ := Option.map_eq_some_iff.mp hentry
    rw [hq]
    exact hself old (h project old hold)
  · rw [if_neg hq] at hentry
    exact (h q entry hentry).mono (hothers q hq)

theorem covered_new (capacity : Option ℕ) : (new capacity).Covered := by
  intro q entry hentry
  cases hentry

theorem Covered.releaseProject (h : s.Covered) : (s.releaseProject project).Covered := by
  intro q entry hentry
  rw [lookup_releaseProject] at hentry
  split_ifs at hentry
  exact h q entry hentry

end RunState

namespace Resync
variable {i : Resync} {share : ℕ} {record : WatchRecord} {acc : Resyncing}

theorem covered_resyncRecord (h : acc.run.Covered) :
    (i.resyncRecord share acc record).run.Covered := by
  intro q entry hentry
  replace hentry : AList.lookup q (i.replanIfMoved share acc.run record).projects = some entry :=
    hentry
  by_cases hq : q = record.id
  · subst hq
    obtain hplanned | ⟨-, hsame, -⟩ := lookup_replanIfMoved i share acc.run record
    · rw [hplanned] at hentry
      cases hentry
      exact i.sound_plannedEntry share record
    · rw [hsame] at hentry
      exact h _ entry hentry
  · rw [lookup_replanIfMoved_of_ne hq] at hentry
    exact h q entry hentry

end Resync

namespace WatchSet
variable {s : WatchSet} {i : Resync} {records : List WatchRecord} {project q : ProjectId}
  {path : PathBuf}

theorem covered_releaseClosed {s : RunState} (h : s.Covered) : (releaseClosed s records).Covered :=
  Loop.invariant (I := RunState.Covered) (fun _ _ _ hs => hs.releaseProject) h

theorem covered_resync (h : s.run.Covered) (i : Resync) : (s.resync i).run.Covered := by
  unfold resync
  split
  · exact h
  · split_ifs
    · unfold reconcile
      apply Loop.invariant (I := fun acc : Resyncing => acc.run.Covered)
      · intro acc record _ hacc
        exact Resync.covered_resyncRecord hacc
      · exact covered_releaseClosed h
    · exact h

def foundDirectories (found : List ScannedPath) : List PathBuf :=
  (found.filter fun scanned => scanned.directory).map ScannedPath.path

/-- The project absorbing a scan is still to be given what is left of it. -/
def stillFinding (project : ProjectId) (found : List ScannedPath) (q : ProjectId) (d : PathBuf) :
    Prop :=
  q = project ∧ d ∈ foundDirectories found

variable {refusal : PathBuf → Option WatchError}

theorem covered_absorbFound {s : RunState} {found : ScannedPath} {rest : List ScannedPath}
    (h : s.CoveredUpTo (stillFinding project (found :: rest))) :
    (absorbFound refusal project s found).CoveredUpTo (stillFinding project rest) := by
  have hothers : ∀ q, q ≠ project → ∀ d,
      stillFinding project (found :: rest) q d → stillFinding project rest q d := by
    rintro q hq d ⟨rfl, -⟩
    exact absurd rfl hq
  unfold absorbFound
  split_ifs with hdirectory
  · split
    · rename_i w error _
      apply (h.watching w).editEntry _ hothers
      intro entry hentry
      exact ⟨hentry.limits, fun hseen => by cases hseen⟩
    · rename_i w _
      apply (h.watching w).editEntry _ hothers
      intro entry hentry
      refine ⟨hentry.limits, fun hseen hplain => ?_⟩
      obtain ⟨hcomplete, hall⟩ := hentry.covers hseen hplain
      refine ⟨hcomplete, fun d hd => ?_⟩
      obtain hd | ⟨hproject, hd⟩ := hall d hd
      · exact .inl (mem_insert_of_mem hd)
      · rw [foundDirectories, filter_cons, if_pos hdirectory, map_cons,
          mem_cons] at hd
        obtain rfl | hd := hd
        · exact .inl mem_insert_self
        · exact .inr ⟨hproject, hd⟩
  · apply h.mono
    rintro q d ⟨hproject, hd⟩
    rw [foundDirectories, filter_cons, if_neg hdirectory] at hd
    exact ⟨hproject, hd⟩

theorem covered_absorbAll {s : RunState} {found : List ScannedPath}
    (h : s.CoveredUpTo (stillFinding project found)) :
    (found.foldl (absorbFound refusal project) s).Covered := by
  induction found generalizing s with
  | nil =>
    apply h.mono
    rintro q d ⟨-, hd⟩
    cases hd
  | cons first rest ih =>
    rw [foldl_cons]
    exact ih (covered_absorbFound h)

theorem covered_absorbAppeared {scan : ProjectId → ScanRequest → Scan}
    {refusal : ProjectId → PathBuf → Option WatchError} (h : s.run.Covered) :
    (absorbAppeared scan refusal path s project).run.Covered := by
  unfold absorbAppeared
  split_ifs
  · apply covered_absorbAll
    apply h.editEntry
    · intro entry hentry
      refine ⟨hentry.limits, fun hseen hplain => ?_⟩
      simp only [noteScan, Bool.or_eq_false_iff, decide_eq_false_iff_not, not_lt] at hseen
      obtain ⟨⟨hseen, htruncated⟩, hshort⟩ := hseen
      obtain ⟨hcomplete, hall⟩ := hentry.covers hseen hplain
      constructor
      · simp only [noteScan, hcomplete, htruncated, Bool.or_self]
      · intro d hd
        rw [take_of_length_le hshort]
        obtain hd | hd := mem_append.mp hd
        · exact (hall d hd).imp_right False.elim
        · exact .inr ⟨rfl, hd⟩
    · intro q _ d hlost
      exact hlost.elim
  · exact h

/-- Everything under a vanished path is being let go. -/
theorem covered_prunePath {s : RunState} {doomed : PathBuf} (hdoomed : path <+: doomed)
    (h : s.CoveredUpTo fun _ d => path <+: d) :
    (prunePath doomed s project).CoveredUpTo fun _ d => path <+: d := by
  unfold prunePath
  apply (h.watching _).editEntry
  · intro entry hentry
    refine ⟨hentry.limits, fun hseen hplain => ?_⟩
    obtain ⟨hcomplete, hall⟩ := hentry.covers hseen hplain
    refine ⟨hcomplete, fun d hd => ?_⟩
    obtain hd | hunder := hall d hd
    · by_cases heq : d = doomed
      · exact .inr (heq ▸ hdoomed)
      · exact .inl (mem_filter.mpr ⟨hd, by simpa using heq⟩)
    · exact .inr hunder
  · intro q _ d hunder
    exact hunder

theorem covered_pruneVanished {s : RunState} (h : s.Covered) :
    (pruneVanished s path).CoveredUpTo fun _ d => path <+: d := by
  have hstart : s.CoveredUpTo fun _ d => path <+: d := h.mono fun _ _ => False.elim
  unfold pruneVanished
  split_ifs
  · apply Loop.invariant (I := RunState.CoveredUpTo fun _ d => path <+: d)
    · intro s doomed hdoomed hs
      have hunder : path <+: doomed := by simpa using (mem_filter.mp hdoomed).2
      exact Loop.invariant (I := RunState.CoveredUpTo fun _ d => path <+: d)
        (fun s project _ hs => covered_prunePath hunder hs) hs
    · exact hstart
  · exact hstart

/-- Noting the vanished path entry by entry makes every entry sound again. -/
theorem covered_noteVanished {s : RunState} (h : s.CoveredUpTo fun _ d => path <+: d) :
    (noteVanished path s).Covered := by
  have hkeys : ∀ (keys : List ProjectId) (s : RunState),
      (s.CoveredUpTo fun q d => q ∈ keys ∧ path <+: d) →
      (keys.foldl (fun s project => s.editEntry project fun entry =>
        { entry with
          coverage := { entry.coverage with
            directories := entry.coverage.directories.filter fun d => ¬path <+: d } }) s).Covered := by
    intro keys
    induction keys with
    | nil =>
      intro s hs
      apply hs.mono
      rintro q d ⟨hq, -⟩
      cases hq
    | cons project rest ih =>
      intro s hs
      rw [foldl_cons]
      apply ih
      apply hs.editEntry
      · intro entry hentry
        refine ⟨hentry.limits, fun hseen hplain => ?_⟩
        obtain ⟨hcomplete, hall⟩ := hentry.covers hseen hplain
        refine ⟨hcomplete, fun d hd => ?_⟩
        obtain ⟨hd, hnot⟩ := mem_filter.mp hd
        obtain hd | ⟨-, hunder⟩ := hall d hd
        · exact .inl hd
        · exact absurd hunder (by simpa using hnot)
      · rintro q hq d ⟨hmem, hunder⟩
        exact ⟨(mem_cons.mp hmem).resolve_left hq, hunder⟩
  apply hkeys
  intro q entry hentry
  have hkey : q ∈ s.projects.keys := AList.mem_keys.mp (AList.lookup_isSome.mp (by rw [hentry]; rfl))
  exact (h q entry hentry).mono fun d hunder => ⟨hkey, hunder⟩

theorem covered_step {e : Event} {t : WatchSet} (h : s.run.Covered) (hstep : s.step e = some t) :
    t.run.Covered := by
  cases e with
  | resync i =>
    obtain ⟨-, hsome⟩ := Option.ite_none_right_eq_some.mp hstep
    cases hsome
    exact covered_resync h i
  | projectOpened id i =>
    obtain ⟨-, hsome⟩ := Option.ite_none_right_eq_some.mp hstep
    cases hsome
    have hreleased : ({ s with run := s.run.releaseProject id } : WatchSet).run.Covered :=
      h.releaseProject
    exact covered_resync hreleased i
  | appeared path owners scan refusal =>
    obtain ⟨-, hsome⟩ := Option.ite_none_right_eq_some.mp hstep
    cases hsome
    exact Loop.invariant (I := fun s : WatchSet => s.run.Covered)
      (fun s project _ hs => covered_absorbAppeared hs) h
  | vanished path =>
    cases hstep
    exact covered_noteVanished (covered_pruneVanished h)
  | modified path =>
    cases hstep
    exact h
  | restarted capacity =>
    cases hstep
    exact RunState.covered_new capacity

end WatchSet

end Soloist
