import Soloist.Watch.Coverage

/-! When a re-sync's report can be believed: what a project without a limit holds. -/
open List Option

namespace Soloist

namespace Resync
variable {i : Resync} {share : ℕ} {record : WatchRecord} {acc : Watching × Option WatchError}
  {path : PathBuf} {order : List PathBuf}

/-- The budget or the OS would refuse the registration of a path that nobody holds. -/
def Refuses (i : Resync) (record : WatchRecord) (acc : Watching × Option WatchError)
    (path : PathBuf) : Prop :=
  path ∉ acc.1.registrations.paths ∧
    (acc.1.registrations.budget.remaining = 0 ∨ (i.refusal record.id path).isSome)

instance (i : Resync) (record : WatchRecord) (acc : Watching × Option WatchError)
    (path : PathBuf) : Decidable (i.Refuses record acc path) :=
  inferInstanceAs (Decidable (_ ∧ _))

theorem registerWanted_snd (h : ¬acc.1.registrations.isHeld path record.id) :
    (i.registerWanted record acc path).2 =
      match (acc.1.register path record.id (path = record.root ++ [stateDir, refsDir])
        (i.refusal record.id path)).2 with
      | none => acc.2
      | some error => if path = record.root then some error else acc.2 := by
  unfold registerWanted
  exact congrArg Prod.snd (if_neg h)

theorem granted_registerWanted (h : ¬i.Refuses record acc path) :
    (i.registerWanted record acc path).1.registrations.isHeld path record.id := by
  by_cases hheld : acc.1.registrations.isHeld path record.id
  · exact isHeld_registerWanted_of hheld
  · rw [registerWanted_fst hheld]
    apply (Watching.isHeld_register _ _ _ _ _).mpr
    refine .inr ⟨rfl, rfl, ?_⟩
    obtain ⟨owners, -, heq⟩ | ⟨error, hlookup, hrefused, -⟩ | ⟨-, -, -, heq⟩ :=
      Watching.register_cases acc.1 path record.id (path = record.root ++ [stateDir, refsDir])
        (i.refusal record.id path)
    · rw [heq]
    · exfalso
      apply h
      constructor
      · intro hmem
        obtain ⟨owners, howners⟩ := Watching.mem_paths.mp hmem
        rw [hlookup] at howners
        cases howners
      · obtain hspent | hanswer := hrefused
        · exact .inl hspent
        · exact .inr (by rw [hanswer]; rfl)
    · rw [heq]

theorem refused_registerWanted (h : i.Refuses record acc record.root) :
    (i.registerWanted record acc record.root).2.isSome := by
  obtain ⟨hfree, hrefuses⟩ := h
  have hnot : ¬acc.1.registrations.isHeld record.root record.id := by
    intro hheld
    obtain ⟨owners, hlookup, -⟩ := Watching.lookup_of_isHeld hheld
    exact hfree (Watching.mem_paths.mpr ⟨owners, hlookup⟩)
  rw [registerWanted_snd hnot]
  obtain ⟨owners, hlookup, -⟩ | ⟨error, -, -, heq⟩ | ⟨-, hbudget, hanswer, -⟩ :=
    Watching.register_cases acc.1 record.root record.id
      (record.root = record.root ++ [stateDir, refsDir]) (i.refusal record.id record.root)
  · exact absurd (Watching.mem_paths.mpr ⟨owners, hlookup⟩) hfree
  · rw [heq]
    simp
  · rw [hanswer] at hrefuses
    simp [hbudget] at hrefuses

theorem refused_registerWanted_of (h : acc.2.isSome) :
    (i.registerWanted record acc path).2.isSome := by
  by_cases hheld : acc.1.registrations.isHeld path record.id
  · unfold registerWanted
    rwa [if_pos hheld]
  · rw [registerWanted_snd hheld]
    split
    · exact h
    · split_ifs
      · rfl
      · exact h

variable {G : Watching × Option WatchError → PathBuf → Prop}

theorem granted_registerAll (hgranted : ∀ acc, G acc path → ¬i.Refuses record acc path)
    (h : Loop.Along (i.registerWanted record) G acc order) (hmem : path ∈ order) :
    (order.foldl (i.registerWanted record) acc).1.registrations.isHeld path record.id := by
  apply Loop.reached (G := G)
    (P := fun acc : Watching × Option WatchError => acc.1.registrations.isHeld path record.id)
  · intro acc hacc
    exact granted_registerWanted (hgranted acc hacc)
  · intro acc other hheld
    exact isHeld_registerWanted_of hheld
  · exact hmem
  · exact h

theorem refused_registerAll (hrefused : ∀ acc, G acc record.root → i.Refuses record acc record.root)
    (h : Loop.Along (i.registerWanted record) G acc order) (hmem : record.root ∈ order) :
    (order.foldl (i.registerWanted record) acc).2.isSome := by
  apply Loop.reached (G := G) (P := fun acc : Watching × Option WatchError => acc.2.isSome)
  · intro acc hacc
    exact refused_registerWanted (hrefused acc hacc)
  · intro acc other hsome
    exact refused_registerWanted_of hsome
  · exact hmem
  · exact h

/-- At its turn in the re-sync, a project's plan is degraded, or it still wants the root and either
the root is refused, or nothing that appeared was overlooked and neither the root nor any directory
found is refused. -/
def Attended (i : Resync) (share : ℕ) (acc : Resyncing) (record : WatchRecord) : Prop :=
  ∀ entry, AList.lookup record.id (i.replanIfMoved share acc.run record).projects = some entry →
    entry.limit.Degraded ∨
    record.root ∈ entry.paths ∧
      let start := (releaseStale acc.run.watching record.id entry.paths, none)
      let order := (i.arrangement record.id).order entry.paths
      (Loop.Along (i.registerWanted record)
          (fun acc path => path = record.root → i.Refuses record acc path) start order ∨
        entry.coverage.overlooked = false ∧
          Loop.Along (i.registerWanted record)
            (fun acc path => path = record.root ∨ path ∈ entry.coverage.directories →
              ¬i.Refuses record acc path) start order)

/-- What a project's turn leaves behind: the outcomes it was given, and, where its root was not
refused and its plan is not degraded, everything found is held. -/
def Answered (i : Resync) (record : WatchRecord) (acc : Resyncing) : Prop :=
  ∃ entry refused, AList.lookup record.id acc.run.projects = some entry ∧ entry.Sound ∧
    entry.globs = i.globs record.id ∧
    ⟨record.id, reportedLimit entry.limit refused (i.globs record.id ≠ []) .gitStatus⟩ ∈
      acc.gitOutcomes ∧
    (i.globs record.id ≠ [] →
      ⟨record.id, reportedLimit entry.limit refused (i.globs record.id ≠ []) .restarts⟩ ∈
        acc.restartOutcomes) ∧
    (refused = none → entry.limit.Degraded ∨
      entry.coverage.truncated = false ∧
      acc.run.watching.registrations.isHeld record.root record.id ∧
      ∀ d ∈ entry.coverage.directories, acc.run.watching.registrations.isHeld d record.id)

theorem globs_replanIfMoved {s : RunState} {entry : Registered}
    (h : AList.lookup record.id (i.replanIfMoved share s record).projects = some entry) :
    entry.globs = i.globs record.id := by
  obtain hplanned | ⟨-, hsame, old, hold, -, hglobs⟩ := lookup_replanIfMoved i share s record
  · rw [hplanned] at h
    cases h
    rfl
  · rw [hsame, hold] at h
    cases h
    exact hglobs

theorem answered_turn {acc : Resyncing} (hcovered : acc.run.Covered)
    (hattended : i.Attended share acc record) :
    i.Answered record (i.resyncRecord share acc record) := by
  obtain ⟨entry, hentry⟩ := exists_entry i share acc.run record
  have hnext : (i.resyncRecord share acc record).run.Covered := covered_resyncRecord hcovered
  have hsound : entry.Sound := hnext record.id entry hentry
  have hperm := (i.arrangement record.id).perm entry.paths
  refine ⟨entry, ((((i.arrangement record.id).order entry.paths)).foldl (i.registerWanted record)
    (releaseStale acc.run.watching record.id entry.paths, none)).2, hentry, hsound,
    globs_replanIfMoved hentry, ?_, ?_, ?_⟩
  · unfold resyncRecord
    simp only [hentry, elim_some, watching_replanIfMoved]
    exact mem_append_right _ (mem_singleton_self _)
  · intro hglobs
    unfold resyncRecord
    simp only [hentry, elim_some, watching_replanIfMoved, ne_eq, hglobs, not_false_eq_true,
      decide_true, if_true]
    exact mem_append_right _ (mem_singleton_self _)
  · intro hunrefused
    obtain hdegraded | ⟨hroot, hturns⟩ := hattended entry hentry
    · exact .inl hdegraded
    by_cases hplain : entry.limit.Degraded
    · exact .inl hplain
    right
    have hheld : ∀ p, (i.resyncRecord share acc record).run.watching.registrations.isHeld p record.id ↔
        ((((i.arrangement record.id).order entry.paths)).foldl (i.registerWanted record)
          (releaseStale acc.run.watching record.id entry.paths, none)).1.registrations.isHeld p
            record.id := by
      intro p
      unfold resyncRecord
      simp only [hentry, elim_some, watching_replanIfMoved]
    obtain hrefused | ⟨hseen, hgranted⟩ := hturns
    · have hsome := refused_registerAll (fun _ h => h rfl) hrefused (hperm.mem_iff.mpr hroot)
      rw [hunrefused] at hsome
      cases hsome
    · obtain ⟨hcomplete, hall⟩ := hsound.covers hseen hplain
      refine ⟨hcomplete, ?_, fun d hd => ?_⟩
      · rw [hheld]
        exact granted_registerAll (fun _ h => h (.inl rfl)) hgranted (hperm.mem_iff.mpr hroot)
      · rw [hheld]
        have hwanted : d ∈ entry.paths := (hall d hd).resolve_right id
        exact granted_registerAll (fun _ h => h (.inr hd)) hgranted (hperm.mem_iff.mpr hwanted)

theorem isHeld_resyncRecord_of_ne {acc : Resyncing} {q : ProjectId} (hq : q ≠ record.id)
    (h : acc.run.watching.registrations.isHeld path q) :
    (i.resyncRecord share acc record).run.watching.registrations.isHeld path q := by
  have hstale : ∀ wanted, (releaseStale acc.run.watching record.id wanted).registrations.isHeld
      path q := fun wanted => Watching.isHeld_releaseStale.mpr ⟨h, fun heq => absurd heq hq⟩
  have hloop : ∀ (order : List PathBuf) (start : Watching × Option WatchError),
      start.1.registrations.isHeld path q →
        (order.foldl (i.registerWanted record) start).1.registrations.isHeld path q := by
    intro order start hstart
    exact Loop.invariant (I := fun acc : Watching × Option WatchError =>
      acc.1.registrations.isHeld path q) (fun _ _ _ hacc => isHeld_registerWanted_of hacc) hstart
  unfold resyncRecord
  simp only [watching_replanIfMoved]
  exact hloop _ _ (hstale _)

theorem Answered.turn {acc : Resyncing} {other : WatchRecord} (hne : other.id ≠ record.id)
    (h : i.Answered record acc) : i.Answered record (i.resyncRecord share acc other) := by
  obtain ⟨entry, refused, hentry, hsound, hglobs, hgit, hrestarts, hheld⟩ := h
  refine ⟨entry, refused, ?_, hsound, hglobs, mem_append_left _ hgit, ?_, ?_⟩
  · exact (lookup_replanIfMoved_of_ne hne.symm).trans hentry
  · intro heligible
    show _ ∈ (if _ then _ else _)
    split_ifs
    · exact mem_append_left _ (hrestarts heligible)
    · exact hrestarts heligible
  · intro hunrefused
    obtain hdegraded | ⟨hcomplete, hroot, hall⟩ := hheld hunrefused
    · exact .inl hdegraded
    · right
      exact ⟨hcomplete, isHeld_resyncRecord_of_ne hne.symm hroot,
        fun d hd => isHeld_resyncRecord_of_ne hne.symm (hall d hd)⟩

theorem gitOutcomes_resyncAll (records : List WatchRecord) {acc : Resyncing} :
    (records.foldl (i.resyncRecord share) acc).gitOutcomes.map WatchOutcome.project =
      acc.gitOutcomes.map WatchOutcome.project ++ records.map WatchRecord.id := by
  induction records generalizing acc with
  | nil => simp
  | cons record rest ih =>
    have hturn : (i.resyncRecord share acc record).gitOutcomes.map WatchOutcome.project =
        acc.gitOutcomes.map WatchOutcome.project ++ [record.id] := by
      unfold resyncRecord
      rw [map_append, map_singleton]
    rw [foldl_cons, ih, hturn, append_assoc, map_cons, singleton_append]

theorem restartOutcomes_resyncAll (records : List WatchRecord) {acc : Resyncing} :
    (records.foldl (i.resyncRecord share) acc).restartOutcomes.map WatchOutcome.project =
      acc.restartOutcomes.map WatchOutcome.project ++
        (records.filter fun record => i.globs record.id ≠ []).map WatchRecord.id := by
  induction records generalizing acc with
  | nil => simp
  | cons record rest ih =>
    rw [foldl_cons, ih, filter_cons]
    unfold resyncRecord
    by_cases hglobs : i.globs record.id ≠ []
    · simp [hglobs]
    · simp [hglobs]

end Resync

theorem Resync.reportedLimit_refused (limit : Limits) (error : WatchError) (eligible : Bool) :
    Resync.reportedLimit limit (some error) eligible .gitStatus = some (.refused error) := by
  unfold Resync.reportedLimit
  dsimp only
  split_ifs
  · rw [Slots.put_of_ne (by decide), Slots.put_self]
  · rw [Slots.put_self]

namespace WatchSet
variable {s : WatchSet} {i : Resync} {records : List WatchRecord} {record : WatchRecord}

/-- What is reported of a project is true: its root was refused, or, unless it is degraded, it holds
its root and every directory its scans found, and no scan was cut short. -/
def Honest (s : WatchSet) (record : WatchRecord) : Prop :=
  (∃ error, s.status.announced record.id .gitStatus = some (.refused error)) ∨
  ∃ entry, AList.lookup record.id s.run.projects = some entry ∧
    ((∀ purpose, s.status.announced record.id purpose ≠ some .degraded) →
      s.run.watching.registrations.isHeld record.root record.id ∧
      ∀ d ∈ entry.coverage.directories, s.run.watching.registrations.isHeld d record.id) ∧
    (entry.coverage.truncated = true →
      ∃ purpose, s.status.announced record.id purpose = some .degraded)

def resyncStart (s : RunState) (records : List WatchRecord) : Resyncing :=
  ⟨releaseClosed { s with opened := true } records, [], []⟩

def resyncShare (s : RunState) (records : List WatchRecord) : ℕ :=
  (resyncStart s records).run.watching.registrations.share
    (records.map WatchRecord.id).dedup.length

/-- Every project a re-sync lists is attended to at its turn. -/
def ResyncAttended (s : RunState) (i : Resync) : Prop :=
  ∀ records, i.records = some records → (s.opened || i.opens) = true →
    Loop.Along (i.resyncRecord (resyncShare s records)) (i.Attended (resyncShare s records))
      (resyncStart s records) records

def Attended (s : WatchSet) : Event → Prop
  | .resync i => ResyncAttended s.run i
  | .projectOpened id i => ResyncAttended (s.run.releaseProject id) i
  | _ => True

def Event.resyncs : Event → Option Resync
  | .resync i => some i
  | .projectOpened _ i => some i
  | _ => none

/-- After an event that re-syncs, what is reported of every listed project is true. -/
def ReportsHonestly (s : WatchSet) (e : Event) : Prop :=
  ∀ t i records, s.step e = some t → e.resyncs = some i → i.records = some records →
    ∀ record ∈ records, t.Honest record

theorem answered_reconcile (hcovered : s.run.Covered)
    (hnodup : (records.map WatchRecord.id).Nodup)
    (hattended : Loop.Along (i.resyncRecord (resyncShare s.run records))
      (i.Attended (resyncShare s.run records)) (resyncStart s.run records) records)
    (hrecord : record ∈ records) :
    i.Answered record
      (records.foldl (i.resyncRecord (resyncShare s.run records)) (resyncStart s.run records)) := by
  apply Loop.reached_along (I := fun acc : Resyncing => acc.run.Covered) (P := i.Answered record)
    (G := i.Attended (resyncShare s.run records))
  · intro acc other _ _ hacc
    exact Resync.covered_resyncRecord hacc
  · intro acc hturn hacc
    exact Resync.answered_turn hacc hturn
  · intro acc other hother hne _ _ hanswered
    apply hanswered.turn
    intro hsame
    exact hne (inj_on_of_nodup_map hnodup hother hrecord hsame)
  · exact hrecord
  · exact hnodup.of_map
  · exact hattended
  · exact covered_releaseClosed hcovered

theorem honest_reconcile (hcovered : s.run.Covered) (hnodup : (records.map WatchRecord.id).Nodup)
    (hattended : Loop.Along (i.resyncRecord (resyncShare s.run records))
      (i.Attended (resyncShare s.run records)) (resyncStart s.run records) records)
    (hrecord : record ∈ records) : (s.reconcile i records).Honest record := by
  obtain ⟨entry, refused, hentry, hsound, hglobs, hgit, hrestarts, hheld⟩ :=
    answered_reconcile hcovered hnodup hattended hrecord
  have hgitNodup : ((records.foldl (i.resyncRecord (resyncShare s.run records))
      (resyncStart s.run records)).gitOutcomes.map WatchOutcome.project).Nodup := by
    rw [Resync.gitOutcomes_resyncAll]
    exact hnodup
  have hrestartsNodup : ((records.foldl (i.resyncRecord (resyncShare s.run records))
      (resyncStart s.run records)).restartOutcomes.map WatchOutcome.project).Nodup := by
    rw [Resync.restartOutcomes_resyncAll]
    exact hnodup.sublist (filter_sublist.map _)
  obtain ⟨hreported, hunasked, hasked⟩ :=
    WatchStatus.announced_resynced (s := s.status) hgitNodup hrestartsNodup hgit
  cases refused with
  | some error =>
    left
    refine ⟨error, ?_⟩
    rw [Resync.reportedLimit_refused] at hreported
    exact hreported
  | none =>
    right
    have hsame : ∀ purpose, (s.reconcile i records).status.announced record.id purpose =
        entry.limit purpose := by
      intro purpose
      cases purpose with
      | gitStatus => exact hreported
      | restarts =>
        by_cases hglobs' : i.globs record.id = []
        · have hnone : entry.limit .restarts = none := by
            by_contra hsome
            obtain ⟨limit, hlimit⟩ := ne_none_iff_exists'.mp hsome
            exact (hsound.limits .restarts limit hlimit).2 rfl (hglobs.trans hglobs')
          rw [hnone]
          apply hunasked
          rw [Resync.restartOutcomes_resyncAll]
          intro hmem
          obtain ⟨other, hother, hid⟩ := List.mem_map.mp hmem
          have hasks := (mem_filter.mp hother).2
          rw [decide_eq_true_eq, hid] at hasks
          exact hasks hglobs'
        · exact hasked _ (hrestarts hglobs') rfl
    refine ⟨entry, hentry, ?_, ?_⟩
    · intro hplain
      obtain ⟨purpose, hdegraded⟩ | ⟨-, hroot, hall⟩ := hheld rfl
      · exact absurd ((hsame purpose).trans hdegraded) (hplain purpose)
      · exact ⟨hroot, hall⟩
    · intro htruncated
      obtain ⟨purpose, hdegraded⟩ | ⟨hcomplete, -⟩ := hheld rfl
      · exact ⟨purpose, (hsame purpose).trans hdegraded⟩
      · rw [hcomplete] at htruncated
        cases htruncated

theorem honest_reportUnavailable (hnodup : (records.map WatchRecord.id).Nodup)
    (hrecord : record ∈ records) : (s.reportUnavailable i records).Honest record := by
  left
  refine ⟨.unavailable, ?_⟩
  have hprojects : ∀ listed : List WatchRecord,
      (listed.map fun record => WatchOutcome.mk record.id (some (.refused .unavailable))).map
        WatchOutcome.project = listed.map WatchRecord.id := fun listed => List.map_map
  have houtcome := List.mem_map_of_mem
    (f := fun record : WatchRecord => WatchOutcome.mk record.id (some (.refused .unavailable)))
    hrecord
  have hrestarts := hnodup.sublist
    ((filter_sublist (p := fun record => (i.eligibleGlobs record.id).isSome)).map WatchRecord.id)
  rw [← hprojects] at hnodup hrestarts
  exact (WatchStatus.announced_resynced hnodup hrestarts houtcome).1

theorem honest_resync (hcovered : s.run.Covered) (hlisted : i.Listed)
    (hattended : ResyncAttended s.run i) (hrecords : i.records = some records)
    (hrecord : record ∈ records) : (s.resync i).Honest record := by
  have hnodup : (records.map WatchRecord.id).Nodup := by
    unfold Resync.Listed at hlisted
    rwa [hrecords] at hlisted
  unfold resync
  simp only [hrecords]
  split_ifs with hopen
  · exact honest_reconcile hcovered hnodup (hattended records hrecords hopen) hrecord
  · exact honest_reportUnavailable hnodup hrecord

theorem reportsHonestly {e : Event} (hcovered : s.run.Covered) (hattended : s.Attended e) :
    s.ReportsHonestly e := by
  intro t i records hstep hresyncs hrecords record hrecord
  cases e with
  | resync j =>
    cases hresyncs
    obtain ⟨hlisted, hsome⟩ := ite_none_right_eq_some.mp hstep
    cases hsome
    exact honest_resync hcovered hlisted hattended hrecords hrecord
  | projectOpened id j =>
    cases hresyncs
    obtain ⟨hlisted, hsome⟩ := ite_none_right_eq_some.mp hstep
    cases hsome
    have hreleased : ({ s with run := s.run.releaseProject id } : WatchSet).run.Covered :=
      hcovered.releaseProject
    exact honest_resync hreleased hlisted hattended hrecords hrecord
  | appeared path owners scan refusal => cases hresyncs
  | vanished path => cases hresyncs
  | modified path => cases hresyncs
  | restarted capacity => cases hresyncs

end WatchSet

/-- Along every run whose re-syncs attend to the projects they list, each re-sync's report is
true. -/
theorem coverage_honest (capacity : Option ℕ) (es : List WatchSet.Event)
    (h : watchMachine.Along WatchSet.Attended (WatchSet.new capacity) es) :
    watchMachine.Along WatchSet.ReportsHonestly (WatchSet.new capacity) es := by
  apply Machine.along_of_invariant (P := fun s : WatchSet => s.run.Covered) _ _ _ h
  · intro s e t _ hs ht
    exact WatchSet.covered_step hs ht
  · intro s e hattended hs
    exact WatchSet.reportsHonestly hs hattended
  · exact RunState.covered_new capacity

namespace WatchSet

def checkout : PathBuf := [.rootDir, .normal "app"]

/-- A re-sync over that project alone, whose scans find the directory they are asked for and whose
registrations are all granted. -/
def calmResync : Resync where
  forceRescan := false
  records := some [⟨1, checkout⟩]
  targets := []
  compiles := fun _ => false
  opens := true
  scan := fun _ request => ⟨[⟨request.root, true⟩], false⟩
  refusal := fun _ _ => none
  arrangement := fun _ => ⟨id, fun paths => List.Perm.refl paths⟩

def folderMade : Event :=
  .appeared (checkout ++ [.normal "lib"]) [1] calmResync.scan calmResync.refusal

end WatchSet

theorem coverage_honest_calm :
    watchMachine.Along WatchSet.ReportsHonestly (WatchSet.new none)
      [.resync WatchSet.calmResync, WatchSet.folderMade, .resync WatchSet.calmResync] := by
  apply coverage_honest
  refine ⟨?_, fun t ht => ⟨trivial, fun u hu => ⟨?_, fun _ _ => trivial⟩⟩⟩
  · intro records hrecords _
    cases hrecords
    refine ⟨?_, trivial⟩
    intro entry hentry
    cases hentry
    exact .inr ⟨by decide, .inr ⟨rfl, by decide⟩⟩
  · cases ht
    cases hu
    intro records hrecords _
    cases hrecords
    refine ⟨?_, trivial⟩
    intro entry hentry
    cases hentry
    exact .inr ⟨by decide, .inr ⟨rfl, by decide⟩⟩

/-- The root vanishes and its project is re-synced with nothing else changed: no limit is reported,
and the root is not held. -/
theorem vanished_root_unreported :
    ¬∀ es, watchMachine.Along WatchSet.ReportsHonestly (WatchSet.new none) es := by
  intro h
  obtain ⟨-, hrest⟩ := h [.resync WatchSet.calmResync, .vanished WatchSet.checkout,
    .resync WatchSet.calmResync]
  have hlast := ((hrest _ rfl).2 _ rfl).1 _ WatchSet.calmResync _ rfl rfl rfl
    ⟨1, WatchSet.checkout⟩ (List.mem_singleton_self _)
  obtain ⟨error, hrefused⟩ | ⟨entry, -, hheld, -⟩ := hlast
  · cases hrefused
  · refine absurd (hheld ?_).1 (by decide)
    intro purpose
    cases purpose with
    | restarts => decide
    | gitStatus => decide

end Soloist
