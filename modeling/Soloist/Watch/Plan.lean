import Soloist.Machine
import Soloist.Process.Spec
import Soloist.Slots

/-! Planning one project's filesystem watches: what the scans of its tree found, fitted into its
share of the watch budget. -/
open List

namespace Soloist

/-- Why a directory could not be watched. -/
inductive WatchError
  | budgetExhausted
  | shareExhausted
  | unwatchable
  | unavailable
  deriving DecidableEq, Repr

inductive WatchPurpose
  | restarts
  | gitStatus
  deriving DecidableEq, Repr

inductive WatchLimit
  | refused (error : WatchError)
  | degraded
  deriving DecidableEq, Repr

abbrev Limits := Slots WatchPurpose WatchLimit

def stateDir : Component := .normal ".git"

def refsDir : Component := .normal "refs"

def defaultIgnores : List String := [".git", "node_modules", "target", "dist", ".venv"]

structure ScanRequest where
  root : PathBuf
  ignoredNames : List String
  honourRepositoryIgnores : Bool
  ceiling : ℕ
  deriving DecidableEq, Repr

structure ScannedPath where
  path : PathBuf
  directory : Bool
  deriving DecidableEq, Repr

structure Scan where
  paths : List ScannedPath
  /-- The walk stopped at the ceiling. -/
  truncated : Bool
  deriving DecidableEq, Repr

def Scan.directories (scan : Scan) : List PathBuf :=
  (scan.paths.filter fun scanned => scanned.directory).map ScannedPath.path

/-- The registration set being assembled, and how much of the share it has spent. -/
structure Fitting where
  share : ℕ
  spent : ℕ
  taken : List PathBuf
  directories : List PathBuf

namespace Fitting

def new (share : ℕ) (always : List PathBuf) (trees : ℕ) : Fitting where
  share := share
  spent := always.length + trees
  taken := always
  directories := always

/-- One turn over what a scan found: a directory neither taken nor already being added. -/
def gather (taken found : List PathBuf) (path : PathBuf) : List PathBuf :=
  if path ∈ taken ∨ path ∈ found then found else found ++ [path]

def fit (f : Fitting) (scan : Scan) : Fitting × Bool :=
  if scan.truncated then (f, false)
  else
    let found := scan.directories.foldl (gather f.taken) []
    if f.share < f.spent + found.length then (f, false)
    else
      ({ f with
          spent := f.spent + found.length
          taken := f.taken ++ found
          directories := f.directories ++ found },
        true)

def fitPrefix (acc : Fitting × Bool) (scan : Scan) : Fitting × Bool :=
  let (f, taken) := acc.1.fit scan
  (f, acc.2 && taken)

end Fitting

structure ProjectPlan where
  trees : List PathBuf
  directories : List PathBuf
  limit : Limits

def plan (root : PathBuf) (globs : List String) (tree : Scan) (prefixes : List Scan) (share : ℕ) :
    ProjectPlan :=
  let trees := [root ++ [stateDir, refsDir]]
  let start := Fitting.new share [root, root ++ [stateDir]] trees.length
  let (fitted, everyPrefix) :=
    if globs = [] then (start, true) else prefixes.foldl Fitting.fitPrefix (start, true)
  let limit : Limits :=
    if everyPrefix then Slots.empty else Slots.empty.put .restarts .degraded
  let (fitted, wholeTree) := fitted.fit tree
  { trees
    directories := fitted.directories
    limit := if wholeTree then limit else limit.put .gitStatus .degraded }

def metacharacters : List Char := ['*', '?', '[', '\x7b']

def hasMetacharacter (component : String) : Bool :=
  component.toList.any fun c => c ∈ metacharacters

/-- The leading components of a glob that name a directory, its last one excluded; `none` when the
root on its own covers the pattern. -/
def literalPrefix (pattern : String) : Option (List String) :=
  let components := (pattern.toList.splitOn '/').map String.ofList
  let literal := components.dropLast.takeWhile fun component => !hasMetacharacter component
  if literal ≠ [] then some literal
  else
    match components with
    | [only] => if hasMetacharacter only then some [] else none
    | _ => some []

/-- Segments pushed onto a path: separators collapse and `.` adds nothing. -/
def joinSegments (root : PathBuf) (segments : List String) : PathBuf :=
  root ++ (segments.filter fun s => s ≠ "" ∧ s ≠ ".").map fun s =>
    if s = ".." then .parentDir else .normal s

/-- The requests gathered so far: the named directories, and the whole root. -/
structure PrefixRequests where
  named : List ScanRequest
  wholeRoot : Option ScanRequest

def addPrefix (root : PathBuf) (ceiling : ℕ) (requests : PrefixRequests) (glob : String) :
    PrefixRequests :=
  match literalPrefix glob with
  | none => requests
  | some segments =>
    if segments.all fun s => s = "" then
      { requests with wholeRoot := some ⟨root, defaultIgnores, false, ceiling⟩ }
    else
      let scanRoot := joinSegments root segments
      if requests.named.any fun request => request.root = scanRoot then requests
      else { requests with named := requests.named ++ [⟨scanRoot, [], false, ceiling⟩] }

def prefixRequests (root : PathBuf) (globs : List String) (ceiling : ℕ) : List ScanRequest :=
  let requests := globs.foldl (addPrefix root ceiling) ⟨[], none⟩
  requests.named ++ requests.wholeRoot.toList

def treeRequest (root : PathBuf) (ceiling : ℕ) : ScanRequest := ⟨root, defaultIgnores, true, ceiling⟩

def replan (scan : ScanRequest → Scan) (root : PathBuf) (globs : List String) (share : ℕ) :
    ProjectPlan :=
  plan root globs (scan (treeRequest root share)) ((prefixRequests root globs share).map scan) share

namespace Fitting
variable {f : Fitting} {scan : Scan} {d : PathBuf}

variable {found taken : List PathBuf}

theorem mem_gather {path : PathBuf} :
    d ∈ gather taken found path ↔ d ∈ found ∨ d = path ∧ path ∉ taken := by
  unfold gather
  split_ifs with h
  · constructor
    · exact .inl
    · rintro (hd | ⟨rfl, hnot⟩)
      · exact hd
      · exact h.resolve_left hnot
  · rw [not_or] at h
    rw [mem_append, mem_singleton]
    tauto

theorem mem_gatherAll (paths : List PathBuf) :
    d ∈ paths.foldl (gather taken) found ↔ d ∈ found ∨ d ∈ paths ∧ d ∉ taken := by
  induction paths generalizing found with
  | nil => simp
  | cons path rest ih =>
    rw [foldl_cons, ih, mem_gather, mem_cons]
    constructor
    · rintro ((hd | ⟨rfl, hnot⟩) | ⟨hd, hnot⟩)
      · exact .inl hd
      · exact .inr ⟨.inl rfl, hnot⟩
      · exact .inr ⟨.inr hd, hnot⟩
    · rintro (hd | ⟨rfl | hd, hnot⟩)
      · exact .inl (.inl hd)
      · exact .inl (.inr ⟨rfl, hnot⟩)
      · exact .inr ⟨hd, hnot⟩

def Sound (f : Fitting) : Prop := f.taken ⊆ f.directories

/-- What the fittings so far took stays taken. -/
theorem directories_fit (f : Fitting) (scan : Scan) :
    f.directories ⊆ (f.fit scan).1.directories := by
  unfold fit
  split_ifs
  · exact List.Subset.refl _
  · dsimp only
    split_ifs
    · exact List.Subset.refl _
    · exact subset_append_left _ _

theorem Sound.fit (h : f.Sound) (scan : Scan) : (f.fit scan).1.Sound := by
  unfold Fitting.fit
  split_ifs
  · exact h
  · dsimp only
    split_ifs
    · exact h
    · intro d hd
      obtain hd | hd := mem_append.mp hd
      · exact mem_append_left _ (h hd)
      · exact mem_append_right _ hd

theorem Sound.fit_taken (h : f.Sound) (htaken : (f.fit scan).2 = true) :
    scan.truncated = false ∧ scan.directories ⊆ (f.fit scan).1.directories := by
  unfold Fitting.fit at htaken ⊢
  by_cases htruncated : scan.truncated
  · rw [if_pos htruncated] at htaken
    cases htaken
  · rw [if_neg htruncated] at htaken ⊢
    refine ⟨Bool.eq_false_iff.mpr htruncated, ?_⟩
    dsimp only at htaken ⊢
    split_ifs at htaken ⊢ with hfull
    intro d hd
    by_cases hheld : d ∈ f.taken
    · exact mem_append_left _ (h hheld)
    · exact mem_append_right _ ((mem_gatherAll _).mpr (.inr ⟨hd, hheld⟩))

theorem sound_fitPrefixes (scans : List Scan) {acc : Fitting × Bool} (h : acc.1.Sound) :
    (scans.foldl fitPrefix acc).1.Sound ∧
      acc.1.directories ⊆ (scans.foldl fitPrefix acc).1.directories ∧
      ((scans.foldl fitPrefix acc).2 = true → acc.2 = true ∧ ∀ scan ∈ scans,
        scan.truncated = false ∧ scan.directories ⊆ (scans.foldl fitPrefix acc).1.directories) := by
  induction scans generalizing acc with
  | nil => exact ⟨h, List.Subset.refl _, fun htrue => ⟨htrue, by simp⟩⟩
  | cons scan rest ih =>
    have hturn : (fitPrefix acc scan).1.Sound := h.fit scan
    obtain ⟨hsound, hsubset, htaken⟩ := ih hturn
    rw [foldl_cons]
    refine ⟨hsound, List.Subset.trans (directories_fit acc.1 scan) hsubset, fun htrue => ?_⟩
    obtain ⟨hfirst, hrest⟩ := htaken htrue
    have hboth : acc.2 = true ∧ (acc.1.fit scan).2 = true := by
      simpa [fitPrefix, Bool.and_comm] using hfirst
    refine ⟨hboth.1, fun other hother => ?_⟩
    obtain rfl | hother := mem_cons.mp hother
    · obtain ⟨hcomplete, hall⟩ := h.fit_taken hboth.2
      exact ⟨hcomplete, List.Subset.trans hall hsubset⟩
    · exact hrest other hother

end Fitting

namespace Fitting

/-- What a fitting holds is what it has spent, beside its trees, and each directory is held once. -/
structure Kept (f : Fitting) (trees : ℕ) : Prop where
  taken : f.taken = f.directories
  nodup : f.directories.Nodup
  spent : f.spent = f.directories.length + trees

variable {f : Fitting} {trees : ℕ}

theorem nodup_gatherAll {taken found : List PathBuf} (paths : List PathBuf) (h : found.Nodup) :
    (paths.foldl (gather taken) found).Nodup := by
  induction paths generalizing found with
  | nil => exact h
  | cons path rest ih =>
    have hturn : (gather taken found path).Nodup := by
      unfold gather
      split_ifs with hheld
      · exact h
      · rw [not_or] at hheld
        refine nodup_append.mpr ⟨h, by simp, ?_⟩
        intro d hd e he hsame
        rw [mem_singleton.mp he] at hsame
        exact hheld.2 (hsame ▸ hd)
    exact ih hturn

theorem Kept.fit (h : f.Kept trees) (scan : Scan) : (f.fit scan).1.Kept trees := by
  unfold Fitting.fit
  dsimp only
  split_ifs
  · exact h
  · exact h
  · constructor
    · dsimp only
      rw [h.taken]
    · refine nodup_append.mpr ⟨h.nodup, nodup_gatherAll _ nodup_nil, ?_⟩
      rintro d hd _ hfound rfl
      rw [← h.taken] at hd
      rcases (mem_gatherAll _).mp hfound with hnone | ⟨-, hnot⟩
      · exact absurd hnone not_mem_nil
      · exact hnot hd
    · dsimp only
      rw [List.length_append, h.spent]
      omega

theorem spent_fit (f : Fitting) (scan : Scan) :
    (f.fit scan).1.share = f.share ∧ (f.fit scan).1.spent ≤ max f.spent f.share := by
  unfold Fitting.fit
  dsimp only
  split_ifs with htruncated hfull
  · exact ⟨rfl, Nat.le_max_left _ _⟩
  · exact ⟨rfl, Nat.le_max_left _ _⟩
  · exact ⟨rfl, Nat.le_trans (Nat.not_lt.mp hfull) (Nat.le_max_right _ _)⟩

theorem kept_fitPrefixes (scans : List Scan) {acc : Fitting × Bool} (h : acc.1.Kept trees) :
    (scans.foldl fitPrefix acc).1.Kept trees ∧
      (scans.foldl fitPrefix acc).1.share = acc.1.share ∧
      (scans.foldl fitPrefix acc).1.spent ≤ max acc.1.spent acc.1.share := by
  induction scans generalizing acc with
  | nil => exact ⟨h, rfl, Nat.le_max_left _ _⟩
  | cons scan rest ih =>
    have hturn : (fitPrefix acc scan).1.Kept trees := h.fit scan
    obtain ⟨hshare, hspent⟩ : (fitPrefix acc scan).1.share = acc.1.share ∧
        (fitPrefix acc scan).1.spent ≤ max acc.1.spent acc.1.share := spent_fit acc.1 scan
    obtain ⟨hkept, hrest, hbound⟩ := ih hturn
    rw [foldl_cons]
    refine ⟨hkept, hrest.trans hshare, ?_⟩
    omega

end Fitting

def Limits.Degraded (limit : Limits) : Prop := ∃ purpose, limit purpose = some .degraded

section Planned
variable {root : PathBuf} {globs : List String} {tree : Scan} {prefixes : List Scan} {share : ℕ}

def prefixesFitted (root : PathBuf) (globs : List String) (prefixes : List Scan) (share : ℕ) :
    Fitting × Bool :=
  let start := Fitting.new share [root, root ++ [stateDir]] 1
  if globs = [] then (start, true) else prefixes.foldl Fitting.fitPrefix (start, true)

theorem plan_eq : plan root globs tree prefixes share =
    { trees := [root ++ [stateDir, refsDir]]
      directories := ((prefixesFitted root globs prefixes share).1.fit tree).1.directories
      limit :=
        let limit : Limits := if (prefixesFitted root globs prefixes share).2 then Slots.empty
          else Slots.empty.put .restarts .degraded
        if ((prefixesFitted root globs prefixes share).1.fit tree).2 then limit
          else limit.put .gitStatus .degraded } := rfl

theorem prefixesFitted_spec (hprefixes : globs = [] → prefixes = []) :
    (prefixesFitted root globs prefixes share).1.Sound ∧
      root ∈ (prefixesFitted root globs prefixes share).1.directories ∧
      ((prefixesFitted root globs prefixes share).2 = true → ∀ scan ∈ prefixes,
        scan.truncated = false ∧
          scan.directories ⊆ (prefixesFitted root globs prefixes share).1.directories) := by
  have hstart : (Fitting.new share [root, root ++ [stateDir]] 1).Sound := List.Subset.refl _
  have hroot : root ∈ (Fitting.new share [root, root ++ [stateDir]] 1).directories :=
    (.head _)
  unfold prefixesFitted
  dsimp only
  by_cases hglobs : globs = []
  · rw [if_pos hglobs, hprefixes hglobs]
    exact ⟨hstart, hroot, fun _ scan hscan => absurd hscan not_mem_nil⟩
  · rw [if_neg hglobs]
    obtain ⟨hsound, hsubset, htaken⟩ :=
      @Fitting.sound_fitPrefixes prefixes (Fitting.new share [root, root ++ [stateDir]] 1, true)
        hstart
    exact ⟨hsound, hsubset hroot, fun htrue => (htaken htrue).2⟩

/-- Unless a plan is degraded, its scans were complete and it watches every directory they found. -/
theorem plan_covers (hprefixes : globs = [] → prefixes = []) :
    (plan root globs tree prefixes share).limit.Degraded ∨ ∀ scan ∈ tree :: prefixes,
      scan.truncated = false ∧
        scan.directories ⊆ (plan root globs tree prefixes share).directories := by
  obtain ⟨hsound, -, htaken⟩ := @prefixesFitted_spec root globs prefixes share hprefixes
  rw [plan_eq]
  by_cases htree : ((prefixesFitted root globs prefixes share).1.fit tree).2
  · by_cases hall : (prefixesFitted root globs prefixes share).2
    · right
      intro scan hscan
      obtain rfl | hscan := mem_cons.mp hscan
      · exact hsound.fit_taken htree
      · obtain ⟨hcomplete, hfound⟩ := htaken hall scan hscan
        exact ⟨hcomplete, List.Subset.trans hfound (Fitting.directories_fit _ tree)⟩
    · left
      refine ⟨.restarts, ?_⟩
      simp only [htree, hall, if_true]
      rfl
  · left
    refine ⟨.gitStatus, ?_⟩
    simp only [htree]
    rfl

theorem plan_limit {purpose : WatchPurpose} {limit : WatchLimit}
    (h : (plan root globs tree prefixes share).limit purpose = some limit) :
    limit = .degraded ∧ (purpose = .restarts → globs ≠ []) := by
  rw [plan_eq] at h
  dsimp only at h
  have hglobs : (prefixesFitted root globs prefixes share).2 = false → globs ≠ [] := by
    intro hfalse
    rintro rfl
    cases hfalse
  cases hall : (prefixesFitted root globs prefixes share).2 with
  | false =>
    refine ⟨?_, fun _ => hglobs hall⟩
    simp only [hall, Bool.false_eq_true, if_false] at h
    split_ifs at h
    · obtain ⟨-, hlimit⟩ | ⟨-, hlimit⟩ := Slots.put_eq_some.mp h
      · exact hlimit.symm
      · cases hlimit
    · obtain ⟨-, hlimit⟩ | ⟨-, h⟩ := Slots.put_eq_some.mp h
      · exact hlimit.symm
      · obtain ⟨-, hlimit⟩ | ⟨-, hlimit⟩ := Slots.put_eq_some.mp h
        · exact hlimit.symm
        · cases hlimit
  | true =>
    simp only [hall, if_true] at h
    split_ifs at h
    · cases h
    · obtain ⟨rfl, hlimit⟩ | ⟨-, hlimit⟩ := Slots.put_eq_some.mp h
      · exact ⟨hlimit.symm, fun hpurpose => by cases hpurpose⟩
      · cases hlimit

theorem prefixesFitted_kept :
    (prefixesFitted root globs prefixes share).1.Kept 1 ∧
      (prefixesFitted root globs prefixes share).1.share = share ∧
      (prefixesFitted root globs prefixes share).1.spent ≤ max 3 share := by
  have hstart : (Fitting.new share [root, root ++ [stateDir]] 1).Kept 1 :=
    ⟨rfl, by simp [Fitting.new], rfl⟩
  unfold prefixesFitted
  dsimp only
  split_ifs
  · exact ⟨hstart, rfl, Nat.le_max_left _ _⟩
  · exact Fitting.kept_fitPrefixes prefixes hstart

def WatchPurpose.scans (globs : List String) (tree : Scan) (prefixes : List Scan) :
    WatchPurpose → List Scan
  | .restarts => if globs = [] then [] else prefixes
  | .gitStatus => [tree]

/-- Each purpose is degraded alone: what it asked for was complete and is all in the plan, or it is
reported. -/
theorem plan_covers_purpose (purpose : WatchPurpose) :
    (plan root globs tree prefixes share).limit purpose = some .degraded ∨
      ∀ scan ∈ purpose.scans globs tree prefixes, scan.truncated = false ∧
        scan.directories ⊆ (plan root globs tree prefixes share).directories := by
  rw [plan_eq]
  cases purpose with
  | gitStatus =>
    have hsound : (prefixesFitted root globs prefixes share).1.Sound :=
      fun d hd => prefixesFitted_kept.1.taken ▸ hd
    by_cases htree : ((prefixesFitted root globs prefixes share).1.fit tree).2
    · right
      intro scan hscan
      cases mem_singleton.mp hscan
      exact hsound.fit_taken htree
    · left
      simp only [htree]
      rfl
  | restarts =>
    by_cases hall : (prefixesFitted root globs prefixes share).2
    · right
      intro scan hscan
      by_cases hglobs : globs = []
      · simp [WatchPurpose.scans, hglobs] at hscan
      · have hscan : scan ∈ prefixes := by simpa [WatchPurpose.scans, hglobs] using hscan
        obtain ⟨-, -, htaken⟩ := @prefixesFitted_spec root globs prefixes share
          fun hnone => absurd hnone hglobs
        obtain ⟨hcomplete, hfound⟩ := htaken hall scan hscan
        exact ⟨hcomplete, List.Subset.trans hfound (Fitting.directories_fit _ tree)⟩
    · left
      dsimp only
      rw [if_neg hall]
      split_ifs <;> rfl

/-- A plan lists each directory once, costs at most its share (or the three registrations every
project has) and reports each purpose it did not serve in full. -/
theorem plan_accounts (root : PathBuf) (globs : List String) (tree : Scan) (prefixes : List Scan)
    (share : ℕ) :
    let planned := plan root globs tree prefixes share
    planned.directories.Nodup ∧
      planned.trees.length + planned.directories.length ≤ max share 3 ∧
      ∀ purpose, planned.limit purpose = some .degraded ∨
        ∀ scan ∈ purpose.scans globs tree prefixes, scan.truncated = false ∧
          scan.directories ⊆ planned.directories := by
  obtain ⟨hkept, hshare, hspent⟩ := @prefixesFitted_kept root globs prefixes share
  have hfitted := hkept.fit tree
  have hbound := (Fitting.spent_fit (prefixesFitted root globs prefixes share).1 tree).2
  refine ⟨hfitted.nodup, ?_, plan_covers_purpose⟩
  rw [plan_eq]
  have hlength := hfitted.spent
  dsimp only [List.length_singleton]
  omega

theorem prefixRequests_nil (root : PathBuf) (ceiling : ℕ) : prefixRequests root [] ceiling = [] :=
  rfl

end Planned

end Soloist
