import Mathlib.Data.List.Sort
import Soloist.Watch.Registry

/-! The owner of every open project's watches: re-syncs against the projects, directories that
appear and vanish in between, and the limits it reports. -/
namespace Soloist

def maxAppearedReplay : ℕ := 4096

/-- An order in which a hash set of paths is iterated. -/
structure Arrangement where
  order : List PathBuf → List PathBuf
  perm : ∀ paths, (order paths).Perm paths

/-- What the scans behind a project's plan, and those of what appeared since, found. Kept for what
is said about them: no function of the watch set reads it. -/
structure Coverage where
  /-- The directories found, less those that vanished. -/
  directories : List PathBuf
  /-- Some scan stopped at its ceiling. -/
  truncated : Bool
  /-- A directory that appeared since the plan was not taken into it. -/
  overlooked : Bool

def Coverage.ofScans (scans : List Scan) : Coverage where
  directories := scans.flatMap Scan.directories
  truncated := scans.any fun scan => scan.truncated
  overlooked := false

/-- One open project's cached plan. -/
structure Registered where
  root : PathBuf
  globs : List String
  share : ℕ
  /-- Every path the plan wants watched, held or not. -/
  paths : List PathBuf
  limit : Limits
  coverage : Coverage

structure RunState where
  opened : Bool
  watching : Watching
  projects : Dict ProjectId Registered

namespace RunState

def new (capacity : Option ℕ) : RunState := ⟨false, Watching.new capacity, ∅⟩

def editEntry (s : RunState) (project : ProjectId) (f : Registered → Registered) : RunState :=
  match AList.lookup project s.projects with
  | none => s
  | some entry => { s with projects := s.projects.insert project (f entry) }

def releaseProject (s : RunState) (project : ProjectId) : RunState :=
  match AList.lookup project s.projects with
  | none => s
  | some entry =>
    let projects := s.projects.erase project
    if s.opened then
      { s with
        projects
        watching := entry.paths.foldl (fun w path => w.release path project) s.watching }
    else { s with projects }

end RunState

/-- What one purpose's re-sync met for one project. -/
structure WatchOutcome where
  project : ProjectId
  limit : Option WatchLimit

structure WatchStatus where
  limited : ProjectId → Limits
  announced : ProjectId → Limits

namespace WatchStatus

def new : WatchStatus := ⟨fun _ => Slots.empty, fun _ => Slots.empty⟩

def answer (purpose : WatchPurpose) (limited : ProjectId → Limits) (outcome : WatchOutcome) :
    ProjectId → Limits :=
  match outcome.limit with
  | none => limited
  | some limit => fun project =>
    if project = outcome.project then (limited project).put purpose limit else limited project

def resynced (s : WatchStatus) (purpose : WatchPurpose) (outcomes : List WatchOutcome) :
    WatchStatus :=
  let touched := fun project =>
    (s.limited project purpose).isSome ∨ project ∈ outcomes.map WatchOutcome.project
  let cleared := fun project => (s.limited project).erase purpose
  let limited := outcomes.foldl (answer purpose) cleared
  { limited
    announced := fun project => if touched project then limited project else s.announced project }

end WatchStatus

structure WatchRecord where
  id : ProjectId
  root : PathBuf
  deriving DecidableEq, Repr

structure WatchTarget where
  project : ProjectId
  globs : List String

/-- What one re-sync reads: the projects (unless the store fails), the watch-eligible commands and
which of their globs compile, whether the backend opens, what each scan finds, what the OS answers,
and how each wanted set is iterated. -/
structure Resync where
  forceRescan : Bool
  records : Option (List WatchRecord)
  targets : List WatchTarget
  compiles : List String → Bool
  opens : Bool
  scan : ProjectId → ScanRequest → Scan
  refusal : ProjectId → PathBuf → Option WatchError
  arrangement : ProjectId → Arrangement

namespace Resync

def eligibleGlobs (i : Resync) (project : ProjectId) : Option (List String) :=
  let targets := i.targets.filter fun target => target.project = project ∧ i.compiles target.globs
  if targets = [] then none
  else some ((targets.flatMap WatchTarget.globs).insertionSort (· ≤ ·))

def globs (i : Resync) (project : ProjectId) : List String := (i.eligibleGlobs project).getD []

def plannedEntry (i : Resync) (share : ℕ) (record : WatchRecord) : Registered :=
  let globs := i.globs record.id
  let scan := i.scan record.id
  let computed := replan scan record.root globs share
  { root := record.root
    globs
    share
    paths := (computed.directories ++ computed.trees).dedup
    limit := computed.limit
    coverage := Coverage.ofScans
      (scan (treeRequest record.root share) :: (prefixRequests record.root globs share).map scan) }

def needsReplan (i : Resync) (share : ℕ) (s : RunState) (record : WatchRecord) : Bool :=
  i.forceRescan ||
    match AList.lookup record.id s.projects with
    | none => true
    | some existing =>
      existing.root ≠ record.root || existing.globs ≠ i.globs record.id || existing.share ≠ share

def replanIfMoved (i : Resync) (share : ℕ) (s : RunState) (record : WatchRecord) : RunState :=
  if i.needsReplan share s record then
    { s with projects := s.projects.insert record.id (i.plannedEntry share record) }
  else s

def releaseStale (w : Watching) (project : ProjectId) (wanted : List PathBuf) : Watching :=
  ((w.registrations.heldBy project).filter fun held => held ∉ wanted).foldl
    (fun w path => w.release path project) w

def registerWanted (i : Resync) (record : WatchRecord) (acc : Watching × Option WatchError)
    (path : PathBuf) : Watching × Option WatchError :=
  if acc.1.registrations.isHeld path record.id then acc
  else
    let tree := path = record.root ++ [stateDir, refsDir]
    let (w, refused) := acc.1.register path record.id tree (i.refusal record.id path)
    (w,
      match refused with
      | none => acc.2
      | some error => if path = record.root then some error else acc.2)

def reportedLimit (limit : Limits) (rootRefused : Option WatchError) (restartEligible : Bool) :
    Limits :=
  match rootRefused with
  | none => limit
  | some error =>
    let limit := limit.put .gitStatus (.refused error)
    if restartEligible then limit.put .restarts (.refused error) else limit

end Resync

/-- The ids of the projects a re-sync lists are a primary key. -/
def Resync.Listed (i : Resync) : Prop := ((i.records.getD []).map WatchRecord.id).Nodup

instance (i : Resync) : Decidable i.Listed :=
  inferInstanceAs (Decidable ((i.records.getD []).map WatchRecord.id).Nodup)

/-- The state of a re-sync's loop over the projects. -/
structure Resyncing where
  run : RunState
  gitOutcomes : List WatchOutcome
  restartOutcomes : List WatchOutcome

namespace Resync

def resyncRecord (i : Resync) (share : ℕ) (acc : Resyncing) (record : WatchRecord) : Resyncing :=
  let project := record.id
  let restartEligible := i.globs project ≠ []
  let run := i.replanIfMoved share acc.run record
  let wanted := (AList.lookup project run.projects).elim [] Registered.paths
  let watching := releaseStale run.watching project wanted
  let (watching, rootRefused) :=
    ((i.arrangement project).order wanted).foldl (i.registerWanted record) (watching, none)
  let limit := (AList.lookup project run.projects).elim Slots.empty Registered.limit
  let limit := reportedLimit limit rootRefused restartEligible
  { run := { run with watching }
    gitOutcomes := acc.gitOutcomes ++ [⟨project, limit .gitStatus⟩]
    restartOutcomes :=
      if restartEligible then acc.restartOutcomes ++ [⟨project, limit .restarts⟩]
      else acc.restartOutcomes }

end Resync

/-- The watch set: one run's state, the status it reports to and what it has republished. -/
structure WatchSet where
  run : RunState
  status : WatchStatus
  fanout : List PathBuf

namespace WatchSet

def new (capacity : Option ℕ) : WatchSet := ⟨RunState.new capacity, WatchStatus.new, []⟩

/-- Reports every open project as refused for want of a working backend. -/
def reportUnavailable (s : WatchSet) (i : Resync) (records : List WatchRecord) : WatchSet :=
  let outcome := fun record : WatchRecord => WatchOutcome.mk record.id (some (.refused .unavailable))
  let restarts := records.filter fun record => (i.eligibleGlobs record.id).isSome
  { s with
    status := (s.status.resynced .gitStatus (records.map outcome)).resynced .restarts
      (restarts.map outcome) }

/-- Hand back what every project not listed any longer held. -/
def releaseClosed (s : RunState) (records : List WatchRecord) : RunState :=
  (s.projects.keys.filter fun project => project ∉ records.map WatchRecord.id).foldl
    RunState.releaseProject s

def reconcile (s : WatchSet) (i : Resync) (records : List WatchRecord) : WatchSet :=
  let run := releaseClosed { s.run with opened := true } records
  let share := run.watching.registrations.share (records.map WatchRecord.id).dedup.length
  let done := records.foldl (i.resyncRecord share) ⟨run, [], []⟩
  { s with
    run := done.run
    status := (s.status.resynced .gitStatus done.gitOutcomes).resynced .restarts
      done.restartOutcomes }

def resync (s : WatchSet) (i : Resync) : WatchSet :=
  match i.records with
  | none => s
  | some records =>
    if s.run.opened || i.opens then s.reconcile i records else s.reportUnavailable i records

def absorbFound (refusal : PathBuf → Option WatchError) (project : ProjectId) (s : RunState)
    (found : ScannedPath) : RunState :=
  if found.directory then
    match s.watching.register found.path project false (refusal found.path) with
    | (w, some _) =>
      { s with watching := w }.editEntry project fun entry =>
        { entry with coverage := { entry.coverage with overlooked := true } }
    | (w, none) =>
      { s with watching := w }.editEntry project fun entry =>
        { entry with paths := entry.paths.insert found.path }
  else s

def noteScan (scan : Scan) (entry : Registered) : Registered :=
  { entry with
    coverage :=
      { directories := entry.coverage.directories ++ scan.directories
        truncated := entry.coverage.truncated || scan.truncated
        overlooked := entry.coverage.overlooked || scan.truncated ||
          maxAppearedReplay < scan.paths.length } }

def absorbAppeared (scan : ProjectId → ScanRequest → Scan)
    (refusal : ProjectId → PathBuf → Option WatchError) (path : PathBuf) (s : WatchSet)
    (project : ProjectId) : WatchSet :=
  if s.run.opened then
    let registrations := s.run.watching.registrations
    let share := registrations.share (max s.run.projects.keys.length 1)
    let ceiling := share - (registrations.heldBy project).length
    let scan := scan project ⟨path, defaultIgnores, true, ceiling⟩
    let replay := scan.paths.take maxAppearedReplay
    { s with
      run := replay.foldl (absorbFound (refusal project) project)
        (s.run.editEntry project (noteScan scan))
      fanout := s.fanout ++ replay.map ScannedPath.path }
  else s

/-- One owner of a vanished path lets it go. -/
def prunePath (path : PathBuf) (s : RunState) (project : ProjectId) : RunState :=
  { s with watching := s.watching.release path project }.editEntry project fun entry =>
    { entry with paths := entry.paths.filter fun p => p ≠ path }

/-- Drops `path` and everything beneath it from every project that held it. -/
def pruneVanished (s : RunState) (path : PathBuf) : RunState :=
  if s.opened then
    let doomed := s.watching.registrations.paths.filter fun held => path <+: held
    doomed.foldl (fun s doomedPath =>
      (s.watching.registrations.ownersOf doomedPath).foldl (prunePath doomedPath) s) s
  else s

def noteVanished (path : PathBuf) (s : RunState) : RunState :=
  s.projects.keys.foldl (fun s project => s.editEntry project fun entry =>
    { entry with
      coverage := { entry.coverage with
        directories := entry.coverage.directories.filter fun d => ¬path <+: d } }) s

/-- The projects holding the directory a change was reported under. -/
def parentOwners (s : WatchSet) (path : PathBuf) : List ProjectId :=
  match PathBuf.pop path with
  | (parent, true) => s.run.watching.registrations.ownersOf parent
  | (_, false) => []

inductive Event
  /-- A project removed, a configuration reloaded, a lag, or the rescan after a dropped change. -/
  | resync (i : Resync)
  | projectOpened (id : ProjectId) (i : Resync)
  /-- A path appeared; the owners of its parent scan it in some order. -/
  | appeared (path : PathBuf) (owners : List ProjectId) (scan : ProjectId → ScanRequest → Scan)
      (refusal : ProjectId → PathBuf → Option WatchError)
  | vanished (path : PathBuf)
  | modified (path : PathBuf)
  /-- The loop panicked and starts over, with what the backend now reports as its capacity. -/
  | restarted (capacity : Option ℕ)

def step (s : WatchSet) : Event → Option WatchSet
  | .resync i => if i.Listed then some (s.resync i) else none
  | .projectOpened id i =>
    if i.Listed then some ({ s with run := s.run.releaseProject id }.resync i) else none
  | .appeared path owners scan refusal =>
    if owners.Perm (s.parentOwners path) then
      let t := owners.foldl (absorbAppeared scan refusal path) s
      some { t with fanout := t.fanout ++ [path] }
    else none
  | .vanished path =>
    some { s with run := noteVanished path (pruneVanished s.run path), fanout := s.fanout ++ [path] }
  | .modified path => some { s with fanout := s.fanout ++ [path] }
  | .restarted capacity => some { s with run := RunState.new capacity }

end WatchSet

def watchMachine : Machine WatchSet WatchSet.Event where
  init s := ∃ capacity, s = WatchSet.new capacity
  step := WatchSet.step

end Soloist
