import Soloist.Debounce
import Soloist.Dict
import Soloist.Feed
import Soloist.Git.Write
import Soloist.Watch.Plan

/-! Which projects a changed path belongs to. A status has two sources: the repository's state
directory, and the tree around it less the directories whose churn is never worth reading. -/
namespace Soloist

def lockExtension : String := "lock"

/-- `Path::file_name`. -/
def fileName (path : PathBuf) : Option String :=
  match path.getLast? with
  | some (.normal name) => some name
  | _ => none

/-- `Path::extension`: what follows the last dot of the name, unless the name has no other and
begins with it. -/
def extension (path : PathBuf) : Option String := do
  let name ← fileName path
  match (name.toList.splitOn '.').reverse with
  | after :: before :: rest => if before = [] ∧ rest = [] then none else some (String.ofList after)
  | _ => none

def isLock (path : PathBuf) : Bool := extension path = some lockExtension

def isIgnored (relative : PathBuf) : Bool :=
  relative.any fun component => defaultIgnores.any fun ignored => component = .normal ignored

structure Route where
  root : PathBuf
  stateDir : PathBuf
  deriving DecidableEq, Repr

namespace Route

def new (root : PathBuf) : Route := ⟨root, root ++ [Soloist.stateDir]⟩

def covers (r : Route) (path : PathBuf) : Bool :=
  r.stateDir.isPrefixOf path || (path.dropPrefix? r.root).any fun relative => !isIgnored relative

/-- The project's status depends on a path: it is in the state directory and no lock file there, or
in the tree and not ignored. -/
def DependsOn (r : Route) (path : PathBuf) : Prop :=
  r.covers path = true ∧ ¬(r.stateDir <+: path ∧ isLock path = true)

end Route

abbrev Routes := Dict ProjectId Route

namespace Routes

def set (routes : Routes) (project : ProjectId) (root : PathBuf) : Routes :=
  AList.insert project (Route.new root) routes

def retainOpen (routes : Routes) (isOpen : List ProjectId) : Routes :=
  Dict.retain routes fun project => project ∈ isOpen

def routed (routes : Routes) : List ProjectId := routes.keys

def projectsOf (routes : Routes) (path : PathBuf) : List ProjectId :=
  (routes.entries.filter fun entry => entry.2.covers path).map fun entry => entry.1

def rootOf (routes : Routes) (project : ProjectId) : Option PathBuf :=
  (AList.lookup project routes).map fun route => route.root

variable {routes : Routes} {project : ProjectId}

theorem mem_projectsOf {path : PathBuf} :
    project ∈ routes.projectsOf path ↔
      ∃ route, AList.lookup project routes = some route ∧ route.covers path = true := by
  unfold projectsOf
  simp only [List.mem_map, List.mem_filter]
  constructor
  · rintro ⟨⟨p, route⟩, ⟨hmem, hcovers⟩, rfl⟩
    exact ⟨route, AList.mem_lookup_iff.mpr hmem, hcovers⟩
  · rintro ⟨route, hlookup, hcovers⟩
    exact ⟨⟨project, route⟩, ⟨AList.mem_lookup_iff.mp hlookup, hcovers⟩, rfl⟩

theorem mem_routed {route : Route} (h : AList.lookup project routes = some route) :
    project ∈ routes.routed :=
  AList.lookup_isSome.mp (by rw [h]; rfl)

end Routes

example : isLock [.normal "app", .normal "Cargo.lock"] = true := by decide

end Soloist

/-! The reactor that turns changed paths into debounced status reads. It waits at its select for the
bus, for a changed path or for the next burst to fall due; what is due is read one project after the
other, and only then does it wait again. -/
namespace Soloist

/-- `QUIET`, in nanoseconds. -/
def quietWindow : ℕ := 100000000

def maxPostpone : ℕ := 1000000000

def fanoutCapacity : ℕ := 1024

/-- What the bus carries, as this reactor tells it apart. -/
inductive RailEvent
  | opened
  | removed (id : ProjectId)
  | other
  deriving DecidableEq, Repr

structure GitWatch where
  now : Instant
  busCapacity : ℕ
  bus : Feed RailEvent
  changes : Feed PathBuf
  routes : Routes
  debouncers : Dict ProjectId Debouncer
  /-- The projects whose pending read is already a retry. -/
  retried : List ProjectId
  /-- The projects that fell due and are not read yet. -/
  due : List ProjectId
  /-- The project whose status is being read. -/
  reading : Option ProjectId
  ended : Bool

inductive GitWatchEvent
  /-- The watch set reports a changed path. -/
  | report (path : PathBuf)
  | announce (e : RailEvent)
  /-- The bus is closed, or the context gone. -/
  | close
  /-- Time passes at the select. -/
  | wait (d : ℕ)
  /-- Time passes while a status is read. -/
  | busy (d : ℕ)
  /-- The bus is read; a gap is read as no event. `listing` is what the registry answers. -/
  | hear (e : Option RailEvent) (listing : Option (List (ProjectId × PathBuf)))
  /-- A changed path is read, or a gap. -/
  | change (path : Option PathBuf)
  /-- The next burst is due. `order` is the order in which the debouncers are visited. -/
  | fire (order : List ProjectId)
  | begin (project : ProjectId)
  /-- A project that is no longer routed is not read. -/
  | skip (project : ProjectId)
  /-- The read ends, with whether the status changed. -/
  | finish (project : ProjectId) (read : Except GitError Bool)
  deriving DecidableEq, Repr

namespace GitWatch

def arm (debouncers : Dict ProjectId Debouncer) (now : Instant) (project : ProjectId) :
    Dict ProjectId Debouncer :=
  let debouncer := (AList.lookup project debouncers).getD (.bounded quietWindow maxPostpone)
  AList.insert project (debouncer.trigger now) debouncers

def dueNow (s : GitWatch) : List ProjectId :=
  (s.debouncers.entries.filter fun entry => (entry.2.takeIfDue s.now).2).map fun entry => entry.1

/-- The bursts that are still pending once the due ones are taken. -/
def untaken (s : GitWatch) : Dict ProjectId Debouncer :=
  Dict.retain s.debouncers fun project =>
    (AList.lookup project s.debouncers).any fun debouncer =>
      (debouncer.takeIfDue s.now).1.dueAt.isSome

def nextDue (s : GitWatch) : Option Instant :=
  (s.debouncers.entries.filterMap fun entry => entry.2.dueAt).min?

/-- Reconciles the routes to the registry; a failed read changes nothing. -/
def resync (s : GitWatch) (listing : Option (List (ProjectId × PathBuf))) : GitWatch :=
  match listing with
  | none => s
  | some records =>
    let routes := records.foldl (fun routes record => routes.set record.1 record.2) s.routes
    { s with routes := routes.retainOpen (records.map fun record => record.1) }

def Selecting (s : GitWatch) : Prop := s.ended = false ∧ s.due = [] ∧ s.reading = none

instance (s : GitWatch) : Decidable s.Selecting := inferInstanceAs (Decidable (_ ∧ _))

def heard (s : GitWatch) (e : Option RailEvent) (listing : Option (List (ProjectId × PathBuf))) :
    GitWatch :=
  match e with
  | some .opened | none => s.resync listing
  | some (.removed id) =>
    { s with
      debouncers := AList.erase id s.debouncers
      retried := s.retried.filter fun project => project ≠ id }.resync listing
  | some .other => s

def armedBy (s : GitWatch) (path : Option PathBuf) : List ProjectId :=
  match path with
  | some path => if isLock path then [] else s.routes.projectsOf path
  | none => s.routes.routed

/-- What a finished read leaves: a first failure is read again after a quiet window. -/
def finished (s : GitWatch) (project : ProjectId) (read : Except GitError Bool) : GitWatch :=
  match read with
  | .ok changed =>
    { s with
      reading := none
      retried := s.retried.filter fun p => p ≠ project
      bus := if changed then s.bus.publish s.busCapacity .other else s.bus }
  | .error _ =>
    if project ∈ s.retried then
      { s with reading := none, retried := s.retried.filter fun p => p ≠ project }
    else
      { s with
        reading := none
        retried := project :: s.retried
        debouncers := arm s.debouncers s.now project }

def step (s : GitWatch) : GitWatchEvent → Option GitWatch
  | .report path => some { s with changes := s.changes.publish fanoutCapacity path }
  | .announce e => some { s with bus := s.bus.publish s.busCapacity e }
  | .close => if s.Selecting then some { s with ended := true } else none
  | .wait d =>
    -- the select sleeps only while nothing is ready, and no longer than to the next due burst
    if s.Selecting ∧ s.bus.recv = none ∧ s.changes.recv = none ∧
        ∀ next ∈ s.nextDue, s.now + d ≤ next then
      some { s with now := s.now + d }
    else none
  | .busy d => if s.reading.isSome ∨ s.ended then some { s with now := s.now + d } else none
  | .hear e listing =>
    if s.Selecting then
      match s.bus.recv with
      | some (read, bus) => if read = e then some ({ s with bus }.heard e listing) else none
      | none => none
    else none
  | .change path =>
    if s.Selecting then
      match s.changes.recv with
      | some (read, changes) =>
        if read = path then
          some { s with
            changes
            debouncers := (s.armedBy path).foldl (fun ds p => arm ds s.now p) s.debouncers }
        else none
      | none => none
    else none
  | .fire order =>
    if s.Selecting ∧ (∃ next ∈ s.nextDue, next ≤ s.now) ∧ order.Perm s.dueNow then
      some { s with debouncers := s.untaken, due := order }
    else none
  | .begin project =>
    if s.ended = false ∧ s.reading = none ∧ s.due.head? = some project ∧
        (s.routes.rootOf project).isSome then
      some { s with reading := some project, due := s.due.tail }
    else none
  | .skip project =>
    if s.ended = false ∧ s.reading = none ∧ s.due.head? = some project ∧
        s.routes.rootOf project = none then
      some { s with due := s.due.tail }
    else none
  | .finish project read =>
    if s.reading = some project then some (s.finished project read) else none

def start (now : Instant) (busCapacity : ℕ) (listing : Option (List (ProjectId × PathBuf))) :
    GitWatch :=
  { now, busCapacity, bus := .empty, changes := .empty, routes := ∅, debouncers := ∅, retried := []
    due := [], reading := none, ended := false : GitWatch }.resync listing

end GitWatch

def gitWatchMachine : Machine GitWatch GitWatchEvent where
  init s := ∃ now busCapacity listing, s = .start now busCapacity listing
  step := GitWatch.step

end Soloist
