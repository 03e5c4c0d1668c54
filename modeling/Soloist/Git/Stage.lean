import Soloist.Git.Write
import Soloist.Process.Spec
import Soloist.Wildcard

/-! What version control does with a whole-path run: the arguments after `--` select names, and the
command moves what is selected. Which names an argument selects is version control's own. -/
namespace Soloist

/-- What each version of a repository holds for a name. -/
structure WorkTree where
  head : String → Option Bytes
  index : String → Option Bytes
  files : String → Option Bytes
  ignored : String → Bool

/-- What the model takes from the installed git. -/
structure GitCli where
  /-- Whether the arguments after `--` select a name: the command and the repository decide too. -/
  selects : GitRun → WorkTree → String → Bool
  /-- Whether a run is refused; a refused run changes nothing. -/
  refuses : GitRun → WorkTree → Bool

namespace GitRun

def command (r : GitRun) : List String := r.args.takeWhile fun arg => arg ≠ pathsMark

def pathspecs (r : GitRun) : List String := (r.args.dropWhile fun arg => arg ≠ pathsMark).tail

end GitRun

namespace WorkTree

/-- `git add`: an ignored file is added only where it is tracked already. -/
def add (t : WorkTree) (selected : String → Bool) : WorkTree :=
  { t with
    index := fun name =>
      if selected name ∧ (t.ignored name = true → (t.index name).isSome = true) then t.files name
      else t.index name }

/-- `git restore --staged`. -/
def restoreStaged (t : WorkTree) (selected : String → Bool) : WorkTree :=
  { t with index := fun name => if selected name then t.head name else t.index name }

/-- `git restore`: a file that is not tracked stays. -/
def restore (t : WorkTree) (selected : String → Bool) : WorkTree :=
  { t with
    files := fun name => if selected name then (t.index name).or (t.files name) else t.files name }

end WorkTree

def GitCli.exec (git : GitCli) (r : GitRun) (t : WorkTree) : WorkTree :=
  if git.refuses r t then t
  else
    match r.command with
    | ["add"] => t.add (git.selects r t)
    | ["restore", "--staged"] => t.restoreStaged (git.selects r t)
    | ["restore"] => t.restore (git.selects r t)
    | _ => t

/-- Pathspecs without magic: an argument selects its own name, what is below it, and what it matches
as a wildcard pattern. `restore` goes through the index in the order of its names, and an argument
that has met its own name selects nothing behind it. -/
def wildcardSelects (r : GitRun) (t : WorkTree) (name : String) : Bool :=
  r.pathspecs.any fun arg =>
    arg.toList.head? ≠ some ':' &&
      ((components arg).isPrefixOf (components name) ||
        Wildcard.matchesText arg.toList name.toList) &&
      !(r.command = ["restore"] && (t.index arg).isSome && arg.toList < name.toList)

def wildcardGit : GitCli := ⟨wildcardSelects, fun _ _ => false⟩

end Soloist

/-! Moving a path's change across the index, and throwing one away. A path is checked by its
components and then handed to version control, which reads it as a pattern. -/
namespace Soloist

inductive ChangeKind
  | modified | typeChanged | added | deleted | renamed | copied | untracked | conflicted
  deriving DecidableEq, Repr

structure GitFileStatus where
  staged : Option ChangeKind
  unstaged : Option ChangeKind
  deriving DecidableEq, Repr

structure FileChange where
  path : String
  status : GitFileStatus
  originalPath : Option String
  deriving DecidableEq, Repr

inductive GitWriteError
  | unknownProject | untrusted | outsideRepository | unopenable | untrackedPath
  | unusableBranchName | emptyMessage | nothingStaged
  | store (error : StoreError)
  | git (error : GitError)
  deriving DecidableEq, Repr

def Component.isNormal : Component → Bool
  | .normal _ => true
  | _ => false

def insideRepository (path : String) : Bool := path ≠ "" && (components path).all Component.isNormal

/-- What the context knows of a project when it is asked: the trust record and the status. -/
structure GitView where
  trusted : Except StoreError Bool
  /-- The changes of the status; none where the root is not a repository. -/
  status : Except GitError (Option (List FileChange))

namespace GitView

def authorize (v : GitView) : Except GitWriteError Unit :=
  match v.trusted with
  | .ok true => .ok ()
  | .ok false => .error .untrusted
  | .error e => .error (.store e)

def originalPathOf (v : GitView) (path : String) : Option String :=
  match v.status with
  | .ok (some changes) =>
    (changes.find? fun change => change.path = path).bind fun change => change.originalPath
  | _ => none

def isUntracked (v : GitView) (path : String) : Except GitWriteError Bool :=
  match v.status with
  | .error e => .error (.git e)
  | .ok none => .ok false
  | .ok (some changes) =>
    .ok (((changes.find? fun change => change.path = path).bind fun change =>
      change.status.unstaged) = some .untracked)

def changing (v : GitView) (path : String) (act : Option String → GitRun) :
    Except GitWriteError GitRun := do
  if !insideRepository path then throw .outsideRepository
  v.authorize
  return act (v.originalPathOf path)

def stage (v : GitView) (path : String) : Except GitWriteError GitRun :=
  v.changing path fun originalPath => GitWrite.stage path originalPath

def unstage (v : GitView) (path : String) : Except GitWriteError GitRun :=
  v.changing path fun originalPath => GitWrite.unstage path originalPath

def discard (v : GitView) (path : String) : Except GitWriteError GitRun := do
  v.authorize
  if ← v.isUntracked path then throw .untrackedPath
  v.changing path fun _ => GitWrite.discard path

def request (v : GitView) (op : Apply) (path : String) : Except GitWriteError GitRun :=
  match op with
  | .stage => v.stage path
  | .unstage => v.unstage path
  | .discard => v.discard path

/-- A name that the operation is asked about. -/
def Named (v : GitView) (path name : String) : Prop :=
  components name = components path ∨
    ∃ original ∈ v.originalPathOf path, components name = components original

def after (v : GitView) (git : GitCli) (op : Apply) (path : String) (t : WorkTree) : WorkTree :=
  match v.request op path with
  | .ok r => git.exec r t
  | .error _ => t

/-- An operation changes nothing but the names it is asked about. -/
def TouchesOnly (v : GitView) (git : GitCli) (op : Apply) (path : String) (t : WorkTree) : Prop :=
  ∀ name, ¬v.Named path name →
    (v.after git op path t).index name = t.index name ∧
      (v.after git op path t).files name = t.files name

end GitView

def WorkTree.Settled (t : WorkTree) (op : Apply) (name : String) : Prop :=
  match op with
  | .stage => t.files name = t.index name ∨ t.ignored name = true ∧ t.index name = none
  | .unstage => t.head name = t.index name
  | .discard => t.index name = none ∨ t.index name = t.files name

def WorkTree.moved (t : WorkTree) (op : Apply) (selected : String → Bool) : WorkTree :=
  match op with
  | .stage => t.add selected
  | .unstage => t.restoreStaged selected
  | .discard => t.restore selected

namespace GitView
variable {v : GitView} {git : GitCli} {op : Apply} {path : String} {t : WorkTree}

variable {r : GitRun}

theorem changing_eq_ok {act : Option String → GitRun} (h : v.changing path act = .ok r) :
    r = act (v.originalPathOf path) := by
  unfold changing at h
  cases hinside : insideRepository path with
  | false =>
    rw [hinside] at h
    cases h
  | true =>
    cases hauthorize : v.authorize with
    | error e =>
      rw [hinside, hauthorize] at h
      cases h
    | ok u =>
      rw [hinside, hauthorize] at h
      cases h
      rfl

theorem discard_eq_ok (h : v.discard path = .ok r) : r = GitWrite.discard path := by
  unfold discard at h
  cases hauthorize : v.authorize with
  | error e =>
    rw [hauthorize] at h
    cases h
  | ok u =>
    cases huntracked : v.isUntracked path with
    | error e =>
      rw [hauthorize, huntracked] at h
      cases h
    | ok untracked =>
      rw [hauthorize, huntracked] at h
      cases untracked with
      | true => cases h
      | false =>
        have hchanging : v.changing path (fun _ => GitWrite.discard path) = .ok r := h
        exact changing_eq_ok hchanging

theorem exec_request (h : v.request op path = .ok r) (hruns : git.refuses r t = false) :
    git.exec r t = t.moved op (git.selects r t) := by
  unfold GitCli.exec
  rw [hruns]
  cases op with
  | stage =>
    obtain rfl := changing_eq_ok h
    rfl
  | unstage =>
    obtain rfl := changing_eq_ok h
    rfl
  | discard =>
    obtain rfl := discard_eq_ok h
    rfl

end GitView

variable {t : WorkTree} {selected : String → Bool} {name : String}

theorem WorkTree.add_settled :
    (t.add selected).index name = t.index name ↔
      (selected name = true → t.Settled .stage name) := by
  unfold WorkTree.add WorkTree.Settled
  dsimp only
  cases selected name with
  | false => simp
  | true =>
    cases hignored : t.ignored name with
    | false => simp
    | true =>
      cases t.index name with
      | none => simp
      | some b => simp

theorem WorkTree.restore_settled :
    (t.restore selected).files name = t.files name ↔
      (selected name = true → t.Settled .discard name) := by
  unfold WorkTree.restore WorkTree.Settled
  dsimp only
  cases selected name with
  | false => simp
  | true =>
    cases t.index name with
    | none => simp
    | some b => simp

theorem WorkTree.restoreStaged_settled :
    (t.restoreStaged selected).index name = t.index name ↔
      (selected name = true → t.Settled .unstage name) := by
  unfold WorkTree.restoreStaged WorkTree.Settled
  dsimp only
  cases selected name with
  | false => simp
  | true => simp

namespace GitView
variable {v : GitView} {git : GitCli} {op : Apply} {path : String} {t : WorkTree}

theorem kept_iff {r : GitRun} (h : v.request op path = .ok r) (hruns : git.refuses r t = false)
    (name : String) :
    ((git.exec r t).index name = t.index name ∧ (git.exec r t).files name = t.files name) ↔
      (git.selects r t name = true → t.Settled op name) := by
  rw [exec_request h hruns]
  cases op with
  | stage => exact (and_iff_left rfl).trans WorkTree.add_settled
  | unstage => exact (and_iff_left rfl).trans WorkTree.restoreStaged_settled
  | discard => exact (and_iff_right rfl).trans WorkTree.restore_settled

/-- A trusted project with nothing renamed. -/
def plainView : GitView := ⟨.ok true, .ok (some [])⟩

/-- Two tracked pages are edited; the name of one matches the other's as a pattern, and comes behind
it in the index. -/
def editedPages : WorkTree where
  head _ := none
  index name := if name = "pages/[ID].tsx" ∨ name = "pages/I.tsx" then some [1] else none
  files name := if name = "pages/[ID].tsx" ∨ name = "pages/I.tsx" then some [2] else none
  ignored _ := false

end GitView

end Soloist
