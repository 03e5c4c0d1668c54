import Mathlib.Algebra.Group.Nat.Defs
import Soloist.Ids

/-! Process kinds and the status state machine every lifecycle change goes through. -/
namespace Soloist

inductive ProcessKind
  | command
  | agent
  | terminal
  deriving DecidableEq, Repr

theorem ProcessKind.agent_ne_command : ProcessKind.agent ≠ .command := nofun

theorem ProcessKind.terminal_ne_command : ProcessKind.terminal ≠ .command := nofun

inductive ProcStatus
  | stopped
  | starting
  | running
  | crashed
  | restarting
  | stopping
  | restartExhausted
  deriving DecidableEq, Repr

structure IllegalTransition where
  source : ProcStatus
  target : ProcStatus
  deriving DecidableEq, Repr

namespace ProcStatus

def isActive : ProcStatus → Bool
  | .starting | .running | .restarting | .stopping => true
  | .stopped | .crashed | .restartExhausted => false

def allowed : ProcStatus → ProcStatus → Bool
  | .stopped, .starting => true
  | .starting, .running => true
  | .starting, .stopping => true
  | .running, .stopping => true
  | .running, .stopped => true
  | .running, .restarting => true
  | .restarting, .starting => true
  | .stopping, .stopped => true
  | .crashed, .starting => true
  | .crashed, .restartExhausted => true
  | .restartExhausted, .starting => true
  -- a panic or an unexpected exit can occur at any point of the lifecycle
  | .starting, .crashed | .running, .crashed | .stopping, .crashed | .restarting, .crashed => true
  | _, _ => false

def transition (s target : ProcStatus) : Except IllegalTransition ProcStatus :=
  if s.allowed target then .ok target else .error ⟨s, target⟩

variable {s : ProcStatus}

theorem transition_eq_ok {target t : ProcStatus} :
    s.transition target = .ok t ↔ s.allowed target = true ∧ t = target := by
  unfold transition
  split_ifs with h
  · constructor
    · intro he
      cases he
      exact ⟨h, rfl⟩
    · rintro ⟨-, rfl⟩
      rfl
  · constructor
    · intro he
      cases he
    · rintro ⟨hok, -⟩
      exact absurd hok h

theorem transition_of_allowed {target : ProcStatus} (h : s.allowed target = true) :
    s.transition target = .ok target := transition_eq_ok.mpr ⟨h, rfl⟩

/-- A launch may start from exactly the states without an actor or from a restart. -/
theorem allowed_starting : s.allowed .starting = true ↔ s.isActive = false ∨ s = .restarting := by
  cases s <;> decide

theorem allowed_restartExhausted : s.allowed .restartExhausted = true ↔ s = .crashed := by
  cases s <;> decide

end ProcStatus
end Soloist

/-! Launch specs: a `solo.yml` command, its trust variant, and the spawn it resolves to. -/
namespace Soloist

/-- An ordered string map, as its entries in key order. -/
abbrev Env := List (String × String)

def Env.insert : Env → String → String → Env
  | [], key, value => [(key, value)]
  | (k, v) :: rest, key, value =>
    if key < k then (key, value) :: (k, v) :: rest
    else if key = k then (key, value) :: rest
    else (k, v) :: Env.insert rest key value

inductive Component
  | rootDir
  | curDir
  | parentDir
  | normal (segment : String)
  deriving DecidableEq, Repr

abbrev PathBuf := List Component

instance : LawfulBEq PathBuf := inferInstanceAs (LawfulBEq (List Component))

/-- The components of a path: separators collapse, and `.` counts only where the path starts. -/
def components (path : String) : List Component :=
  let segments := (path.toList.splitOn '/').map String.ofList
  let kept := (segments.drop 1).filter fun segment => segment ≠ "" ∧ segment ≠ "."
  let tail := kept.map fun segment => if segment = ".." then .parentDir else .normal segment
  match segments.head? with
  | none => []
  | some "" => if 1 < segments.length then .rootDir :: tail else []
  | some "." => .curDir :: tail
  | some ".." => .parentDir :: tail
  | some segment => .normal segment :: tail

/-- `PathBuf::pop`, with whether there was a component to pop. -/
def PathBuf.pop (path : PathBuf) : PathBuf × Bool :=
  match path.getLast? with
  | none | some .rootDir => (path, false)
  | some _ => (path.dropLast, true)

/-- Folds `dir` onto `root`; any escape clamps to the root itself. -/
def containWithin (root : PathBuf) (dir : List Component) : PathBuf :=
  go root dir
where
  go (resolved : PathBuf) : List Component → PathBuf
    | [] => resolved
    | .normal segment :: rest => go (resolved ++ [.normal segment]) rest
    | .curDir :: rest => go resolved rest
    | .parentDir :: rest =>
      let popped := PathBuf.pop resolved
      if popped.2 && root.isPrefixOf popped.1 then go popped.1 rest else root
    | .rootDir :: _ => root

abbrev Hash := Vector UInt8 32

/-- The digest function of the hashing library. -/
class Sha256 where
  digest : List UInt8 → Hash

/-- What has been fed to the incremental hasher. -/
structure Hasher where
  input : List UInt8

namespace Hasher

def new : Hasher := ⟨[]⟩

def leBytes (n : UInt64) : List UInt8 :=
  (List.range 8).map fun i => UInt8.ofNat (n.toNat / 256 ^ i)

def field (h : Hasher) (bytes : List UInt8) : Hasher :=
  ⟨h.input ++ leBytes (UInt64.ofNat bytes.length) ++ bytes⟩

def finish [Sha256] (h : Hasher) : Hash := Sha256.digest h.input

end Hasher

structure ProcessSpec where
  command : String
  workingDir : Option String
  autoStart : Bool
  autoRestart : Bool
  /-- Globs whose changes trigger a restart. -/
  restartWhenChanged : List String
  env : Env
  deriving DecidableEq, Repr

namespace ProcessSpec

def bytes (s : String) : List UInt8 := s.toUTF8.data.toList

/-- The trust variant: a digest over `command`, `working_dir` and `env`. -/
def variantHash [Sha256] (spec : ProcessSpec) : Hash :=
  let h := Hasher.new.field (bytes spec.command)
  let h := match spec.workingDir with
    | some dir => (h.field [1]).field (bytes dir)
    | none => h.field [0]
  let h := h.field (Hasher.leBytes (UInt64.ofNat spec.env.length))
  let h := spec.env.foldl (fun h entry => (h.field (bytes entry.1)).field (bytes entry.2)) h
  h.finish

def resolvedWorkingDir (spec : ProcessSpec) (projectRoot : PathBuf) : PathBuf :=
  match spec.workingDir with
  | some dir => containWithin projectRoot (components dir)
  | none => projectRoot

end ProcessSpec

structure SpawnSpec where
  command : String
  workingDir : PathBuf
  env : Env
  deriving DecidableEq, Repr

def processIdEnv : String := "SOLOIST_PROCESS_ID"

/-- The captured login-shell environment with the process's own on top. -/
def resolveEnv (captured processEnv : Env) : Env :=
  processEnv.foldl (fun env entry => env.insert entry.1 entry.2) captured

def SpawnSpec.child (launch : SpawnSpec) (id : ProcessId) (captured : Env) : SpawnSpec :=
  { launch with env := resolveEnv captured (launch.env.insert processIdEnv (toString id)) }

end Soloist
