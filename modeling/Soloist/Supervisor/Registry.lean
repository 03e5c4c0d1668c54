import Soloist.Numbering
import Soloist.Process.Spec
import Soloist.Slots

/-! The process registry: one entry per managed process, with the control surface of its actor
while it is active. Every operation runs under the registry's lock, so it is one atomic step. -/
namespace Soloist

abbrev ActorId := Nat

namespace Labels
variable (base : String) (taken : List String)

/-- The source's suffix is an `i32`, which no number of labels reaches. -/
def candidate (n : ℕ) : String := s!"{base} {n + 2}"

/-- The loop has no bound of its own: it is given a number of turns, and may run out of them. -/
def numberLabel (turns : ℕ) : Option String :=
  if base ∈ taken then (Numbering.search (candidate base) taken turns 0).map (candidate base)
  else some base

end Labels

/-- The two shapes a registration has: a trust-gated command, and an ungated process. -/
inductive Registration
  | command (project : ProjectId) (root : PathBuf) (spec : ProcessSpec)
  | launched (project : ProjectId) (kind : { k : ProcessKind // k ≠ .command })
      (launch : SpawnSpec) (resumeCommand : Option String)
  deriving DecidableEq

namespace Registration

def project : Registration → ProjectId
  | .command project .. | .launched project .. => project

def kind : Registration → ProcessKind
  | .command .. => .command
  | .launched _ kind .. => kind

def launch : Registration → SpawnSpec
  | .command _ root spec => ⟨spec.command, spec.resolvedWorkingDir root, spec.env⟩
  | .launched _ _ launch _ => launch

def trustVariant [Sha256] : Registration → Option Hash
  | .command _ _ spec => some spec.variantHash
  | .launched .. => none

def autoStart : Registration → Bool
  | .command _ _ spec => spec.autoStart
  | .launched .. => false

def autoRestart : Registration → Bool
  | .command _ _ spec => spec.autoRestart
  | .launched .. => false

def resumeCommand : Registration → Option String
  | .command .. => none
  | .launched _ _ _ resumeCommand => resumeCommand

end Registration

/-- A live actor's control surface: its mailbox and, once attached, the task to await. -/
structure Handle where
  mailbox : ActorId
  join : Option ActorId
  deriving DecidableEq, Repr

structure Managed where
  project : ProjectId
  kind : ProcessKind
  status : ProcStatus
  exitCode : Option Int
  launch : SpawnSpec
  trustVariant : Option Hash
  autoStart : Bool
  autoRestart : Bool
  resumeCommand : Option String
  handle : Option Handle

/-- The launch-relevant fields of an entry, cloned under the lock. The kind is carried for the
statements only. -/
structure EntryInfo where
  project : ProjectId
  kind : ProcessKind
  status : ProcStatus
  trustVariant : Option Hash
  autoRestart : Bool
  launch : SpawnSpec
  resumeCommand : Option String

namespace Managed

def register [Sha256] (r : Registration) : Managed where
  project := r.project
  kind := r.kind
  status := .stopped
  exitCode := none
  launch := r.launch
  trustVariant := r.trustVariant
  autoStart := r.autoStart
  autoRestart := r.autoRestart
  resumeCommand := r.resumeCommand
  handle := none

def info (m : Managed) : EntryInfo :=
  ⟨m.project, m.kind, m.status, m.trustVariant, m.autoRestart, m.launch, m.resumeCommand⟩

def withStatus (m : Managed) (status : ProcStatus) (exitCode : Option Int) : Managed :=
  { m with status, exitCode }

def withHandle (m : Managed) (handle : Handle) : Managed := { m with handle := some handle }

/-- The fields a reload replaces; the kind, the status and the handle stay. -/
def withSpec [Sha256] (m : Managed) (r : Registration) : Managed :=
  { m with
    launch := r.launch
    trustVariant := r.trustVariant
    autoStart := r.autoStart
    autoRestart := r.autoRestart }

end Managed

abbrev Registry := Slots ProcessId Managed

namespace Registry

def add [Sha256] (g : Registry) (id : ProcessId) (r : Registration) : Registry :=
  g.put id (.register r)

def describe (g : Registry) (id : ProcessId) : Option EntryInfo := (g id).map Managed.info

def status (g : Registry) (id : ProcessId) : Option ProcStatus := (g id).map Managed.status

def setStatus (g : Registry) (id : ProcessId) (status : ProcStatus) (exitCode : Option Int) :
    Registry :=
  g.modify id (·.withStatus status exitCode)

def updateCommandSpec [Sha256] (g : Registry) (id : ProcessId) (r : Registration) :
    Registry × Bool :=
  (g.modify id (·.withSpec r), (g id).isSome)

/-- Claims the right to launch a resting process and installs the mailbox of its new actor. -/
def beginLaunch (g : Registry) (id : ProcessId) (mailbox : ActorId) :
    Option (ProcStatus × Registry) :=
  match g id with
  | none => none
  | some m =>
    if m.status.isActive then none
    else
      match m.status.transition .starting with
      | .error _ => none
      | .ok next => some (m.status, g.put id ((m.withStatus next none).withHandle ⟨mailbox, none⟩))

def exhaustIfCrashed (g : Registry) (id : ProcessId) : Registry × Bool :=
  match g id with
  | none => (g, false)
  | some m =>
    match m.status.transition .restartExhausted with
    | .ok next => (g.put id (m.withStatus next none), true)
    | .error _ => (g, false)

/-- `none` when the entry holds no handle any more: the launch has been superseded. -/
def attachJoin (g : Registry) (id : ProcessId) (join : ActorId) : Option Registry :=
  match g id with
  | none => none
  | some m => m.handle.map fun h => g.put id (m.withHandle { h with join := some join })

def removeIfResting (g : Registry) (id : ProcessId) : Registry × Bool :=
  match g id with
  | none => (g, false)
  | some m => if m.status.isActive then (g, false) else (g.erase id, true)

def removeReturningHandle (g : Registry) (id : ProcessId) : Option (Registry × Option Handle) :=
  (g id).map fun m => (g.erase id, m.handle)

variable {g g' : Registry} {id : ProcessId} {m : Managed}

theorem describe_eq_some (h : g id = some m) : g.describe id = some m.info := by
  rw [describe, h, Option.map_some]

theorem status_eq_some (h : g id = some m) : g.status id = some m.status := by
  rw [status, h, Option.map_some]

variable {mailbox : ActorId}

/-- A claim finds a resting entry and leaves it `Starting` under the new mailbox. -/
theorem beginLaunch_eq_some {source : ProcStatus} :
    g.beginLaunch id mailbox = some (source, g') ↔
      ∃ m, g id = some m ∧ m.status.isActive = false ∧ source = m.status ∧
        g' = g.put id ((m.withStatus .starting none).withHandle ⟨mailbox, none⟩) := by
  unfold beginLaunch
  cases hm : g id with
  | none => simp
  | some m =>
    dsimp only
    by_cases hactive : m.status.isActive = true
    · rw [if_pos hactive]
      constructor
      · intro h
        cases h
      · rintro ⟨m', hm', hrest, -⟩
        cases hm'
        rw [hactive] at hrest
        cases hrest
    · have hrest : m.status.isActive = false := Bool.eq_false_iff.mpr hactive
      have hallowed : m.status.allowed .starting = true :=
        ProcStatus.allowed_starting.mpr (.inl hrest)
      rw [if_neg hactive, ProcStatus.transition_of_allowed hallowed]
      constructor
      · intro h
        cases h
        exact ⟨m, rfl, hrest, rfl, rfl⟩
      · rintro ⟨m', hm', -, rfl, rfl⟩
        cases hm'
        rfl

/-- A claim is refused exactly when the process is gone or active. -/
theorem beginLaunch_eq_none :
    g.beginLaunch id mailbox = none ↔ ∀ m, g id = some m → m.status.isActive = true := by
  constructor
  · intro h m hm
    by_contra hrest
    rw [Bool.not_eq_true] at hrest
    have hsome : g.beginLaunch id mailbox = some _ :=
      beginLaunch_eq_some.mpr ⟨m, hm, hrest, rfl, rfl⟩
    rw [h] at hsome
    cases hsome
  · intro h
    cases hb : g.beginLaunch id mailbox with
    | none => rfl
    | some p =>
      obtain ⟨m, hm, hrest, -⟩ := beginLaunch_eq_some.mp hb
      rw [h m hm] at hrest
      cases hrest

theorem exhaustIfCrashed_cases (g : Registry) (id : ProcessId) :
    g.exhaustIfCrashed id = (g, false) ∨
      ∃ m, g id = some m ∧ m.status = .crashed ∧
        g.exhaustIfCrashed id = (g.put id (m.withStatus .restartExhausted none), true) := by
  unfold exhaustIfCrashed
  cases hm : g id with
  | none => exact .inl rfl
  | some m =>
    dsimp only
    cases ht : m.status.transition .restartExhausted with
    | error e => exact .inl rfl
    | ok next =>
      obtain ⟨hallowed, rfl⟩ := ProcStatus.transition_eq_ok.mp ht
      exact .inr ⟨m, rfl, ProcStatus.allowed_restartExhausted.mp hallowed, rfl⟩

theorem attachJoin_eq_some {join : ActorId} :
    g.attachJoin id join = some g' ↔
      ∃ m h, g id = some m ∧ m.handle = some h ∧
        g' = g.put id (m.withHandle { h with join := some join }) := by
  unfold attachJoin
  cases hm : g id with
  | none => simp
  | some m =>
    dsimp only
    rw [Option.map_eq_some_iff]
    constructor
    · rintro ⟨h, hh, rfl⟩
      exact ⟨m, h, rfl, hh, rfl⟩
    · rintro ⟨m', h, hm', hh, rfl⟩
      cases hm'
      exact ⟨h, hh, rfl⟩

theorem removeIfResting_cases (g : Registry) (id : ProcessId) :
    g.removeIfResting id = (g, false) ∨
      ∃ m, g id = some m ∧ m.status.isActive = false ∧
        g.removeIfResting id = (g.erase id, true) := by
  unfold removeIfResting
  cases hm : g id with
  | none => exact .inl rfl
  | some m =>
    cases hactive : m.status.isActive with
    | true => exact .inl (by simp [hactive])
    | false => exact .inr ⟨m, rfl, hactive, by simp [hactive]⟩

theorem removeReturningHandle_eq_some {h : Option Handle} :
    g.removeReturningHandle id = some (g', h) ↔
      ∃ m, g id = some m ∧ g' = g.erase id ∧ h = m.handle := by
  unfold removeReturningHandle
  rw [Option.map_eq_some_iff]
  constructor
  · rintro ⟨m, hm, he⟩
    cases he
    exact ⟨m, hm, rfl, rfl⟩
  · rintro ⟨m, hm, rfl, rfl⟩
    exact ⟨m, hm, rfl⟩

end Registry
end Soloist
