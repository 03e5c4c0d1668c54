import Soloist.Doc.DocTable
import Soloist.Text

/-! The scratchpad and diagram aggregates: what a caller's document must satisfy, and the reads and
writes over the shared table. -/
namespace Soloist

inductive DocKind
  | scratchpad
  | diagram
  deriving DecidableEq, Repr

/-- The noun a store error names. -/
def DocKind.label : DocKind → String
  | .scratchpad => "scratchpad"
  | .diagram => "diagram"

def DocKind.bodyNoun : DocKind → String
  | .scratchpad => "content"
  | .diagram => "source"

/-- `MAX_SCRATCHPAD_CONTENT_BYTES` and `MAX_DIAGRAM_SOURCE_BYTES`. -/
def DocKind.maxBodyBytes : DocKind → Nat
  | .scratchpad => 256 * 1024
  | .diagram => 256 * 1024

inductive WriteError
  | invalid (message : String)
  | conflict (expected actual : Option Nat)
  | store (error : StoreError)
  deriving DecidableEq, Repr

inductive RenameError
  | invalid (message : String)
  | notFound
  | nameTaken
  | store (error : StoreError)
  deriving DecidableEq, Repr

namespace Documents

def validateName (name : String) : Except String Unit :=
  if isBlank name then .error "name must not be blank" else .ok ()

def validate (kind : DocKind) (name body : String) : Except String Unit :=
  let nameProblems := match validateName name with
    | .error problem => [problem]
    | .ok _ => []
  let sizeProblems :=
    if kind.maxBodyBytes < body.utf8ByteSize then
      [s!"the {kind.bodyNoun} exceeds the {kind.maxBodyBytes / 1024} KiB cap"]
    else []
  match nameProblems ++ sizeProblems with
  | [] => .ok ()
  | problems => .error ("; ".intercalate problems)

def write (kind : DocKind) (t : DocTable) (projects : ProjectTable) (project : ProjectId)
    (name body : String) (expected : Option Nat) (now : Nat) :
    DocTable × Except WriteError StoredDoc :=
  match validate kind name body with
  | .error message => (t, .error (.invalid message))
  | .ok _ =>
    match DocTable.write t projects kind.label project name body expected now with
    | (t', .ok (.written stored)) => (t', .ok stored)
    | (t', .ok (.conflict actual)) => (t', .error (.conflict expected actual))
    | (t', .error e) => (t', .error (.store e))

def rename (kind : DocKind) (t : DocTable) (project : ProjectId) (source target : String) :
    DocTable × Except RenameError StoredDoc :=
  match validateName target with
  | .error message => (t, .error (.invalid message))
  | .ok _ =>
    match DocTable.rename t kind.label project source target with
    | (t', .ok (.renamed stored)) => (t', .ok stored)
    | (t', .ok .notFound) => (t', .error .notFound)
    | (t', .ok .nameTaken) => (t', .error .nameTaken)
    | (t', .error e) => (t', .error (.store e))

/-- An applied write updates the row it expects or creates an absent one; any other is refused and
changes nothing. A well-formed write is refused only if its expectation fails or its project is
unknown. -/
theorem write_cases (kind : DocKind) (t : DocTable) (projects : ProjectTable)
    (project : ProjectId) (name body : String) (expected : Option Nat) (now : Nat) :
    (∃ r, t.find (project, name) = some r ∧ expected = some r.revision ∧
      validate kind name body = .ok () ∧
      write kind t projects project name body expected now =
        (DocTable.updateBody t project name body (r.revision + 1) now,
          .ok (r.withBody body (r.revision + 1) now))) ∨
    (∃ h : DocTable.currentRevision t project name = none, expected = none ∧
      write kind t projects project name body expected now =
        (DocTable.insert t project name body now h,
          .ok (.fresh (t.seq + 1) project name body now))) ∨
    ∃ e, write kind t projects project name body expected now = (t, .error e) ∧
      (validate kind name body = .ok () → expected.isSome →
        DocTable.currentRevision t project name ≠ expected) := by
  unfold write
  cases hv : validate kind name body with
  | error message =>
    right; right
    exact ⟨.invalid message, rfl, fun h => absurd h (by simp)⟩
  | ok _ =>
    dsimp only
    rcases DocTable.write_cases t projects kind.label project name body expected now with
      ⟨r, hr, hexp, hw⟩ | ⟨hnone, hexp, hw⟩ | ⟨hsame, hexp, hw⟩
    · left
      exact ⟨r, hr, hexp, rfl, by rw [hw]⟩
    · right; left
      exact ⟨hnone, hexp, by rw [hw]⟩
    · right; right
      split
      next t' stored heq => exact absurd (congrArg Prod.snd heq) (hw stored)
      next t' actual heq =>
        rw [heq] at hsame
        exact ⟨.conflict expected actual, by rw [← hsame], fun _ => hexp⟩
      next t' e heq =>
        rw [heq] at hsame
        exact ⟨.store e, by rw [← hsame], fun _ => hexp⟩

theorem rename_cases (kind : DocKind) (t : DocTable) (project : ProjectId)
    (source target : String) :
    (∃ h r, t.find (project, source) = some r ∧
      rename kind t project source target =
        (DocTable.updateName t project source target h, .ok (r.withName target))) ∨
    ∃ e, rename kind t project source target = (t, .error e) := by
  unfold rename
  cases hv : validateName target with
  | error message =>
    right
    exact ⟨.invalid message, rfl⟩
  | ok _ =>
    dsimp only
    rcases DocTable.rename_cases t kind.label project source target with
      ⟨h, r, hr, hw⟩ | ⟨hsame, hw⟩
    · left
      exact ⟨h, r, hr, by rw [hw]⟩
    · right
      split
      next t' stored heq => exact absurd (congrArg Prod.snd heq) (hw stored)
      next t' heq =>
        rw [heq] at hsame
        exact ⟨.notFound, by rw [← hsame]⟩
      next t' heq =>
        rw [heq] at hsame
        exact ⟨.nameTaken, by rw [← hsame]⟩
      next t' e heq =>
        rw [heq] at hsame
        exact ⟨.store e, by rw [← hsame]⟩

end Documents

def render (name body : String) : String :=
  let body := trimEnd body
  if body.isEmpty then s!"# {name}\n" else s!"# {name}\n\n{body}\n"

structure ScratchpadView where
  id : ScratchpadId
  name : String
  tags : List String
  archived : Bool
  revision : Nat
  body : String
  rendered : String
  deriving DecidableEq, Repr

def ScratchpadView.of (stored : StoredDoc) : ScratchpadView where
  id := stored.id
  name := stored.name
  tags := stored.tags
  archived := stored.archived
  revision := stored.revision
  body := stored.body
  rendered := render stored.name stored.body

namespace Scratchpads

def write (t : DocTable) (projects : ProjectTable) (project : ProjectId) (name body : String)
    (expected : Option Nat) (now : Nat) : DocTable × Except WriteError ScratchpadView :=
  (Documents.write .scratchpad t projects project name body expected now).map id
    (.map ScratchpadView.of)

def rename (t : DocTable) (project : ProjectId) (source target : String) :
    DocTable × Except RenameError ScratchpadView :=
  (Documents.rename .scratchpad t project source target).map id (.map ScratchpadView.of)

end Scratchpads

end Soloist
