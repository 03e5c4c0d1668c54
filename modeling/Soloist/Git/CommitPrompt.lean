import Soloist.Git.Description

/-! The prompt that asks for a commit message: what is staged, by its patches while they fit and by
its paths once they do not. -/
open List

namespace Soloist

inductive GitDraftError
  | untrusted | nothingToDescribe
  | store (error : StoreError)
  | git (error : GitError)
  deriving DecidableEq, Repr

structure CommitIntent where
  title : String
  body : String

namespace CommitPrompt

def voiceExamples : ℕ := 10

def revertPrefix : String := "Revert \""

def botSuffix : String := "[bot]"

def intentTitleLimit : ℕ := 256

def intentBodyLimit : ℕ := 2 * 1024

def describedPathLimit : ℕ := 48

def remainderHeadroom : ℕ := 64

def resolvedNames : List String :=
  ["package-lock.json", "packages.lock.json", "pnpm-lock.yaml", "bun.lockb", "go.sum",
    "Package.resolved"]

def generatedSuffixes : List String := [".lock", ".lockfile", ".min.js", ".min.css", ".map"]

def patchInstructions : String := "Write a git commit message for the staged change below.

"

def summaryInstructions : String := "Write a git commit message for the staged change below.

The change is too large to include, so only the files it touches are listed. Describe the change at
that level rather than inventing detail about the contents.

"

def ownForm : String := "Reply with the message and nothing else: no preamble, no explanation, no code fence. Use a short
imperative subject line of at most 72 characters. Add a body only if the change needs one, separated
from the subject by a blank line, wrapped at 72 characters, saying why rather than restating the
diff.

"

def skeletonForm : String := "Fill in the template at the end of this message rather than writing a message of your own shape.
Keep its headings, their order, and any checklist it carries exactly as they are, and replace only
the parts meant to be filled in. Leave a section out only if it plainly does not apply. Reply with
the message and nothing else: no preamble, no explanation, no code fence.

"

def patchLabel : String := "Staged change:\n"

def pathsLabel : String := "Staged files:\n"

/-- `SKELETON_LABEL`. -/
def templateLabel : String := "\nTemplate to fill in:\n"

def voicePreamble : String := "For style only, here is how this repository writes commit subjects. Match their voice and length.
Do not reuse any of them and do not describe what they describe — they are unrelated to the change
below.

"

def intentPreamble : String := "What this work set out to do, from the task the agent making the change is working on. Use it to say
why the change was made. Where it and the change disagree, the change is what is being committed:
describe only what the change below actually does.

"

def instructionsHeadroom : ℕ :=
  max (patchInstructions.utf8ByteSize + patchLabel.utf8ByteSize)
    (summaryInstructions.utf8ByteSize + pathsLabel.utf8ByteSize)

/-- Whether a path's contents say anything about the intent of the change that touched it. -/
def describesIntent (path : String) : Bool :=
  let name := (path.toList.splitOn '/').getLastD []
  !(resolvedNames.any fun resolved => resolved.toList = name) &&
    !(generatedSuffixes.any fun suffix => suffix.toList.isSuffixOf name)

def isAuthored (commit : CommitEntry) : Bool :=
  !commit.merge && !revertPrefix.toList.isPrefixOf commit.subject.toList &&
    !botSuffix.toList.isSuffixOf commit.author.toList

def describeBranch : Option String → String
  | some name => s!"On branch {name}.\n\n"
  | none => ""

/-- The opening of a text that fits a limit, ending at a line where there is one. -/
def excerpt (text : String) (limit : ℕ) : String :=
  if text.utf8ByteSize ≤ limit then text
  else
    let head := Allowance.fit Char.utf8Size limit 0 text.toList
    String.ofList (if '\n' ∈ head then (head.rdropWhile fun c => c ≠ '\n').dropLast else head)

def describeIntent (intent : CommitIntent) : String :=
  let body := excerpt (trim intent.body) intentBodyLimit
  intentPreamble ++ excerpt (trim intent.title) intentTitleLimit ++ "\n" ++
    (if body = "" then "" else "\n" ++ body ++ "\n") ++ "\n"

/-- The recent subjects that show how this repository writes one. -/
def voice (history : Option (List CommitEntry)) : String :=
  match (((history.getD []).filter isAuthored).map CommitEntry.subject).take voiceExamples with
  | [] => ""
  | subjects =>
    voicePreamble ++ String.join (subjects.map fun subject => s!"- {subject}\n") ++ "\n"

def described : ChangeKind → String
  | .modified => "modified"
  | .typeChanged => "changed type of"
  | .added => "added"
  | .deleted => "deleted"
  | .renamed => "renamed"
  | .copied => "copied"
  | .untracked | .conflicted => "changed"

def summaryLine (change : FileChange) : String :=
  let happened := (change.status.staged.map described).getD "changed"
  match change.originalPath with
  | some origin => s!"{happened} {change.path} (from {origin})\n"
  | none => s!"{happened} {change.path}\n"

def remainder (leftOut : ℕ) : String :=
  if leftOut = 0 then "" else s!"and {leftOut} more files\n"

def summarise (staged : List FileChange) (budget : ℕ) : String :=
  let (summary, unnamed) := Allowance.push remainderHeadroom budget "" (staged.map summaryLine)
  summary ++ remainder unnamed.length

/-- What the trust store and the repository answer. -/
structure View where
  trusted : Except StoreError Bool
  status : Except GitError (Option (Option String × List FileChange))
  history : Except GitError (Option (List CommitEntry))
  template : Except GitError (Option String)
  diff : FileChange → Except GitError RawFileDiff

def stagedPatch (v : View) (change : FileChange) : Except GitError (Option String) :=
  match v.diff change with
  | .error .notARepo => .ok none
  | .error e => .error e
  | .ok raw =>
    if raw.binary || raw.hunks.isEmpty then .ok none
    else .ok (some (raw.header ++ String.join (raw.hunks.map RawHunk.text)))

def patchesWithin (v : View) (budget : ℕ) (patches : String) :
    List FileChange → Except GitError (Option String)
  | [] => .ok (some patches)
  | change :: rest => do
    match ← stagedPatch v change with
    | none => patchesWithin v budget patches rest
    | some patch =>
      if budget < patches.utf8ByteSize + patch.utf8ByteSize then return none
      else patchesWithin v budget (patches ++ patch) rest

inductive Description
  | patches (text : String)
  | paths (text : String)

def describe (v : View) (staged : List FileChange) (budget : ℕ) : Except GitError Description := do
  if describedPathLimit < staged.length then return .paths (summarise staged budget)
  match ← patchesWithin v budget "" staged with
  | some patches =>
    if patches = "" then return .paths (summarise staged budget) else return .patches patches
  | none => return .paths (summarise staged budget)

/-- What is put around the change, and the staged paths that say anything. -/
structure Question where
  staged : List FileChange
  form : String
  context : String
  purpose : String
  voice : String
  shape : String

def question (v : View) (intent : Option CommitIntent) : Except GitDraftError Question := do
  if !(← v.trusted.mapError .store) then throw .untrusted
  match ← v.status.mapError .git with
  | none => throw .nothingToDescribe
  | some (branch, changes) =>
    let staged := changes.filter fun change =>
      change.status.staged.isSome && describesIntent change.path
    if staged.isEmpty then throw .nothingToDescribe
    let history ← v.history.mapError .git
    let template ← v.template.mapError .git
    return {
      staged
      form := if template.isNone then ownForm else skeletonForm
      context := describeBranch branch
      purpose := (intent.map describeIntent).getD ""
      voice := voice history
      shape := (template.map fun template => templateLabel ++ template).getD "" }

def Question.size (q : Question) : ℕ :=
  q.form.utf8ByteSize + q.context.utf8ByteSize + q.purpose.utf8ByteSize + q.voice.utf8ByteSize +
    q.shape.utf8ByteSize

def Question.budget (q : Question) : ℕ := oneShotPromptLimit - (instructionsHeadroom + q.size)

def Question.ask (q : Question) : Description → String
  | .patches patches => patchInstructions ++ q.form ++ q.context ++ q.purpose ++ q.voice ++
      patchLabel ++ patches ++ q.shape
  | .paths paths => summaryInstructions ++ q.form ++ q.context ++ q.purpose ++ q.voice ++
      pathsLabel ++ paths ++ q.shape

end CommitPrompt

open CommitPrompt in
def commitMessagePrompt (v : View) (intent : Option CommitIntent) :
    Except GitDraftError String := do
  let q ← question v intent
  return q.ask (← (describe v q.staged q.budget).mapError .git)

namespace CommitPrompt
variable {v : View} {staged : List FileChange} {budget : ℕ} {q : Question} {text : String}

def allPatches (v : View) : List FileChange → Except GitError String
  | [] => .ok ""
  | change :: rest => do
    let patch ← stagedPatch v change
    return patch.getD "" ++ (← allPatches v rest)

/-- What the prompt is to be: within the ceiling, with all the readable patches, or every staged
path named or counted. -/
structure Fits (v : View) (q : Question) (text : String) : Prop where
  within : text.utf8ByteSize ≤ oneShotPromptLimit
  described : (∃ patches, allPatches v q.staged = .ok patches ∧ text = q.ask (.patches patches)) ∨
    ∃ named unnamed, q.staged = named ++ unnamed ∧ text =
      q.ask (.paths (String.join (named.map summaryLine) ++ remainder unnamed.length))

/-- There is room beside the fixed text and the context for the line that counts every path, or for
all the patches. -/
def Roomy (v : View) (q : Question) : Prop :=
  instructionsHeadroom + q.size + (remainder q.staged.length).utf8ByteSize ≤ oneShotPromptLimit ∨
    q.staged.length ≤ describedPathLimit ∧ ∃ patches, allPatches v q.staged = .ok patches ∧
      patches ≠ "" ∧ instructionsHeadroom + q.size + patches.utf8ByteSize ≤ oneShotPromptLimit

section Sizes

set_option maxRecDepth 10000 in
theorem size_summaryInstructions : summaryInstructions.utf8ByteSize = 218 :=
  (Allowance.size_ofList _).trans (by decide)

theorem size_patchInstructions : patchInstructions.utf8ByteSize = 57 :=
  (Allowance.size_ofList _).trans (by decide)

theorem size_labels : patchLabel.utf8ByteSize = 15 ∧ pathsLabel.utf8ByteSize = 14 := by
  decide

theorem instructionsHeadroom_eq : instructionsHeadroom = 232 := by
  rw [instructionsHeadroom, size_patchInstructions, size_summaryInstructions, size_labels.1,
    size_labels.2]
  rfl

theorem size_ask_paths (q : Question) (paths : String) : (q.ask (.paths paths)).utf8ByteSize =
    instructionsHeadroom + q.size + paths.utf8ByteSize := by
  rw [instructionsHeadroom_eq, Question.ask, Question.size]
  simp only [String.utf8ByteSize_append, size_summaryInstructions, size_labels]
  omega

theorem size_ask_patches (q : Question) (patches : String) :
    (q.ask (.patches patches)).utf8ByteSize ≤
      instructionsHeadroom + q.size + patches.utf8ByteSize := by
  rw [instructionsHeadroom_eq, Question.ask, Question.size]
  simp only [String.utf8ByteSize_append, size_patchInstructions, size_labels]
  omega

/-- The line that counts what is left out fits the room kept for it. -/
theorem size_remainder_le {n : ℕ} (h : n < 2 ^ 64) :
    (remainder n).utf8ByteSize ≤ remainderHeadroom := by
  unfold remainder
  split_ifs
  · exact Nat.zero_le _
  · have hdigits : (toString n).utf8ByteSize ≤ 20 := by
      rw [Allowance.size_toString, Nat.length_toDigits_le_iff (by decide) (by decide)]
      exact Nat.lt_trans h (by decide)
    have hwords : (toString "and ").utf8ByteSize = 4 ∧
        (toString " more files\n").utf8ByteSize = 12 := by decide
    simp only [String.utf8ByteSize_append, hwords]
    unfold remainderHeadroom
    omega

end Sizes

theorem summarise_eq (staged : List FileChange) (budget : ℕ) :
    ∃ named unnamed, staged = named ++ unnamed ∧
      summarise staged budget = String.join (named.map summaryLine) ++ remainder unnamed.length ∧
      (named ≠ [] → remainderHeadroom + (String.join (named.map summaryLine)).utf8ByteSize ≤
        budget) := by
  obtain ⟨lines, hlines⟩ : ∃ lines, Allowance.fit String.utf8ByteSize budget remainderHeadroom
      (staged.map summaryLine) = lines := ⟨_, rfl⟩
  have hprefix : lines <+: staged.map summaryLine := hlines ▸ Allowance.fit_prefix
  have hnamed : (staged.take lines.length).map summaryLine = lines := by
    rw [map_take]
    exact (prefix_iff_eq_take.mp hprefix).symm
  refine ⟨staged.take lines.length, staged.drop lines.length, (take_append_drop _ _).symm,
    ?_, fun hne => ?_⟩
  · rw [summarise, Allowance.push_eq]
    dsimp only
    rw [String.utf8ByteSize_empty, Nat.add_zero, hlines, hnamed, String.empty_append,
      ← map_drop, length_map]
  · rw [hnamed, ← Allowance.total_eq_size, ← hlines]
    refine Allowance.total_fit_le_of_ne_nil ?_
    rw [hlines]
    rintro rfl
    exact hne (by simp)

/-- A summary fits its budget exactly when the line that counts every path does. -/
theorem summarise_le_iff (hcount : staged.length < 2 ^ 64) :
    (summarise staged budget).utf8ByteSize ≤ budget ↔
      (remainder staged.length).utf8ByteSize ≤ budget := by
  obtain ⟨named, unnamed, hstaged, hsummary, hroom⟩ := summarise_eq staged budget
  have hall := size_remainder_le hcount
  by_cases hnamed : named = []
  · subst hnamed
    rw [hsummary, hstaged]
    simp
  · have hfits := hroom hnamed
    have hrest : unnamed.length < 2 ^ 64 := by
      rw [hstaged, List.length_append] at hcount
      omega
    have hleft := size_remainder_le hrest
    rw [hsummary, String.utf8ByteSize_append]
    constructor <;> intro <;> omega

variable {patches : String}

theorem patchesWithin_eq {found : String} {staged : List FileChange}
    (h : patchesWithin v budget patches staged = .ok (some found)) :
    ∃ rest, allPatches v staged = .ok rest ∧ found = patches ++ rest ∧
      (rest ≠ "" → found.utf8ByteSize ≤ budget) := by
  induction staged generalizing patches with
  | nil =>
    cases h
    exact ⟨"", rfl, String.append_empty.symm, fun h => absurd rfl h⟩
  | cons change staged ih =>
    unfold patchesWithin at h
    unfold allPatches
    cases hpatch : stagedPatch v change with
    | error e => simp [hpatch, bind, Except.bind] at h
    | ok patch =>
      simp only [hpatch, bind, Except.bind] at h ⊢
      cases patch with
      | none =>
        obtain ⟨rest, hrest, hfound, hle⟩ := ih h
        exact ⟨rest, by simp [hrest, pure, Except.pure], hfound, hle⟩
      | some patch =>
        dsimp only at h
        split_ifs at h with hover
        · cases h
        · obtain ⟨rest, hrest, rfl, hle⟩ := ih h
          refine ⟨patch ++ rest, by simp [hrest, pure, Except.pure], String.append_assoc ..,
            fun _ => ?_⟩
          by_cases hnil : rest = ""
          · subst hnil
            simp only [String.append_empty, String.utf8ByteSize_append]
            omega
          · exact hle hnil

variable {rest : String}

theorem patchesWithin_of_le {staged : List FileChange} (hall : allPatches v staged = .ok rest)
    (hle : patches.utf8ByteSize + rest.utf8ByteSize ≤ budget) :
    patchesWithin v budget patches staged = .ok (some (patches ++ rest)) := by
  induction staged generalizing patches rest with
  | nil =>
    cases hall
    simp [patchesWithin]
  | cons change staged ih =>
    unfold allPatches at hall
    unfold patchesWithin
    cases hpatch : stagedPatch v change with
    | error e => simp [hpatch, bind, Except.bind] at hall
    | ok patch =>
      simp only [hpatch, bind, Except.bind] at hall ⊢
      cases hrest : allPatches v staged with
      | error e => simp [hrest] at hall
      | ok others =>
        simp only [hrest, pure, Except.pure, Except.ok.injEq] at hall
        subst hall
        cases patch with
        | none =>
          rw [Option.getD_none, String.empty_append] at hle ⊢
          exact ih hrest hle
        | some patch =>
          rw [Option.getD_some, String.utf8ByteSize_append] at hle
          dsimp only
          rw [if_neg (by omega), ih hrest (by rw [String.utf8ByteSize_append]; omega),
            Option.getD_some, String.append_assoc]

variable {description : Description}

theorem describe_cases (h : describe v staged budget = .ok description) :
    (∃ patches, description = .patches patches ∧ staged.length ≤ describedPathLimit ∧
      allPatches v staged = .ok patches ∧ patches ≠ "" ∧ patches.utf8ByteSize ≤ budget) ∨
    description = .paths (summarise staged budget) ∧ ¬(staged.length ≤ describedPathLimit ∧
      ∃ patches, allPatches v staged = .ok patches ∧ patches ≠ "" ∧
        patches.utf8ByteSize ≤ budget) := by
  unfold describe at h
  by_cases hmany : describedPathLimit < staged.length
  · rw [if_pos hmany] at h
    cases h
    exact .inr ⟨rfl, fun hfew => absurd hfew.1 (Nat.not_le.mpr hmany)⟩
  · rw [if_neg hmany] at h
    cases hwithin : patchesWithin v budget "" staged with
    | error e => simp [hwithin, bind, Except.bind] at h
    | ok found =>
      have hnone : ¬(∃ patches, found = some patches ∧ patches ≠ "") →
          ¬(staged.length ≤ describedPathLimit ∧ ∃ patches, allPatches v staged = .ok patches ∧
            patches ≠ "" ∧ patches.utf8ByteSize ≤ budget) := by
        rintro hnot ⟨-, patches, hall, hne, hle⟩
        have hfound : patchesWithin v budget "" staged = .ok (some ("" ++ patches)) :=
          patchesWithin_of_le hall (by simpa using hle)
        rw [hwithin, String.empty_append] at hfound
        exact hnot ⟨patches, Except.ok.inj hfound, hne⟩
      simp only [hwithin, bind, Except.bind, pure, Except.pure] at h
      cases found with
      | none =>
        cases h
        exact .inr ⟨rfl, hnone (by simp)⟩
      | some patches =>
        dsimp only at h
        split_ifs at h with hempty
        · cases h
          exact .inr ⟨rfl, hnone (by simp [hempty])⟩
        · cases h
          obtain ⟨rest, hall, hrest, hle⟩ := patchesWithin_eq hwithin
          rw [String.empty_append] at hrest
          subst hrest
          exact .inl ⟨patches, rfl, Nat.not_lt.mp hmany, hall, hempty, hle hempty⟩

theorem fits_iff (hcount : q.staged.length < 2 ^ 64)
    (h : describe v q.staged q.budget = .ok description) :
    Fits v q (q.ask description) ↔ Roomy v q := by
  rcases describe_cases h with ⟨patches, rfl, hfew, hall, hempty, hle⟩ | ⟨rfl, hnot⟩
  · have hpos : 0 < patches.utf8ByteSize :=
      Nat.pos_of_ne_zero fun hzero => hempty (String.utf8ByteSize_eq_zero_iff.mp hzero)
    have hsize := size_ask_patches q patches
    unfold Question.budget at hle
    have hfits : instructionsHeadroom + q.size + patches.utf8ByteSize ≤ oneShotPromptLimit := by
      omega
    exact iff_of_true ⟨Nat.le_trans hsize hfits, .inl ⟨patches, hall, rfl⟩⟩
      (.inr ⟨hfew, patches, hall, hempty, hfits⟩)
  · have hsummary := @summarise_le_iff q.staged q.budget hcount
    have hsize := size_ask_paths q (summarise q.staged q.budget)
    constructor
    · intro hfits
      have hwithin := hfits.within
      left
      unfold Question.budget at hsummary hsize hwithin
      omega
    · rintro (hroom | ⟨hfew, patches, hall, hempty, hfits⟩)
      · obtain ⟨named, unnamed, hstaged, hlines, -⟩ := summarise_eq q.staged q.budget
        refine ⟨?_, .inr ⟨named, unnamed, hstaged, by rw [hlines]⟩⟩
        unfold Question.budget at hsummary hsize ⊢
        omega
      · refine absurd ⟨hfew, patches, hall, hempty, ?_⟩ hnot
        unfold Question.budget
        omega

theorem question_of_prompt {intent : Option CommitIntent}
    (h : commitMessagePrompt v intent = .ok text) : ∃ q description,
      question v intent = .ok q ∧ describe v q.staged q.budget = .ok description ∧
        text = q.ask description := by
  unfold commitMessagePrompt at h
  cases hquestion : question v intent with
  | error e => simp [hquestion, bind, Except.bind] at h
  | ok q =>
    cases hdescribe : describe v q.staged q.budget with
    | error e => simp [hquestion, hdescribe, Except.mapError, bind, Except.bind] at h
    | ok description =>
      refine ⟨q, description, rfl, hdescribe, ?_⟩
      simpa [hquestion, hdescribe, Except.mapError, bind, Except.bind, pure, Except.pure]
        using h.symm

/-- The prompt is what it is to be exactly when what surrounds the change leaves it room. -/
theorem commitMessagePrompt_fits_iff {intent : Option CommitIntent}
    (h : commitMessagePrompt v intent = .ok text)
    (hcount : ∀ q, question v intent = .ok q → q.staged.length < 2 ^ 64) :
    ∃ q, question v intent = .ok q ∧ (Fits v q text ↔ Roomy v q) := by
  obtain ⟨q, description, hquestion, hdescribe, rfl⟩ := question_of_prompt h
  exact ⟨q, hquestion, fits_iff (hcount q hquestion) hdescribe⟩

def staging (history : List CommitEntry) : View where
  trusted := .ok true
  status := .ok (some (some "main", [⟨"logo.png", ⟨some .modified, none⟩, none⟩]))
  history := .ok (some history)
  template := .ok none
  diff := fun _ => .ok ⟨true, "", []⟩

def asked (history : List CommitEntry) : Question where
  staged := [⟨"logo.png", ⟨some .modified, none⟩, none⟩]
  form := ownForm
  context := describeBranch (some "main")
  purpose := ""
  voice := voice (some history)
  shape := ""

theorem question_staging (history : List CommitEntry) :
    question (staging history) none = .ok (asked history) := rfl

theorem describe_staging (history : List CommitEntry) : describe (staging history)
    (asked history).staged (asked history).budget =
      .ok (.paths (summarise (asked history).staged (asked history).budget)) := rfl

theorem prompt_staging (history : List CommitEntry) : commitMessagePrompt (staging history) none =
    .ok ((asked history).ask
      (.paths (summarise (asked history).staged (asked history).budget))) := by
  simp only [commitMessagePrompt, question_staging, bind, Except.bind, describe_staging,
    Except.mapError, pure, Except.pure]

theorem commitMessagePrompt_fits_image : ∃ q, question (staging []) none = .ok q ∧
    (Fits (staging []) q ((asked []).ask
      (.paths (summarise (asked []).staged (asked []).budget))) ↔ Roomy (staging []) q) := by
  refine commitMessagePrompt_fits_iff (prompt_staging []) fun q hq => ?_
  obtain rfl : asked [] = q := Except.ok.inj hq
  decide

theorem isAuthored_plain (rest : String) : isAuthored ⟨"x" ++ rest, "Ada", false⟩ = true := by
  have hrevert : revertPrefix.toList = 'R' :: "evert \"".toList := by decide
  have hbot : botSuffix.toList.isSuffixOf "Ada".toList = false := by decide
  have hsubject : ("x" ++ rest).toList = 'x' :: rest.toList := by
    rw [String.toList_append]
    rfl
  rw [isAuthored, hrevert, hbot, hsubject]
  rfl

theorem voice_plain (rest : String) :
    rest.utf8ByteSize < (voice (some [⟨"x" ++ rest, "Ada", false⟩])).utf8ByteSize := by
  have hone : "x".utf8ByteSize = 1 := by decide
  rw [voice, Option.getD_some, filter_cons_of_pos (isAuthored_plain rest), filter_nil]
  simp only [map_cons, map_nil, voiceExamples, take_succ_cons, take_nil,
    String.join_cons, String.utf8ByteSize_append]
  have hsubject : (toString ("x" ++ rest)).utf8ByteSize = 1 + rest.utf8ByteSize := by
    show ("x" ++ rest).utf8ByteSize = _
    rw [String.utf8ByteSize_append, hone]
  rw [hsubject]
  omega

/-- A subject as long as the ceiling leaves no room for anything. -/
theorem not_fits_of_long (h : oneShotPromptLimit ≤ rest.utf8ByteSize) (paths : String) :
    ¬Fits (staging [⟨"x" ++ rest, "Ada", false⟩])
      (asked [⟨"x" ++ rest, "Ada", false⟩])
      ((asked [⟨"x" ++ rest, "Ada", false⟩]).ask (.paths paths)) := by
  intro hfits
  have hwithin := hfits.within
  have hvoice := voice_plain rest
  have hasked : (asked [⟨"x" ++ rest, "Ada", false⟩]).voice =
      voice (some [⟨"x" ++ rest, "Ada", false⟩]) := rfl
  rw [size_ask_paths, Question.size, hasked] at hwithin
  omega

def longText : String := String.join (List.replicate oneShotPromptLimit "x")

theorem size_longText : oneShotPromptLimit ≤ longText.utf8ByteSize := by
  have hone : "x".utf8ByteSize = 1 := by decide
  rw [longText, Allowance.size_replicate, hone, Nat.mul_one]

/-- A recent commit with a long subject makes a prompt past the ceiling. -/
theorem commit_prompt_overflows : ∃ text,
    commitMessagePrompt (staging [⟨"x" ++ longText, "Ada", false⟩]) none = .ok text ∧
      ¬Fits (staging [⟨"x" ++ longText, "Ada", false⟩]) (asked [⟨"x" ++ longText, "Ada", false⟩])
        text :=
  ⟨_, prompt_staging _, not_fits_of_long size_longText _⟩

end CommitPrompt

end Soloist
