import Soloist.Git.Handoff

/-! The prompt that asks for the description of a pull request. -/
open List

namespace Soloist

structure CommitEntry where
  subject : String
  author : String
  merge : Bool

def oneShotPromptLimit : ℕ := 48 * 1024

def skeletonLimit : ℕ := 8 * 1024

/-- The shape to fill: past the ceiling it is dropped whole. -/
def shape (skeleton : String) : Option String :=
  if !isBlank skeleton ∧ skeleton.utf8ByteSize ≤ skeletonLimit then some skeleton else none

namespace PullRequestPrompt

def skeletonInstructions : String := "Write the description for a pull request by filling in the template at the end of this message.

Keep the template's headings, their order, and any checklist it carries exactly as they are, and
replace only the parts meant to be filled in. Leave a section out only if it plainly does not apply.
Reply with the description and nothing else: no preamble, no explanation, no code fence.

"

def plainInstructions : String := "Write the description for a pull request.

Say what it changes and why it changes it, as a few short paragraphs or a short list. Reply with the
description and nothing else: no preamble, no explanation, no code fence.

"

def commitsLabel : String := "Commits on this branch, newest first:\n"

def skeletonLabel : String := "Template to fill in:\n"

def instructionsHeadroom : ℕ :=
  max (skeletonInstructions.utf8ByteSize + skeletonLabel.utf8ByteSize)
    plainInstructions.utf8ByteSize + commitsLabel.utf8ByteSize

/-- A branch and what it proposes, newest first. -/
structure Proposed where
  head : String
  commits : List CommitEntry

/-- What the repository and the trust store answer. -/
structure View where
  trusted : Except StoreError Bool
  branch : Except GitError (Option String)
  history : Except GitError (Option (List CommitEntry))

def usableBranchName (name : String) : Bool := !isBlank name && name.toList.head? ≠ some '-'

def proposed (v : View) (base : String) : Except PullRequestError Proposed := do
  if !usableBranchName base then throw .unusableBranchName
  match ← v.branch.mapError .git with
  | none => throw .detachedHead
  | some head =>
    match (← v.history.mapError .git).getD [] with
    | [] => throw .nothingToDescribe
    | commits => return ⟨head, commits⟩

def commitLine (commit : CommitEntry) : String := s!"- {commit.subject}\n"

def commitLines (commits : List CommitEntry) (budget : ℕ) : String :=
  (Allowance.push 0 budget "" (commits.map commitLine)).1

def context (head base : String) : String := s!"Merging branch {head} into {base}.\n\n"

def budget (head base skeleton : String) : ℕ :=
  oneShotPromptLimit - (instructionsHeadroom + (context head base).utf8ByteSize +
    skeleton.utf8ByteSize)

def layout (head base commits : String) : Option String → String
  | some skeleton => skeletonInstructions ++ context head base ++ commitsLabel ++ commits ++ "\n" ++
      skeletonLabel ++ skeleton
  | none => plainInstructions ++ context head base ++ commitsLabel ++ commits

def compose (p : Proposed) (base skeleton : String) : String :=
  layout p.head base (commitLines p.commits (budget p.head base skeleton)) (shape skeleton)

end PullRequestPrompt

open PullRequestPrompt in
def pullRequestPrompt (v : View) (base skeleton : String) : Except PullRequestError String := do
  if !(← v.trusted.mapError .store) then throw .untrusted
  return compose (← proposed v base) base skeleton

namespace PullRequestPrompt
variable {p : Proposed} {base skeleton text : String}

def listing (commits : List CommitEntry) : String := String.join (commits.map commitLine)

/-- What the prompt is to be: within the ceiling, the template whole or absent, the newest commits
listed; and a template that is too long leaves them the room they have without one. -/
structure Fits (p : Proposed) (base skeleton text : String) : Prop where
  within : text.utf8ByteSize ≤ oneShotPromptLimit
  laid : ∃ commits, commits <+: p.commits ∧
    text = layout p.head base (listing commits) (shape skeleton)
  roomy : skeletonLimit < skeleton.utf8ByteSize → text = compose p base ""

/-- The fixed text, the names and a number of commits. -/
def taken (p : Proposed) (base : String) (commits : List CommitEntry) : ℕ :=
  instructionsHeadroom + (context p.head base).utf8ByteSize + (listing commits).utf8ByteSize

/-- A template that is filled in leaves a byte beside the commits that could be listed, and one that
is dropped leaves room for every commit there would be room for without it. -/
structure Roomy (p : Proposed) (base skeleton : String) : Prop where
  filled : (shape skeleton).isSome → taken p base [] + skeleton.utf8ByteSize < oneShotPromptLimit ∧
    ∀ commits, commits <+: p.commits →
      taken p base commits + skeleton.utf8ByteSize ≠ oneShotPromptLimit
  dropped : skeletonLimit < skeleton.utf8ByteSize → ∀ commits, commits <+: p.commits →
    commits ≠ [] → taken p base commits ≤ oneShotPromptLimit →
      taken p base commits + skeleton.utf8ByteSize ≤ oneShotPromptLimit

def lineSize (commit : CommitEntry) : ℕ := (commitLine commit).utf8ByteSize

def listed (commits : List CommitEntry) (budget : ℕ) : List CommitEntry :=
  Allowance.fit lineSize budget 0 commits

theorem total_lineSize (commits : List CommitEntry) :
    Allowance.total lineSize commits = (listing commits).utf8ByteSize := by
  rw [listing, ← Allowance.total_eq_size, Allowance.total, Allowance.total, map_map]
  rfl

theorem fit_commitLine (commits : List CommitEntry) (budget used : ℕ) :
    Allowance.fit String.utf8ByteSize budget used (commits.map commitLine) =
      (Allowance.fit lineSize budget used commits).map commitLine := by
  induction commits generalizing used with
  | nil => rfl
  | cons commit commits ih =>
    have hsize : (commitLine commit).utf8ByteSize = lineSize commit := rfl
    rw [map_cons, Allowance.fit, Allowance.fit, hsize, ih]
    split_ifs <;> rfl

theorem commitLines_eq (commits : List CommitEntry) (budget : ℕ) :
    commitLines commits budget = listing (listed commits budget) := by
  rw [commitLines, Allowance.push_eq]
  dsimp only
  rw [fit_commitLine, String.empty_append]
  rfl

theorem listed_size_le (commits : List CommitEntry) (budget : ℕ) :
    (listing (listed commits budget)).utf8ByteSize ≤ budget := by
  have hfits : 0 + Allowance.total lineSize (listed commits budget) ≤ budget :=
    Allowance.total_fit_le (Nat.zero_le budget)
  rwa [Nat.zero_add, total_lineSize] at hfits

set_option maxRecDepth 10000 in
theorem size_skeletonInstructions : skeletonInstructions.utf8ByteSize = 385 :=
  (Allowance.size_ofList _).trans (by decide)

set_option maxRecDepth 10000 in
theorem size_plainInstructions : plainInstructions.utf8ByteSize = 219 :=
  (Allowance.size_ofList _).trans (by decide)

theorem size_labels :
    commitsLabel.utf8ByteSize = 38 ∧ skeletonLabel.utf8ByteSize = 21 := by
  decide

theorem instructionsHeadroom_eq : instructionsHeadroom = 444 := by
  -- a variable in the term keeps the kernel from counting the bytes of the literals itself
  have hunfold : ∀ n : ℕ, instructionsHeadroom =
      max (skeletonInstructions.utf8ByteSize + skeletonLabel.utf8ByteSize)
        plainInstructions.utf8ByteSize + (fun _ : ℕ => commitsLabel.utf8ByteSize) n := fun _ => rfl
  rw [hunfold 0, size_skeletonInstructions, size_plainInstructions, size_labels.1, size_labels.2]
  rfl

theorem size_layout_filled (head commits : String) :
    (layout head base commits (some skeleton)).utf8ByteSize =
      instructionsHeadroom + (context head base).utf8ByteSize + commits.utf8ByteSize + 1 +
        skeleton.utf8ByteSize := by
  have hnewline : "\n".utf8ByteSize = 1 := rfl
  rw [instructionsHeadroom_eq, layout]
  simp only [String.utf8ByteSize_append, size_skeletonInstructions, size_labels, hnewline]
  omega

theorem size_layout_plain (head commits : String) :
    (layout head base commits none).utf8ByteSize ≤
      instructionsHeadroom + (context head base).utf8ByteSize + commits.utf8ByteSize := by
  rw [instructionsHeadroom_eq, layout]
  simp only [String.utf8ByteSize_append, size_plainInstructions, size_labels]
  omega

theorem commitLine_pos (commit : CommitEntry) : 0 < lineSize commit := by
  have hnewline : (toString "\n").utf8ByteSize = 1 := rfl
  unfold lineSize commitLine
  rw [String.utf8ByteSize_append, hnewline]
  omega

theorem listing_pos {commits : List CommitEntry} (h : commits ≠ []) :
    0 < (listing commits).utf8ByteSize := by
  cases commits with
  | nil => exact absurd rfl h
  | cons commit commits =>
    have hpos := commitLine_pos commit
    rw [← total_lineSize, Allowance.total_cons]
    omega

/-- A filled template fits exactly when the listed commits leave a byte of their room. -/
theorem filled_within_iff (hshape : shape skeleton = some skeleton) :
    (compose p base skeleton).utf8ByteSize ≤ oneShotPromptLimit ↔
      taken p base [] + skeleton.utf8ByteSize < oneShotPromptLimit ∧
        ∀ commits, commits <+: p.commits →
          taken p base commits + skeleton.utf8ByteSize ≠ oneShotPromptLimit := by
  have hfills := @Allowance.total_fit_eq_iff _ lineSize (budget p.head base skeleton) 0 p.commits
    (Nat.zero_le _)
  have hle := listed_size_le p.commits (budget p.head base skeleton)
  have hempty : (listing []).utf8ByteSize = 0 := rfl
  simp only [Nat.zero_add, total_lineSize] at hfills
  change (listing (listed p.commits _)).utf8ByteSize = _ ↔ _ at hfills
  rw [compose, hshape, size_layout_filled, commitLines_eq]
  unfold taken
  rw [hempty]
  unfold budget at hfills hle ⊢
  constructor
  · intro h
    refine ⟨by omega, fun commits hcommits hsum => ?_⟩
    have hfull := hfills.mpr ⟨commits, hcommits, by omega⟩
    clear hfills
    omega
  · rintro ⟨hroom, hnone⟩
    have hne : (listing (listed p.commits (oneShotPromptLimit - (instructionsHeadroom +
        (context p.head base).utf8ByteSize + skeleton.utf8ByteSize)))).utf8ByteSize ≠
        oneShotPromptLimit - (instructionsHeadroom + (context p.head base).utf8ByteSize +
          skeleton.utf8ByteSize) := by
      intro hfull
      have hstart := hfills.mp hfull
      clear hfills
      obtain ⟨commits, hcommits, hsum⟩ := hstart
      exact hnone commits hcommits (by omega)
    clear hfills hnone
    omega

theorem plain_within (hshape : shape skeleton = none)
    (hnames : taken p base [] ≤ oneShotPromptLimit) :
    (compose p base skeleton).utf8ByteSize ≤ oneShotPromptLimit := by
  have hle := listed_size_le p.commits (budget p.head base skeleton)
  have hempty : (listing []).utf8ByteSize = 0 := rfl
  have hsize := @size_layout_plain base p.head
    (listing (listed p.commits (budget p.head base skeleton)))
  rw [compose, hshape, commitLines_eq]
  unfold taken at hnames
  rw [hempty] at hnames
  unfold budget at hle hsize ⊢
  omega

theorem listing_inj {commits others : List CommitEntry} (hcommits : commits <+: p.commits)
    (hothers : others <+: p.commits) (h : listing commits = listing others) : commits = others := by
  have hsize : ∀ shorter longer : List CommitEntry, shorter <+: longer →
      (listing shorter).utf8ByteSize = (listing longer).utf8ByteSize → shorter = longer := by
    rintro shorter _ ⟨rest, rfl⟩ heq
    cases rest with
    | nil => exact (append_nil shorter).symm
    | cons commit rest =>
      have hpos := commitLine_pos commit
      rw [← total_lineSize, ← total_lineSize] at heq
      simp only [Allowance.total, map_append, sum_append, map_cons,
        sum_cons] at heq
      omega
  rcases prefix_or_prefix_of_prefix hcommits hothers with hprefix | hprefix
  · exact hsize commits others hprefix (congrArg String.utf8ByteSize h)
  · exact (hsize others commits hprefix (congrArg String.utf8ByteSize h.symm)).symm

theorem dropped_iff (hlong : skeletonLimit < skeleton.utf8ByteSize) :
    compose p base skeleton = compose p base "" ↔ ∀ commits, commits <+: p.commits →
      commits ≠ [] → taken p base commits ≤ oneShotPromptLimit →
        taken p base commits + skeleton.utf8ByteSize ≤ oneShotPromptLimit := by
  have hshape : shape skeleton = none := by
    unfold shape
    rw [if_neg fun h => absurd h.2 (Nat.not_le.mpr hlong)]
  have hnone : shape "" = none := by decide
  have hsize : "".utf8ByteSize = 0 := rfl
  have hle : budget p.head base skeleton ≤ budget p.head base "" := by
    unfold budget
    omega
  have hfit := @Allowance.fit_eq_fit_iff _ lineSize _ _ 0 p.commits (Nat.zero_le _) hle
  simp only [Nat.zero_add, total_lineSize] at hfit
  have hsame : compose p base skeleton = compose p base "" ↔
      listed p.commits (budget p.head base skeleton) = listed p.commits (budget p.head base "") := by
    rw [compose, compose, hshape, hnone, commitLines_eq, commitLines_eq]
    constructor
    · intro h
      refine listing_inj Allowance.fit_prefix Allowance.fit_prefix ?_
      exact String.append_right_inj _ |>.mp h
    · exact fun h => by rw [h]
  refine hsame.trans (hfit.trans ⟨fun h commits hcommits hne htaken => ?_,
    fun h commits hcommits hbudget => ?_⟩)
  · have hpos := listing_pos hne
    have hsmaller := h commits hcommits (by unfold budget taken at *; omega)
    unfold budget taken at *
    omega
  · by_cases hne : commits = []
    · rw [hne]
      exact Nat.zero_le _
    · have hpos := listing_pos hne
      have htaken := h commits hcommits hne (by unfold budget taken at *; omega)
      unfold budget taken at *
      omega

theorem shape_eq_some {whole : String} (h : shape skeleton = some whole) : whole = skeleton := by
  unfold shape at h
  split_ifs at h
  exact (Option.some.inj h).symm

theorem fits_compose_iff (hnames : taken p base [] ≤ oneShotPromptLimit) :
    Fits p base skeleton (compose p base skeleton) ↔ Roomy p base skeleton := by
  have hlaid : ∃ commits, commits <+: p.commits ∧
      compose p base skeleton = layout p.head base (listing commits) (shape skeleton) :=
    ⟨_, Allowance.fit_prefix, by rw [compose, commitLines_eq]; rfl⟩
  constructor
  · intro h
    refine ⟨fun hsome => ?_, fun hlong => (dropped_iff hlong).mp (h.roomy hlong)⟩
    obtain ⟨whole, hwhole⟩ := Option.isSome_iff_exists.mp hsome
    exact (filled_within_iff (shape_eq_some hwhole ▸ hwhole)).mp h.within
  · intro h
    refine ⟨?_, hlaid, fun hlong => (dropped_iff hlong).mpr (h.dropped hlong)⟩
    cases hshape : shape skeleton with
    | none => exact plain_within hshape hnames
    | some whole =>
      exact (filled_within_iff (shape_eq_some hshape ▸ hshape)).mpr
        (h.filled (by rw [hshape]; rfl))

theorem proposed_of_pullRequestPrompt {v : View} (h : pullRequestPrompt v base skeleton = .ok text) :
    ∃ p, proposed v base = .ok p ∧ text = compose p base skeleton := by
  unfold pullRequestPrompt at h
  cases htrusted : v.trusted with
  | error e => simp [htrusted, Except.mapError, bind, Except.bind] at h
  | ok trusted =>
    cases trusted with
    | false => simp [htrusted, Except.mapError, bind, Except.bind, throw, throwThe,
        MonadExceptOf.throw] at h
    | true =>
      cases hproposed : proposed v base with
      | error e => simp [htrusted, hproposed, Except.mapError, bind, Except.bind] at h
      | ok p =>
        refine ⟨p, rfl, ?_⟩
        simpa [htrusted, hproposed, Except.mapError, bind, Except.bind, pure, Except.pure]
          using h.symm

/-- The prompt is what it is to be exactly when its template leaves the commits their room. -/
theorem prompt_fits_iff {v : View} (h : pullRequestPrompt v base skeleton = .ok text)
    (hnames : ∀ p, proposed v base = .ok p → taken p base [] ≤ oneShotPromptLimit) :
    ∃ p, proposed v base = .ok p ∧ (Fits p base skeleton text ↔ Roomy p base skeleton) := by
  obtain ⟨p, hproposed, rfl⟩ := proposed_of_pullRequestPrompt h
  exact ⟨p, hproposed, fits_compose_iff (hnames p hproposed)⟩

def proposing (subject : String) : View where
  trusted := .ok true
  branch := .ok (some "fix")
  history := .ok (some [⟨subject, "Ada", false⟩])

theorem prompt_proposing (subject skeleton : String) :
    pullRequestPrompt (proposing subject) "main" skeleton =
      .ok (compose ⟨"fix", [⟨subject, "Ada", false⟩]⟩ "main" skeleton) := rfl

theorem prompt_fits_plain : ∃ p, proposed (proposing "Fix the leak") "main" = .ok p ∧
    (Fits p "main" "## What" (compose ⟨"fix", [⟨"Fix the leak", "Ada", false⟩]⟩ "main" "## What") ↔
      Roomy p "main" "## What") := by
  refine prompt_fits_iff (prompt_proposing "Fix the leak" "## What") ?_
  intro p hp
  obtain rfl : ⟨"fix", [⟨"Fix the leak", "Ada", false⟩]⟩ = p := Except.ok.inj hp
  rw [taken, instructionsHeadroom_eq]
  decide +kernel

theorem not_fits_of_filling {subject : String}
    (h : taken ⟨"fix", []⟩ "main" [] + 10 + subject.utf8ByteSize = oneShotPromptLimit) :
    ¬Fits ⟨"fix", [⟨subject, "Ada", false⟩]⟩ "main" "## What"
      (compose ⟨"fix", [⟨subject, "Ada", false⟩]⟩ "main" "## What") := by
  have hempty : (listing []).utf8ByteSize = 0 := rfl
  have hlisting : (listing [⟨subject, "Ada", false⟩]).utf8ByteSize =
      2 + subject.utf8ByteSize + 1 := by
    rw [← total_lineSize, Allowance.total_cons, Allowance.total_nil, lineSize, commitLine,
      String.utf8ByteSize_append, String.utf8ByteSize_append]
    rfl
  have hskeleton : "## What".utf8ByteSize = 7 := by decide
  rw [taken, hempty, instructionsHeadroom_eq] at h
  dsimp only at h
  have hnames : taken ⟨"fix", [⟨subject, "Ada", false⟩]⟩ "main" [] ≤ oneShotPromptLimit := by
    rw [taken, hempty, instructionsHeadroom_eq]
    dsimp only
    omega
  rw [fits_compose_iff hnames]
  intro hroomy
  refine (hroomy.filled (by decide)).2 _ prefix_rfl ?_
  rw [taken, hlisting, hskeleton, instructionsHeadroom_eq]
  dsimp only
  omega

/-- A subject that fills what the names and the template leave of the ceiling. -/
def fillingSubject : String :=
  String.join (List.replicate (oneShotPromptLimit - (taken ⟨"fix", []⟩ "main" [] + 10)) "x")

theorem size_fillingSubject :
    taken ⟨"fix", []⟩ "main" [] + 10 + fillingSubject.utf8ByteSize = oneShotPromptLimit := by
  have hroom : taken ⟨"fix", []⟩ "main" [] + 10 ≤ oneShotPromptLimit := by
    rw [taken, instructionsHeadroom_eq]
    decide
  have hone : "x".utf8ByteSize = 1 := by decide
  rw [fillingSubject, Allowance.size_replicate, hone, Nat.mul_one]
  exact Nat.add_sub_cancel' hroom

theorem prompt_overflows : ∃ text,
    pullRequestPrompt (proposing fillingSubject) "main" "## What" = .ok text ∧
      ¬Fits ⟨"fix", [⟨fillingSubject, "Ada", false⟩]⟩ "main" "## What" text :=
  ⟨_, prompt_proposing fillingSubject "## What", not_fits_of_filling size_fillingSubject⟩

end PullRequestPrompt

end Soloist
