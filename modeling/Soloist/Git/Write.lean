import Mathlib.Data.List.Nodup
import Soloist.Git.HunkPatch

/-! The invocations that change a working tree. A hunk is handed back over standard input, and only
where its patch could be built. -/
namespace Soloist

inductive GitError
  | notARepo | gitMissing | authFailed | conflict | timeout | stopped | hunkGone
  | refused (output : String)
  | op (status : Option ℤ)
  deriving DecidableEq, Repr

/-- One run of git: its arguments, and what it reads from standard input. -/
structure GitRun where
  args : List String
  input : Option String
  deriving DecidableEq, Repr

def GitRun.stdin (r : GitRun) : Bytes := r.input.elim [] bytesOf

/-- `PATHS`. -/
def pathsMark : String := "--"

/-- Which copy of a file a hunk is applied to, and which way round. -/
inductive Apply
  | stage | unstage | discard
  deriving DecidableEq, Repr

def Apply.args : Apply → List String
  | .stage => ["apply", "--cached"]
  | .unstage => ["apply", "--cached", "--reverse"]
  | .discard => ["apply", "--reverse"]

namespace GitWrite

def applyHunk (diff : RawFileDiff) (hunk : HunkRange) (apply : Apply) : Except GitError GitRun :=
  match oneHunk diff hunk with
  | none => .error .hunkGone
  | some patch => .ok ⟨apply.args, some patch⟩

/-- One whole-path run: a renamed path is named by both of its names. -/
def run (command : List String) (path : String) (originalPath : Option String) : GitRun :=
  ⟨command ++ path :: originalPath.toList, none⟩

def stage (path : String) (originalPath : Option String) : GitRun :=
  run ["add", pathsMark] path originalPath

def unstage (path : String) (originalPath : Option String) : GitRun :=
  run ["restore", "--staged", pathsMark] path originalPath

def discard (path : String) : GitRun := run ["restore", pathsMark] path none

theorem applyHunk_eq_ok {diff : RawFileDiff} {hunk : HunkRange} {apply : Apply} {r : GitRun} :
    applyHunk diff hunk apply = .ok r ↔
      ∃ patch, oneHunk diff hunk = some patch ∧ r = ⟨apply.args, some patch⟩ := by
  unfold applyHunk
  cases hpatch : oneHunk diff hunk with
  | none => simp
  | some patch => simp [eq_comm]

end GitWrite

def FileBlock.output (f : FileBlock) (records : List RecordLine) : DiffOutput := ⟨records, [f]⟩

namespace FileBlock
variable {f : FileBlock} {h : HunkBlock} {records : List RecordLine}

def Faithful (f : FileBlock) (records : List RecordLine) (h : HunkBlock) : Prop :=
  ∀ apply r, GitWrite.applyHunk (DiffParse.parse (f.output records).bytes) h.range apply = .ok r →
    r.args = apply.args ∧ r.stdin = (f.header ++ h.lines).flatten

/-- Where a hunk of the file is read at the range of `h`, the first to be so stands alone: the first
hunk of the file and the one after it, if any, are read too. It reads as `h`, and the header and `h`
are text. -/
def Carries (f : FileBlock) (h : HunkBlock) : Prop :=
  ∀ earlier k later, f.hunks = earlier ++ k :: later → k.Readable → k.range = h.range →
    (∀ e ∈ earlier, e.Readable → e.range ≠ h.range) →
    (∀ e ∈ earlier.head?, e.Readable) ∧ (∀ n ∈ later.head?, n.Readable) ∧
      reads k.lines = reads h.lines ∧
      Utf8.Valid (f.header ++ h.lines).flatten

theorem faithful_iff : f.Faithful records h ↔
    oneHunk (DiffParse.parse (f.output records).bytes) h.range = none ∨
      (f.output records).PatchExact f h := by
  unfold Faithful DiffOutput.PatchExact
  cases hpatch : oneHunk (DiffParse.parse (f.output records).bytes) h.range with
  | none => simp [GitWrite.applyHunk_eq_ok, hpatch]
  | some patch =>
    rw [Option.map_some, Option.some_inj]
    constructor
    · intro hfaithful
      exact .inr (hfaithful .stage _ (GitWrite.applyHunk_eq_ok.mpr ⟨patch, hpatch, rfl⟩)).2
    · rintro (hnone | hbytes) apply r hrun
      · cases hnone
      · obtain ⟨patch', hpatch', rfl⟩ := GitWrite.applyHunk_eq_ok.mp hrun
        obtain rfl := Option.some.inj (hpatch.symm.trans hpatch')
        exact ⟨rfl, hbytes⟩

theorem place_file (p : (f.output records).Place) : p.before = [] ∧ p.file = f ∧ p.after = [] := by
  have hfiles : [f] = p.before ++ p.file :: p.after := p.files
  cases hbefore : p.before with
  | nil =>
    rw [hbefore, List.nil_append, List.cons.injEq] at hfiles
    exact ⟨rfl, hfiles.1.symm, hfiles.2.symm⟩
  | cons b before =>
    rw [hbefore, List.cons_append, List.cons.injEq] at hfiles
    have hlength := congrArg List.length hfiles.2
    simp at hlength

theorem under_iff (p : (f.output records).Place) :
    p.Under f ↔ ∀ e ∈ p.earlier.head?, e.Readable := by
  obtain ⟨hbefore, hfile, -⟩ := place_file p
  have hhunks := p.hunks
  unfold DiffOutput.Place.Under
  rw [hbefore, hfile]
  rw [hfile] at hhunks
  have hhead : (f.output records).files.head? = some f := rfl
  rw [hhead]
  cases hearlier : p.earlier with
  | nil => simp
  | cons e earlier =>
    rw [hearlier] at hhunks
    simp [hhunks]
    intro hreadable
    exact .inl hreadable

theorem endsAlone_iff (p : (f.output records).Place) :
    p.EndsAlone ↔ ∀ n ∈ p.later.head?, n.Readable := by
  obtain ⟨-, -, hafter⟩ := place_file p
  unfold DiffOutput.Place.EndsAlone DiffOutput.Place.behind
  rw [hafter]
  cases p.later with
  | nil => simp
  | cons n later =>
    simp
    intro hreadable
    exact .inl hreadable

theorem first_iff (p : (f.output records).Place) (range : HunkRange) :
    p.First range ↔ (p.hunk.Readable ∧ p.hunk.range = range) ∧
      ∀ e ∈ p.earlier, e.Readable → e.range ≠ range := by
  unfold DiffOutput.Place.First DiffOutput.Place.ahead
  rw [(place_file p).1, List.flatMap_nil, List.nil_append]

theorem eq_of_first_place {p : (f.output records).Place} {range : HunkRange} (hp : p.First range)
    {earlier later : List HunkBlock} {k : HunkBlock} (hhunks : f.hunks = earlier ++ k :: later)
    (hk : k.Readable ∧ k.range = range) (hfirst : ∀ e ∈ earlier, e.Readable → e.range ≠ range) :
    p.earlier = earlier ∧ p.hunk = k ∧ p.later = later := by
  obtain ⟨hhunk, hbefore⟩ := (first_iff p range).mp hp
  have hsame : p.earlier ++ p.hunk :: p.later = earlier ++ k :: later := by
    rw [← hhunks, ← p.hunks, (place_file p).2.1]
  have hnone : ∀ {ks : List HunkBlock}, (∀ e ∈ ks, e.Readable → e.range ≠ range) →
      ∀ e ∈ ks, ¬(e.Readable ∧ e.range = range) :=
    fun h e he hboth => h e he hboth.1 hboth.2
  exact eq_of_first hsame (hnone hbefore) hhunk (hnone hfirst) hk

/-- What a hunk operation on one file hands to git is faithful exactly where the file carries the
hunk. -/
theorem hunk_bytes_faithful_iff (f : FileBlock) (records : List RecordLine) (h : HunkBlock) :
    f.Faithful records h ↔ f.Carries h := by
  rw [faithful_iff, hunk_patch_exact_iff]
  constructor
  · intro hfaithful earlier k later hhunks hreadable hrange hfirst
    let p : (f.output records).Place := ⟨[], f, [], earlier, k, later, rfl, hhunks⟩
    have hp : p.First h.range := (first_iff p _).mpr ⟨⟨hreadable, hrange⟩, hfirst⟩
    obtain hnone | ⟨⟨q, hq, hunder, hends, hlines⟩, hvalid⟩ := hfaithful
    · rw [hp.oneHunk] at hnone
      cases hnone
    · obtain ⟨hearlier, hhunk, hlater⟩ := eq_of_first_place hq hhunks ⟨hreadable, hrange⟩ hfirst
      rw [under_iff, hearlier] at hunder
      rw [endsAlone_iff, hlater] at hends
      rw [hhunk] at hlines
      exact ⟨hunder, hends, hlines, hvalid⟩
  · intro hcarries
    by_cases hfound : oneHunk (DiffParse.parse (f.output records).bytes) h.range = none
    · exact .inl hfound
    · obtain ⟨p, hp⟩ := DiffOutput.Place.exists_first hfound
      obtain ⟨⟨hreadable, hrange⟩, hfirst⟩ := (first_iff p _).mp hp
      have hhunks : f.hunks = p.earlier ++ p.hunk :: p.later := by
        rw [← p.hunks, (place_file p).2.1]
      obtain ⟨hunder, hends, hlines, hvalid⟩ :=
        hcarries _ _ _ hhunks hreadable hrange hfirst
      exact .inr ⟨⟨p, hp, (under_iff p).mpr hunder, (endsAlone_iff p).mpr hends, hlines⟩, hvalid⟩

def latinHunk : HunkBlock :=
  ⟨⟨1, none⟩, ⟨1, some 2⟩, emptyLine,
    [⟨⟨bytesOf "+caf" ++ [0xE9], by decide⟩, by decide, by decide⟩]⟩

theorem newline_notMem_latinNames : newline ∉ bytesOf "a/a.txt b/a.txt" := by decide

def latinFile : FileBlock := ⟨⟨bytesOf "a/a.txt b/a.txt", newline_notMem_latinNames⟩, [], [latinHunk]⟩

theorem latin_line_replaced : ∃ h ∈ latinFile.hunks, ¬latinFile.Faithful [] h := by
  refine ⟨latinHunk, List.mem_singleton_self _, ?_⟩
  rw [faithful_iff]
  unfold DiffOutput.PatchExact
  decide

end FileBlock

end Soloist
