import Mathlib.Algebra.Group.Nat.Defs
import Soloist.TextLines
import Soloist.Sections
import Soloist.Text
import Soloist.Utf8

/-! Turning the output of a diff into its header and its hunks. The patch is split where its hunks
begin; a segment without a range is folded into the hunk after it. -/
open List Option

namespace Soloist

def newline : UInt8 := 10

/-- `HUNK`. -/
def hunkMark : String := "@@ "

/-- `FILE`. -/
def fileMark : String := "diff --git "

def oldSide : Char := '-'

def newSide : Char := '+'

def impliedCount : ℕ := 1

structure HunkRange where
  oldStart : ℕ
  oldLines : ℕ
  newStart : ℕ
  newLines : ℕ
  deriving DecidableEq, Repr

structure RawHunk where
  range : HunkRange
  text : String
  deriving DecidableEq, Repr

structure RawFileDiff where
  binary : Bool
  /-- Everything before the first hunk. -/
  header : String
  hunks : List RawHunk
  deriving DecidableEq, Repr

def bytesOf (s : String) : Bytes := Utf8.encode s.toList

theorem ascii_of_all {s : String} (h : s.toList.all (fun c => decide (c.toNat < 128)) = true) :
    ∀ c ∈ s.toList, c.toNat < 128 :=
  fun c hc => of_decide_eq_true (List.all_eq_true.mp h c hc)

theorem ascii_fileMark : ∀ c ∈ fileMark.toList, c.toNat < 128 := ascii_of_all (by decide)

theorem ascii_hunkMark : ∀ c ∈ hunkMark.toList, c.toNat < 128 := ascii_of_all (by decide)

namespace DiffParse

def text (bytes : Bytes) : String := String.ofList (Utf8.lossy bytes)

/-- `str::parse` of an unsigned number below a limit. -/
def parseUnsigned (limit : ℕ) (field : List Char) : Option ℕ :=
  let digits := (field.dropPrefix? ['+']).getD field
  if digits ≠ [] ∧ digits.all Char.isDigit then
    let n := Nat.ofDigitChars 10 digits 0
    if n < limit then some n else none
  else none

/-- `str::parse` of a `u32`. -/
def parseU32 : List Char → Option ℕ := parseUnsigned (2 ^ 32)

/-- One side of a range: `-12,3`, or `+12` for a side of a single line. -/
def side (field : List Char) (marker : Char) : Option (ℕ × ℕ) := do
  let rest ← field.dropPrefix? [marker]
  match rest.splitOn ',' with
  | [] => none
  | [start] => return (← parseU32 start, impliedCount)
  | start :: lines :: _ => return (← parseU32 start, ← parseU32 lines)

/-- Where a hunk falls on each side, from its `@@ -old[,count] +new[,count] @@` line. -/
def hunkRange (line : Bytes) : Option HunkRange := do
  let line ← Utf8.decode? line
  let rest ← line.dropPrefix? hunkMark.toList
  match rest.splitOn ' ' with
  | old :: new :: _ =>
    let (oldStart, oldLines) ← side old oldSide
    let (newStart, newLines) ← side new newSide
    return ⟨oldStart, oldLines, newStart, newLines⟩
  | _ => none

/-- Whether both counts of a counted record are a dash. -/
def isBinaryRecord (record : Bytes) : Bool :=
  match record.splitOn 9 with
  | added :: deleted :: _ => added == bytesOf "-" && deleted == bytesOf "-"
  | _ => false

def opensFile (line : Bytes) : Bool := (bytesOf fileMark).isPrefixOf line

def opensHunk (line : Bytes) : Bool := (bytesOf hunkMark).isPrefixOf line

def lineRange (line : Bytes) : Option HunkRange := if opensHunk line then hunkRange line else none

/-- The loop of `parse` between two lines. -/
structure DiffScan where
  binary : Bool
  header : Bytes
  /-- The segments, with the range of those that are hunks. -/
  hunks : List (Option HunkRange × Bytes)
  inPatch : Bool

namespace DiffScan

def empty : DiffScan := ⟨false, [], [], false⟩

def patchLine (s : DiffScan) (line : Bytes) : DiffScan :=
  let range := lineRange line
  let opensSegment := range.isSome || (opensFile line && !s.hunks.isEmpty)
  match s.hunks.getLast? with
  | some (r, hunk) =>
    if opensSegment then { s with hunks := s.hunks ++ [(range, line)] }
    else { s with hunks := s.hunks.dropLast ++ [(r, hunk ++ line)] }
  | none =>
    if opensSegment then { s with hunks := s.hunks ++ [(range, line)] }
    else { s with header := s.header ++ line }

def line (s : DiffScan) (line : Bytes) : DiffScan :=
  if s.inPatch || opensFile line then { s with inPatch := true }.patchLine line
  else { s with binary := s.binary || isBinaryRecord line }

end DiffScan

/-- One segment of `joined`: a hunk takes what is pending, and another segment waits. -/
def joinSegment (s : List RawHunk × Bytes) (segment : Option HunkRange × Bytes) :
    List RawHunk × Bytes :=
  let pending := s.2 ++ segment.2
  match segment.1 with
  | some range => (s.1 ++ [⟨range, text pending⟩], [])
  | none => (s.1, pending)

def joined (segments : List (Option HunkRange × Bytes)) : List RawHunk :=
  let (hunks, pending) := segments.foldl joinSegment ([], [])
  match hunks.getLast? with
  | some hunk => hunks.dropLast ++ [{ hunk with text := hunk.text ++ text pending }]
  | none => hunks

def parse (output : Bytes) : RawFileDiff :=
  let s := (Lines.splitInclusive newline output).foldl DiffScan.line .empty
  ⟨s.binary, text s.header, joined s.hunks⟩

end DiffParse

example : DiffParse.hunkRange (bytesOf "@@ -1,3 +2 @@ fn main\n") = some ⟨1, 3, 2, 1⟩ := by decide

end Soloist

/-! What a diff prints: counted records, then the blocks of the files, each a header and its hunks.
A hunk's `@@` line states its range and carries a heading. -/
namespace Soloist

structure DiffLine where
  text : Bytes
  single : newline ∉ text

def DiffLine.bytes (l : DiffLine) : Bytes := l.text ++ [newline]

/-- A line of a header or of a hunk's content: it opens neither a file's block nor a hunk. -/
structure PlainLine extends DiffLine where
  inFile : DiffParse.opensFile toDiffLine.bytes = false
  inHunk : DiffParse.opensHunk toDiffLine.bytes = false

structure RecordLine extends DiffLine where
  counted : DiffParse.opensFile toDiffLine.bytes = false

/-- One side of a range, as printed: without a count it is of a single line. -/
structure HunkSide where
  start : ℕ
  lines : Option ℕ
  deriving DecidableEq, Repr

structure HunkBlock where
  old : HunkSide
  new : HunkSide
  /-- The rest of the `@@` line. -/
  heading : DiffLine
  content : List PlainLine

structure FileBlock where
  /-- The rest of the line that opens the block. -/
  names : DiffLine
  info : List PlainLine
  hunks : List HunkBlock

structure DiffOutput where
  records : List RecordLine
  files : List FileBlock

namespace HunkSide

def chars (s : HunkSide) : List Char :=
  Nat.toDigits 10 s.start ++ s.lines.elim [] fun lines => ',' :: Nat.toDigits 10 lines

def stated (s : HunkSide) : ℕ × ℕ := (s.start, s.lines.getD impliedCount)

def Fits (s : HunkSide) : Prop := s.stated.1 < 2 ^ 32 ∧ s.stated.2 < 2 ^ 32

instance (s : HunkSide) : Decidable s.Fits :=
  inferInstanceAs (Decidable (s.stated.1 < 2 ^ 32 ∧ s.stated.2 < 2 ^ 32))

end HunkSide

namespace HunkBlock

/-- The range the `@@` line states. -/
def range (h : HunkBlock) : HunkRange :=
  ⟨h.old.stated.1, h.old.stated.2, h.new.stated.1, h.new.stated.2⟩

/-- The `@@` line up to its heading. -/
def bounds (h : HunkBlock) : List Char :=
  hunkMark.toList ++ oldSide :: h.old.chars ++ ' ' :: newSide :: h.new.chars ++ [' ', '@', '@']

/-- The `@@` line. -/
def mark (h : HunkBlock) : Bytes := Utf8.encode h.bounds ++ h.heading.bytes

def lines (h : HunkBlock) : List Bytes := h.mark :: h.content.map fun l => l.bytes

/-- Whether the `@@` line can be read: its heading is text, and its numbers are of 32 bits. -/
def Readable (h : HunkBlock) : Prop := Utf8.Valid h.heading.text ∧ h.old.Fits ∧ h.new.Fits

instance (h : HunkBlock) : Decidable h.Readable :=
  inferInstanceAs (Decidable (Utf8.Valid h.heading.text ∧ h.old.Fits ∧ h.new.Fits))

end HunkBlock

namespace FileBlock

def opening (f : FileBlock) : Bytes := bytesOf fileMark ++ f.names.bytes

def header (f : FileBlock) : List Bytes := f.opening :: f.info.map fun l => l.bytes

def lines (f : FileBlock) : List Bytes := f.header ++ f.hunks.flatMap HunkBlock.lines

end FileBlock

namespace DiffOutput

def hunks (d : DiffOutput) : List HunkBlock := d.files.flatMap FileBlock.hunks

def patch (d : DiffOutput) : List Bytes := d.files.flatMap FileBlock.lines

def bytes (d : DiffOutput) : Bytes := ((d.records.map fun l => l.bytes) ++ d.patch).flatten

end DiffOutput

theorem DiffLine.isLine (l : DiffLine) : Lines.IsLine newline l.bytes := ⟨l.text, l.single, rfl⟩

theorem isLine_append {head : Bytes} (h : newline ∉ head) (l : DiffLine) :
    Lines.IsLine newline (head ++ l.bytes) := by
  refine ⟨head ++ l.text, ?_, (append_assoc _ _ _).symm⟩
  rw [mem_append, not_or]
  exact ⟨h, l.single⟩

theorem newline_not_mem_encode {cs : List Char} (hascii : ∀ c ∈ cs, c.toNat < 128)
    (h : '\n' ∉ cs) : newline ∉ Utf8.encode cs := by
  induction cs with
  | nil => simp [Utf8.encode]
  | cons c cs ih =>
    rw [mem_cons, not_or] at h
    have hc := hascii c (.head _)
    show newline ∉ String.utf8EncodeChar c ++ Utf8.encode cs
    rw [Utf8.encodeChar_ascii hc, singleton_append, mem_cons, not_or]
    refine ⟨?_, ih (fun d hd => hascii d (.tail _ hd)) h.2⟩
    intro hnewline
    have hval : c.toNat = 10 := by
      have hbyte := congrArg UInt8.toNat hnewline
      have hmod : c.toUInt8.toNat = c.toNat % 256 := rfl
      rw [hmod, Nat.mod_eq_of_lt (Nat.lt_trans hc (by decide))] at hbyte
      exact hbyte.symm
    exact h.1 (Char.toNat_inj.mp hval.symm)

namespace HunkSide
variable {s : HunkSide}

variable {c : Char}

theorem isDigit_of_mem {n : ℕ} (h : c ∈ Nat.toDigits 10 n) : c.isDigit = true :=
  Nat.isDigit_of_mem_toDigits (by decide) (by decide) h

theorem mem_chars (h : c ∈ s.chars) : c.isDigit = true ∨ c = ',' := by
  unfold chars at h
  obtain h | h := mem_append.mp h
  · exact .inl (isDigit_of_mem h)
  · cases hlines : s.lines with
    | none =>
      rw [hlines] at h
      cases h
    | some lines =>
      rw [hlines] at h
      obtain rfl | h := mem_cons.mp h
      · exact .inr rfl
      · exact .inl (isDigit_of_mem h)

theorem toNat_lt_of_isDigit (h : c.isDigit = true) : c.toNat < 128 := by
  have hrange : 48 ≤ c.val ∧ c.val ≤ 57 := by simpa [Char.isDigit] using h
  exact Nat.lt_of_le_of_lt hrange.2 (by decide)

end HunkSide

theorem parseUnsigned_toDigits (limit n : ℕ) :
    DiffParse.parseUnsigned limit (Nat.toDigits 10 n) = if n < limit then some n else none := by
  have hall : (Nat.toDigits 10 n).all Char.isDigit = true :=
    List.all_eq_true.mpr fun c hc => HunkSide.isDigit_of_mem hc
  have hplus : (Nat.toDigits 10 n).dropPrefix? ['+'] = none := by
    cases h : Nat.toDigits 10 n with
    | nil => rfl
    | cons c cs =>
      have hdigit : c.isDigit = true := HunkSide.isDigit_of_mem (h ▸ mem_cons_self)
      have hne : (c == '+') = false := by
        rw [beq_eq_false_iff_ne]
        rintro rfl
        cases hdigit
      simp [List.dropPrefix?, hne]
  unfold DiffParse.parseUnsigned
  rw [hplus, getD_none]
  dsimp only
  rw [if_pos ⟨Nat.toDigits_ne_nil, hall⟩, Nat.ofDigitChars_ten_toDigits]

theorem parseU32_toDigits (n : ℕ) :
    DiffParse.parseU32 (Nat.toDigits 10 n) = if n < 2 ^ 32 then some n else none :=
  parseUnsigned_toDigits (2 ^ 32) n

/-- A side is read back when its numbers fit. -/
theorem side_chars (s : HunkSide) (marker : Char) :
    DiffParse.side (marker :: s.chars) marker = if s.Fits then some s.stated else none := by
  have hcomma : ∀ n, ',' ∉ Nat.toDigits 10 n := by
    intro n h
    cases HunkSide.isDigit_of_mem h
  have hdrop : (marker :: s.chars).dropPrefix? [marker] = some s.chars := by
    simp [List.dropPrefix?]
  unfold DiffParse.side
  rw [hdrop, bind_eq_bind, bind_some]
  obtain ⟨start, lines⟩ := s
  cases lines with
  | none =>
    have hsplit : (⟨start, none⟩ : HunkSide).chars.splitOn ',' = [Nat.toDigits 10 start] := by
      unfold HunkSide.chars
      rw [elim_none, append_nil]
      exact splitOn_eq_singleton (hcomma start)
    rw [hsplit]
    have himplied : impliedCount < 2 ^ 32 := by decide
    simp only [parseU32_toDigits]
    by_cases hfits : start < 2 ^ 32
    · rw [if_pos hfits]
      exact (if_pos ⟨hfits, himplied⟩).symm
    · rw [if_neg hfits]
      exact (if_neg fun h => hfits h.1).symm
  | some n =>
    have hsplit : (⟨start, some n⟩ : HunkSide).chars.splitOn ',' =
        [Nat.toDigits 10 start, Nat.toDigits 10 n] := by
      unfold HunkSide.chars
      rw [elim_some, splitOn_append_cons_self_of_not_mem (hcomma start),
        splitOn_eq_singleton (hcomma n)]
    rw [hsplit]
    simp only [parseU32_toDigits]
    by_cases hstart : start < 2 ^ 32
    · rw [if_pos hstart]
      by_cases hlines : n < 2 ^ 32
      · rw [if_pos hlines]
        exact (if_pos ⟨hstart, hlines⟩).symm
      · rw [if_neg hlines]
        exact (if_neg fun h => hlines h.2).symm
    · rw [if_neg hstart]
      exact (if_neg fun h => hstart h.1).symm

namespace HunkBlock
variable {h : HunkBlock}

variable {c : Char}

theorem mem_bounds (hc : c ∈ h.bounds) : c.isDigit = true ∨ c ∈ ['@', ' ', '-', '+', ','] := by
  have hmark : hunkMark.toList = ['@', '@', ' '] := rfl
  unfold bounds at hc
  rw [hmark] at hc
  simp only [mem_append, mem_cons, oldSide, newSide, not_mem_nil, or_false] at hc ⊢
  obtain ((((rfl | rfl | rfl) | rfl | hold) | rfl | rfl | hnew) | rfl | rfl | rfl) := hc
  any_goals simp
  · obtain hdigit | rfl := HunkSide.mem_chars hold
    · exact .inl hdigit
    · simp
  · obtain hdigit | rfl := HunkSide.mem_chars hnew
    · exact .inl hdigit
    · simp

theorem ascii_bounds (hc : c ∈ h.bounds) : c.toNat < 128 := by
  obtain hdigit | hmem := mem_bounds hc
  · exact HunkSide.toNat_lt_of_isDigit hdigit
  · simp only [mem_cons, not_mem_nil, or_false] at hmem
    obtain rfl | rfl | rfl | rfl | rfl := hmem <;> decide

theorem newline_not_mem_bounds : '\n' ∉ h.bounds := by
  intro hmem
  obtain hdigit | hmem := mem_bounds hmem
  · cases hdigit
  · revert hmem
    decide

theorem isLine_mark (h : HunkBlock) : Lines.IsLine newline h.mark :=
  isLine_append (newline_not_mem_encode (fun _ hc => ascii_bounds hc) newline_not_mem_bounds)
    h.heading

theorem valid_line (l : DiffLine) : Utf8.Valid l.bytes ↔ Utf8.Valid l.text := by
  have hline := @Utf8.valid_append_ascii l.text [] '\n' (by decide)
  have hnil : Utf8.Valid [] := by decide
  exact hline.trans (and_iff_left hnil)

/-- The range of a `@@` line is read exactly when the line is readable. -/
theorem hunkRange_mark :
    DiffParse.hunkRange h.mark = if h.Readable then some h.range else none := by
  have hvalid : Utf8.Valid h.mark ↔ Utf8.Valid h.heading.text :=
    Utf8.valid_encode_append.trans (valid_line h.heading)
  have hbounds : h.bounds ++ Utf8.lossy h.heading.bytes = hunkMark.toList ++
      ((oldSide :: h.old.chars) ++ ' ' ::
        ((newSide :: h.new.chars) ++ ' ' :: '@' :: '@' :: Utf8.lossy h.heading.bytes)) := by
    simp [bounds]
  have hblank : ∀ (marker : Char) (s : HunkSide), marker ≠ ' ' → ' ' ∉ marker :: s.chars := by
    intro marker s hmarker hmem
    obtain heq | hmem := mem_cons.mp hmem
    · exact hmarker heq.symm
    · obtain hdigit | heq := HunkSide.mem_chars hmem
      · cases hdigit
      · revert heq
        decide
  unfold DiffParse.hunkRange Utf8.decode? Readable
  by_cases htext : Utf8.Valid h.heading.text
  · rw [if_pos (hvalid.mpr htext)]
    unfold mark
    rw [Utf8.lossy_encode_append, hbounds]
    simp only [bind_eq_bind, bind_some]
    rw [dropPrefix?_append_of_beq _ (beq_self_eq_true _), bind_some,
      splitOn_append_cons_self_of_not_mem (hblank oldSide h.old (by decide)),
      splitOn_append_cons_self_of_not_mem (hblank newSide h.new (by decide))]
    simp only [side_chars]
    by_cases hold : h.old.Fits
    · by_cases hnew : h.new.Fits
      · simp [htext, hold, hnew, range]
      · simp [hold, hnew]
    · simp [hold]
  · rw [if_neg (mt hvalid.mp htext)]
    simp [htext]

theorem mark_eq (h : HunkBlock) :
    ∃ rest, h.mark = bytesOf hunkMark ++ rest := by
  refine ⟨Utf8.encode
    (oldSide :: h.old.chars ++ ' ' :: newSide :: h.new.chars ++ [' ', '@', '@']) ++
      h.heading.bytes, ?_⟩
  unfold mark bounds bytesOf
  simp only [Utf8.encode_append, append_assoc]

theorem opensHunk_mark : DiffParse.opensHunk h.mark = true := by
  obtain ⟨rest, hmark⟩ := h.mark_eq
  unfold DiffParse.opensHunk
  rw [hmark, List.isPrefixOf_iff_prefix]
  exact prefix_append _ _

theorem opensFile_mark : DiffParse.opensFile h.mark = false := by
  obtain ⟨rest, hmark⟩ := h.mark_eq
  rw [hmark]
  rfl

theorem lineRange_mark :
    DiffParse.lineRange h.mark = if h.Readable then some h.range else none := by
  unfold DiffParse.lineRange
  rw [if_pos opensHunk_mark, hunkRange_mark]

end HunkBlock

namespace FileBlock
variable {f : FileBlock}

theorem opensFile_opening : DiffParse.opensFile f.opening = true := by
  unfold DiffParse.opensFile
  rw [List.isPrefixOf_iff_prefix]
  exact prefix_append _ _

theorem opensHunk_opening : DiffParse.opensHunk f.opening = false := rfl

theorem isLine_opening (f : FileBlock) : Lines.IsLine newline f.opening :=
  isLine_append (by decide) f.names

end FileBlock

theorem PlainLine.lineRange (l : PlainLine) : DiffParse.lineRange l.bytes = none := by
  unfold DiffParse.lineRange
  rw [l.inHunk]
  rfl

namespace DiffOutput

variable {d : DiffOutput} {line : Bytes}

theorem isLine_patch (h : line ∈ d.patch) : Lines.IsLine newline line := by
  obtain ⟨f, -, hf⟩ := mem_flatMap.mp h
  obtain hheader | hhunks := mem_append.mp hf
  · obtain rfl | hinfo := mem_cons.mp hheader
    · exact f.isLine_opening
    · obtain ⟨l, -, rfl⟩ := List.mem_map.mp hinfo
      exact l.isLine
  · obtain ⟨hunk, -, hline⟩ := mem_flatMap.mp hhunks
    obtain rfl | hcontent := mem_cons.mp hline
    · exact hunk.isLine_mark
    · obtain ⟨l, -, rfl⟩ := List.mem_map.mp hcontent
      exact l.isLine

theorem isLine_bytes (h : line ∈ (d.records.map fun l => l.bytes) ++ d.patch) :
    Lines.IsLine newline line := by
  obtain hrecord | hpatch := mem_append.mp h
  · obtain ⟨l, -, rfl⟩ := List.mem_map.mp hrecord
    exact l.isLine
  · exact isLine_patch hpatch

end DiffOutput

end Soloist
