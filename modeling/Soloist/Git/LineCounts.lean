import Mathlib.Algebra.GroupWithZero.Nat
import Mathlib.Algebra.Order.BigOperators.Group.List
import Mathlib.Algebra.Order.Group.Nat
import Soloist.Git.DiffOutput

/-! The totals of added and deleted lines, read from machine-readable records. A rename keeps its
names in two records of their own. -/
open List
open Option hiding or_self

namespace Soloist

structure GitLineCounts where
  additions : ℕ
  deletions : ℕ
  complete : Bool
  deriving DecidableEq, Repr

namespace GitLineCounts

def incomplete (c : GitLineCounts) : GitLineCounts := { c with complete := false }

/-- `checked_add`, held at the largest number. -/
def saturated (total n : ℕ) : ℕ := if total + n ≤ usizeMax then total + n else usizeMax

def add (c : GitLineCounts) (additions deletions : ℕ) : GitLineCounts where
  additions := saturated c.additions additions
  deletions := saturated c.deletions deletions
  complete := c.complete && decide (c.additions + additions ≤ usizeMax) &&
    decide (c.deletions + deletions ≤ usizeMax)

end GitLineCounts

namespace LineCounts

def tab : UInt8 := 9

def number (bytes : Bytes) : Option ℕ :=
  (Utf8.decode? bytes).bind (DiffParse.parseUnsigned (usizeMax + 1))

def tally (c : GitLineCounts) (additions deletions : Bytes) : GitLineCounts :=
  if additions = bytesOf "-" ∧ deletions = bytesOf "-" then c
  else
    match number additions, number deletions with
    | some additions, some deletions => c.add additions deletions
    | _, _ => c.incomplete

def countRecords : List Bytes → GitLineCounts → GitLineCounts
  | [], c => c
  | record :: records, c =>
    if record = [] then countRecords records c
    else
      match Fields.splitn tab 3 record with
      | [additions, deletions, path] =>
        -- A rename's two names are taken off the records that follow.
        if path = [] then
          match records with
          | _ :: _ :: records => countRecords records (tally c additions deletions)
          | _ => tally c.incomplete additions deletions
        else countRecords records (tally c additions deletions)
      | _ => countRecords records c.incomplete

def parse (output : Bytes) : GitLineCounts := countRecords (output.splitOn 0) ⟨0, 0, true⟩

end LineCounts

structure RecordName where
  bytes : Bytes
  nonempty : bytes ≠ []
  plain : (0 : UInt8) ∉ bytes

inductive RecordPath
  | kept (name : RecordName)
  | renamed (original name : RecordName)

/-- One file of the output: the lines of a text, none of a binary. -/
structure NumstatRecord where
  lines : Option (ℕ × ℕ)
  path : RecordPath

namespace NumstatRecord

def decimal (n : ℕ) : Bytes := Utf8.encode (Nat.toDigits 10 n)

def fields (r : NumstatRecord) : List Bytes :=
  match r.lines with
  | some (additions, deletions) => [decimal additions, decimal deletions]
  | none => [bytesOf "-", bytesOf "-"]

def pieces (r : NumstatRecord) : List Bytes :=
  let head := Fields.terminated LineCounts.tab r.fields
  match r.path with
  | .kept name => [head ++ name.bytes]
  | .renamed original name => [head, original.bytes, name.bytes]

def encode (records : List NumstatRecord) : Bytes :=
  Fields.terminated 0 (records.flatMap pieces)

def additions (records : List NumstatRecord) : ℕ :=
  (records.map fun r => (r.lines.getD (0, 0)).1).sum

def deletions (records : List NumstatRecord) : ℕ :=
  (records.map fun r => (r.lines.getD (0, 0)).2).sum

end NumstatRecord

namespace LineCounts
variable {c : GitLineCounts}

def lines (record : Bytes) : Option (ℕ × ℕ) :=
  match Fields.splitn tab 3 record with
  | [additions, deletions, _] =>
    if additions = bytesOf "-" ∧ deletions = bytesOf "-" then some (0, 0)
    else (number additions).bind fun n => (number deletions).map fun m => (n, m)
  | _ => none

def keepsNames (record : Bytes) : Bool := (Fields.splitn tab 3 record)[2]? = some []

/-- The pieces that are records, without the two that follow a rename; these may be empty. A rename
cut off before them leaves a blank record, which speaks of nothing. -/
def records : List Bytes → List Bytes
  | [] => []
  | piece :: pieces =>
    if piece = [] then records pieces
    else if keepsNames piece then
      match pieces with
      | _ :: _ :: pieces => piece :: records pieces
      | _ => [[]]
    else piece :: records pieces

def count (c : GitLineCounts) (record : Bytes) : GitLineCounts :=
  match lines record with
  | some (additions, deletions) => c.add additions deletions
  | none => c.incomplete

def Held (c : GitLineCounts) : Prop := c.additions ≤ usizeMax ∧ c.deletions ≤ usizeMax

theorem saturated_le (total n : ℕ) : GitLineCounts.saturated total n ≤ usizeMax := by
  unfold GitLineCounts.saturated
  split_ifs with h
  · exact h
  · exact le_rfl

theorem held_add (c : GitLineCounts) (additions deletions : ℕ) :
    Held (c.add additions deletions) := ⟨saturated_le _ _, saturated_le _ _⟩

theorem held_count (hc : Held c) (record : Bytes) : Held (count c record) := by
  unfold count
  split
  · exact held_add c _ _
  · exact hc

theorem add_zero (hc : Held c) : c.add 0 0 = c := by
  simp [GitLineCounts.add, GitLineCounts.saturated, hc.1, hc.2]

variable {additions deletions record : Bytes}

theorem tally_eq (hc : Held c) {path : Bytes}
    (h : Fields.splitn tab 3 record = [additions, deletions, path]) :
    tally c additions deletions = count c record := by
  unfold tally count lines
  rw [h]
  dsimp only
  split_ifs with hbinary
  · exact (add_zero hc).symm
  · cases number additions <;> cases number deletions <;> rfl

theorem incomplete_eq
    (h : ∀ additions deletions path, Fields.splitn tab 3 record ≠ [additions, deletions, path]) :
    c.incomplete = count c record := by
  have hnone : lines record = none := by
    unfold lines
    split
    · exact absurd ‹_› (h _ _ _)
    · rfl
  rw [count, hnone]

theorem tally_incomplete (additions deletions : Bytes) :
    (tally c.incomplete additions deletions).complete = false := by
  unfold tally
  split_ifs
  · rfl
  · cases number additions <;> cases number deletions <;> rfl

theorem records_blank (pieces : List Bytes) : records ([] :: pieces) = records pieces := by
  rw [records.eq_def]
  rfl

variable (hne : record ≠ [])
include hne

theorem records_cons (pieces : List Bytes) :
    records (record :: pieces) =
      if keepsNames record then
        match pieces with
        | _ :: _ :: pieces => record :: records pieces
        | _ => [[]]
      else record :: records pieces := by
  rw [records.eq_def]
  exact if_neg hne

theorem records_kept {path : Bytes}
    (h : Fields.splitn tab 3 record = [additions, deletions, path]) (hpath : path ≠ [])
    (pieces : List Bytes) : records (record :: pieces) = record :: records pieces := by
  have hkeeps : keepsNames record = false := by simp [keepsNames, h, hpath]
  rw [records_cons hne, hkeeps, if_neg Bool.false_ne_true]

theorem records_renamed
    (h : Fields.splitn tab 3 record = [additions, deletions, []]) (original name : Bytes)
    (pieces : List Bytes) :
    records (record :: original :: name :: pieces) = record :: records pieces := by
  have hkeeps : keepsNames record = true := by simp [keepsNames, h]
  rw [records_cons hne, if_pos hkeeps]

theorem records_short
    (h : ∀ additions deletions path, Fields.splitn tab 3 record ≠ [additions, deletions, path])
    (pieces : List Bytes) : records (record :: pieces) = record :: records pieces := by
  have hkeeps : keepsNames record = false := by
    refine decide_eq_false fun hpath => ?_
    have hlength : (Fields.splitn tab 3 record).length ≤ 3 := Fields.length_splitn_le_limit 3 record
    match hsplit : Fields.splitn tab 3 record with
    | [] | [_] | [_, _] => simp [hsplit] at hpath
    | [_, _, _] => exact h _ _ _ hsplit
    | _ :: _ :: _ :: _ :: _ =>
      simp only [hsplit, length_cons] at hlength
      omega
  rw [records_cons hne, hkeeps, if_neg Bool.false_ne_true]

omit hne

theorem countRecords_eq (pieces : List Bytes) (hc : Held c)
    (h : (countRecords pieces c).complete = true) :
    countRecords pieces c = (records pieces).foldl count c := by
  fun_induction countRecords pieces c with
  | case1 => rfl
  | case2 pieces c ih => exact (ih hc h).trans (congrArg _ (records_blank pieces).symm)
  | case3 record c hne additions deletions original name pieces hsplit ih =>
    rw [records_renamed hne hsplit, foldl_cons, ← tally_eq hc hsplit]
    exact ih (tally_eq hc hsplit ▸ held_count hc record) h
  | case4 record pieces c hne additions deletions hshort hsplit =>
    rw [tally_incomplete] at h
    cases h
  | case5 record pieces c hne additions deletions path hsplit hpath ih =>
    rw [records_kept hne hsplit hpath, foldl_cons, ← tally_eq hc hsplit]
    exact ih (tally_eq hc hsplit ▸ held_count hc record) h
  | case6 record pieces c hne hsplit ih =>
    rw [records_short hne hsplit, foldl_cons, ← incomplete_eq hsplit]
    exact ih hc h

def added (records : List Bytes) : ℕ := (records.map fun r => ((lines r).getD (0, 0)).1).sum

def deleted (records : List Bytes) : ℕ := (records.map fun r => ((lines r).getD (0, 0)).2).sum

theorem complete_foldl_iff (heads : List Bytes) (hc : Held c) :
    (heads.foldl count c).complete = true ↔
      c.complete = true ∧ (∀ record ∈ heads, lines record ≠ none) ∧
        c.additions + added heads ≤ usizeMax ∧ c.deletions + deleted heads ≤ usizeMax := by
  induction heads generalizing c with
  | nil => simp [added, deleted, hc.1, hc.2]
  | cons record heads ih =>
    rw [foldl_cons, ih (held_count hc record), forall_mem_cons]
    unfold added deleted
    rw [map_cons, map_cons, sum_cons, sum_cons]
    cases hlines : lines record with
    | none => simp [count, hlines, GitLineCounts.incomplete]
    | some measured =>
      obtain ⟨additions, deletions⟩ := measured
      by_cases hfits : c.additions + additions ≤ usizeMax ∧ c.deletions + deletions ≤ usizeMax
      · simp [count, hlines, GitLineCounts.add, GitLineCounts.saturated, hfits.1, hfits.2,
          Nat.add_assoc]
      · have hfalse : (count c record).complete = false := by
          simp only [count, hlines, GitLineCounts.add, Bool.and_assoc, ← Bool.decide_and]
          rw [decide_eq_false hfits, Bool.and_false]
        simp only [hfalse, getD_some]
        constructor
        · rintro ⟨hcomplete, -⟩
          cases hcomplete
        · rintro ⟨-, -, hadditions, hdeletions⟩
          exact absurd ⟨by omega, by omega⟩ hfits

theorem foldl_eq_of_complete (heads : List Bytes) (hc : Held c)
    (h : (heads.foldl count c).complete = true) :
    heads.foldl count c = ⟨c.additions + added heads, c.deletions + deleted heads, true⟩ := by
  induction heads generalizing c with
  | nil =>
    obtain ⟨additions, deletions, complete⟩ := c
    obtain rfl : complete = true := h
    rfl
  | cons record heads ih =>
    have hfits := (complete_foldl_iff (record :: heads) hc).mp h
    rw [foldl_cons] at h ⊢
    rw [ih (held_count hc record) h]
    obtain ⟨-, hspoken, hadditions, hdeletions⟩ := hfits
    obtain ⟨measured, hlines⟩ := ne_none_iff_exists'.mp (hspoken record (.head _))
    obtain ⟨additions, deletions⟩ := measured
    simp only [added, deleted, map_cons, sum_cons, hlines, getD_some]
      at hadditions hdeletions ⊢
    have hadds : c.additions + additions ≤ usizeMax := by omega
    have hdels : c.deletions + deletions ≤ usizeMax := by omega
    simp [count, hlines, GitLineCounts.add, GitLineCounts.saturated, hadds, hdels, Nat.add_assoc]

end LineCounts

namespace NumstatRecord
variable {n : ℕ} {r : NumstatRecord}

theorem digit_le_of_mem_decimal {b : UInt8} (h : b ∈ decimal n) : 48 ≤ b := by
  obtain ⟨c, hc, hb⟩ := mem_flatMap.mp h
  have hdigit : c.isDigit = true := HunkSide.isDigit_of_mem hc
  have hrange : 48 ≤ c.val ∧ c.val ≤ 57 := by simpa [Char.isDigit] using hdigit
  rw [Utf8.encodeChar_ascii (HunkSide.toNat_lt_of_isDigit hdigit), mem_singleton] at hb
  have hlow : 48 ≤ c.toNat := hrange.1
  have hhigh : c.toNat ≤ 57 := hrange.2
  have hmod : c.toUInt8.toNat = c.toNat % 256 := rfl
  rw [hb, UInt8.le_iff_toNat_le, hmod, Nat.mod_eq_of_lt (by omega)]
  exact hlow

theorem number_decimal (n : ℕ) :
    LineCounts.number (decimal n) = if n ≤ usizeMax then some n else none := by
  rw [LineCounts.number, decimal, Utf8.decode?_encode, bind_some, parseUnsigned_toDigits]
  simp only [Nat.lt_succ_iff]

theorem decimal_ne_dash (n : ℕ) : decimal n ≠ bytesOf "-" := by
  intro h
  have hdash : (45 : UInt8) ∈ decimal n := by rw [h]; decide
  exact absurd (digit_le_of_mem_decimal hdash) (by decide)

theorem not_mem_of_mem_fields {b : UInt8} (hb : b < 45) {field : Bytes} (h : field ∈ r.fields) :
    b ∉ field := by
  have hdecimal : ∀ n, b ∉ decimal n := fun n hmem =>
    absurd (digit_le_of_mem_decimal hmem) (UInt8.not_le.mpr (UInt8.lt_trans hb (by decide)))
  have hdash : b ∉ bytesOf "-" := by
    rw [show bytesOf "-" = [45] by decide, mem_singleton]
    exact UInt8.ne_of_lt hb
  unfold fields at h
  cases hlines : r.lines with
  | none =>
    rw [hlines] at h
    simp only [mem_cons, not_mem_nil, or_false, or_self] at h
    exact h ▸ hdash
  | some measured =>
    rw [hlines] at h
    simp only [mem_cons, not_mem_nil, or_false] at h
    obtain rfl | rfl := h
    · exact hdecimal _
    · exact hdecimal _

/-- What stands behind the counts in the first piece. -/
def last (r : NumstatRecord) : Bytes :=
  match r.path with
  | .kept name => name.bytes
  | .renamed _ _ => []

def head (r : NumstatRecord) : Bytes := Fields.terminated LineCounts.tab r.fields ++ r.last

theorem splitn_head (r : NumstatRecord) :
    ∃ additions deletions, r.fields = [additions, deletions] ∧
      Fields.splitn LineCounts.tab 3 r.head = [additions, deletions, r.last] := by
  have hfields : ∃ additions deletions, r.fields = [additions, deletions] := by
    unfold fields
    split <;> exact ⟨_, _, rfl⟩
  obtain ⟨additions, deletions, hfields⟩ := hfields
  refine ⟨additions, deletions, hfields, ?_⟩
  have hplain : ∀ field ∈ r.fields, LineCounts.tab ∉ field :=
    fun field hfield => not_mem_of_mem_fields (by decide) hfield
  have hsplit : Fields.splitn LineCounts.tab (r.fields.length + 1) r.head = r.fields ++ [r.last] :=
    Fields.splitn_terminated hplain
  rw [hfields] at hsplit
  exact hsplit

theorem head_ne_nil (r : NumstatRecord) : r.head ≠ [] := by
  intro h
  obtain ⟨additions, deletions, -, hsplit⟩ := splitn_head r
  rw [h] at hsplit
  cases hsplit

theorem lines_head (r : NumstatRecord) :
    LineCounts.lines r.head =
      if (r.lines.getD (0, 0)).1 ≤ usizeMax ∧ (r.lines.getD (0, 0)).2 ≤ usizeMax then
        some (r.lines.getD (0, 0)) else none := by
  obtain ⟨first, second, hfields, hsplit⟩ := splitn_head r
  unfold LineCounts.lines
  rw [hsplit]
  dsimp only
  unfold fields at hfields
  cases hlines : r.lines with
  | none =>
    rw [hlines] at hfields
    cases hfields
    rfl
  | some measured =>
    rw [hlines] at hfields
    cases hfields
    rw [if_neg fun h => decimal_ne_dash _ h.1, number_decimal, number_decimal, getD_some]
    split_ifs <;> simp_all

theorem zero_not_mem_pieces {piece : Bytes} (h : piece ∈ r.pieces) : (0 : UInt8) ∉ piece := by
  have hfields : (0 : UInt8) ∉ Fields.terminated LineCounts.tab r.fields := by
    intro hmem
    obtain ⟨field, hfield, hmem⟩ := mem_flatMap.mp hmem
    rw [mem_append, mem_singleton] at hmem
    obtain hmem | hmem := hmem
    · exact not_mem_of_mem_fields (by decide) hfield hmem
    · exact absurd hmem (by decide)
  unfold pieces at h
  cases hpath : r.path with
  | kept name =>
    rw [hpath, mem_singleton] at h
    rw [h, mem_append, not_or]
    exact ⟨hfields, name.plain⟩
  | renamed original name =>
    simp only [hpath, mem_cons, not_mem_nil, or_false] at h
    obtain rfl | rfl | rfl := h
    · exact hfields
    · exact original.plain
    · exact name.plain

theorem splitOn_encode (records : List NumstatRecord) :
    (encode records).splitOn 0 = records.flatMap pieces ++ [[]] := by
  have hplain : ∀ piece ∈ records.flatMap pieces, (0 : UInt8) ∉ piece := by
    intro piece hpiece
    obtain ⟨record, -, hpiece⟩ := mem_flatMap.mp hpiece
    exact zero_not_mem_pieces hpiece
  have hsplit := Fields.splitOn_terminated hplain []
  rwa [append_nil, splitOn_nil] at hsplit

end NumstatRecord

namespace LineCounts
variable {c : GitLineCounts}

theorem countRecords_pieces (hc : Held c) (r : NumstatRecord) (rest : List Bytes) :
    countRecords (r.pieces ++ rest) c = countRecords rest (count c r.head) := by
  obtain ⟨additions, deletions, -, hsplit⟩ := r.splitn_head
  rw [← tally_eq hc hsplit]
  have hne := r.head_ne_nil
  unfold NumstatRecord.head NumstatRecord.last at hsplit hne
  unfold NumstatRecord.pieces
  cases hpath : r.path with
  | kept name =>
    simp only [hpath] at hsplit hne ⊢
    rw [singleton_append, countRecords.eq_def]
    simp only [if_neg hne, hsplit, if_neg name.nonempty]
  | renamed original name =>
    simp only [hpath, append_nil] at hsplit hne ⊢
    rw [cons_append, cons_append, cons_append, countRecords.eq_def]
    simp only [if_neg hne, hsplit, if_true, nil_append]

theorem countRecords_flatMap (hc : Held c) (records : List NumstatRecord) (rest : List Bytes) :
    countRecords (records.flatMap NumstatRecord.pieces ++ rest) c =
      countRecords rest ((records.map NumstatRecord.head).foldl count c) := by
  induction records generalizing c with
  | nil => rfl
  | cons record records ih =>
    rw [flatMap_cons, append_assoc, countRecords_pieces hc, ih (held_count hc _),
      map_cons, foldl_cons]

theorem parse_encode (records : List NumstatRecord) :
    parse (NumstatRecord.encode records) =
      (records.map NumstatRecord.head).foldl count ⟨0, 0, true⟩ := by
  rw [parse, NumstatRecord.splitOn_encode,
    countRecords_flatMap ⟨Nat.zero_le _, Nat.zero_le _⟩]
  rfl

theorem spoken_of_ne_none {r : NumstatRecord} (h : lines r.head ≠ none) :
    lines r.head = some (r.lines.getD (0, 0)) := by
  rw [NumstatRecord.lines_head] at h ⊢
  split_ifs at h ⊢
  · rfl
  · exact absurd rfl h

theorem added_heads {records : List NumstatRecord}
    (h : ∀ r ∈ records, lines r.head = some (r.lines.getD (0, 0))) :
    added (records.map NumstatRecord.head) = NumstatRecord.additions records ∧
      deleted (records.map NumstatRecord.head) = NumstatRecord.deletions records := by
  unfold added deleted NumstatRecord.additions NumstatRecord.deletions
  rw [List.map_map, List.map_map]
  constructor
  · exact congrArg List.sum (map_congr_left fun r hr => by simp [h r hr])
  · exact congrArg List.sum (map_congr_left fun r hr => by simp [h r hr])

theorem spoken_of_fits {records : List NumstatRecord}
    (hadditions : NumstatRecord.additions records ≤ usizeMax)
    (hdeletions : NumstatRecord.deletions records ≤ usizeMax) {r : NumstatRecord}
    (hr : r ∈ records) : lines r.head = some (r.lines.getD (0, 0)) := by
  rw [NumstatRecord.lines_head]
  refine if_pos ⟨le_trans ?_ hadditions, le_trans ?_ hdeletions⟩
  · exact le_sum_of_mem (List.mem_map_of_mem hr)
  · exact le_sum_of_mem (List.mem_map_of_mem hr)

theorem complete_parse_iff (records : List NumstatRecord) :
    (parse (NumstatRecord.encode records)).complete = true ↔
      NumstatRecord.additions records ≤ usizeMax ∧ NumstatRecord.deletions records ≤ usizeMax := by
  rw [parse_encode, complete_foldl_iff _ ⟨Nat.zero_le _, Nat.zero_le _⟩, List.forall_mem_map,
    Nat.zero_add, Nat.zero_add]
  constructor
  · rintro ⟨-, hspoken, hadded, hdeleted⟩
    obtain ⟨hadditions, hdeletions⟩ := added_heads fun r hr => spoken_of_ne_none (hspoken r hr)
    exact ⟨hadditions ▸ hadded, hdeletions ▸ hdeleted⟩
  · rintro ⟨hadded, hdeleted⟩
    have hspoken := fun r hr => @spoken_of_fits records hadded hdeleted r hr
    obtain ⟨hadditions, hdeletions⟩ := added_heads hspoken
    refine ⟨rfl, fun r hr => ?_, hadditions ▸ hadded, hdeletions ▸ hdeleted⟩
    rw [hspoken r hr]
    exact some_ne_none _

/-- Line counts are the exact sums of the records, and complete unless a sum overflows; whatever
the output is, they are not complete where a record is cut off or does not speak of its lines. -/
theorem lineCounts_exact :
    (∀ records : List NumstatRecord,
      let counts := parse (NumstatRecord.encode records)
      (counts.complete = true ↔ NumstatRecord.additions records ≤ usizeMax ∧
        NumstatRecord.deletions records ≤ usizeMax) ∧
      (counts.complete = true → counts.additions = NumstatRecord.additions records ∧
        counts.deletions = NumstatRecord.deletions records)) ∧
    ∀ output : Bytes, (∃ record ∈ records (output.splitOn 0), lines record = none) →
      (parse output).complete = false := by
  refine ⟨fun records => ⟨complete_parse_iff records, fun h => ?_⟩, fun output hunspoken => ?_⟩
  · obtain ⟨hadded, hdeleted⟩ := (complete_parse_iff records).mp h
    obtain ⟨hadditions, hdeletions⟩ := added_heads fun r => spoken_of_fits hadded hdeleted
    rw [parse_encode] at h ⊢
    rw [foldl_eq_of_complete _ ⟨Nat.zero_le _, Nat.zero_le _⟩ h, hadditions, hdeletions]
    exact ⟨Nat.zero_add _, Nat.zero_add _⟩
  · rw [← Bool.not_eq_true]
    intro h
    have hc : Held ⟨0, 0, true⟩ := ⟨Nat.zero_le _, Nat.zero_le _⟩
    have heq := countRecords_eq (output.splitOn 0) hc h
    obtain ⟨record, hrecord, hnone⟩ := hunspoken
    rw [parse, heq] at h
    exact ((complete_foldl_iff _ hc).mp h).2.1 record hrecord hnone

end LineCounts
end Soloist
