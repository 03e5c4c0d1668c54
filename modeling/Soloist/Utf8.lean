import Mathlib.Data.List.Basic

/-! UTF-8 as bytes are read: what a text decodes to, and how what does not decode is replaced. -/
open List

namespace Utf8

def encode (cs : List Char) : List UInt8 := cs.flatMap String.utf8EncodeChar

def decodeChar? (bs : List UInt8) : Option Char := bs.toByteArray.utf8DecodeChar? 0

/-- Whether two bytes begin the encoding of a character of three or four bytes. -/
def opensLong (first second : UInt8) : Bool :=
  (first = 0xE0 && 0xA0 ≤ second && second ≤ 0xBF) ||
    (0xE1 ≤ first && first ≤ 0xEC && 0x80 ≤ second && second ≤ 0xBF) ||
    (first = 0xED && 0x80 ≤ second && second ≤ 0x9F) ||
    (0xEE ≤ first && first ≤ 0xEF && 0x80 ≤ second && second ≤ 0xBF) ||
    (first = 0xF0 && 0x90 ≤ second && second ≤ 0xBF) ||
    (0xF1 ≤ first && first ≤ 0xF3 && 0x80 ≤ second && second ≤ 0xBF) ||
    (first = 0xF4 && 0x80 ≤ second && second ≤ 0x8F)

/-- How many bytes are replaced as one where none decodes: the longest start of an encoding, or one
byte. -/
def malformed : List UInt8 → ℕ
  | first :: second :: rest =>
    if opensLong first second then
      match rest with
      | third :: _ => if 0xF0 ≤ first ∧ 0x80 ≤ third ∧ third ≤ 0xBF then 3 else 2
      | [] => 2
    else 1
  | _ => 1

def scan : ℕ → List UInt8 → List (Option Char)
  | _, [] => []
  | skip + 1, _ :: bs => scan skip bs
  | 0, b :: bs =>
    match decodeChar? (b :: bs) with
    | some c => some c :: scan (c.utf8Size - 1) bs
    | none => none :: scan (malformed (b :: bs) - 1) bs

def pieces (bs : List UInt8) : List (Option Char) := scan 0 bs

/-- The text of any bytes, with a replacement character for what does not decode. -/
def lossy (bs : List UInt8) : List Char := (pieces bs).map fun p => p.getD '\uFFFD'

def Valid (bs : List UInt8) : Prop := none ∉ pieces bs

instance (bs : List UInt8) : Decidable (Valid bs) := inferInstanceAs (Decidable (none ∉ pieces bs))

def decode? (bs : List UInt8) : Option (List Char) := if Valid bs then some (lossy bs) else none

variable {a b bs : List UInt8} {c : Char} {cs : List Char}

theorem encode_append (cs ds : List Char) : encode (cs ++ ds) = encode cs ++ encode ds :=
  flatMap_append

theorem decodeChar?_eq_some :
    decodeChar? bs = some c ↔ ∃ rest, bs = String.utf8EncodeChar c ++ rest := by
  constructor
  · intro h
    obtain ⟨rest, hrest⟩ := ByteArray.exists_of_utf8DecodeChar?_eq_some h
    refine ⟨rest.data.toList, ?_⟩
    have hlists := congrArg (fun bytes => bytes.data.toList) hrest
    simpa using hlists
  · rintro ⟨rest, rfl⟩
    unfold decodeChar?
    rw [toByteArray_append]
    exact ByteArray.utf8DecodeChar?_utf8EncodeChar_append

theorem encodeChar_ne_nil : String.utf8EncodeChar c ≠ [] := by
  intro h
  have hlength := String.length_utf8EncodeChar c
  rw [h] at hlength
  exact absurd hlength.symm (Nat.ne_of_gt c.utf8Size_pos)

theorem encodeChar_ascii (hc : c.toNat < 128) : String.utf8EncodeChar c = [c.toUInt8] := by
  have hsize : c.utf8Size = 1 := Char.utf8Size_eq_one_iff.mpr (Nat.le_of_lt_succ hc)
  rw [String.utf8EncodeChar_eq_singleton hsize]
  rfl

theorem eq_nil_of_encodeChar {d : Char} (hc : c.toNat < 128)
    (h : String.utf8EncodeChar d = a ++ c.toUInt8 :: b) : a = [] := by
  have hlt : a.length < (String.utf8EncodeChar d).length := by
    rw [h, List.length_append, length_cons]
    omega
  have hbyte : (String.utf8EncodeChar d)[a.length] = c.toUInt8 := by
    simp [h]
  have hfirst : c.toUInt8.IsUTF8FirstByte := by
    have hascii := @UInt8.isUTF8FirstByte_getElem_zero_utf8EncodeChar c
    simpa [encodeChar_ascii hc] using hascii
  rw [← hbyte, UInt8.isUTF8FirstByte_getElem_utf8EncodeChar] at hfirst
  exact length_eq_zero_iff.mp hfirst

theorem scan_eq_pieces (skip : ℕ) (bs : List UInt8) : scan skip bs = pieces (bs.drop skip) := by
  induction bs generalizing skip with
  | nil => cases skip <;> rfl
  | cons b bs ih =>
    cases skip with
    | zero => rfl
    | succ skip => exact ih skip

@[simp] theorem pieces_nil : pieces [] = [] := rfl

theorem pieces_encodeChar : pieces (String.utf8EncodeChar c ++ b) = some c :: pieces b := by
  have hdecode : decodeChar? (String.utf8EncodeChar c ++ b) = some c :=
    decodeChar?_eq_some.mpr ⟨b, rfl⟩
  have hlength := String.length_utf8EncodeChar c
  cases h : String.utf8EncodeChar c with
  | nil => exact absurd h encodeChar_ne_nil
  | cons x xs =>
    rw [h] at hdecode hlength
    have hsize : c.utf8Size - 1 = xs.length := by
      rw [← hlength, length_cons]
      omega
    rw [cons_append] at hdecode ⊢
    show scan 0 (x :: (xs ++ b)) = _
    unfold scan
    rw [hdecode]
    dsimp only
    rw [hsize, scan_eq_pieces, drop_left]

theorem malformed_pos (x : UInt8) (xs : List UInt8) : 0 < malformed (x :: xs) := by
  unfold malformed
  split
  · split_ifs
    · split
      · split_ifs <;> omega
      · omega
    · omega
  · omega

variable {x : UInt8} {xs : List UInt8}

theorem pieces_of_malformed (h : decodeChar? (x :: xs) = none) :
    pieces (x :: xs) = none :: pieces ((x :: xs).drop (malformed (x :: xs))) := by
  obtain ⟨n, hn⟩ := Nat.exists_eq_succ_of_ne_zero (Nat.ne_of_gt (malformed_pos x xs))
  show scan 0 (x :: xs) = _
  unfold scan
  rw [h]
  dsimp only
  rw [hn, Nat.succ_sub_one, scan_eq_pieces, drop_succ_cons]

theorem pieces_induction {P : List UInt8 → Prop} (hnil : P [])
    (hchar : ∀ c rest, P rest → P (String.utf8EncodeChar c ++ rest))
    (hmalformed : ∀ x xs, decodeChar? (x :: xs) = none →
      P ((x :: xs).drop (malformed (x :: xs))) → P (x :: xs)) (bs : List UInt8) : P bs := by
  induction hlength : bs.length using Nat.strongRecOn generalizing bs with
  | ind n ih =>
    cases bs with
    | nil => exact hnil
    | cons x xs =>
      cases hdecode : decodeChar? (x :: xs) with
      | none =>
        have hshorter : ((x :: xs).drop (malformed (x :: xs))).length < n := by
          have hpos := malformed_pos x xs
          rw [length_drop, hlength]
          rw [length_cons] at hlength
          omega
        exact hmalformed x xs hdecode (ih _ hshorter _ rfl)
      | some c =>
        obtain ⟨rest, hrest⟩ := decodeChar?_eq_some.mp hdecode
        have hshorter : rest.length < n := by
          have hpos := c.utf8Size_pos
          rw [hrest, List.length_append, String.length_utf8EncodeChar] at hlength
          omega
        rw [hrest]
        exact hchar c rest (ih _ hshorter rest rfl)

theorem pieces_encode : pieces (encode cs ++ b) = cs.map some ++ pieces b := by
  induction cs with
  | nil => rfl
  | cons c cs ih =>
    show pieces ((String.utf8EncodeChar c ++ encode cs) ++ b) = _
    rw [append_assoc, pieces_encodeChar, ih]
    rfl

variable (hc : c.toNat < 128)
include hc

theorem toUInt8_lt : c.toUInt8 < 0x80 := by
  rw [UInt8.lt_iff_toNat_lt]
  have hval : c.toUInt8.toNat = c.toNat % 256 := rfl
  rw [hval, Nat.mod_eq_of_lt (Nat.lt_trans hc (by decide))]
  exact hc

theorem not_le_toUInt8 (bound : UInt8) (h : 0x80 ≤ bound) :
    decide (bound ≤ c.toUInt8) = false :=
  decide_eq_false (UInt8.not_le.mpr (UInt8.lt_of_lt_of_le (toUInt8_lt hc) h))

theorem opensLong_ascii (first : UInt8) :
    opensLong first c.toUInt8 = false := by
  unfold opensLong
  have h80 := not_le_toUInt8 hc 0x80 (by decide)
  have h90 := not_le_toUInt8 hc 0x90 (by decide)
  have hA0 := not_le_toUInt8 hc 0xA0 (by decide)
  simp only [h80, h90, hA0, Bool.and_false, Bool.false_and, Bool.or_false]

theorem malformed_append :
    malformed (x :: xs ++ c.toUInt8 :: b) = malformed (x :: xs) ∧
      malformed (x :: xs) ≤ (x :: xs).length := by
  have hthird : ¬(0x80 ≤ c.toUInt8) := of_decide_eq_false (not_le_toUInt8 hc 0x80 (by decide))
  match xs with
  | [] =>
    simp [malformed, opensLong_ascii hc]
  | [y] =>
    by_cases hopens : opensLong x y
    · simp [malformed, hopens, hthird]
    · simp [malformed, hopens]
  | y :: z :: zs =>
    by_cases hopens : opensLong x y
    · simp only [cons_append, malformed, hopens, if_true, length_cons, true_and]
      split_ifs <;> omega
    · simp [malformed, hopens]

theorem pieces_append_ascii :
    pieces (a ++ c.toUInt8 :: b) = pieces a ++ some c :: pieces b := by
  have hpiece : pieces (c.toUInt8 :: b) = some c :: pieces b := by
    have hencode := @pieces_encodeChar b c
    rwa [encodeChar_ascii hc] at hencode
  induction a using pieces_induction with
  | hnil => exact hpiece
  | hchar d rest ih => rw [append_assoc, pieces_encodeChar, ih, pieces_encodeChar]; rfl
  | hmalformed x xs hdecode ih =>
    have hnone : decodeChar? (x :: (xs ++ c.toUInt8 :: b)) = none := by
      rw [Option.eq_none_iff_forall_ne_some]
      intro d hd
      obtain ⟨rest, hrest⟩ := decodeChar?_eq_some.mp hd
      rw [← cons_append] at hrest
      obtain ⟨as, hd, hbyte⟩ | ⟨cs, hxs, -⟩ := append_eq_append_iff.mp hrest
      · cases as with
        | nil =>
          rw [append_nil] at hd
          rw [decodeChar?_eq_some.mpr ⟨[], by rw [append_nil, hd]⟩] at hdecode
          cases hdecode
        | cons y ys =>
          obtain ⟨rfl, -⟩ := List.cons.inj hbyte
          cases eq_nil_of_encodeChar hc hd
      · rw [decodeChar?_eq_some.mpr ⟨cs, hxs⟩] at hdecode
        cases hdecode
    obtain ⟨hsame, hle⟩ := @malformed_append b c x xs hc
    rw [pieces_of_malformed hdecode, cons_append, pieces_of_malformed hnone,
      ← cons_append, hsame, drop_append_of_le_length hle, ih, cons_append]

omit hc

theorem valid_iff : Valid bs ↔ ∃ cs, bs = encode cs := by
  constructor
  · intro h
    induction bs using pieces_induction with
    | hnil => exact ⟨[], rfl⟩
    | hchar c rest ih =>
      unfold Valid at h
      rw [pieces_encodeChar] at h
      obtain ⟨cs, rfl⟩ := ih fun hmem => h (.tail _ hmem)
      exact ⟨c :: cs, rfl⟩
    | hmalformed x xs hdecode ih =>
      unfold Valid at h
      rw [pieces_of_malformed hdecode] at h
      exact absurd (.head _) h
  · rintro ⟨cs, rfl⟩ hmem
    have hpieces : pieces (encode cs) = cs.map some := by
      simpa using @pieces_encode [] cs
    rw [hpieces] at hmem
    simp at hmem

@[simp] theorem lossy_nil : lossy [] = [] := rfl

theorem lossy_encode_append : lossy (encode cs ++ b) = cs ++ lossy b := by
  have hsome : (cs.map some).map (fun p => p.getD '\uFFFD') = cs := by
    rw [map_map]
    exact map_id cs
  unfold lossy
  rw [pieces_encode, map_append, hsome]

@[simp] theorem lossy_encode : lossy (encode cs) = cs := by
  have happend := @lossy_encode_append [] cs
  rwa [append_nil, lossy_nil, append_nil] at happend

theorem decode?_encode (cs : List Char) : decode? (encode cs) = some cs := by
  rw [decode?, if_pos (valid_iff.mpr ⟨cs, rfl⟩), lossy_encode]

theorem lossy_encodeChar : lossy (String.utf8EncodeChar c ++ b) = c :: lossy b := by
  unfold lossy
  rw [pieces_encodeChar]
  rfl

theorem lossy_append_ascii (hc : c.toNat < 128) :
    lossy (a ++ c.toUInt8 :: b) = lossy a ++ c :: lossy b := by
  unfold lossy
  rw [pieces_append_ascii hc, map_append]
  rfl

theorem encode_lossy_iff : encode (lossy bs) = bs ↔ Valid bs := by
  constructor
  · intro h
    exact valid_iff.mpr ⟨lossy bs, h.symm⟩
  · intro h
    obtain ⟨cs, rfl⟩ := valid_iff.mp h
    rw [lossy_encode]

theorem valid_append_ascii (hc : c.toNat < 128) :
    Valid (a ++ c.toUInt8 :: b) ↔ Valid a ∧ Valid b := by
  unfold Valid
  rw [pieces_append_ascii hc]
  simp

theorem valid_encode_append : Valid (encode cs ++ b) ↔ Valid b := by
  unfold Valid
  rw [pieces_encode]
  simp

/-- A text that begins with an ASCII character was read from its byte. -/
theorem eq_cons_of_lossy (hc : c.toNat < 128) (h : lossy bs = c :: cs) :
    ∃ rest, bs = c.toUInt8 :: rest ∧ lossy rest = cs := by
  induction bs using pieces_induction with
  | hnil => cases h
  | hchar d rest ih =>
    rw [lossy_encodeChar] at h
    obtain ⟨rfl, hrest⟩ := List.cons.inj h
    rw [encodeChar_ascii hc]
    exact ⟨rest, rfl, hrest⟩
  | hmalformed x xs hdecode ih =>
    unfold lossy at h
    rw [pieces_of_malformed hdecode] at h
    obtain ⟨rfl, -⟩ := List.cons.inj h
    exact absurd hc (by decide)

theorem mem_of_mem_lossy (hc : c.toNat < 128) (h : c ∈ lossy bs) : c.toUInt8 ∈ bs := by
  induction bs using pieces_induction with
  | hnil => cases h
  | hchar d rest ih =>
    rw [lossy_encodeChar] at h
    obtain rfl | hrest := mem_cons.mp h
    · rw [encodeChar_ascii hc]
      exact .head _
    · exact mem_append_right _ (ih hrest)
  | hmalformed x xs hdecode ih =>
    unfold lossy at h
    rw [pieces_of_malformed hdecode] at h
    obtain rfl | hrest := mem_cons.mp h
    · exact absurd hc (by decide)
    · exact mem_of_mem_drop (ih hrest)

/-- A text begins with ASCII characters when its bytes begin with theirs. -/
theorem prefix_lossy_iff (hcs : ∀ c ∈ cs, c.toNat < 128) : cs <+: lossy bs ↔ encode cs <+: bs := by
  constructor
  · rintro ⟨ds, hds⟩
    induction cs generalizing bs with
    | nil => exact nil_prefix
    | cons c cs ih =>
      have hc := hcs c (.head _)
      obtain ⟨rest, rfl, hrest⟩ := eq_cons_of_lossy hc hds.symm
      have hencode : encode (c :: cs) = c.toUInt8 :: encode cs := by
        show String.utf8EncodeChar c ++ encode cs = _
        rw [encodeChar_ascii hc]
        rfl
      rw [hencode, prefix_cons_inj]
      exact ih (fun d hd => hcs d (.tail _ hd)) hrest.symm
  · rintro ⟨rest, rfl⟩
    rw [lossy_encode_append]
    exact prefix_append _ _

theorem isPrefixOf_lossy (hcs : ∀ c ∈ cs, c.toNat < 128) (bs : List UInt8) :
    cs.isPrefixOf (lossy bs) = (encode cs).isPrefixOf bs := by
  rw [Bool.eq_iff_iff, List.isPrefixOf_iff_prefix, List.isPrefixOf_iff_prefix]
  exact prefix_lossy_iff hcs

example : lossy [0x40, 0xE2, 0x82, 0x41, 0xFF] = ['@', '\uFFFD', 'A', '\uFFFD'] := by decide

end Utf8
