import Soloist.Terminal.Scrollback
import Soloist.Utf8

/-! The text of a notification that a process raises in an escape sequence, cut to a number of
characters. -/

open List

namespace Utf8
variable {a b : List UInt8}

theorem decodeChar?_congr (h : a.take 4 = b.take 4) : decodeChar? a = decodeChar? b := by
  have hstart : ∀ {a b : List UInt8} {c : Char}, a.take 4 = b.take 4 →
      decodeChar? a = some c → decodeChar? b = some c := by
    intro a b c h hc
    obtain ⟨rest, rfl⟩ := decodeChar?_eq_some.mp hc
    have hfour : (String.utf8EncodeChar c).length ≤ 4 :=
      (String.length_utf8EncodeChar c).trans_le c.utf8Size_le_four
    rw [take_append, take_of_length_le hfour] at h
    refine decodeChar?_eq_some.mpr ?_
    have hprefix : String.utf8EncodeChar c <+: b.take 4 := h ▸ prefix_append _ _
    obtain ⟨rest, hrest⟩ := hprefix.trans (List.take_prefix 4 b)
    exact ⟨rest, hrest.symm⟩
  cases ha : decodeChar? a with
  | some c => exact (hstart h ha).symm
  | none =>
    cases hb : decodeChar? b with
    | some c => rw [hstart h.symm hb] at ha; cases ha
    | none => rfl

theorem malformed_congr (h : a.take 4 = b.take 4) : malformed a = malformed b := by
  match a, b with
  | [], [] => rfl
  | [_], [_] => rfl
  | [], _ :: _ | _ :: _, [] | [_], _ :: _ :: _ | _ :: _ :: _, [_] => simp at h
  | x :: y :: as, x' :: y' :: bs =>
    simp only [take_succ_cons, List.cons.injEq] at h
    obtain ⟨rfl, rfl, hrest⟩ := h
    match as, bs with
    | [], [] => rfl
    | [], _ :: _ | _ :: _, [] => simp at hrest
    | z :: as, z' :: bs =>
      rw [take_succ_cons, take_succ_cons] at hrest
      obtain ⟨rfl, -⟩ := List.cons.inj hrest
      rfl

theorem malformed_le (bs : List UInt8) : malformed bs ≤ 3 := by
  unfold malformed
  split
  · split_ifs
    · split
      · split_ifs <;> omega
      · omega
    · omega
  · omega

theorem take_pieces {n : ℕ} (h : a.take (4 * n) = b.take (4 * n)) :
    (pieces a).take n = (pieces b).take n := by
  induction n generalizing a b with
  | zero => rfl
  | succ n ih =>
    have hrest : ∀ k ≤ 4, (a.drop k).take (4 * n) = (b.drop k).take (4 * n) := by
      intro k hk
      have hdrop := congrArg (List.drop k) h
      rw [drop_take, drop_take] at hdrop
      have htake := congrArg (List.take (4 * n)) hdrop
      rwa [take_take, take_take, Nat.min_eq_left (by omega)] at htake
    have hfour : a.take 4 = b.take 4 := by
      have htake := congrArg (List.take 4) h
      rwa [take_take, take_take, Nat.min_eq_left (by omega)] at htake
    cases a with
    | nil =>
      cases b with
      | nil => rfl
      | cons y ys => simp at hfour
    | cons x xs =>
      cases b with
      | nil => simp at hfour
      | cons y ys =>
        have hsame := decodeChar?_congr hfour
        cases hdecode : decodeChar? (x :: xs) with
        | some c =>
          obtain ⟨as, has⟩ := decodeChar?_eq_some.mp hdecode
          obtain ⟨bs, hbs⟩ := decodeChar?_eq_some.mp (hsame ▸ hdecode)
          have hskip := hrest (String.utf8EncodeChar c).length
            ((String.length_utf8EncodeChar c).trans_le c.utf8Size_le_four)
          rw [has, hbs, drop_left, drop_left] at hskip
          rw [has, hbs, pieces_encodeChar, pieces_encodeChar, take_succ_cons,
            take_succ_cons, ih hskip]
        | none =>
          have hskip := hrest (malformed (x :: xs)) (Nat.le_succ_of_le (malformed_le _))
          rw [pieces_of_malformed hdecode, pieces_of_malformed (hsame ▸ hdecode),
            ← malformed_congr hfour, take_succ_cons, take_succ_cons, ih hskip]

theorem take_lossy {n : ℕ} (h : a.take (4 * n) = b.take (4 * n)) :
    (lossy a).take n = (lossy b).take n := by
  unfold lossy
  rw [← map_take, ← map_take, take_pieces h]

end Utf8

namespace Soloist

def maxNotifyBodyChars : ℕ := 1000

/-- How many bytes always cover a number of characters. -/
def byteBudget (chars : ℕ) : ℕ := min (4 * chars) usizeMax

def separator : UInt8 := 0x3B

def gatherParams (budget : ℕ) : ℕ → Bytes → List Bytes → Bytes
  | _, bytes, [] => bytes
  | n, bytes, param :: params =>
    let bytes := if 0 < n then bytes ++ [separator] else bytes
    let room := budget - bytes.length
    if room = 0 then bytes else gatherParams budget (n + 1) (bytes ++ param.take room) params

def boundedText (params : List Bytes) (chars : ℕ) : String :=
  String.ofList ((Utf8.lossy (gatherParams (byteBudget chars) 0 [] params)).take chars)

/-- Whether the metadata says the payload is base64; none where the payload is not a message. -/
def kittyEncoding (metadata : Bytes) : Option Bool :=
  (metadata.splitOn 0x3A).foldlM (fun (base64 : Bool) (field : Bytes) =>
    let key : Bytes := field.takeWhile (· ≠ 0x3D)
    let value : Bytes := (field.dropWhile (· ≠ 0x3D)).tail
    if key = Utf8.encode ['i'] then none
    else if key = Utf8.encode ['d'] ∧ value = Utf8.encode ['0'] then none
    else if key = Utf8.encode ['e'] then some (value = Utf8.encode ['1'])
    else if key = Utf8.encode ['p'] ∧ value ≠ [] ∧ value ≠ Utf8.encode "title".toList ∧
        value ≠ Utf8.encode "body".toList then none
    else some base64) false

/-- A whole number of base64 quanta, which covers the characters carried. -/
def kittyBudget : ℕ := (byteBudget maxNotifyBodyChars + 2) / 3 * 4

def kittyMessage (decode : Bytes → Option Bytes) (metadata : Bytes) (payload : List Bytes) :
    Option String :=
  match kittyEncoding metadata with
  | none => none
  | some false => some (boundedText payload maxNotifyBodyChars)
  | some true =>
    (decode ((payload.headD []).take kittyBudget)).map fun decoded =>
      boundedText [decoded] maxNotifyBodyChars

/-- Base64 encodes three bytes to a quantum of four, each by itself. -/
def Quantal (decode : Bytes → Option Bytes) : Prop :=
  ∀ encoded decoded, decode encoded = some decoded → ∀ k, 4 * k ≤ encoded.length →
    decode (encoded.take (4 * k)) = some (decoded.take (3 * k))

def wholeText (params : List Bytes) : List Char := Utf8.lossy ([separator].intercalate params)

variable {budget : ℕ}

theorem gatherParams_rest {n : ℕ} (hn : 0 < n) {bytes : Bytes} (hbytes : bytes.length ≤ budget)
    (params : List Bytes) :
    let whole := bytes ++ params.flatMap (separator :: ·)
    (whole.length ≤ budget → gatherParams budget n bytes params = whole) ∧
      (gatherParams budget n bytes params).take budget = whole.take budget := by
  induction params generalizing n bytes with
  | nil => simp [gatherParams]
  | cons param params ih =>
    have hwhole : bytes ++ (param :: params).flatMap (separator :: ·) =
        (bytes ++ [separator]) ++ (param ++ params.flatMap (separator :: ·)) := by
      simp
    dsimp only
    rw [hwhole, gatherParams, if_pos hn]
    generalize hstart : bytes ++ [separator] = start
    split_ifs with hroom
    · constructor
      · intro hle
        rw [List.length_append] at hle
        have hnone : param ++ params.flatMap (separator :: ·) = [] :=
          length_eq_zero_iff.mp (by omega)
        rw [hnone, append_nil]
      · rw [take_append_of_le_length (by omega)]
    · have hcopied : (start ++ param.take (budget - start.length)).length ≤ budget := by
        rw [List.length_append, length_take]
        omega
      have hih := ih (Nat.succ_pos n) hcopied
      dsimp only at hih
      by_cases hfits : param.length ≤ budget - start.length
      · rw [take_of_length_le hfits, append_assoc] at hih
        rw [take_of_length_le hfits]
        exact hih
      · have hfull : (start ++ param.take (budget - start.length)).length = budget := by
          rw [List.length_append, length_take]
          omega
        constructor
        · intro hle
          simp only [List.length_append] at hle
          omega
        · rw [hih.2, take_append_of_le_length (Nat.le_of_eq hfull.symm),
            take_of_length_le (Nat.le_of_eq hfull), take_append,
            take_of_length_le (by omega : start.length ≤ budget),
            take_append_of_le_length (by omega)]

theorem gatherParams_spec (params : List Bytes) :
    let whole := [separator].intercalate params
    (whole.length ≤ budget → gatherParams budget 0 [] params = whole) ∧
      (gatherParams budget 0 [] params).take budget = whole.take budget := by
  cases params with
  | nil => simp [gatherParams]
  | cons param params =>
    have hwhole : [separator].intercalate (param :: params) =
        param ++ params.flatMap (separator :: ·) := by
      induction params generalizing param with
      | nil => simp
      | cons next params ih =>
        rw [intercalate_cons_cons, ih, flatMap_cons]
        simp
    dsimp only
    rw [hwhole, gatherParams, if_neg (Nat.lt_irrefl 0)]
    simp only [length_nil, nil_append, Nat.sub_zero]
    split_ifs with hzero
    · subst hzero
      refine ⟨fun hle => ?_, by rw [take_zero, take_zero]⟩
      exact (length_eq_zero_iff.mp (Nat.le_zero.mp hle)).symm
    · have hrest := @gatherParams_rest budget 1 Nat.one_pos (param.take budget)
        (by rw [length_take]; omega) params
      dsimp only at hrest
      by_cases hfits : param.length ≤ budget
      · rwa [take_of_length_le hfits] at hrest ⊢
      · have hfull : (param.take budget).length = budget := by
          rw [length_take]
          omega
        constructor
        · intro hle
          rw [List.length_append] at hle
          omega
        · rw [hrest.2, take_append_of_le_length (Nat.le_of_eq hfull.symm),
            take_of_length_le (Nat.le_of_eq hfull), take_append_of_le_length (by omega)]

/-- A separator is copied before the room is looked at, so one byte may be past the budget. -/
theorem length_gatherParams_le (params : List Bytes) (n : ℕ) {bytes : Bytes}
    (hbytes : bytes.length ≤ budget) : (gatherParams budget n bytes params).length ≤ budget + 1 := by
  induction params generalizing n bytes with
  | nil => exact Nat.le_succ_of_le hbytes
  | cons param params ih =>
    have hstart : (if 0 < n then bytes ++ [separator] else bytes).length ≤ budget + 1 := by
      split_ifs
      · rw [List.length_append, length_singleton]
        omega
      · omega
    rw [gatherParams]
    generalize (if 0 < n then bytes ++ [separator] else bytes) = start at hstart ⊢
    split_ifs with hroom
    · exact hstart
    · apply ih
      rw [List.length_append, length_take]
      omega

theorem boundedText_eq (params : List Bytes) (chars : ℕ)
    (h : usizeMax < 4 * chars → ([separator].intercalate params).length ≤ usizeMax) :
    boundedText params chars = String.ofList ((wholeText params).take chars) := by
  have hspec := @gatherParams_spec (byteBudget chars) params
  dsimp only at hspec
  unfold boundedText wholeText
  by_cases hsaturated : 4 * chars ≤ usizeMax
  · have hbudget : byteBudget chars = 4 * chars := Nat.min_eq_left hsaturated
    rw [hbudget] at hspec ⊢
    rw [Utf8.take_lossy hspec.2]
  · have hbudget : byteBudget chars = usizeMax := Nat.min_eq_right (by omega)
    rw [hspec.1 (hbudget ▸ h (by omega))]

theorem kittyMessage_eq {decode : Bytes → Option Bytes} (hquantal : Quantal decode)
    {metadata decoded : Bytes} {payload : List Bytes} (hbase64 : kittyEncoding metadata = some true)
    (hdecode : decode (payload.headD []) = some decoded) :
    kittyMessage decode metadata payload =
      some (String.ofList ((Utf8.lossy decoded).take maxNotifyBodyChars)) := by
  have hcap : byteBudget maxNotifyBodyChars = 4000 := by decide
  have hfour : 4 * maxNotifyBodyChars = 4000 := by decide
  have hbudget : kittyBudget = 4 * 1334 := by decide
  have htext : ∀ bytes : Bytes, bytes.take 4000 = decoded.take 4000 →
      boundedText [bytes] maxNotifyBodyChars =
        String.ofList ((Utf8.lossy decoded).take maxNotifyBodyChars) := by
    intro bytes hbytes
    have hgather : gatherParams 4000 0 [] [bytes] = bytes.take 4000 := by
      simp [gatherParams]
    unfold boundedText
    rw [hcap, hgather, ← Utf8.take_lossy (a := bytes.take 4000) (b := decoded)
      (by rw [hfour, take_take, Nat.min_self, hbytes])]
  unfold kittyMessage
  rw [hbase64]
  dsimp only
  by_cases hlong : kittyBudget ≤ (payload.headD []).length
  · have hcut := hquantal _ _ hdecode 1334 (hbudget ▸ hlong)
    rw [hbudget, hcut, Option.map_some, htext _ (by rw [take_take]; rfl)]
  · rw [take_of_length_le (by omega), hdecode, Option.map_some, htext decoded rfl]

/-- What a notification shows is the start of its text, though no more than four bytes a character
are copied of it and one separator. A cap that saturates the budget needs the sequence to fit in
memory. -/
theorem notification_text (decode : Bytes → Option Bytes) (hquantal : Quantal decode) :
    (∀ params chars, (usizeMax < 4 * chars → ([separator].intercalate params).length ≤ usizeMax) →
      boundedText params chars = String.ofList ((wholeText params).take chars)) ∧
    (∀ params chars,
      (gatherParams (byteBudget chars) 0 [] params).length ≤ 4 * chars + 1) ∧
    ∀ metadata payload decoded, kittyEncoding metadata = some true →
      decode (payload.headD []) = some decoded → kittyMessage decode metadata payload =
        some (String.ofList ((Utf8.lossy decoded).take maxNotifyBodyChars)) := by
  refine ⟨boundedText_eq, fun params chars => ?_,
    fun _ _ _ hbase64 hdecode => kittyMessage_eq hquantal hbase64 hdecode⟩
  have hcopied : (gatherParams (byteBudget chars) 0 [] params).length ≤ byteBudget chars + 1 :=
    length_gatherParams_le params 0 (Nat.zero_le _)
  have hbudget : byteBudget chars ≤ 4 * chars := Nat.min_le_left _ _
  exact Nat.le_trans hcopied (Nat.succ_le_succ hbudget)

def decodeHi (encoded : Bytes) : Option Bytes :=
  if encoded = Utf8.encode "aGk=".toList then some (Utf8.encode "hi".toList)
  else if encoded = [] then some []
  else none

theorem quantal_decodeHi : Quantal decodeHi := by
  intro encoded decoded h k hk
  unfold decodeHi at h
  split_ifs at h with hhi hnil
  · subst hhi
    cases h
    have hlength : (Utf8.encode "aGk=".toList).length = 4 := by decide
    have hcases : k = 0 ∨ k = 1 := by omega
    rcases hcases with rfl | rfl <;> decide
  · subst hnil
    cases h
    rw [take_nil, take_nil]
    rfl

theorem notification_text_hi :
    boundedText [Utf8.encode ['h'], Utf8.encode ['i']] 2 = "h;" ∧
      kittyMessage decodeHi (Utf8.encode "e=1".toList) [Utf8.encode "aGk=".toList] = some "hi" := by
  obtain ⟨hplain, -, hkitty⟩ := notification_text decodeHi quantal_decodeHi
  refine ⟨(hplain _ 2 fun h => absurd h (by decide)).trans (by decide), ?_⟩
  exact (hkitty _ _ (Utf8.encode "hi".toList) (by decide) (by decide)).trans (by decide)

/-- The four bytes of the first parameter are there for one character, and then its separator. -/
theorem separator_past_budget :
    ¬ ∀ params chars, (gatherParams (byteBudget chars) 0 [] params).length ≤ 4 * chars := by
  intro h
  have hfive := h [Utf8.encode "aaaa".toList, Utf8.encode ['b']] 1
  revert hfive
  decide

end Soloist
