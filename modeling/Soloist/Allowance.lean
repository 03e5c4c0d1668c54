import Mathlib.Data.List.Basic
import Mathlib.Algebra.GroupWithZero.Nat

/-! What is taken from the front of a list while it fits a limit. -/
open List

namespace Allowance
variable {α : Type*} {size : α → ℕ} {limit other used : ℕ} {l p : List α}

def total (size : α → ℕ) (l : List α) : ℕ := (l.map size).sum

/-- The elements taken one after another until the first that does not fit. -/
def fit (size : α → ℕ) (limit : ℕ) : ℕ → List α → List α
  | _, [] => []
  | used, x :: rest =>
    if used + size x ≤ limit then x :: fit size limit (used + size x) rest else []

@[simp] theorem total_nil : total size [] = 0 := rfl

@[simp] theorem total_cons {x : α} : total size (x :: l) = size x + total size l := rfl

theorem total_le_of_prefix (h : p <+: l) : total size p ≤ total size l := by
  obtain ⟨rest, rfl⟩ := h
  simp [total]

theorem fit_prefix : fit size limit used l <+: l := by
  induction l generalizing used with
  | nil => exact prefix_rfl
  | cons x rest ih =>
    unfold fit
    split_ifs
    · exact cons_prefix_cons.mpr ⟨rfl, ih⟩
    · exact nil_prefix

/-- A start of the list fits exactly when it is taken. -/
theorem prefix_fit_iff (hused : used ≤ limit) (hp : p <+: l) :
    p <+: fit size limit used l ↔ used + total size p ≤ limit := by
  induction l generalizing used p with
  | nil => simp [prefix_nil.mp hp, hused]
  | cons x rest ih =>
    cases p with
    | nil => simp [hused]
    | cons y p =>
      obtain ⟨rfl, hrest⟩ := cons_prefix_cons.mp hp
      unfold fit
      split_ifs with hfits
      · rw [cons_prefix_cons, ih hfits hrest, total_cons, ← Nat.add_assoc]
        simp
      · rw [total_cons]
        simp only [prefix_nil, reduceCtorEq, false_iff]
        omega

theorem total_fit_le (hused : used ≤ limit) : used + total size (fit size limit used l) ≤ limit :=
  (prefix_fit_iff hused fit_prefix).mp prefix_rfl

theorem total_fit_le_of_ne_nil (h : fit size limit used l ≠ []) :
    used + total size (fit size limit used l) ≤ limit := by
  cases l with
  | nil => exact absurd rfl h
  | cons x rest =>
    by_cases hused : used ≤ limit
    · exact total_fit_le hused
    · rw [fit, if_neg (by omega)] at h
      exact absurd rfl h

/-- What is taken fills the limit when a start of the list does. -/
theorem total_fit_eq_iff (hused : used ≤ limit) :
    used + total size (fit size limit used l) = limit ↔ ∃ p, p <+: l ∧ used + total size p = limit := by
  constructor
  · exact fun h => ⟨_, fit_prefix, h⟩
  · rintro ⟨p, hp, hfills⟩
    have htaken : total size p ≤ total size (fit size limit used l) :=
      total_le_of_prefix ((prefix_fit_iff hused hp).mpr (Nat.le_of_eq hfills))
    have hle : used + total size (fit size limit used l) ≤ limit := total_fit_le hused
    omega

/-- A larger limit takes no more exactly when nothing that fits it misses the smaller one. -/
theorem fit_eq_fit_iff (hused : used ≤ limit) (h : limit ≤ other) :
    fit size limit used l = fit size other used l ↔
      ∀ p, p <+: l → used + total size p ≤ other → used + total size p ≤ limit := by
  have hother : used ≤ other := Nat.le_trans hused h
  constructor
  · intro heq p hp hfits
    rw [← prefix_fit_iff hused hp, heq]
    exact (prefix_fit_iff hother hp).mpr hfits
  · intro hall
    have hsub : fit size limit used l <+: fit size other used l :=
      (prefix_fit_iff hother fit_prefix).mpr (Nat.le_trans (total_fit_le hused) h)
    refine hsub.eq_of_length_le (IsPrefix.length_le ?_)
    exact (prefix_fit_iff hused fit_prefix).mpr (hall _ fit_prefix (total_fit_le hother))

def push (spare limit : ℕ) (text : String) : List String → String × List String
  | [] => (text, [])
  | line :: rest =>
    if limit < text.utf8ByteSize + line.utf8ByteSize + spare then (text, line :: rest)
    else push spare limit (text ++ line) rest

theorem push_eq (spare limit : ℕ) (text : String) (lines : List String) :
    push spare limit text lines =
      let taken := fit String.utf8ByteSize limit (spare + text.utf8ByteSize) lines
      (text ++ String.join taken, lines.drop taken.length) := by
  induction lines generalizing text with
  | nil => simp [push, fit]
  | cons line rest ih =>
    unfold push fit
    by_cases hfits : spare + text.utf8ByteSize + line.utf8ByteSize ≤ limit
    · rw [if_neg (by omega), if_pos hfits, ih, String.utf8ByteSize_append, ← Nat.add_assoc]
      simp [String.append_assoc]
    · rw [if_pos (by omega), if_neg hfits]
      simp

theorem total_eq_size (texts : List String) :
    total String.utf8ByteSize texts = (String.join texts).utf8ByteSize := by
  induction texts with
  | nil => rfl
  | cons text texts ih => rw [total_cons, ih, String.join_cons, String.utf8ByteSize_append]

theorem size_replicate (n : ℕ) (text : String) :
    (String.join (List.replicate n text)).utf8ByteSize = n * text.utf8ByteSize := by
  rw [← total_eq_size, total, map_replicate, sum_replicate_nat]

theorem size_ofList (cs : List Char) :
    (String.ofList cs).utf8ByteSize = (cs.map Char.utf8Size).sum := by
  induction cs with
  | nil => rfl
  | cons c cs ih =>
    have hcons : String.ofList (c :: cs) = String.singleton c ++ String.ofList cs := by
      rw [← String.toList_inj]
      simp
    rw [hcons, String.utf8ByteSize_append, ih, String.utf8ByteSize_singleton, map_cons,
      sum_cons]

theorem size_toString (n : ℕ) : (toString n).utf8ByteSize = (Nat.toDigits 10 n).length := by
  have hones : (Nat.toDigits 10 n).map Char.utf8Size =
      (Nat.toDigits 10 n).map fun _ => 1 := by
    refine map_congr_left fun c hc => Char.utf8Size_eq_one_iff.mpr ?_
    have hdigit : c.isDigit = true := Nat.isDigit_of_mem_toDigits (by decide) (by decide) hc
    simp only [Char.isDigit, Bool.and_eq_true, decide_eq_true_eq] at hdigit
    exact UInt32.le_trans hdigit.2 (by decide)
  show n.repr.utf8ByteSize = _
  rw [Nat.repr_eq_ofList_toDigits, size_ofList, hones, map_const', sum_replicate_nat,
    Nat.mul_one]

end Allowance
