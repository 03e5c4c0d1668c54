import Mathlib.Data.List.Nodup
import Mathlib.Data.List.Perm.Subperm
import Mathlib.Data.Nat.Find

/-! The first of numbered names that a list has not taken. -/
open List

namespace Numbering
variable {α : Type*} {f : ℕ → α} {taken : List α}

theorem exists_free (hf : f.Injective) (taken : List α) : ∃ n ≤ taken.length, f n ∉ taken := by
  by_contra! hall
  have hnodup : ((List.range (taken.length + 1)).map f).Nodup := nodup_range.map hf
  have hsubset : (List.range (taken.length + 1)).map f ⊆ taken := by
    intro name hname
    obtain ⟨n, hn, rfl⟩ := mem_map.mp hname
    exact hall n (Nat.le_of_lt_succ (mem_range.mp hn))
  have hlength := (subperm_of_subset hnodup hsubset).length_le
  rw [length_map, length_range] at hlength
  omega

variable [DecidableEq α]

/-- The number a search from zero on ends at. -/
def firstFree (f : ℕ → α) (hf : f.Injective) (taken : List α) : ℕ :=
  Nat.find (let ⟨n, _, hn⟩ := exists_free hf taken; ⟨n, hn⟩ : ∃ n, f n ∉ taken)

variable (hf : f.Injective)

theorem firstFree_not_mem : f (firstFree f hf taken) ∉ taken :=
  Nat.find_spec (p := (f · ∉ taken)) _

theorem mem_of_lt_firstFree {n : ℕ} (h : n < firstFree f hf taken) : f n ∈ taken :=
  not_not.mp (Nat.find_min (p := (f · ∉ taken)) _ h)

theorem firstFree_le : firstFree f hf taken ≤ taken.length := by
  obtain ⟨n, hn, hfree⟩ := exists_free hf taken
  exact Nat.le_trans (Nat.find_min' _ hfree) hn

def search (f : ℕ → α) (taken : List α) : ℕ → ℕ → Option ℕ
  | 0, _ => none
  | turns + 1, n => if f n ∈ taken then search f taken turns (n + 1) else some n

theorem search_eq {turns n : ℕ} (hn : n ≤ firstFree f hf taken)
    (hturns : firstFree f hf taken < n + turns) :
    search f taken turns n = some (firstFree f hf taken) := by
  induction turns generalizing n with
  | zero => omega
  | succ turns ih =>
    unfold search
    rcases Nat.lt_or_eq_of_le hn with hlt | rfl
    · rw [if_pos (mem_of_lt_firstFree hf hlt)]
      exact ih hlt (by omega)
    · exact if_neg (firstFree_not_mem hf)

/-- Decimal numbers behind a mark that is no digit tell names apart. -/
theorem toDigits_inj {a b : List Char} {mark : Char} (hmark : mark.isDigit = false) {n m : ℕ}
    (h : a ++ mark :: Nat.toDigits 10 n = b ++ mark :: Nat.toDigits 10 m) : n = m := by
  have hdigits : ∀ k, ∀ c ∈ (Nat.toDigits 10 k).reverse, (c.isDigit : Bool) = true :=
    fun k c hc => Nat.isDigit_of_mem_toDigits (by decide) (by decide) (mem_reverse.mp hc)
  have htake : ∀ (xs : List Char) (k : ℕ),
      (xs ++ mark :: Nat.toDigits 10 k).reverse.takeWhile Char.isDigit =
        (Nat.toDigits 10 k).reverse := by
    intro xs k
    rw [reverse_append, reverse_cons, append_assoc,
      takeWhile_append_of_pos (hdigits k), singleton_append,
      takeWhile_cons_of_neg (by simp [hmark]), append_nil]
  have hreverse : (Nat.toDigits 10 n).reverse = (Nat.toDigits 10 m).reverse := by
    rw [← htake a n, h, htake b m]
  have hvalue := congrArg (Nat.ofDigitChars 10 · 0) (reverse_injective hreverse)
  simpa using hvalue

end Numbering
