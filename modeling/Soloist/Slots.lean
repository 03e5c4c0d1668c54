import Mathlib.Tactic.Common

/-! Partial maps: a slot per key, with point updates and one membership lemma for each. -/

abbrev Slots (κ α : Type*) := κ → Option α

namespace Slots
variable {κ α : Type*} {t : Slots κ α} {k i : κ} {x y : α} {f : α → α}

def empty : Slots κ α := fun _ => none

@[simp] theorem empty_apply (i : κ) : (empty : Slots κ α) i = none := rfl

variable [DecidableEq κ]

def put (t : Slots κ α) (k : κ) (x : α) : Slots κ α := fun i => if i = k then some x else t i

def modify (t : Slots κ α) (k : κ) (f : α → α) : Slots κ α :=
  fun i => if i = k then (t i).map f else t i

def erase (t : Slots κ α) (k : κ) : Slots κ α := fun i => if i = k then none else t i

@[simp] theorem put_self : t.put k x k = some x := if_pos rfl

theorem put_of_ne (h : i ≠ k) : t.put k x i = t i := if_neg h

theorem put_of_get (h : t k = some x) : t.put k x = t := by
  funext i
  by_cases hi : i = k
  · rw [hi, put_self, h]
  · exact put_of_ne hi

theorem put_eq_some : t.put k x i = some y ↔ i = k ∧ x = y ∨ i ≠ k ∧ t i = some y := by
  unfold put
  split_ifs with h
  · simp [h]
  · simp [h]

theorem exists_put (h : t i = some y) : ∃ z, t.put k x i = some z := by
  by_cases hi : i = k
  · exact ⟨x, if_pos hi⟩
  · exact ⟨y, (put_of_ne hi).trans h⟩

theorem modify_self (h : t k = some x) : t.modify k f k = some (f x) := by
  simp [modify, h]

theorem modify_of_ne (h : i ≠ k) : t.modify k f i = t i := if_neg h

theorem modify_id : t.modify k id = t := by
  funext i
  unfold modify
  split_ifs
  · rw [Option.map_id]
    rfl
  · rfl

theorem modify_eq_some :
    t.modify k f i = some y ↔ ∃ x, t i = some x ∧ (if i = k then f x else x) = y := by
  unfold modify
  split_ifs with h
  · rw [Option.map_eq_some_iff]
  · simp

theorem exists_modify (h : t i = some y) : ∃ z, t.modify k f i = some z :=
  ⟨if i = k then f y else y, modify_eq_some.mpr ⟨y, h, rfl⟩⟩

theorem erase_of_none (h : t i = none) : t.erase k i = none := by
  unfold erase
  split_ifs
  · rfl
  · exact h

theorem erase_eq_some : t.erase k i = some y ↔ i ≠ k ∧ t i = some y := by
  unfold erase
  split_ifs with h
  · simp [h]
  · simp [h]

end Slots
