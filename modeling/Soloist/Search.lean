import Mathlib.Data.List.Infix

/-! Searching a list for a pattern. A pattern whose first element does not occur in it again cannot
overlap another one that starts with that element. -/
open List

namespace Search
variable {α : Type*} {p q a b c t x : List α} {z : α}

theorem prefix_of_prefix_append (hz : z ∉ p.tail) (ha : a ≠ []) (h : p <+: a ++ z :: x) :
    p <+: a := by
  rcases prefix_or_prefix_of_prefix h (prefix_append a (z :: x)) with hp | ⟨m, rfl⟩
  · exact hp
  · have hm : m <+: z :: x := (prefix_append_right_inj a).mp h
    cases m with
    | nil => simp
    | cons y m =>
      have hy : y = z := (cons_prefix_cons.mp hm).1
      obtain ⟨d, a, rfl⟩ := exists_cons_of_ne_nil ha
      exact absurd (by simp [hy] : z ∈ (d :: a ++ y :: m).tail) hz

/-- Two patterns that start with the same element, the one before the other. -/
theorem append_prefix_of_lt (hp : z ∉ p.tail) (h : a ++ p ++ b = c ++ z :: x)
    (hlt : a.length < c.length) : a ++ p <+: c := by
  have hac : a <+: c ++ z :: x := ⟨p ++ b, by rw [← h, append_assoc]⟩
  obtain ⟨m, rfl⟩ := prefix_of_prefix_length_le hac (prefix_append c _) (Nat.le_of_lt hlt)
  have hm : m ≠ [] := by
    rintro rfl
    simp at hlt
  rw [append_assoc, append_assoc, append_cancel_left_eq] at h
  exact (prefix_append_right_inj a).mpr
    (prefix_of_prefix_append hp hm ⟨b, h⟩)

variable [DecidableEq α]

/-- What stands before the first occurrence, and behind it. -/
def split (p : List α) : List α → Option (List α × List α)
  | [] => none
  | z :: t =>
    if p <+: z :: t then some ([], (z :: t).drop p.length)
    else (split p t).map fun s => (z :: s.1, s.2)

/-- The occurrences from left to right: one that is counted is passed over. -/
def countFrom (p : List α) : ℕ → List α → ℕ
  | _, [] => 0
  | skip + 1, _ :: t => countFrom p skip t
  | 0, z :: t => if p <+: z :: t then countFrom p (p.length - 1) t + 1 else countFrom p 0 t

def count (p t : List α) : ℕ := countFrom p 0 t

example : count ['a', 'b'] ['a', 'b', 'b', 'a', 'b'] = 2 := by
  simp [count, countFrom]

theorem countFrom_eq_drop (skip : ℕ) (t : List α) : countFrom p skip t = count p (t.drop skip) := by
  induction t generalizing skip with
  | nil => simp [count, countFrom]
  | cons z t ih =>
    cases skip with
    | zero => rfl
    | succ skip => rw [countFrom, ih, drop_succ_cons]

theorem count_found (h : p <+: z :: t) :
    count p (z :: t) = count p ((z :: t).drop (p.length - 1 + 1)) + 1 := by
  rw [count, countFrom, if_pos h, countFrom_eq_drop, drop_succ_cons]

theorem count_next (h : ¬p <+: z :: t) : count p (z :: t) = count p t := by
  rw [count, countFrom, if_neg h, count]

theorem count_eq_zero_iff (hp : p ≠ []) : count p t = 0 ↔ ¬p <:+: t := by
  induction t with
  | nil => simp [count, countFrom, hp]
  | cons z t ih =>
    rw [infix_cons_iff, not_or]
    by_cases h : p <+: z :: t
    · simp [count_found h, h]
    · simp [count_next h, h, ih]

/-- An element that a pattern does not go on with parts what is before it from what is behind. -/
theorem count_append (hp : p ≠ []) (hz : z ∉ p.tail) (a x : List α) :
    count p (a ++ z :: x) = count p a + count p (z :: x) := by
  induction hn : a.length using Nat.strong_induction_on generalizing a with
  | _ n ih =>
    cases a with
    | nil => simp [count, countFrom]
    | cons y a =>
      have hiff : p <+: y :: (a ++ z :: x) ↔ p <+: y :: a :=
        ⟨prefix_of_prefix_append (a := y :: a) hz (by simp),
          fun h => h.trans (prefix_append (y :: a) _)⟩
      by_cases h : p <+: y :: a
      · have hpos : 0 < p.length := length_pos_of_ne_nil hp
        have hle := h.length_le
        have hdrop : (y :: (a ++ z :: x)).drop (p.length - 1 + 1) =
            (y :: a).drop (p.length - 1 + 1) ++ z :: x :=
          @drop_append_of_le_length _ (y :: a) (z :: x) _ (by omega)
        rw [cons_append, count_found (hiff.mpr h), count_found h, hdrop,
          ih _ (by simp at hn ⊢; omega) ((y :: a).drop (p.length - 1 + 1)) rfl]
        omega
      · rw [cons_append, count_next (mt hiff.mp h), count_next h]
        exact ih _ (by simp at hn; omega) a rfl

theorem count_skip (hz : p.head? = some z) (ha : z ∉ a) : count p (a ++ t) = count p t := by
  induction a with
  | nil => rfl
  | cons y a ih =>
    obtain ⟨hy, ha⟩ : ¬z = y ∧ z ∉ a := by simpa using ha
    obtain ⟨p, rfl⟩ := head?_eq_some_iff.mp hz
    rw [cons_append, count_next (fun h => hy (cons_prefix_cons.mp h).1), ih ha]

theorem count_other (hp : p.head? = some z) (hq : z ∉ q.tail) (hpq : ¬p <+: q) (hqp : ¬q <+: p) :
    count p (q ++ t) = count p t := by
  cases q with
  | nil => rfl
  | cons y q =>
    have hnot : ¬p <+: y :: (q ++ t) := by
      intro h
      rcases prefix_or_prefix_of_prefix h (prefix_append (y :: q) t) with h | h
      · exact hpq h
      · exact hqp h
    have hq : z ∉ q := hq
    rw [cons_append, count_next hnot, count_skip hp hq]

theorem count_pattern (hp : p ≠ []) : count p (p ++ t) = count p t + 1 := by
  obtain ⟨y, p, rfl⟩ := exists_cons_of_ne_nil hp
  have hprefix : y :: p <+: y :: (p ++ t) := prefix_append (y :: p) t
  rw [cons_append, count_found hprefix]
  simp

theorem split_eq_some (hp : p ≠ []) (h : split p t = some (a, b)) :
    t = a ++ p ++ b ∧ ¬p <:+: a := by
  induction t generalizing a b with
  | nil => simp [split] at h
  | cons z t ih =>
    unfold split at h
    split_ifs at h with hprefix
    · obtain ⟨rfl, rfl⟩ : [] = a ∧ (z :: t).drop p.length = b := by simpa using h
      obtain ⟨rest, hrest⟩ := hprefix
      simp [← hrest, hp]
    · obtain ⟨⟨a, b⟩, hs, hab⟩ := Option.map_eq_some_iff.mp h
      obtain ⟨rfl, rfl⟩ : z :: a = _ ∧ b = _ := by simpa using hab
      obtain ⟨rfl, hinfix⟩ := ih hs
      refine ⟨by simp, fun hin => ?_⟩
      rcases infix_cons_iff.mp hin with hin | hin
      · exact hprefix (hin.trans ⟨p ++ b, by simp⟩)
      · exact hinfix hin

theorem split_append (hp : p ≠ []) (hz : p.head? = some z) (hz' : z ∉ p.tail) (ha : ¬p <:+: a) :
    split p (a ++ p ++ b) = some (a, b) := by
  obtain ⟨y, p, rfl⟩ := exists_cons_of_ne_nil hp
  obtain rfl : y = z := by simpa using hz
  induction a with
  | nil => simp [split]
  | cons d a ih =>
    have hnot : ¬(y :: p) <+: d :: (a ++ (y :: p) ++ b) := by
      intro h
      have hd := prefix_of_prefix_append (a := d :: a) (x := p ++ b) hz' (by simp) (by simpa using h)
      exact ha hd.isInfix
    rw [cons_append, cons_append, split, if_neg hnot,
      ih (fun h => ha (infix_cons h))]
    rfl

end Search
