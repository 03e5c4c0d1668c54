import Mathlib.Data.List.Basic

/-! A source that delivers its items piece by piece and may fail in between. What is read from it by
the count depends on the items up to the first failure and not on how the pieces are cut. -/

/-- What the reads of a source still meet: pieces of items, failures, and its end. -/
inductive Source (α ε : Type*)
  | ended
  | items (head : α) (rest : List α) (more : Source α ε)
  | fail (e : ε) (more : Source α ε)
  deriving DecidableEq, Repr

open List

namespace Source
variable {α ε : Type*}

def lead : Source α ε → List α
  | .ended => []
  | .items a rest more => a :: (rest ++ more.lead)
  | .fail _ _ => []

def stop : Source α ε → Option ε
  | .ended => none
  | .items _ _ more => more.stop
  | .fail e _ => some e

/-- What a read leaves of a piece goes back in front. -/
def unread (s : Source α ε) : List α → Source α ε
  | [] => s
  | a :: rest => .items a rest s

/-- Reads `n` items, as many of a piece at a time as are still wanted. A source that ends before
fails with `eof`. -/
def readExact (eof : ε) : ℕ → Source α ε → Except ε (List α) × Source α ε
  | 0, s => (.ok [], s)
  | _ + 1, .ended => (.error eof, .ended)
  | _ + 1, .fail e more => (.error e, more)
  | n + 1, .items a rest more =>
    if rest.length ≤ n then
      match readExact eof (n - rest.length) more with
      | (.ok later, s) => (.ok (a :: (rest ++ later)), s)
      | (.error e, s) => (.error e, s)
    else (.ok (a :: rest.take n), more.unread (rest.drop n))

variable {s t : Source α ε} {eof e : ε} {n : ℕ}

@[simp] theorem lead_unread (items : List α) : (s.unread items).lead = items ++ s.lead := by
  cases items <;> rfl

@[simp] theorem stop_unread (items : List α) : (s.unread items).stop = s.stop := by
  cases items <;> rfl

/-- A read that the lead has enough for returns its first items, and takes just these. -/
theorem readExact_of_le (eof : ε) (h : n ≤ s.lead.length) :
    ∃ t, readExact eof n s = (.ok (s.lead.take n), t) ∧ t.lead = s.lead.drop n ∧
      t.stop = s.stop := by
  induction s generalizing n with
  | ended =>
    obtain rfl : n = 0 := Nat.le_zero.mp h
    exact ⟨.ended, rfl, rfl, rfl⟩
  | fail e more =>
    obtain rfl : n = 0 := Nat.le_zero.mp h
    exact ⟨.fail e more, rfl, rfl, rfl⟩
  | items a rest more ih =>
    cases n with
    | zero => exact ⟨.items a rest more, rfl, rfl, rfl⟩
    | succ n =>
      have hlength : n ≤ rest.length + more.lead.length := by
        simp only [lead, length_cons, List.length_append] at h
        omega
      by_cases hrest : rest.length ≤ n
      · obtain ⟨t, ht, hlead, hstop⟩ := ih (n := n - rest.length) (by omega)
        refine ⟨t, ?_, ?_, hstop⟩
        · simp only [readExact, if_pos hrest, ht, lead, take_succ_cons, take_append]
          rw [take_of_length_le hrest]
        · simp only [lead, drop_succ_cons, drop_append]
          rw [drop_of_length_le hrest, hlead, nil_append]
      · have hle : n ≤ rest.length := by omega
        refine ⟨more.unread (rest.drop n), ?_, ?_, stop_unread _⟩
        · simp only [readExact, if_neg hrest, lead, take_succ_cons]
          rw [take_append_of_le_length hle]
        · rw [lead_unread, lead, drop_succ_cons, drop_append_of_le_length hle]

/-- A read that the lead is too short for fails as the source does, or with `eof` at its end. -/
theorem readExact_of_lt (eof : ε) (h : s.lead.length < n) :
    ∃ t, readExact eof n s = (.error (s.stop.getD eof), t) ∧ (s.stop = none → t = .ended) := by
  induction s generalizing n with
  | ended | fail =>
    cases n with
    | zero => exact absurd h (Nat.lt_irrefl 0)
    | succ n => exact ⟨_, rfl, fun hstop => by cases hstop <;> rfl⟩
  | items a rest more ih =>
    cases n with
    | zero => exact absurd h (Nat.not_lt_zero _)
    | succ n =>
      have hlength : rest.length + more.lead.length < n := by
        simp only [lead, length_cons, List.length_append] at h
        omega
      have hrest : rest.length ≤ n := by omega
      obtain ⟨t, ht, hended⟩ := ih (n := n - rest.length) (by omega)
      refine ⟨t, ?_, hended⟩
      simp only [readExact, if_pos hrest, stop, ht]

theorem readExact_eq_ok {items : List α} (h : readExact eof n s = (.ok items, t)) :
    n ≤ s.lead.length ∧ items = s.lead.take n ∧ t.lead = s.lead.drop n ∧ t.stop = s.stop := by
  by_cases hle : n ≤ s.lead.length
  · obtain ⟨t', heq, hlead, hstop⟩ := readExact_of_le eof hle
    rw [heq] at h
    obtain ⟨hitems, rfl⟩ := Prod.mk.inj h
    exact ⟨hle, (Except.ok.inj hitems).symm, hlead, hstop⟩
  · obtain ⟨t', heq, -⟩ := readExact_of_lt eof (Nat.lt_of_not_le hle)
    rw [heq] at h
    cases h

theorem readExact_eq_error (h : readExact eof n s = (.error e, t)) :
    s.lead.length < n ∧ e = s.stop.getD eof ∧ (s.stop = none → t = .ended) := by
  by_cases hle : n ≤ s.lead.length
  · obtain ⟨t', heq, -, -⟩ := readExact_of_le eof hle
    rw [heq] at h
    cases h
  · have hlt := Nat.lt_of_not_le hle
    obtain ⟨t', heq, hended⟩ := readExact_of_lt eof hlt
    rw [heq] at h
    obtain ⟨hfail, rfl⟩ := Prod.mk.inj h
    exact ⟨hlt, (Except.error.inj hfail).symm, hended⟩

end Source
