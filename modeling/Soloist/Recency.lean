import Mathlib.Data.List.Induction

/-! Most-recently-used order. A use brings its key to the front, a drop takes keys out, and a cap
cuts off what was used longest ago. -/

open List

namespace Recency
variable {κ : Type*}

inductive Event (κ : Type*)
  | use (k : κ)
  | drop (p : κ → Bool)

variable [DecidableEq κ]

/-- The event moves the key, or takes it out. -/
def Event.hits (k : κ) : Event κ → Bool
  | .use j => j = k
  | .drop p => p k

def untouched (h : List (Event κ)) (k : κ) : Bool := h.all fun e => !e.hits k

def touch (k : κ) (l : List κ) : List κ := k :: l.filter (· ≠ k)

def apply (l : List κ) : Event κ → List κ
  | .use k => touch k l
  | .drop p => l.filter (!p ·)

/-- The keys of a history, newest first. -/
def order (h : List (Event κ)) : List κ := h.foldl apply []

/-- The same in a list of at most `n` keys. -/
def capped (n : ℕ) (h : List (Event κ)) : List κ := h.foldl (fun l e => (apply l e).take n) []

variable {h a b : List (Event κ)} {e : Event κ} {k : κ} {l rest : List κ} {n : ℕ}

theorem order_snoc : order (h ++ [e]) = apply (order h) e := by
  unfold order
  rw [foldl_append]
  rfl

theorem capped_snoc : capped n (h ++ [e]) = (apply (capped n h) e).take n := by
  unfold capped
  rw [foldl_append]
  rfl

theorem untouched_snoc : untouched (h ++ [e]) k = (untouched h k && !e.hits k) := by
  unfold untouched
  rw [all_append, all_cons, all_nil, Bool.and_true]

/-- An event acts on the front of a list by itself, and only takes out of what is behind. -/
theorem apply_append : apply (l ++ rest) e = apply l e ++ rest.filter (fun j => !e.hits j) := by
  cases e with
  | use k =>
    show k :: (l ++ rest).filter (· ≠ k) = k :: l.filter (· ≠ k) ++ _
    rw [filter_append, cons_append]
    congr 2
    apply filter_congr
    intro j _
    by_cases hj : j = k
    · simp [Event.hits, hj]
    · simp [Event.hits, hj, Ne.symm hj]
  | drop p => exact filter_append ..

theorem nodup_apply (hl : l.Nodup) : (apply l e).Nodup := by
  cases e with
  | use k =>
    have hnot : k ∉ l.filter (· ≠ k) := by simp
    exact nodup_cons.mpr ⟨hnot, hl.filter _⟩
  | drop p => exact hl.filter _

theorem mem_apply_of_hits (hk : e.hits k = false) : k ∈ apply l e ↔ k ∈ l := by
  cases e with
  | use j =>
    have hne : k ≠ j := by
      rintro rfl
      simp [Event.hits] at hk
    simp [apply, touch, hne]
  | drop p => simp_all [apply, Event.hits]

theorem length_capped_le : (capped n h).length ≤ n := by
  induction h using List.reverseRecOn with
  | nil => exact Nat.zero_le n
  | append_singleton h e ih =>
    rw [capped_snoc]
    exact length_take_le _ _

theorem nodup_capped : (capped n h).Nodup := by
  induction h using List.reverseRecOn with
  | nil => exact nodup_nil
  | append_singleton h e ih =>
    rw [capped_snoc]
    exact (nodup_apply ih).sublist (take_sublist _ _)

theorem prefix_apply {m : List κ} (hlm : l <+: m) : apply l e <+: apply m e := by
  obtain ⟨rest, rfl⟩ := hlm
  rw [apply_append]
  exact prefix_append _ _

theorem capped_prefix : capped n h <+: order h := by
  induction h using List.reverseRecOn with
  | nil => exact prefix_refl _
  | append_singleton h e ih =>
    rw [capped_snoc, order_snoc]
    exact (List.take_prefix _ _).trans (prefix_apply ih)

/-- While fewer than `n` newer keys are kept at every time, a key stays. -/
theorem capped_split (hb : untouched b k = true)
    (hroom : ∀ b', b' <+: b → (order b').length < n) :
    ∃ older, capped n (a ++ .use k :: b) = order b ++ k :: older := by
  induction b using List.reverseRecOn with
  | nil =>
    have hn : 0 < n := hroom [] (prefix_refl _)
    obtain ⟨m, rfl⟩ : ∃ m, n = m + 1 := ⟨n - 1, by omega⟩
    rw [capped_snoc]
    exact ⟨_, take_succ_cons⟩
  | append_singleton b e ih =>
    rw [untouched_snoc, Bool.and_eq_true, Bool.not_eq_true'] at hb
    obtain ⟨older, holder⟩ := ih hb.1 fun b' hb' => hroom b' (hb'.trans (prefix_append _ _))
    have hlt := hroom _ (prefix_refl _)
    have hsnoc : a ++ Event.use k :: (b ++ [e]) = (a ++ .use k :: b) ++ [e] := by simp
    rw [hsnoc, capped_snoc, holder, apply_append, ← order_snoc,
      filter_cons_of_pos (by rw [hb.2]; rfl), take_append]
    obtain ⟨m, hm⟩ : ∃ m, n - (order (b ++ [e])).length = m + 1 :=
      ⟨n - (order (b ++ [e])).length - 1, by omega⟩
    rw [take_of_length_le (by omega), hm, take_succ_cons]
    exact ⟨_, rfl⟩

/-- A capped order holds exactly the keys that were never pushed past the cap since their last
use. -/
theorem mem_capped : k ∈ capped n h ↔ ∃ a b, h = a ++ .use k :: b ∧ untouched b k = true ∧
    ∀ b', b' <+: b → (order b').length < n := by
  constructor
  · intro hk
    induction h using List.reverseRecOn with
    | nil => cases hk
    | append_singleton h e ih =>
      rw [capped_snoc] at hk
      have hmem := mem_of_mem_take hk
      cases hhit : e.hits k with
      | true =>
        cases e with
        | use j =>
          obtain rfl : j = k := by simpa [Event.hits] using hhit
          refine ⟨h, [], rfl, rfl, ?_⟩
          intro b' hb'
          obtain rfl := prefix_nil.mp hb'
          have hlen := length_pos_of_mem hk
          rw [length_take] at hlen
          show 0 < n
          omega
        | drop p =>
          have hkept : p k = false := by simpa [apply] using (mem_filter.mp hmem).2
          have hgone : p k = true := hhit
          rw [hkept] at hgone
          cases hgone
      | false =>
        obtain ⟨a, b, rfl, hb, hroom⟩ := ih ((mem_apply_of_hits hhit).mp hmem)
        obtain ⟨older, holder⟩ := capped_split (a := a) hb hroom
        refine ⟨a, b ++ [e], by simp, ?_, ?_⟩
        · rw [untouched_snoc, hb, hhit]
          rfl
        · intro b' hb'
          rcases prefix_concat_iff.mp hb' with rfl | hold
          · -- `k` stands right behind the newer keys, and was not cut off
            have hnodup : (apply (order b ++ k :: older) e).Nodup := by
              rw [← holder]
              exact nodup_apply nodup_capped
            rw [holder] at hk
            rw [apply_append, ← order_snoc, filter_cons_of_pos (by rw [hhit]; rfl)] at hk hnodup
            by_contra hfull
            have hcut : (order (b ++ [e]) ++ k :: older.filter fun j => !e.hits j).take n <+:
                order (b ++ [e]) := by
              rw [take_append_of_le_length (by omega)]
              exact List.take_prefix _ _
            have hnewer := hcut.subset hk
            exact (nodup_append.mp hnodup).2.2 k hnewer k mem_cons_self rfl
          · exact hroom b' hold
  · rintro ⟨a, b, rfl, hb, hroom⟩
    obtain ⟨older, holder⟩ := capped_split (a := a) hb hroom
    rw [holder]
    exact mem_append_right _ mem_cons_self

end Recency
