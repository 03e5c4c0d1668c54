import Mathlib.Data.List.Basic
import Mathlib.Logic.Relation

/-! What some elements lead to along a partial successor, found by a worklist. -/
open List

namespace Closure
variable {α : Type*} {next : α → Option α}

/-- Following `next` from the first leads to the second. -/
def Leads (next : α → Option α) : α → α → Prop :=
  Relation.ReflTransGen fun a b => next a = some b

theorem leads_refl (a : α) : Leads next a a := .refl

variable {a b : α}

theorem leads_head {c : α} (hab : next a = some b) (hbc : Leads next b c) : Leads next a c :=
  Relation.ReflTransGen.head hab hbc

variable {s : List α}

theorem mem_of_leads (hclosed : ∀ a ∈ s, ∀ b, next a = some b → b ∈ s) (ha : a ∈ s)
    (hab : Leads next a b) : b ∈ s := by
  induction hab with
  | refl => exact ha
  | tail _ hbc ih => exact hclosed _ ih _ hbc

variable {x : α}

theorem mem_iff_of_closed (hclosed : ∀ a ∈ s, ∀ b, next a = some b → b ∈ s) :
    x ∈ s ↔ ∃ a ∈ s, Leads next a x := by
  constructor
  · intro hx
    exact ⟨x, hx, leads_refl x⟩
  · rintro ⟨a, ha, hax⟩
    exact mem_of_leads hclosed ha hax

variable [DecidableEq α]

/-- Takes an element off the frontier and puts its successor on, unless that was found before. -/
def close (next : α → Option α) : ℕ → List α → List α → List α
  | 0, found, _ => found
  | _ + 1, found, [] => found
  | fuel + 1, found, a :: frontier =>
    match next a with
    | none => close next fuel found frontier
    | some b =>
      if b ∈ found then close next fuel found frontier
      else close next fuel (b :: found) (b :: frontier)

def missing (targets found : List α) : ℕ := targets.countP (· ∉ found)

variable {found targets : List α}

theorem missing_cons_lt (hb : b ∈ targets) (hnew : b ∉ found) :
    missing targets (b :: found) < missing targets found := by
  unfold missing
  induction targets with
  | nil => cases hb
  | cons c rest ih =>
    have hle : rest.countP (· ∉ b :: found) ≤ rest.countP (· ∉ found) := by
      apply countP_mono_left
      intro x _ hx
      simp only [mem_cons, not_or, decide_eq_true_eq] at hx ⊢
      exact hx.2
    by_cases hc : c = b
    · subst hc
      rw [countP_cons_of_neg (by simp), countP_cons_of_pos (by simpa using hnew)]
      omega
    · have hrest := ih ((mem_cons.mp hb).resolve_left fun h => hc h.symm)
      by_cases hfound : c ∈ found
      · rw [countP_cons_of_neg (by simp [hfound]), countP_cons_of_neg (by simp [hfound])]
        exact hrest
      · rw [countP_cons_of_pos (by simp [hfound, hc]),
          countP_cons_of_pos (by simp [hfound])]
        omega

variable {fuel : ℕ}

variable {frontier : List α}

theorem mem_close (htargets : ∀ a b, next a = some b → b ∈ targets)
    (hclosed : ∀ a ∈ found, a ∈ frontier ∨ ∀ b, next a = some b → b ∈ found)
    (hfrontier : ∀ a ∈ frontier, a ∈ found)
    (hfuel : frontier.length + missing targets found ≤ fuel) :
    x ∈ close next fuel found frontier ↔ ∃ a ∈ found, Leads next a x := by
  have hdone : ∀ found : List α, (∀ a ∈ found, a ∈ [] ∨ ∀ b, next a = some b → b ∈ found) →
      (x ∈ found ↔ ∃ a ∈ found, Leads next a x) := fun found hclosed =>
    mem_iff_of_closed fun a ha => (hclosed a ha).resolve_left not_mem_nil
  induction fuel generalizing found frontier with
  | zero =>
    obtain rfl : frontier = [] := length_eq_zero_iff.mp (by omega)
    exact hdone found hclosed
  | succ fuel ih =>
    cases frontier with
    | nil => exact hdone found hclosed
    | cons a frontier =>
      rw [length_cons] at hfuel
      have hrest : ∀ b ∈ frontier, b ∈ found := fun b hb => hfrontier b (.tail _ hb)
      -- an element whose successor is found leaves the frontier
      have hskip : (∀ b, next a = some b → b ∈ found) →
          (x ∈ close next fuel found frontier ↔ ∃ a ∈ found, Leads next a x) := by
        intro hfound
        refine ih ?_ hrest (by omega)
        intro c hc
        obtain hin | hsucc := hclosed c hc
        · obtain rfl | hin := mem_cons.mp hin
          · exact .inr hfound
          · exact .inl hin
        · exact .inr hsucc
      rw [close]
      cases hnext : next a with
      | none =>
        apply hskip
        intro b hb
        rw [hnext] at hb
        cases hb
      | some b =>
        dsimp only
        split_ifs with hb
        · apply hskip
          intro c hc
          rw [hnext] at hc
          exact Option.some.inj hc ▸ hb
        · have hlt := missing_cons_lt (htargets a b hnext) hb
          have hclosed' : ∀ c ∈ b :: found, c ∈ b :: frontier ∨
              ∀ d, next c = some d → d ∈ b :: found := by
            intro c hc
            obtain rfl | hc := mem_cons.mp hc
            · exact .inl (.head _)
            · obtain hin | hsucc := hclosed c hc
              · obtain rfl | hin := mem_cons.mp hin
                · right
                  intro d hd
                  rw [hnext] at hd
                  exact Option.some.inj hd ▸ (.head _)
                · exact .inl (.tail _ hin)
              · exact .inr fun d hd => .tail _ (hsucc d hd)
          have hfrontier' : ∀ c ∈ b :: frontier, c ∈ b :: found := by
            intro c hc
            obtain rfl | hc := mem_cons.mp hc
            · exact .head _
            · exact .tail _ (hrest c hc)
          refine (ih hclosed' hfrontier' (by rw [length_cons]; omega)).trans ?_
          constructor
          · rintro ⟨c, hc, hcx⟩
            obtain rfl | hc := mem_cons.mp hc
            · exact ⟨a, hfrontier a (.head _), leads_head hnext hcx⟩
            · exact ⟨c, hc, hcx⟩
          · rintro ⟨c, hc, hcx⟩
            exact ⟨c, .tail _ hc, hcx⟩

def close? (next : α → Option α) : ℕ → List α → List α → Option (List α)
  | _, found, [] => some found
  | 0, _, _ :: _ => none
  | fuel + 1, found, a :: frontier =>
    match next a with
    | none => close? next fuel found frontier
    | some b =>
      if b ∈ found then close? next fuel found frontier
      else close? next fuel (b :: found) (b :: frontier)

theorem close?_eq_some (htargets : ∀ a b, next a = some b → b ∈ targets)
    (hfuel : frontier.length + missing targets found ≤ fuel) :
    close? next fuel found frontier = some (close next fuel found frontier) := by
  induction fuel generalizing found frontier with
  | zero =>
    obtain rfl : frontier = [] := length_eq_zero_iff.mp (by omega)
    rfl
  | succ fuel ih =>
    cases frontier with
    | nil => rfl
    | cons a frontier =>
      rw [length_cons] at hfuel
      rw [close?, close]
      cases hnext : next a with
      | none => exact ih (by omega)
      | some b =>
        dsimp only
        split_ifs with hb
        · exact ih (by omega)
        · have hlt := missing_cons_lt (htargets a b hnext) hb
          exact ih (by rw [length_cons]; omega)

/-- Follows `next` to an element without a successor, or one met before; answers only when it has
got there. -/
def follow (next : α → Option α) : ℕ → List α → α → Option α
  | 0, _, _ => none
  | fuel + 1, visited, a =>
    if a ∈ visited then some a
    else
      match next a with
      | none => some a
      | some b => follow next fuel (a :: visited) b

variable {visited : List α}

theorem follow_isSome {sources : List α} (hsources : ∀ a b, next a = some b → a ∈ sources)
    (hfuel : missing sources visited < fuel) : (follow next fuel visited a).isSome = true := by
  induction fuel generalizing visited a with
  | zero => omega
  | succ fuel ih =>
    rw [follow]
    split_ifs with hvisited
    · rfl
    · cases hnext : next a with
      | none => rfl
      | some b =>
        have hlt := missing_cons_lt (hsources a b hnext) hvisited
        exact ih (by omega)

theorem follow_add {r : α} (h : follow next fuel visited a = some r) (more : ℕ) :
    follow next (fuel + more) visited a = some r := by
  induction fuel generalizing visited a with
  | zero => cases h
  | succ fuel ih =>
    rw [Nat.succ_add]
    rw [follow] at h ⊢
    split_ifs at h ⊢ with hvisited
    · exact h
    · cases hnext : next a with
      | none =>
        rw [hnext] at h
        exact h
      | some b =>
        rw [hnext] at h
        exact ih h

theorem follow_congr {next' : α → Option α} (hsame : ∀ b, Leads next a b → next' b = next b) :
    follow next' fuel visited a = follow next fuel visited a := by
  induction fuel generalizing visited a with
  | zero => rfl
  | succ fuel ih =>
    rw [follow, follow, hsame a (leads_refl a)]
    split_ifs with hvisited
    · rfl
    · cases hnext : next a with
      | none => rfl
      | some b => exact ih fun c hc => hsame c (leads_head hnext hc)

end Closure
