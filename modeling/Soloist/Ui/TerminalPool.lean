import Soloist.Machine
import Soloist.Recency

/-! The pool of terminals that stay mounted: the processes selected last, of those that exist. -/
open List Option

namespace Soloist.Ui

def nextPool (prev : List ℕ) (selectedId : Option ℕ) (existing : List ℕ) (cap : ℕ) : List ℕ :=
  let pool := prev.filter (· ∈ existing)
  let pool :=
    match selectedId with
    | some id => if id ∈ existing then id :: pool.filter (· ≠ id) else pool
    | none => pool
  if pool.length > cap then pool.take cap else pool

/-- An update of the pool, as its effect runs. -/
structure PoolUpdate where
  selectedId : Option ℕ
  existing : List ℕ

structure TerminalPool where
  pool : List ℕ
  /-- What every update dropped and selected. -/
  acts : List (Recency.Event ℕ)

def PoolUpdate.acts (u : PoolUpdate) : List (Recency.Event ℕ) :=
  Recency.Event.drop (fun id => id ∉ u.existing) ::
    match u.selectedId with
    | some id => if id ∈ u.existing then [.use id] else []
    | none => []

def poolMachine (cap : ℕ) : Machine TerminalPool PoolUpdate where
  init s := s = ⟨[], []⟩
  step s u := some ⟨nextPool s.pool u.selectedId u.existing cap, s.acts ++ u.acts⟩

variable {cap : ℕ} {s : TerminalPool} {h : List (Recency.Event ℕ)} {u : PoolUpdate}

theorem take_if (l : List ℕ) : (if l.length > cap then l.take cap else l) = l.take cap := by
  split_ifs with hfull
  · rfl
  · exact (take_of_length_le (Nat.le_of_not_lt hfull)).symm

/-- One update drops, selects and cuts off; what was dropped before leaves nothing to cut off. -/
theorem nextPool_eq : nextPool (Recency.capped cap h) u.selectedId u.existing cap =
    Recency.capped cap (h ++ u.acts) := by
  have hkept : (Recency.capped cap h).filter (· ∈ u.existing) =
      Recency.capped cap (h ++ [.drop fun id => id ∉ u.existing]) := by
    have hfilter : (Recency.capped cap h).filter (· ∈ u.existing) =
        Recency.apply (Recency.capped cap h) (.drop fun id => id ∉ u.existing) := by
      apply filter_congr
      intro id _
      simp
    rw [Recency.capped_snoc, ← hfilter]
    have hle := length_filter_le (· ∈ u.existing) (Recency.capped cap h)
    exact (take_of_length_le (Nat.le_trans hle Recency.length_capped_le)).symm
  have hdropped : (Recency.capped cap (h ++ [.drop fun id => id ∉ u.existing])).take cap =
      Recency.capped cap (h ++ [.drop fun id => id ∉ u.existing]) :=
    take_of_length_le Recency.length_capped_le
  unfold nextPool PoolUpdate.acts
  simp only [take_if, hkept]
  split
  next id hselected =>
    split_ifs with hid
    · have hsnoc : h ++ [Recency.Event.drop fun id => id ∉ u.existing, .use id] =
          (h ++ [.drop fun id => id ∉ u.existing]) ++ [.use id] := by simp
      have hlast := Recency.capped_snoc (n := cap) (e := Recency.Event.use id)
        (h := h ++ [.drop fun id => id ∉ u.existing])
      rw [hsnoc, hlast]
      rfl
    · exact hdropped
  next hnone => exact hdropped

theorem pool_of_reachable (hs : (poolMachine cap).Reachable s) :
    s.pool = Recency.capped cap s.acts := by
  refine hs.invariant (P := fun s => s.pool = Recency.capped cap s.acts) ?_ ?_
  · rintro s rfl
    rfl
  · intro s u t hs ht
    obtain rfl := some.inj ht
    show nextPool s.pool u.selectedId u.existing cap = _
    rw [hs]
    exact nextPool_eq

/-- After any updates, a terminal is in the pool exactly if its process was selected, existed at
every update since, and was never behind as many others that were selected after it and still
existed; the pool stays within its cap and lists the terminals by their last selection. -/
theorem terminal_pool_exact (hs : (poolMachine cap).Reachable s) :
    s.pool.Nodup ∧ s.pool.length ≤ cap ∧ s.pool <+: Recency.order s.acts ∧
    ∀ id, id ∈ s.pool ↔ ∃ a b, s.acts = a ++ .use id :: b ∧ Recency.untouched b id = true ∧
      ∀ b', b' <+: b → (Recency.order b').length < cap := by
  rw [pool_of_reachable hs]
  exact ⟨Recency.nodup_capped, Recency.length_capped_le, Recency.capped_prefix,
    fun _ => Recency.mem_capped⟩

theorem terminal_pool_exact_evicted :
    ∃ s, (poolMachine 2).Reachable s ∧ s.pool = [3] ∧ 1 ∉ s.pool ∧
      s.pool <+: Recency.order s.acts ∧ 1 ∈ Recency.order s.acts := by
  obtain ⟨s, hs, hpool, hgone⟩ :=
    Machine.exists_reachable_of_run (M := poolMachine 2) rfl
      [⟨some 1, [1, 2, 3]⟩, ⟨some 2, [1, 2, 3]⟩, ⟨some 3, [1, 2, 3]⟩, ⟨some 3, [1, 3]⟩]
      (fun s => s.pool = [3] ∧ 1 ∈ Recency.order s.acts) (by decide)
  obtain ⟨-, -, hprefix, -⟩ := terminal_pool_exact hs
  have hnot : 1 ∉ s.pool := by
    rw [hpool]
    decide
  exact ⟨s, hs, hpool, hnot, hprefix, hgone⟩

end Soloist.Ui
