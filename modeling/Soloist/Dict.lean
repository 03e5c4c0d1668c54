import Mathlib.Data.List.AList
import Mathlib.Algebra.Order.BigOperators.Group.List
import Mathlib.Algebra.GroupWithZero.Nat
import Mathlib.Algebra.Order.Group.Nat

/-! Finite maps and the total weight of what they hold. A map of queues is weighed element by
element, so that a redundant counter can be compared with a recount. -/

/-- A finite map, as an association list with distinct keys. -/
abbrev Dict (κ α : Type*) := AList fun _ : κ => α

open List Option

namespace Dict
variable {κ α : Type*}

def retain (d : Dict κ α) (p : κ → Bool) : Dict κ α :=
  ⟨d.entries.filter fun e => p e.1, d.nodupKeys.sublist List.filter_sublist⟩

def total (f : κ → α → ℕ) (d : Dict κ α) : ℕ := (d.entries.map fun e => f e.1 e.2).sum

@[simp] theorem total_empty (f : κ → α → ℕ) : total f (∅ : Dict κ α) = 0 := rfl

def values (d : Dict κ α) : List α := d.entries.map fun e => e.2

theorem total_eq_values (w : α → ℕ) (d : Dict κ α) :
    total (fun _ x => w x) d = (d.values.map w).sum := by
  rw [total, values, List.map_map]
  rfl

theorem total_le_total {f g : κ → α → ℕ} (h : ∀ k x, f k x ≤ g k x) (d : Dict κ α) :
    total f d ≤ total g d :=
  sum_le_sum fun e _ => h e.1 e.2

variable [DecidableEq κ]

theorem lookup_insert (d : Dict κ α) (k i : κ) (x : α) :
    AList.lookup i (AList.insert k x d) = if i = k then some x else AList.lookup i d := by
  split_ifs with h
  · rw [h, AList.lookup_insert]
  · exact AList.lookup_insert_ne h

theorem lookup_erase (d : Dict κ α) (k i : κ) :
    AList.lookup i (AList.erase k d) = if i = k then none else AList.lookup i d := by
  split_ifs with h
  · rw [h, AList.lookup_erase]
  · exact AList.lookup_erase_ne h

theorem lookup_retain (d : Dict κ α) (p : κ → Bool) (k : κ) :
    AList.lookup k (d.retain p) = if p k then AList.lookup k d else none := by
  ext x
  have hmem : x ∈ AList.lookup k (d.retain p) ↔ x ∈ AList.lookup k d ∧ p k = true := by
    rw [AList.mem_lookup_iff, AList.mem_lookup_iff]
    exact mem_filter
  rw [← mem_def, ← mem_def, hmem]
  split_ifs with hk
  · simp [hk]
  · simp [hk]

private theorem entries_erase (d : Dict κ α) (k : κ) :
    (AList.erase k d).entries = d.entries.kerase k := rfl

theorem total_erase (f : κ → α → ℕ) (d : Dict κ α) (k : κ) :
    total f (d.erase k) + (d.lookup k).elim 0 (f k) = total f d := by
  obtain ⟨entries, hnodup⟩ := d
  simp only [total, entries_erase, AList.lookup]
  induction entries with
  | nil => simp
  | cons e rest ih =>
    obtain ⟨j, x⟩ := e
    have hrest := ih (nodupKeys_cons.mp hnodup).2
    by_cases hj : k = j
    · subst hj
      simp only [kerase_cons_eq, dlookup_cons_eq, elim_some, map_cons,
        sum_cons]
      exact Nat.add_comm _ _
    · rw [kerase_cons_ne hj, dlookup_cons_ne _ _ hj]
      simp only [map_cons, sum_cons]
      omega

theorem total_insert (f : κ → α → ℕ) (d : Dict κ α) (k : κ) (x : α) :
    total f (d.insert k x) + (d.lookup k).elim 0 (f k) = total f d + f k x := by
  have hrest := total_erase f d k
  have hcons : total f (d.insert k x) = f k x + total f (d.erase k) := by
    simp only [total, AList.entries_insert, entries_erase, map_cons, sum_cons]
  omega

theorem le_total (f : κ → α → ℕ) {d : Dict κ α} {k : κ} {x : α} (h : d.lookup k = some x) :
    f k x ≤ total f d := by
  have hrest := total_erase f d k
  rw [h, elim_some] at hrest
  omega

end Dict

/-- A queue per key; a key without an entry has the empty queue. -/
abbrev Queues (κ α : Type*) := Dict κ (List α)

namespace Queues
variable {κ α : Type*}

def weigh (w : α → ℕ) (d : Queues κ α) : ℕ := Dict.total (fun _ xs => (xs.map w).sum) d

def contents (d : Queues κ α) : List α := d.entries.flatMap fun e => e.2

theorem weigh_eq_contents (w : α → ℕ) (d : Queues κ α) : weigh w d = (d.contents.map w).sum := by
  obtain ⟨entries, hnodup⟩ := d
  simp only [weigh, Dict.total, contents]
  induction entries with
  | nil => rfl
  | cons e rest ih =>
    have hrest := ih (nodupKeys_cons.mp hnodup).2
    simp only [map_cons, sum_cons, flatMap_cons, map_append, sum_append,
      hrest]

@[simp] theorem weigh_empty (w : α → ℕ) : weigh w (∅ : Queues κ α) = 0 := rfl

theorem sum_indicator (q : α → Bool) (l : List α) :
    (l.map fun x => if q x then 1 else 0).sum = l.countP q := by
  induction l with
  | nil => rfl
  | cons x rest ih =>
    rw [map_cons, sum_cons, countP_cons, ih]
    exact Nat.add_comm _ _

variable {x : α}

theorem sum_eraseP (w : α → ℕ) {q : α → Bool} {l : List α} (h : l.find? q = some x) :
    ((l.eraseP q).map w).sum + w x = (l.map w).sum := by
  induction l with
  | nil => cases h
  | cons y rest ih =>
    by_cases hy : q y
    · rw [find?_cons_of_pos hy] at h
      cases h
      simp [eraseP_cons_of_pos hy, Nat.add_comm]
    · rw [find?_cons_of_neg hy] at h
      have hrest := ih h
      simp only [eraseP_cons_of_neg hy, map_cons, sum_cons]
      omega

variable [DecidableEq κ]

def queue (d : Queues κ α) (k : κ) : List α := (AList.lookup k d).getD []

def keep (d : Queues κ α) (k : κ) (xs : List α) : Queues κ α :=
  if xs = [] then AList.erase k d else AList.insert k xs d

def push (d : Queues κ α) (k : κ) (x : α) : Queues κ α := AList.insert k (d.queue k ++ [x]) d

variable {d : Queues κ α}

theorem mem_contents : x ∈ d.contents ↔ ∃ k, x ∈ d.queue k := by
  unfold contents Queues.queue
  rw [mem_flatMap]
  constructor
  · rintro ⟨e, he, hx⟩
    have hlookup : AList.lookup e.1 d = some e.2 := AList.mem_lookup_iff.mpr he
    exact ⟨e.1, by rwa [hlookup]⟩
  · rintro ⟨k, hx⟩
    cases hk : AList.lookup k d with
    | none => simp [hk] at hx
    | some xs =>
      rw [hk, getD_some] at hx
      exact ⟨⟨k, xs⟩, AList.mem_lookup_iff.mp hk, hx⟩

theorem queue_insert (d : Queues κ α) (k i : κ) (xs : List α) :
    Queues.queue (AList.insert k xs d) i = if i = k then xs else d.queue i := by
  unfold Queues.queue
  rw [Dict.lookup_insert]
  split_ifs with h
  · rw [getD_some]
  · rfl

theorem queue_erase (d : Queues κ α) (k i : κ) :
    Queues.queue (AList.erase k d) i = if i = k then [] else d.queue i := by
  unfold Queues.queue
  rw [Dict.lookup_erase]
  split_ifs with h
  · rw [getD_none]
  · rfl

theorem queue_keep (d : Queues κ α) (k i : κ) (xs : List α) :
    (d.keep k xs).queue i = if i = k then xs else d.queue i := by
  unfold keep
  split_ifs with hempty h h
  · rw [queue_erase, if_pos h, hempty]
  · rw [queue_erase, if_neg h]
  · rw [queue_insert, if_pos h]
  · rw [queue_insert, if_neg h]

theorem queue_push (d : Queues κ α) (k i : κ) (x : α) :
    (d.push k x).queue i = if i = k then d.queue k ++ [x] else d.queue i := queue_insert d k i _

@[simp] theorem queue_empty (k : κ) : Queues.queue (∅ : Queues κ α) k = [] := rfl

private theorem elim_queue (w : α → ℕ) (d : Queues κ α) (k : κ) :
    (AList.lookup k d).elim 0 (fun xs => (xs.map w).sum) = ((d.queue k).map w).sum := by
  unfold Queues.queue
  cases AList.lookup k d with
  | none => simp
  | some xs => simp

theorem weigh_insert (w : α → ℕ) (d : Queues κ α) (k : κ) (xs : List α) :
    weigh w (AList.insert k xs d) + ((d.queue k).map w).sum = weigh w d + (xs.map w).sum := by
  have h := Dict.total_insert (fun _ xs => (xs.map w).sum) d k xs
  rw [elim_queue] at h
  exact h

theorem weigh_erase (w : α → ℕ) (d : Queues κ α) (k : κ) :
    weigh w (AList.erase k d) + ((d.queue k).map w).sum = weigh w d := by
  have h := Dict.total_erase (fun _ xs => (xs.map w).sum) d k
  rw [elim_queue] at h
  exact h

theorem weigh_keep (w : α → ℕ) (d : Queues κ α) (k : κ) (xs : List α) :
    weigh w (d.keep k xs) + ((d.queue k).map w).sum = weigh w d + (xs.map w).sum := by
  unfold keep
  split_ifs with h
  · rw [weigh_erase, h, map_nil, sum_nil, Nat.add_zero]
  · exact weigh_insert w d k xs

theorem weigh_push (w : α → ℕ) (d : Queues κ α) (k : κ) (x : α) :
    weigh w (d.push k x) = weigh w d + w x := by
  have h := weigh_insert w d k (d.queue k ++ [x])
  rw [map_append, sum_append, map_singleton, sum_singleton] at h
  unfold push
  omega

theorem queue_le_weigh (w : α → ℕ) (d : Queues κ α) (k : κ) :
    ((d.queue k).map w).sum ≤ weigh w d := by
  have h := weigh_erase w d k
  omega

theorem le_weigh (w : α → ℕ) {k : κ} (h : x ∈ d.queue k) : w x ≤ weigh w d := by
  have hx : w x ≤ ((d.queue k).map w).sum := single_le_sum (by simp) _ (List.mem_map_of_mem h)
  exact hx.trans (queue_le_weigh w d k)

end Queues

/-- A counter per key; a key without an entry counts nothing. -/
abbrev Tally (κ : Type*) := Dict κ ℕ

namespace Tally
variable {κ : Type*} [DecidableEq κ]

def count (d : Tally κ) (k : κ) : ℕ := (AList.lookup k d).getD 0

def add (d : Tally κ) (k : κ) (n : ℕ) : Tally κ := AList.insert k (d.count k + n) d

/-- Count one less under `k`, and drop the entry when nothing is left. -/
def dropOne (d : Tally κ) (k : κ) : Tally κ :=
  match AList.lookup k d with
  | none => d
  | some n => if n - 1 = 0 then AList.erase k d else AList.insert k (n - 1) d

@[simp] theorem count_empty (k : κ) : count (∅ : Tally κ) k = 0 := rfl

theorem count_add (d : Tally κ) (k i : κ) (n : ℕ) :
    (d.add k n).count i = if i = k then d.count k + n else d.count i := by
  unfold add count
  rw [Dict.lookup_insert]
  split_ifs with h
  · rw [getD_some]
  · rfl

theorem add_add (d : Tally κ) (k : κ) (m n : ℕ) : (d.add k m).add k n = d.add k (m + n) := by
  have hcount := count_add d k k m
  rw [if_pos rfl] at hcount
  rw [add, hcount, add, AList.insert_insert, Nat.add_assoc]
  rfl

theorem count_dropOne (d : Tally κ) (k i : κ) :
    (d.dropOne k).count i = if i = k then d.count k - 1 else d.count i := by
  unfold dropOne count
  cases hk : AList.lookup k d with
  | none =>
    split_ifs with h
    · subst h
      simp [hk]
    · rfl
  | some n =>
    by_cases hn : n - 1 = 0
    · simp only [hn, if_true, Dict.lookup_erase]
      split_ifs with h
      · simp [hn]
      · rfl
    · simp only [hn, if_false, Dict.lookup_insert]
      split_ifs with h
      · simp
      · rfl

end Tally
