import Mathlib.Data.List.Nodup

/-! Tables of rows under a primary key, with the update, delete and insert statements of a
relational store. Every statement is characterized by the row it leaves under each key. -/

/-- Rows with pairwise distinct keys. -/
@[ext] structure Table {ρ κ : Type*} (key : ρ → κ) where
  rows : List ρ
  nodup : (rows.map key).Nodup

namespace Table
variable {ρ κ : Type*} {key : ρ → κ}

def empty : Table key := ⟨[], List.nodup_nil⟩

/-- `UPDATE … SET f WHERE p`, where `f` leaves the key alone. -/
def update (t : Table key) (p : ρ → Bool) (f : ρ → ρ) (hf : ∀ r, key (f r) = key r) :
    Table key where
  rows := t.rows.map fun r => if p r then f r else r
  nodup := by
    have hkey : (key ∘ fun r => if p r then f r else r) = key := by
      funext r
      by_cases hp : p r <;> simp [hp, hf]
    rw [List.map_map, hkey]
    exact t.nodup

/-- `DELETE … WHERE p`. -/
def delete (t : Table key) (p : ρ → Bool) : Table key where
  rows := t.rows.filter fun r => !p r
  nodup := t.nodup.sublist (List.filter_sublist.map key)

def insert (t : Table key) (r : ρ) (h : ∀ s ∈ t.rows, key s ≠ key r) : Table key where
  rows := t.rows ++ [r]
  nodup := by
    rw [List.map_append, List.nodup_append]
    refine ⟨t.nodup, List.nodup_singleton _, ?_⟩
    rintro a ha b hb rfl
    obtain ⟨s, hs, hk⟩ := List.mem_map.mp ha
    exact h s hs (hk.trans (by simpa using hb))

@[simp] theorem rows_empty : (empty : Table key).rows = [] := rfl

variable {t : Table key} {r : ρ}

variable {p : ρ → Bool}

theorem mem_update {f : ρ → ρ} {hf : ∀ r, key (f r) = key r} :
    r ∈ (t.update p f hf).rows ↔ ∃ s ∈ t.rows, (if p s then f s else s) = r := by
  simp [update]

@[simp] theorem mem_delete : r ∈ (t.delete p).rows ↔ r ∈ t.rows ∧ p r = false := by
  simp [delete]

variable {s : ρ}

@[simp] theorem mem_insert {h : ∀ s ∈ t.rows, key s ≠ key r} :
    s ∈ (t.insert r h).rows ↔ s ∈ t.rows ∨ s = r := by
  simp [insert]

theorem eq_of_key_eq (hr : r ∈ t.rows) (hs : s ∈ t.rows) (h : key r = key s) : r = s :=
  List.inj_on_of_nodup_map t.nodup hr hs h

variable [DecidableEq κ]

def get (t : Table key) (k : κ) : Option ρ := t.rows.find? fun r => key r = k

variable {k : κ}

theorem get_eq_some : t.get k = some r ↔ r ∈ t.rows ∧ key r = k := by
  constructor
  · intro h
    exact ⟨List.mem_of_find?_eq_some h, by simpa using List.find?_some h⟩
  · rintro ⟨hr, rfl⟩
    cases h : t.get (key r) with
    | none => exact absurd (List.find?_eq_none.mp h r hr) (by simp)
    | some s =>
      have hs : key s = key r := by simpa using List.find?_some h
      rw [eq_of_key_eq (List.mem_of_find?_eq_some h) hr hs]

theorem get_eq_none : t.get k = none ↔ ∀ r ∈ t.rows, key r ≠ k := by
  simp [get]

theorem get_key (h : t.get k = some r) : key r = k :=
  (get_eq_some.mp h).2

theorem get_mem (h : t.get k = some r) : r ∈ t.rows :=
  (get_eq_some.mp h).1

theorem get_of_mem (h : r ∈ t.rows) : t.get (key r) = some r :=
  get_eq_some.mpr ⟨h, rfl⟩

@[simp] theorem get_empty (k : κ) : (empty : Table key).get k = none := rfl

theorem get_update (t : Table key) (p : ρ → Bool) (f : ρ → ρ) (hf : ∀ r, key (f r) = key r)
    (k : κ) : (t.update p f hf).get k = (t.get k).map fun r => if p r then f r else r := by
  cases h : t.get k with
  | none =>
    rw [Option.map_none, get_eq_none]
    intro r hr
    obtain ⟨s, hs, rfl⟩ := mem_update.mp hr
    have hk := get_eq_none.mp h s hs
    split_ifs
    · rwa [hf]
    · exact hk
  | some r =>
    obtain ⟨hr, rfl⟩ := get_eq_some.mp h
    rw [Option.map_some, get_eq_some]
    refine ⟨mem_update.mpr ⟨r, hr, rfl⟩, ?_⟩
    split_ifs
    · exact hf r
    · rfl

theorem get_delete (t : Table key) (p : ρ → Bool) (k : κ) :
    (t.delete p).get k = (t.get k).filter fun r => !p r := by
  cases h : t.get k with
  | none =>
    rw [Option.filter_none, get_eq_none]
    intro r hr
    exact get_eq_none.mp h r (mem_delete.mp hr).1
  | some r =>
    obtain ⟨hr, rfl⟩ := get_eq_some.mp h
    cases hp : p r with
    | false =>
      rw [Option.filter_some_pos (by simp [hp]), get_eq_some]
      exact ⟨mem_delete.mpr ⟨hr, hp⟩, rfl⟩
    | true =>
      rw [Option.filter_some_neg (by simp [hp]), get_eq_none]
      intro s hs hk
      obtain ⟨hs, hps⟩ := mem_delete.mp hs
      rw [eq_of_key_eq hs hr hk, hp] at hps
      exact Bool.noConfusion hps

theorem get_insert (t : Table key) (r : ρ) (h : ∀ s ∈ t.rows, key s ≠ key r) (k : κ) :
    (t.insert r h).get k = if key r = k then some r else t.get k := by
  split_ifs with hk
  · exact get_eq_some.mpr ⟨mem_insert.mpr (.inr rfl), hk⟩
  · cases hg : t.get k with
    | none =>
      rw [get_eq_none]
      intro s hs
      rcases mem_insert.mp hs with hs | rfl
      · exact get_eq_none.mp hg s hs
      · exact hk
    | some s =>
      obtain ⟨hs, hsk⟩ := get_eq_some.mp hg
      exact get_eq_some.mpr ⟨mem_insert.mpr (.inl hs), hsk⟩

end Table

/-- A table whose integer key is assigned by an ever-growing sequence, so that the key of a
deleted row is never handed out again. -/
structure AutoTable {ρ : Type*} (key : ρ → ℕ) extends Table key where
  seq : ℕ
  bound : ∀ r ∈ rows, key r ≤ seq

namespace AutoTable
variable {ρ : Type*} {key : ρ → ℕ}

def empty : AutoTable key := ⟨Table.empty, 0, by simp⟩

def update (t : AutoTable key) (p : ρ → Bool) (f : ρ → ρ) (hf : ∀ r, key (f r) = key r) :
    AutoTable key where
  toTable := t.toTable.update p f hf
  seq := t.seq
  bound := by
    intro r hr
    obtain ⟨s, hs, rfl⟩ := Table.mem_update.mp hr
    split_ifs
    · exact hf s ▸ t.bound s hs
    · exact t.bound s hs

def delete (t : AutoTable key) (p : ρ → Bool) : AutoTable key where
  toTable := t.toTable.delete p
  seq := t.seq
  bound := fun r hr => t.bound r (Table.mem_delete.mp hr).1

variable {r : ρ}

theorem key_ne_of_next (t : AutoTable key) (hr : key r = t.seq + 1) :
    ∀ s ∈ t.rows, key s ≠ key r := by
  intro s hs
  have := t.bound s hs
  omega

/-- `INSERT` under the next key of the sequence. -/
def append (t : AutoTable key) (r : ρ) (hr : key r = t.seq + 1) : AutoTable key where
  toTable := t.toTable.insert r (t.key_ne_of_next hr)
  seq := t.seq + 1
  bound := by
    intro s hs
    rcases Table.mem_insert.mp hs with hs | rfl
    · exact Nat.le_succ_of_le (t.bound s hs)
    · exact Nat.le_of_eq hr

@[simp] theorem seq_delete (t : AutoTable key) (p : ρ → Bool) : (t.delete p).seq = t.seq := rfl

theorem get_le_seq {t : AutoTable key} {k : ℕ} (h : t.get k = some r) : k ≤ t.seq :=
  Table.get_key h ▸ t.bound r (Table.get_mem h)

@[simp] theorem get_empty (k : ℕ) : (empty : AutoTable key).get k = none := rfl

@[simp] theorem get_update (t : AutoTable key) (p : ρ → Bool) (f : ρ → ρ)
    (hf : ∀ r, key (f r) = key r) (k : ℕ) :
    (t.update p f hf).get k = (t.get k).map fun r => if p r then f r else r :=
  Table.get_update t.toTable p f hf k

@[simp] theorem get_delete (t : AutoTable key) (p : ρ → Bool) (k : ℕ) :
    (t.delete p).get k = (t.get k).filter fun r => !p r :=
  Table.get_delete t.toTable p k

theorem get_append (t : AutoTable key) (r : ρ) (hr : key r = t.seq + 1) (k : ℕ) :
    (t.append r hr).get k = if k = t.seq + 1 then some r else t.get k := by
  have h : (t.append r hr).get k = if key r = k then some r else t.get k :=
    Table.get_insert t.toTable r (t.key_ne_of_next hr) k
  simpa only [hr, eq_comm] using h

end AutoTable

/-- An `AutoTable` with a second unique key, by which its rows are addressed. -/
structure SlotTable {ρ ι : Type*} (key : ρ → ℕ) (slot : ρ → ι) extends AutoTable key where
  unique : (rows.map slot).Nodup

namespace SlotTable
variable {ρ ι : Type*} {key : ρ → ℕ} {slot : ρ → ι}

def bySlot (t : SlotTable key slot) : Table slot := ⟨t.rows, t.unique⟩

def empty : SlotTable key slot := ⟨AutoTable.empty, List.nodup_nil⟩

def update (t : SlotTable key slot) (p : ρ → Bool) (f : ρ → ρ) (hf : ∀ r, key (f r) = key r)
    (hs : ∀ r, slot (f r) = slot r) : SlotTable key slot where
  toAutoTable := t.toAutoTable.update p f hf
  unique := (t.bySlot.update p f hs).nodup

def delete (t : SlotTable key slot) (p : ρ → Bool) : SlotTable key slot where
  toAutoTable := t.toAutoTable.delete p
  unique := (t.bySlot.delete p).nodup

def append (t : SlotTable key slot) (r : ρ) (hr : key r = t.seq + 1)
    (hs : ∀ s ∈ t.rows, slot s ≠ slot r) : SlotTable key slot where
  toAutoTable := t.toAutoTable.append r hr
  unique := (t.bySlot.insert r hs).nodup

variable [DecidableEq ι]

/-- `UPDATE … SET f WHERE slot = i`, where `f` moves the row to the slot `j` no other row has. -/
def move (t : SlotTable key slot) (i j : ι) (f : ρ → ρ) (hf : ∀ r, key (f r) = key r)
    (hs : ∀ r, slot r = i → slot (f r) = j) (hfree : ∀ s ∈ t.rows, slot s = j → i = j) :
    SlotTable key slot where
  toAutoTable := t.toAutoTable.update (fun r => slot r = i) f hf
  unique := by
    have hmap : ∀ r, slot (if decide (slot r = i) = true then f r else r) =
        if slot r = i then j else slot r := by
      intro r
      by_cases h : slot r = i
      · simp [h, hs r h]
      · simp [h]
    have hrows : ((t.toAutoTable.update (fun r => slot r = i) f hf).rows.map slot) =
        (t.rows.map slot).map fun k => if k = i then j else k := by
      show (t.rows.map _).map slot = _
      rw [List.map_map, List.map_map]
      exact List.map_congr_left fun r _ => hmap r
    rw [hrows]
    apply t.unique.map_on
    intro a ha b hb hab
    obtain ⟨r, hr, rfl⟩ := List.mem_map.mp ha
    obtain ⟨s, hs', rfl⟩ := List.mem_map.mp hb
    by_cases hra : slot r = i <;> by_cases hsa : slot s = i
    · rw [hra, hsa]
    · rw [if_pos hra, if_neg hsa] at hab
      rw [hra, ← hab]
      exact hfree s hs' hab.symm
    · rw [if_neg hra, if_pos hsa] at hab
      rw [hsa, hab]
      exact (hfree r hr hab).symm
    · simpa [hra, hsa] using hab

def find (t : SlotTable key slot) (i : ι) : Option ρ := t.bySlot.get i

variable {t : SlotTable key slot} {i : ι}

theorem find_eq_some {r : ρ} :
    t.find i = some r ↔ r ∈ t.rows ∧ slot r = i := Table.get_eq_some

theorem find_eq_none :
    t.find i = none ↔ ∀ r ∈ t.rows, slot r ≠ i := Table.get_eq_none

@[simp] theorem find_empty (i : ι) : (empty : SlotTable key slot).find i = none := rfl

theorem find_update (t : SlotTable key slot) (p : ρ → Bool) (f : ρ → ρ)
    (hf : ∀ r, key (f r) = key r) (hs : ∀ r, slot (f r) = slot r) (i : ι) :
    (t.update p f hf hs).find i = (t.find i).map fun r => if p r then f r else r :=
  Table.get_update t.bySlot p f hs i

theorem find_delete (t : SlotTable key slot) (p : ρ → Bool) (i : ι) :
    (t.delete p).find i = (t.find i).filter fun r => !p r :=
  Table.get_delete t.bySlot p i

theorem find_append (t : SlotTable key slot) (r : ρ) (hr : key r = t.seq + 1)
    (hs : ∀ s ∈ t.rows, slot s ≠ slot r) (i : ι) :
    (t.append r hr hs).find i = if slot r = i then some r else t.find i :=
  Table.get_insert t.bySlot r hs i

section Move
variable {t : SlotTable key slot} {i j : ι} {f : ρ → ρ} {hf : ∀ r, key (f r) = key r}
  {hs : ∀ r, slot r = i → slot (f r) = j} {hfree : ∀ s ∈ t.rows, slot s = j → i = j}

variable {r : ρ}

theorem mem_move :
    r ∈ (t.move i j f hf hs hfree).rows ↔ ∃ s ∈ t.rows, (if slot s = i then f s else s) = r := by
  have hmem := @Table.mem_update _ _ _ t.toTable r (fun r => slot r = i) f hf
  simp only [decide_eq_true_eq] at hmem
  exact hmem

theorem find_move_target (h : t.find i = some r) :
    (t.move i j f hf hs hfree).find j = some (f r) := by
  obtain ⟨hr, hi⟩ := find_eq_some.mp h
  exact find_eq_some.mpr ⟨mem_move.mpr ⟨r, hr, if_pos hi⟩, hs r hi⟩

theorem find_move_source (hij : i ≠ j) : (t.move i j f hf hs hfree).find i = none := by
  rw [find_eq_none]
  intro r hr hi
  obtain ⟨s, -, rfl⟩ := mem_move.mp hr
  by_cases h : slot s = i
  · rw [if_pos h, hs s h] at hi
    exact hij hi.symm
  · rw [if_neg h] at hi
    exact h hi

theorem find_move_of_ne {k : ι} (hki : k ≠ i) (hkj : k ≠ j) :
    (t.move i j f hf hs hfree).find k = t.find k := by
  cases h : t.find k with
  | none =>
    rw [find_eq_none]
    intro r hr hk
    obtain ⟨s, hs', rfl⟩ := mem_move.mp hr
    by_cases hi : slot s = i
    · rw [if_pos hi, hs s hi] at hk
      exact hkj hk.symm
    · rw [if_neg hi] at hk
      exact find_eq_none.mp h s hs' hk
  | some r =>
    obtain ⟨hr, rfl⟩ := find_eq_some.mp h
    exact find_eq_some.mpr ⟨mem_move.mpr ⟨r, hr, if_neg hki⟩, rfl⟩

end Move

end SlotTable
