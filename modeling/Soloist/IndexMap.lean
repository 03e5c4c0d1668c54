import Mathlib.Data.List.Nodup

/-! Insertion-ordered maps: a key keeps its position when its value is replaced, and a new key goes
to the end. -/

/-- Entries in insertion order, one for each key. -/
structure IndexMap (κ α : Type*) where
  entries : List (κ × α)
  nodup : (entries.map Prod.fst).Nodup
  deriving DecidableEq

open List

namespace IndexMap
variable {κ α : Type*}

def empty : IndexMap κ α := ⟨[], List.nodup_nil⟩

def keys (d : IndexMap κ α) : List κ := d.entries.map Prod.fst

variable {d : IndexMap κ α} {k : κ}

theorem eq_of_mem {x y : α} (hx : (k, x) ∈ d.entries) (hy : (k, y) ∈ d.entries) : x = y := by
  have heq := inj_on_of_nodup_map d.nodup hx hy rfl
  exact (Prod.ext_iff.mp heq).2

variable [DecidableEq κ]

def get (d : IndexMap κ α) (k : κ) : Option α := (d.entries.find? fun e => e.1 = k).map Prod.snd

def contains (d : IndexMap κ α) (k : κ) : Bool := (d.get k).isSome

theorem get_eq_some {x : α} : d.get k = some x ↔ (k, x) ∈ d.entries := by
  unfold get
  rw [Option.map_eq_some_iff]
  constructor
  · rintro ⟨e, he, rfl⟩
    have hkey : e.1 = k := by simpa using find?_some he
    rw [← hkey]
    exact mem_of_find?_eq_some he
  · intro hmem
    cases hfind : d.entries.find? fun e => e.1 = k with
    | none =>
      have hne := find?_eq_none.mp hfind (k, x) hmem
      simp at hne
    | some e =>
      have hkey : e.1 = k := by simpa using find?_some hfind
      have he : (k, e.2) ∈ d.entries := by
        rw [← hkey]
        exact mem_of_find?_eq_some hfind
      exact ⟨e, rfl, eq_of_mem he hmem⟩

theorem mem_keys : k ∈ d.keys ↔ ∃ x, d.get k = some x := by
  unfold keys
  rw [mem_map]
  constructor
  · rintro ⟨e, he, rfl⟩
    exact ⟨e.2, get_eq_some.mpr he⟩
  · rintro ⟨x, hx⟩
    exact ⟨(k, x), get_eq_some.mp hx, rfl⟩

theorem contains_iff : d.contains k = true ↔ k ∈ d.keys := by
  rw [contains, Option.isSome_iff_exists, mem_keys]

theorem get_eq_none : d.get k = none ↔ k ∉ d.keys := by
  rw [mem_keys, Option.eq_none_iff_forall_ne_some]
  push Not
  rfl

theorem contains_eq_false : d.contains k = false ↔ d.get k = none := by
  rw [contains, Option.isSome_eq_false_iff, Option.isNone_iff_eq_none]

/-- Replaces the value of a known key in place, and adds a new key at the end. -/
def insert (d : IndexMap κ α) (k : κ) (x : α) : IndexMap κ α :=
  if h : k ∈ d.keys then
    { entries := d.entries.map fun e => if e.1 = k then (k, x) else e
      nodup := by
        have hkeys : (d.entries.map fun e => if e.1 = k then (k, x) else e).map Prod.fst =
            d.entries.map Prod.fst := by
          rw [List.map_map]
          apply List.map_congr_left
          intro e _
          by_cases he : e.1 = k
          · simp [he]
          · simp [he]
        rw [hkeys]
        exact d.nodup }
  else
    { entries := d.entries ++ [(k, x)]
      nodup := by
        rw [List.map_append]
        exact List.Nodup.append d.nodup (List.nodup_singleton k)
          (by simpa [keys] using h) }

def shiftRemove (d : IndexMap κ α) (k : κ) : IndexMap κ α where
  entries := d.entries.filter fun e => e.1 ≠ k
  nodup := d.nodup.sublist (List.filter_sublist.map Prod.fst)

theorem notMem_keys_shiftRemove (d : IndexMap κ α) (k : κ) : k ∉ (d.shiftRemove k).keys := by
  simp [keys, shiftRemove]

/-- Puts a key at a position, moving it there when it is already known. -/
def shiftInsert (d : IndexMap κ α) (i : ℕ) (k : κ) (x : α) : IndexMap κ α where
  entries := (d.shiftRemove k).entries.take i ++ (k, x) :: (d.shiftRemove k).entries.drop i
  nodup := by
    have hperm : ((d.shiftRemove k).entries.take i ++
        (k, x) :: (d.shiftRemove k).entries.drop i).Perm ((k, x) ::
          ((d.shiftRemove k).entries.take i ++ (d.shiftRemove k).entries.drop i)) :=
      List.perm_middle
    rw [List.take_append_drop] at hperm
    have hnodup : (((k, x) :: (d.shiftRemove k).entries).map Prod.fst).Nodup :=
      List.nodup_cons.mpr ⟨d.notMem_keys_shiftRemove k, (d.shiftRemove k).nodup⟩
    exact (hperm.map Prod.fst).nodup_iff.mpr hnodup

def indexOf (d : IndexMap κ α) (k : κ) : Option ℕ := d.keys.idxOf? k

theorem get_insert (d : IndexMap κ α) (k i : κ) (x : α) :
    (d.insert k x).get i = if i = k then some x else d.get i := by
  apply Option.ext
  intro y
  rw [get_eq_some]
  unfold insert
  split_ifs with hk hi hi
  · subst hi
    obtain ⟨z, hz⟩ := mem_keys.mp hk
    simp only [mem_map]
    constructor
    · rintro ⟨e, he, heq⟩
      split_ifs at heq with hkey
      · rw [Option.some.injEq]
        exact (Prod.ext_iff.mp heq).2
      · rw [heq] at hkey
        exact absurd rfl hkey
    · intro hy
      cases hy
      exact ⟨(i, z), get_eq_some.mp hz, if_pos rfl⟩
  · rw [get_eq_some, mem_map]
    constructor
    · rintro ⟨e, he, heq⟩
      split_ifs at heq with hkey
      · exact absurd (Prod.ext_iff.mp heq).1.symm hi
      · rwa [← heq]
    · intro hy
      exact ⟨(i, y), hy, if_neg hi⟩
  · subst hi
    rw [mem_append, mem_singleton]
    have hnot : (i, y) ∉ d.entries := fun hmem => hk (mem_keys.mpr ⟨y, get_eq_some.mpr hmem⟩)
    simp [hnot, eq_comm]
  · rw [get_eq_some, mem_append, mem_singleton]
    simp [hi]

theorem get_shiftRemove (d : IndexMap κ α) (k i : κ) :
    (d.shiftRemove k).get i = if i = k then none else d.get i := by
  apply Option.ext
  intro y
  rw [get_eq_some]
  simp only [shiftRemove, mem_filter, decide_eq_true_eq]
  split_ifs with hi
  · simp [hi]
  · rw [get_eq_some]
    simp [hi]

theorem get_shiftInsert (d : IndexMap κ α) (j : ℕ) (k i : κ) (x : α) :
    (d.shiftInsert j k x).get i = if i = k then some x else d.get i := by
  have hmem : ∀ y, (i, y) ∈ (d.shiftInsert j k x).entries ↔
      (i, y) = (k, x) ∨ (i, y) ∈ (d.shiftRemove k).entries := by
    intro y
    have hsplit := take_append_drop j (d.shiftRemove k).entries
    rw [← hsplit, mem_append]
    simp only [shiftInsert, mem_append, mem_cons]
    tauto
  apply Option.ext
  intro y
  rw [get_eq_some, hmem, ← get_eq_some, get_shiftRemove]
  split_ifs with hi
  · simp [hi, eq_comm]
  · simp [hi]

end IndexMap
