import Mathlib.Data.List.Sort
import Soloist.Table

/-! The durable list of projects, whose order is a position column that only reorders write. -/
open List

namespace Soloist

/-- A row of `projects`. -/
structure ProjectRow where
  id : ℕ
  root : String
  name : Option String
  icon : Option String
  position : ℕ

namespace ProjectOrder

/-- A `ProjectRecord`, as the store reads it. -/
structure Record where
  id : ℕ
  root : String
  name : Option String
  icon : Option String
  deriving DecidableEq, Repr

end ProjectOrder

def ProjectRow.record (r : ProjectRow) : ProjectOrder.Record := ⟨r.id, r.root, r.name, r.icon⟩

/-- `ORDER BY position, id DESC`. -/
def ProjectRow.Precedes (a b : ProjectRow) : Prop :=
  a.position < b.position ∨ a.position = b.position ∧ b.id ≤ a.id

instance : DecidableRel ProjectRow.Precedes := fun a b =>
  inferInstanceAs (Decidable (a.position < b.position ∨ a.position = b.position ∧ b.id ≤ a.id))

instance : Std.Total ProjectRow.Precedes where
  total a b := by
    unfold ProjectRow.Precedes
    omega

instance : IsTrans ProjectRow ProjectRow.Precedes where
  trans a b c := by
    unfold ProjectRow.Precedes
    omega

/-- `gap` is how many ids the table passes over first: the attempt to insert a known root uses one
up. -/
inductive ProjectsEvent
  | upsert (gap : ℕ) (root : String) (name icon : Option String)
  | reorder (order : List ℕ)
  | remove (id : ℕ)

abbrev ProjectStore := SlotTable ProjectRow.id ProjectRow.root

namespace ProjectStore

def sorted (t : ProjectStore) : List ProjectRow := t.rows.insertionSort ProjectRow.Precedes

def list (t : ProjectStore) : List ProjectOrder.Record := t.sorted.map ProjectRow.record

def skip (t : ProjectStore) (gap : ℕ) : ProjectStore where
  toAutoTable := ⟨t.toTable, t.seq + gap, fun r hr => Nat.le_add_right_of_le (t.bound r hr)⟩
  unique := t.unique

/-- A project opens with the default position; one that is known keeps its own. -/
def upsert (t : ProjectStore) (root : String) (name icon : Option String) : ProjectStore :=
  if h : ∀ r ∈ t.rows, r.root ≠ root then t.append ⟨t.seq + 1, root, name, icon, 0⟩ rfl h
  else t.update (fun r => r.root = root) (fun r => { r with name, icon }) (fun _ => rfl) fun _ => rfl

def place (t : ProjectStore) (id position : ℕ) : ProjectStore :=
  t.update (fun r => r.id = id) (fun r => { r with position }) (fun _ => rfl) fun _ => rfl

/-- The named ids lead; the others keep their order behind them. -/
def placed (t : ProjectStore) (order : List ℕ) : List ℕ :=
  order ++ (t.sorted.map ProjectRow.id).filter (· ∉ order)

def reorder (t : ProjectStore) (order : List ℕ) : ProjectStore :=
  (t.placed order).zipIdx.foldl (fun t place => t.place place.1 place.2) t

def remove (t : ProjectStore) (id : ℕ) : ProjectStore := t.delete fun r => r.id = id

def apply (t : ProjectStore) : ProjectsEvent → ProjectStore
  | .upsert gap root name icon => (t.skip gap).upsert root name icon
  | .reorder order => t.reorder order
  | .remove id => t.remove id

end ProjectStore

/-- The list the projects are meant to be kept in, and the last id given out or passed over. -/
structure ProjectOrder where
  issued : ℕ
  projects : List ProjectOrder.Record

namespace ProjectOrder

def empty : ProjectOrder := ⟨0, []⟩

def skip (o : ProjectOrder) (gap : ℕ) : ProjectOrder := { o with issued := o.issued + gap }

def opens (o : ProjectOrder) (root : String) (name icon : Option String) : ProjectOrder :=
  if ∀ p ∈ o.projects, p.root ≠ root then
    ⟨o.issued + 1, ⟨o.issued + 1, root, name, icon⟩ :: o.projects⟩
  else
    { o with projects := o.projects.map fun p => if p.root = root then { p with name, icon } else p }

def arrange (o : ProjectOrder) (order : List ℕ) : ProjectOrder :=
  { o with projects :=
      order.filterMap (fun id => o.projects.find? fun p => p.id = id) ++
        o.projects.filter fun p => p.id ∉ order }

def apply (o : ProjectOrder) : ProjectsEvent → ProjectOrder
  | .upsert gap root name icon => (o.skip gap).opens root name icon
  | .reorder order => o.arrange order
  | .remove id => { o with projects := o.projects.filter fun p => p.id ≠ id }

end ProjectOrder

namespace ProjectStore
variable {t : ProjectStore} {order : List ℕ}

theorem sorted_perm (t : ProjectStore) : t.sorted.Perm t.rows := perm_insertionSort _ _

theorem sorted_pairwise (t : ProjectStore) : t.sorted.Pairwise ProjectRow.Precedes :=
  pairwise_insertionSort _ _

variable {r : ProjectRow}

theorem mem_sorted : r ∈ t.sorted ↔ r ∈ t.rows := t.sorted_perm.mem_iff

theorem nodup_ids (t : ProjectStore) : (t.sorted.map ProjectRow.id).Nodup :=
  (t.sorted_perm.map ProjectRow.id).nodup_iff.mpr t.nodup

theorem sorted_eq {rows : List ProjectRow} (hperm : rows.Perm t.rows)
    (hpairwise : rows.Pairwise ProjectRow.Precedes) : t.sorted = rows := by
  refine Perm.eq_of_pairwise ?_ t.sorted_pairwise hpairwise (t.sorted_perm.trans hperm.symm)
  intro a b ha hb hab hba
  have hid : a.id = b.id := by
    unfold ProjectRow.Precedes at hab hba
    omega
  exact Table.eq_of_key_eq (mem_sorted.mp ha) (hperm.mem_iff.mp hb) hid

theorem sorted_append (hr : r.id = t.seq + 1) (hs : ∀ s ∈ t.rows, s.root ≠ r.root)
    (hposition : r.position = 0) : sorted (t.append r hr hs) = r :: t.sorted := by
  apply sorted_eq
  · show (r :: t.sorted).Perm (t.rows ++ [r])
    exact (t.sorted_perm.cons r).trans (perm_append_singleton r t.rows).symm
  · refine pairwise_cons.mpr ⟨?_, t.sorted_pairwise⟩
    intro s hsorted
    have hbound := t.bound s (mem_sorted.mp hsorted)
    unfold ProjectRow.Precedes
    omega

/-- A statement that leaves positions alone leaves every row where it is. -/
theorem sorted_update {p : ProjectRow → Bool} {f : ProjectRow → ProjectRow}
    (hid : ∀ r, (f r).id = r.id) (hroot : ∀ r, (f r).root = r.root)
    (hposition : ∀ r, (f r).position = r.position) :
    sorted (t.update p f hid hroot) = t.sorted.map fun r => if p r then f r else r := by
  apply sorted_eq
  · exact t.sorted_perm.map _
  · refine pairwise_map.mpr (t.sorted_pairwise.imp ?_)
    intro a b hab
    unfold ProjectRow.Precedes at hab ⊢
    split_ifs <;> simpa only [hid, hposition] using hab

theorem sorted_remove (id : ℕ) : (t.remove id).sorted = t.sorted.filter fun r => r.id ≠ id := by
  have hkept : (fun r : ProjectRow => !decide (r.id = id)) = fun r => decide (r.id ≠ id) := by
    funext r
    rw [decide_not]
  apply sorted_eq
  · show List.Perm _ (t.rows.filter fun r => !decide (r.id = id))
    rw [hkept]
    exact t.sorted_perm.filter _
  · exact t.sorted_pairwise.filter _

theorem rows_place (id position : ℕ) : (t.place id position).rows =
    t.rows.map fun r => if r.id = id then { r with position } else r := by
  simp only [place, SlotTable.update, AutoTable.update, Table.update, decide_eq_true_eq]

theorem seq_places (places : List (ℕ × ℕ)) :
    (places.foldl (fun t place => ProjectStore.place t place.1 place.2) t).seq = t.seq := by
  induction places generalizing t with
  | nil => rfl
  | cons place places ih => exact ih

theorem rows_places {ids : List ℕ} (hids : ids.Nodup) (first : ℕ) :
    ((ids.zipIdx first).foldl (fun t place => ProjectStore.place t place.1 place.2) t).rows =
      t.rows.map fun r =>
        if r.id ∈ ids then { r with position := first + ids.idxOf r.id } else r := by
  induction ids generalizing t first with
  | nil => simp
  | cons id ids ih =>
    obtain ⟨hnew, hids⟩ := nodup_cons.mp hids
    rw [zipIdx_cons, foldl_cons, ih hids, rows_place, map_map]
    refine map_congr_left fun r _ => ?_
    by_cases hr : r.id = id
    · simp [hr, hnew]
    · have hne : ¬id = r.id := fun h => hr h.symm
      by_cases hmem : r.id ∈ ids
      · simp [hr, hmem, idxOf_cons_ne _ hne, Nat.add_comm, Nat.add_left_comm]
      · simp [hr, hmem]

theorem nodup_placed (horder : order.Nodup) : (t.placed order).Nodup := by
  refine nodup_append.mpr ⟨horder, t.nodup_ids.filter _, ?_⟩
  rintro id hid _ hother rfl
  simpa [hid] using (mem_filter.mp hother).2

theorem mem_placed (hr : r ∈ t.rows) : r.id ∈ t.placed order := by
  by_cases hid : r.id ∈ order
  · exact mem_append_left _ hid
  · have hknown : r.id ∈ t.sorted.map ProjectRow.id := mem_map_of_mem (mem_sorted.mpr hr)
    exact mem_append_right _ (mem_filter.mpr ⟨hknown, by simpa using hid⟩)

def known (t : ProjectStore) (id : ℕ) : Option ProjectRow := t.sorted.find? fun r => r.id = id

theorem known_eq_some {id : ℕ} : t.known id = some r ↔ r ∈ t.rows ∧ r.id = id := by
  constructor
  · intro h
    exact ⟨mem_sorted.mp (mem_of_find?_eq_some h), by simpa using find?_some h⟩
  · rintro ⟨hr, rfl⟩
    cases h : t.known r.id with
    | none => exact absurd (find?_eq_none.mp h r (mem_sorted.mpr hr)) (by simp)
    | some s =>
      have hs : s.id = r.id := by simpa using find?_some h
      rw [Table.eq_of_key_eq (mem_sorted.mp (mem_of_find?_eq_some h)) hr hs]

def arranged (t : ProjectStore) (order : List ℕ) : List ProjectRow :=
  order.filterMap t.known ++ t.sorted.filter fun r => r.id ∉ order

theorem arranged_perm (horder : order.Nodup) : (t.arranged order).Perm t.rows := by
  have hrows : t.sorted.Nodup := t.nodup_ids.of_map _
  have hnamed : (order.filterMap t.known).Perm (t.sorted.filter fun r => r.id ∈ order) := by
    refine (perm_ext_iff_of_nodup (horder.filterMap ?_) (hrows.filter _)).mpr ?_
    · intro a b r ha hb
      exact (known_eq_some.mp ha).2.symm.trans (known_eq_some.mp hb).2
    · intro r
      simp only [mem_filterMap, mem_filter, known_eq_some, mem_sorted,
        decide_eq_true_eq]
      constructor
      · rintro ⟨id, hid, hr, rfl⟩
        exact ⟨hr, hid⟩
      · rintro ⟨hr, hid⟩
        exact ⟨r.id, hid, hr, rfl⟩
  have hrest : (fun r : ProjectRow => decide (r.id ∉ order)) = fun r => !decide (r.id ∈ order) := by
    funext r
    rw [decide_not]
  unfold arranged
  rw [hrest]
  exact ((hnamed.append_right _).trans (filter_append_perm _ t.sorted)).trans t.sorted_perm

theorem arranged_sublist : ((t.arranged order).map ProjectRow.id).Sublist (t.placed order) := by
  have hnamed : ∀ ids, ((List.filterMap t.known ids).map ProjectRow.id).Sublist ids := by
    intro ids
    induction ids with
    | nil => exact List.Sublist.slnil
    | cons id ids ih =>
      cases h : t.known id with
      | none =>
        rw [filterMap_cons_none h]
        exact ih.cons id
      | some r =>
        rw [filterMap_cons_some h, map_cons, (known_eq_some.mp h).2]
        exact ih.cons_cons id
  rw [arranged, map_append, placed, List.filter_map]
  exact (hnamed order).append (List.Sublist.refl _)

theorem sorted_reorder (horder : order.Nodup) : (t.reorder order).sorted =
    (t.arranged order).map fun r => { r with position := (t.placed order).idxOf r.id } := by
  have hnodup : (t.placed order).Nodup := nodup_placed horder
  have hrows : (t.reorder order).rows =
      t.rows.map fun r => { r with position := (t.placed order).idxOf r.id } := by
    rw [reorder, rows_places hnodup]
    refine map_congr_left fun r hr => ?_
    rw [if_pos (mem_placed hr), Nat.zero_add]
  apply sorted_eq
  · rw [hrows]
    exact (arranged_perm horder).map _
  · have hindex : (t.placed order).Pairwise fun a b =>
        (t.placed order).idxOf a < (t.placed order).idxOf b := by
      rw [pairwise_iff_getElem]
      intro i j hi hj hij
      rwa [hnodup.idxOf_getElem, hnodup.idxOf_getElem]
    refine pairwise_map.mpr ((pairwise_map.mp (hindex.sublist arranged_sublist)).imp ?_)
    intro a b hab
    exact .inl hab

def shown (t : ProjectStore) : ProjectOrder := ⟨t.seq, t.list⟩

theorem shown_upsert (root : String) (name icon : Option String) :
    (t.upsert root name icon).shown = t.shown.opens root name icon := by
  have hroots : (∀ p ∈ t.list, p.root ≠ root) ↔ ∀ r ∈ t.rows, r.root ≠ root := by
    simp only [list, forall_mem_map, mem_sorted]
    rfl
  unfold upsert ProjectOrder.opens
  split_ifs with hnew hlist hlist
  · rw [shown, list, sorted_append rfl hnew rfl]
    rfl
  · exact absurd (hroots.mpr hnew) hlist
  · exact absurd (hroots.mp hlist) hnew
  · rw [shown, list, sorted_update (f := fun r => { r with name, icon }) _ _ fun _ => rfl,
      map_map]
    have hrecord : t.sorted.map (ProjectRow.record ∘ fun r =>
          if decide (r.root = root) = true then { r with name, icon } else r) =
        t.list.map fun p => if p.root = root then { p with name, icon } else p := by
      rw [list, map_map]
      refine map_congr_left fun r _ => ?_
      by_cases hr : r.root = root <;> simp [hr, ProjectRow.record]
    rw [hrecord]
    rfl

theorem shown_reorder (horder : order.Nodup) :
    shown (t.reorder order) = (shown t).arrange order := by
  have hfind : (fun id => t.list.find? fun p => p.id = id) =
      fun id => (t.known id).map ProjectRow.record := by
    funext id
    rw [list, find?_map]
    rfl
  have hfilter : t.list.filter (fun p => p.id ∉ order) =
      (t.sorted.filter fun r => r.id ∉ order).map ProjectRow.record := by
    rw [list, List.filter_map]
    rfl
  have hlist : (t.reorder order).list = (t.arranged order).map ProjectRow.record := by
    rw [list, sorted_reorder horder, map_map]
    rfl
  have hseq : (t.reorder order).seq = t.seq := seq_places _
  unfold shown ProjectOrder.arrange
  rw [hlist, hseq, hfind, hfilter, arranged, map_append, map_filterMap]

theorem shown_remove (id : ℕ) : (t.remove id).shown =
    { t.shown with projects := t.list.filter fun p => p.id ≠ id } := by
  have hlist : (t.remove id).list = t.list.filter fun p => p.id ≠ id := by
    rw [list, sorted_remove, list, List.filter_map]
    rfl
  unfold shown
  rw [hlist]
  rfl

theorem shown_history (t : ProjectStore) {history : List ProjectsEvent}
    (h : ∀ order, ProjectsEvent.reorder order ∈ history → order.Nodup) :
    (history.foldl apply t).shown = history.foldl ProjectOrder.apply t.shown := by
  induction history generalizing t with
  | nil => rfl
  | cons e history ih =>
    have hstep : (t.apply e).shown = t.shown.apply e := by
      cases e with
      | upsert gap root name icon => exact shown_upsert root name icon
      | reorder order => exact shown_reorder (h order (.head _))
      | remove id => exact shown_remove id
    rw [foldl_cons, foldl_cons, ih _ fun order hmem => h order (.tail _ hmem),
      hstep]

/-- The list of the store is the list the projects are meant to be kept in, whichever growing ids the
table gives them. -/
theorem list_refines (history : List ProjectsEvent)
    (h : ∀ order, ProjectsEvent.reorder order ∈ history → order.Nodup) :
    list (history.foldl apply SlotTable.empty) =
      (history.foldl ProjectOrder.apply .empty).projects :=
  congrArg ProjectOrder.projects (shown_history SlotTable.empty h)

/-- The first project is opened again before the third, and that uses up an id. -/
def arrangedHistory : List ProjectsEvent :=
  [.upsert 0 "/p/a" none none, .upsert 0 "/p/b" none none, .reorder [1, 7, 2],
    .upsert 1 "/p/a" none none, .upsert 0 "/p/c" none none]

theorem list_refines_arranged :
    list (arrangedHistory.foldl apply SlotTable.empty) =
      (arrangedHistory.foldl ProjectOrder.apply .empty).projects ∧
    (arrangedHistory.foldl ProjectOrder.apply .empty).projects =
      [⟨4, "/p/c", none, none⟩, ⟨1, "/p/a", none, none⟩, ⟨2, "/p/b", none, none⟩] := by
  refine ⟨list_refines _ ?_, by decide⟩
  intro order h
  simp only [arrangedHistory, List.mem_cons, ProjectsEvent.reorder.injEq, reduceCtorEq,
    List.not_mem_nil, false_or, or_false] at h
  subst h
  decide

end ProjectStore

end Soloist
