import Mathlib.Data.List.Induction
import Mathlib.Data.List.TakeWhile

/-! Cutting a sequence into sections, each with one keyed item. An item that breaks ends the section
it comes after, and goes with what follows it into the next. -/
variable {α κ : Type*}

/-- The sections found so far: what came before the first, the sections, and what waits for the
next. -/
structure Sections (α κ : Type*) where
  lead : List α
  found : List (κ × List α)
  pending : List α

open List

namespace Sections

def empty : Sections α κ := ⟨[], [], []⟩

def extendLast (found : List (κ × List α)) (xs : List α) : List (κ × List α) :=
  match found.getLast? with
  | none => []
  | some (k, items) => found.dropLast ++ [(k, items ++ xs)]

def finish (s : Sections α κ) : List (κ × List α) := extendLast s.found s.pending

variable (key : α → Option κ) (breaks : α → Bool)

def push (s : Sections α κ) (x : α) : Sections α κ :=
  match key x with
  | some k => { s with found := s.found ++ [(k, s.pending ++ [x])], pending := [] }
  | none =>
    if s.found.isEmpty then { s with lead := s.lead ++ [x] }
    else if breaks x || !s.pending.isEmpty then { s with pending := s.pending ++ [x] }
    else { s with found := extendLast s.found [x] }

def cut (xs : List α) : Sections α κ := xs.foldl (push key breaks) empty

variable {key breaks} {s : Sections α κ} {x : α} {k : κ} {xs ys items : List α}
  {found : List (κ × List α)}

@[simp] theorem extendLast_append_singleton :
    extendLast (found ++ [(k, items)]) xs = found ++ [(k, items ++ xs)] := by
  simp [extendLast]

@[simp] theorem extendLast_nil : extendLast (found : List (κ × List α)) [] = found := by
  obtain rfl | ⟨init, ⟨k, items⟩, rfl⟩ := found.eq_nil_or_concat
  · rfl
  · rw [concat_eq_append, extendLast_append_singleton, append_nil]

theorem push_of_key (h : key x = some k) :
    push key breaks s x =
      { s with found := s.found ++ [(k, s.pending ++ [x])], pending := [] } := by
  unfold push
  rw [h]

/-- What holds of the sections of a sequence: nothing is lost or reordered, there is one section for
each keyed item, and each has just that one. -/
structure Exact (key : α → Option κ) (s : Sections α κ) (xs : List α) : Prop where
  all : s.lead ++ s.found.flatMap Prod.snd ++ s.pending = xs
  keys : s.found.map Prod.fst = xs.filterMap key
  one : ∀ g ∈ s.found, g.2.filterMap key = [g.1]
  lead : s.lead.filterMap key = []
  pending : s.pending.filterMap key = []
  waits : s.found = [] → s.pending = []

theorem Exact.push (hs : Exact key s xs) (x : α) :
    Exact key (push key breaks s x) (xs ++ [x]) := by
  cases h : key x with
  | some k =>
    rw [push_of_key h]
    refine ⟨?_, ?_, ?_, hs.lead, rfl, fun _ => rfl⟩
    · rw [← hs.all]
      simp
    · simp [hs.keys, h]
    · intro g hg
      obtain hg | hg := mem_append.mp hg
      · exact hs.one g hg
      · cases mem_singleton.mp hg
        simp [hs.pending, h]
  | none =>
    unfold Sections.push
    rw [h]
    dsimp only
    split_ifs with hempty hbreaks
    · have hfound : s.found = [] := List.isEmpty_iff.mp hempty
      have hpending := hs.waits hfound
      refine ⟨?_, ?_, hs.one, ?_, hs.pending, hs.waits⟩
      · rw [← hs.all, hfound, hpending]
        simp
      · simp [hs.keys, h]
      · simp [hs.lead, h]
    · refine ⟨?_, ?_, hs.one, hs.lead, ?_, ?_⟩
      · rw [← hs.all]
        simp
      · simp [hs.keys, h]
      · simp [hs.pending, h]
      · intro hfound
        rw [hfound] at hempty
        exact absurd rfl hempty
    · rw [Bool.or_eq_true, not_or, Bool.not_eq_true', Bool.not_eq_false,
        List.isEmpty_iff] at hbreaks
      have hpending := hbreaks.2
      obtain hfound | ⟨init, ⟨k, items⟩, hfound⟩ := s.found.eq_nil_or_concat
      · rw [hfound] at hempty
        exact absurd rfl hempty
      · rw [concat_eq_append] at hfound
        have hall := hs.all
        have hkeys := hs.keys
        have hone := hs.one
        rw [hfound] at hall hkeys hone ⊢
        rw [extendLast_append_singleton]
        refine ⟨?_, ?_, ?_, hs.lead, hs.pending, ?_⟩
        · rw [← hall, hpending]
          simp
        · simpa [h] using hkeys
        · intro g hg
          obtain hg | hg := mem_append.mp hg
          · exact hone g (mem_append_left _ hg)
          · cases mem_singleton.mp hg
            have hlast := hone (k, items) (by simp)
            simpa [h] using hlast
        · intro hnil
          simp at hnil

theorem exact_cut (xs : List α) : Exact key (cut key breaks xs) xs := by
  induction xs using List.reverseRecOn with
  | nil => exact ⟨rfl, rfl, by simp [cut, empty], rfl, rfl, fun _ => rfl⟩
  | append_singleton xs x ih =>
    unfold cut
    rw [foldl_append]
    exact ih.push x

theorem exists_concat_of_ne_nil (h : found ≠ []) :
    ∃ init k items, found = init ++ [(k, items)] := by
  obtain rfl | ⟨init, ⟨k, items⟩, rfl⟩ := found.eq_nil_or_concat
  · exact absurd rfl h
  · exact ⟨init, k, items, concat_eq_append⟩

variable (hs : Exact key s xs)
include hs

theorem Exact.finish_all : s.lead ++ s.finish.flatMap Prod.snd = xs := by
  rw [← hs.all]
  unfold finish
  by_cases hfound : s.found = []
  · rw [hfound, hs.waits hfound]
    simp
  · obtain ⟨init, k, items, hlast⟩ := exists_concat_of_ne_nil hfound
    rw [hlast]
    simp

theorem Exact.finish_keys : s.finish.map Prod.fst = xs.filterMap key := by
  rw [← hs.keys]
  unfold finish
  by_cases hfound : s.found = []
  · rw [hfound, hs.waits hfound]
    rfl
  · obtain ⟨init, k, items, hlast⟩ := exists_concat_of_ne_nil hfound
    rw [hlast]
    simp

theorem Exact.finish_one :
    ∀ g ∈ s.finish, g.2.filterMap key = [g.1] := by
  unfold finish
  by_cases hfound : s.found = []
  · rw [hfound, hs.waits hfound]
    intro g hg
    cases hg
  · obtain ⟨init, k, items, hlast⟩ := exists_concat_of_ne_nil hfound
    have hone := hs.one
    rw [hlast] at hone ⊢
    rw [extendLast_append_singleton]
    intro g hg
    obtain hg | hg := mem_append.mp hg
    · exact hone g (mem_append_left _ hg)
    · cases mem_singleton.mp hg
      have hitems := hone (k, items) (by simp)
      simpa [hs.pending] using hitems

theorem Exact.finish_keyed :
    s.finish.map (fun g => g.2.filter fun x => (key x).isSome) =
      (xs.filter fun x => (key x).isSome).map fun x => [x] := by
  have hsingle : ∀ (ys : List α) k, ys.filterMap key = [k] →
      ∃ x, (ys.filter fun x => (key x).isSome) = [x] := by
    intro ys k hys
    have hlength := congrArg List.length hys
    rw [length_filterMap_eq_countP, countP_eq_length_filter] at hlength
    exact length_eq_one_iff.mp hlength
  have hnone : ∀ ys : List α, ys.filterMap key = [] →
      (ys.filter fun x => (key x).isSome) = [] := by
    intro ys hys
    have hlength := congrArg List.length hys
    rw [length_filterMap_eq_countP, countP_eq_length_filter] at hlength
    exact length_eq_zero_iff.mp hlength
  have hall : (s.finish.flatMap fun g => g.2.filter fun x => (key x).isSome) =
      xs.filter fun x => (key x).isSome := by
    rw [← hs.finish_all, filter_append, hnone s.lead hs.lead, nil_append,
      List.filter_flatMap]
  have hone := hs.finish_one
  rw [← hall]
  generalize s.finish = groups at hone
  induction groups with
  | nil => rfl
  | cons g groups ih =>
    obtain ⟨x, hx⟩ := hsingle g.2 g.1 (hone g (.head _))
    have hrest := ih fun g' hg' => hone g' (.tail _ hg')
    rw [map_cons, flatMap_cons, hx, hrest]
    rfl

omit hs

variable (key breaks) in
theorem found_push {settled rest : List (κ × List α)} (h : s.found = settled ++ rest)
    (hrest : rest ≠ []) (x : α) :
    (push key breaks s x).lead = s.lead ∧
      ∃ rest', (push key breaks s x).found = settled ++ rest' ∧ rest' ≠ [] := by
  obtain ⟨init, k, items, rfl⟩ := exists_concat_of_ne_nil hrest
  cases hkey : key x with
  | some k' =>
    rw [push_of_key hkey]
    refine ⟨rfl, init ++ [(k, items)] ++ [(k', s.pending ++ [x])], ?_, by simp⟩
    rw [h, append_assoc]
  | none =>
    unfold push
    rw [hkey]
    dsimp only
    split_ifs with hempty
    · simp [h] at hempty
    · exact ⟨rfl, init ++ [(k, items)], h, by simp⟩
    · refine ⟨rfl, init ++ [(k, items ++ [x])], ?_, by simp⟩
      rw [h, ← append_assoc, extendLast_append_singleton, append_assoc]

variable (key breaks) in
theorem found_run {settled rest : List (κ × List α)} (h : s.found = settled ++ rest)
    (hrest : rest ≠ []) (xs : List α) :
    (xs.foldl (push key breaks) s).lead = s.lead ∧
      ∃ rest', (xs.foldl (push key breaks) s).found = settled ++ rest' ∧ rest' ≠ [] := by
  induction xs generalizing s rest with
  | nil => exact ⟨rfl, rest, h, hrest⟩
  | cons x xs ih =>
    obtain ⟨hlead, next, hnext, hne⟩ := found_push key breaks h hrest x
    obtain ⟨hlead', hlast⟩ := ih hnext hne
    exact ⟨hlead'.trans hlead, hlast⟩

theorem push_waiting (hkey : key x = none) (hfound : s.found ≠ [])
    (h : breaks x = true ∨ s.pending ≠ []) :
    push key breaks s x = { s with pending := s.pending ++ [x] } := by
  unfold push
  rw [hkey]
  dsimp only
  rw [if_neg (by simpa using hfound), if_pos (by simpa using h)]

theorem push_inside (hkey : key x = none) (hbreaks : breaks x = false)
    (hfound : s.found = found ++ [(k, items)]) (hpending : s.pending = []) :
    push key breaks s x = { s with found := found ++ [(k, items ++ [x])] } := by
  unfold push
  rw [hkey]
  dsimp only
  rw [if_neg (by simp [hfound]), if_neg (by simp [hbreaks, hpending]), hfound,
    extendLast_append_singleton]

/-- Whether an item neither opens a section nor breaks one. -/
def inside (key : α → Option κ) (breaks : α → Bool) (x : α) : Bool := (key x).isNone && !breaks x

variable (key breaks) in
theorem run_waiting (hfound : s.found ≠ []) (hpending : s.pending ≠ []) (xs : List α) :
    ∃ rest, (xs.foldl (push key breaks) s).lead = s.lead ∧
      (xs.foldl (push key breaks) s).found = s.found ++ rest ∧
      (xs.filterMap key ≠ [] → rest ≠ []) ∧
      (xs.filterMap key = [] →
        rest = [] ∧ (xs.foldl (push key breaks) s).pending = s.pending ++ xs) := by
  induction xs generalizing s with
  | nil => exact ⟨[], rfl, (append_nil _).symm, by simp, by simp⟩
  | cons x xs ih =>
    rw [foldl_cons]
    cases hkey : key x with
    | some k =>
      rw [push_of_key hkey]
      obtain ⟨hlead, rest, hrest, hne⟩ := found_run key breaks
        (s := { s with found := s.found ++ [(k, s.pending ++ [x])], pending := [] })
        rfl (by simp) xs
      exact ⟨rest, hlead, hrest, fun _ => hne, by simp [hkey]⟩
    | none =>
      rw [push_waiting hkey hfound (.inr hpending)]
      obtain ⟨rest, hlead, hrest, hkeyed, hplain⟩ :=
        ih (s := { s with pending := s.pending ++ [x] }) hfound (by simp)
      refine ⟨rest, hlead, hrest, ?_, ?_⟩
      · simpa [hkey] using hkeyed
      · simpa [hkey] using hplain

variable (key breaks) in
/-- The last section takes what comes up to the next break or key, and nothing more until the
end. -/
theorem run_section (hfound : s.found = found ++ [(k, items)]) (hpending : s.pending = [])
    (xs : List α) :
    ∃ rest, (xs.foldl (push key breaks) s).lead = s.lead ∧
      (xs.foldl (push key breaks) s).found =
        found ++ (k, items ++ xs.takeWhile (inside key breaks)) :: rest ∧
      (xs.filterMap key ≠ [] → rest ≠ []) ∧
      (xs.filterMap key = [] → rest = [] ∧
        (xs.foldl (push key breaks) s).pending = xs.dropWhile (inside key breaks)) := by
  induction xs generalizing s items with
  | nil => exact ⟨[], rfl, by simpa using hfound, by simp, by simpa using hpending⟩
  | cons x xs ih =>
    rw [foldl_cons]
    cases hkey : key x with
    | some k' =>
      rw [push_of_key hkey]
      obtain ⟨hlead, rest, hrest, hne⟩ := found_run key breaks
        (s := { s with found := s.found ++ [(k', s.pending ++ [x])], pending := [] })
        rfl (by simp) xs
      refine ⟨rest, hlead, ?_, fun _ => hne, by simp [hkey]⟩
      rw [hrest, hfound]
      simp [inside, hkey]
    | none =>
      cases hbreaks : breaks x with
      | false =>
        rw [push_inside hkey hbreaks hfound hpending]
        obtain ⟨rest, hlead, hrest, hkeyed, hplain⟩ :=
          ih (s := { s with found := found ++ [(k, items ++ [x])] }) rfl hpending
        refine ⟨rest, hlead, ?_, ?_, ?_⟩
        · rw [hrest]
          simp [inside, hkey, hbreaks]
        · simpa [hkey] using hkeyed
        · simpa [inside, hkey, hbreaks] using hplain
      | true =>
        have hne : s.found ≠ [] := by simp [hfound]
        rw [push_waiting hkey hne (.inl hbreaks)]
        obtain ⟨rest, hlead, hrest, hkeyed, hplain⟩ := run_waiting key breaks
          (s := { s with pending := s.pending ++ [x] }) hne (by simp) xs
        refine ⟨rest, hlead, ?_, ?_, ?_⟩
        · rw [hrest, hfound]
          simp [inside, hkey, hbreaks]
        · simpa [hkey] using hkeyed
        · simpa [inside, hkey, hbreaks, hpending] using hplain

/-- The section of a keyed item: what waited for it, what follows it up to the next break or key,
and all the rest when no key follows. -/
theorem finish_cut (hkey : key x = some k) (xs ys : List α) :
    (cut key breaks (xs ++ x :: ys)).lead = (cut key breaks xs).lead ∧
      ∃ rest, (cut key breaks (xs ++ x :: ys)).finish = (cut key breaks xs).found ++
        (k, (cut key breaks xs).pending ++ x ::
          if ys.filterMap key = [] then ys else ys.takeWhile (inside key breaks)) :: rest := by
  have hpush : cut key breaks (xs ++ x :: ys) = ys.foldl (push key breaks)
      { cut key breaks xs with
        found := (cut key breaks xs).found ++ [(k, (cut key breaks xs).pending ++ [x])]
        pending := [] } := by
    unfold cut
    rw [foldl_append, foldl_cons, push_of_key hkey]
  obtain ⟨rest, hlead, hfound, hkeyed, hplain⟩ := run_section key breaks
    (s := { cut key breaks xs with
      found := (cut key breaks xs).found ++ [(k, (cut key breaks xs).pending ++ [x])]
      pending := [] }) rfl rfl ys
  rw [← hpush] at hlead hfound hplain
  refine ⟨hlead, ?_⟩
  unfold finish
  rw [hfound]
  split_ifs with hys
  · obtain ⟨rfl, hpending⟩ := hplain hys
    refine ⟨[], ?_⟩
    rw [hpending, extendLast_append_singleton]
    simp
  · obtain ⟨init, k', items, rfl⟩ := exists_concat_of_ne_nil (hkeyed hys)
    rw [← cons_append, ← append_assoc, extendLast_append_singleton]
    refine ⟨init ++ [(k', items ++ (cut key breaks (xs ++ x :: ys)).pending)], ?_⟩
    simp

theorem cut_of_no_key (h : xs.filterMap key = []) : cut key breaks xs = ⟨xs, [], []⟩ := by
  have hexact : Exact key (cut key breaks xs) xs := exact_cut xs
  have hkeys := hexact.keys
  rw [h, map_eq_nil_iff] at hkeys
  have hall := hexact.all
  rw [hkeys, hexact.waits hkeys, flatMap_nil, append_nil, append_nil] at hall
  rw [show cut key breaks xs = ⟨(cut key breaks xs).lead, (cut key breaks xs).found,
    (cut key breaks xs).pending⟩ from rfl, hall, hkeys, hexact.waits hkeys]

variable (key) in
theorem filterMap_takeWhile (xs : List α) :
    (xs.takeWhile fun x => (key x).isNone).filterMap key = [] := by
  rw [filterMap_eq_nil_iff]
  intro x hx
  have hnone := @mem_takeWhile_imp _ (fun x => (key x).isNone) xs x hx
  exact Option.isNone_iff_eq_none.mp hnone

theorem lead_cut (xs : List α) :
    (cut key breaks xs).lead = xs.takeWhile fun x => (key x).isNone := by
  have hsplit := @takeWhile_append_dropWhile α (fun x => (key x).isNone) xs
  have hlead := filterMap_takeWhile key xs
  cases h : xs.dropWhile fun x => (key x).isNone with
  | nil =>
    rw [h, append_nil] at hsplit
    rw [hsplit] at hlead ⊢
    rw [cut_of_no_key hlead]
  | cons y ys =>
    have hnot : (key y).isNone = false := by
      have hhead := @head_dropWhile_not _ (fun x => (key x).isNone) xs (by simp [h])
      simpa [h] using hhead
    obtain ⟨k, hk⟩ := Option.isSome_iff_exists.mp (by simpa using hnot)
    have hcut : (cut key breaks ((xs.takeWhile fun x => (key x).isNone) ++ y :: ys)).lead =
        (cut key breaks (xs.takeWhile fun x => (key x).isNone)).lead :=
      (finish_cut hk _ ys).1
    rw [← h, hsplit] at hcut
    rw [hcut, cut_of_no_key hlead]

/-- Nothing waits behind a section that nothing breaks. -/
theorem pending_cut (hkey : key x = some k) (hys : ∀ y ∈ ys, inside key breaks y = true) :
    (cut key breaks (xs ++ x :: ys)).pending = [] ∧
      (cut key breaks (xs ++ x :: ys)).found ≠ [] := by
  have hnokey : ys.filterMap key = [] := by
    rw [filterMap_eq_nil_iff]
    intro y hy
    exact Option.isNone_iff_eq_none.mp (Bool.and_eq_true_iff.mp (hys y hy)).1
  obtain ⟨rest, -, hfound, -, hplain⟩ := run_section key breaks
    (s := { cut key breaks xs with
      found := (cut key breaks xs).found ++ [(k, (cut key breaks xs).pending ++ [x])]
      pending := [] }) rfl rfl ys
  unfold cut at hfound hplain ⊢
  rw [foldl_append, foldl_cons, push_of_key hkey]
  refine ⟨?_, by rw [hfound]; simp⟩
  rw [(hplain hnokey).2, dropWhile_eq_nil_iff]
  exact hys

/-- What a break opens behind a section waits for the next. -/
theorem cut_waiting {y : α} (hfound : (cut key breaks xs).found ≠ []) (hbreaks : breaks y = true)
    (hnokey : (y :: ys).filterMap key = []) :
    cut key breaks (xs ++ y :: ys) =
      { cut key breaks xs with pending := (cut key breaks xs).pending ++ y :: ys } := by
  rw [filterMap_eq_nil_iff] at hnokey
  have hy : key y = none := hnokey y (.head _)
  obtain ⟨rest, hlead, hrest, -, hplain⟩ := run_waiting key breaks
    (s := { cut key breaks xs with pending := (cut key breaks xs).pending ++ [y] })
    hfound (by simp) ys
  obtain ⟨rfl, hpending⟩ := hplain
    (filterMap_eq_nil_iff.mpr fun z hz => hnokey z (.tail _ hz))
  have hrun : cut key breaks (xs ++ y :: ys) = ys.foldl (push key breaks)
      { cut key breaks xs with pending := (cut key breaks xs).pending ++ [y] } := by
    unfold cut at hfound ⊢
    rw [foldl_append, foldl_cons, push_waiting hy hfound (.inl hbreaks)]
  rw [← hrun] at hlead hrest hpending
  rw [show cut key breaks (xs ++ y :: ys) = ⟨(cut key breaks (xs ++ y :: ys)).lead,
    (cut key breaks (xs ++ y :: ys)).found, (cut key breaks (xs ++ y :: ys)).pending⟩ from rfl,
    hlead, hrest, hpending]
  simp

theorem pending_breaks (xs : List α) (h : (cut key breaks xs).pending ≠ []) :
    ∃ y ys, (cut key breaks xs).pending = y :: ys ∧ breaks y = true := by
  induction xs using List.reverseRecOn with
  | nil => exact absurd rfl h
  | append_singleton xs x ih =>
    have hpush : cut key breaks (xs ++ [x]) = push key breaks (cut key breaks xs) x := by
      unfold cut
      rw [foldl_append]
      rfl
    rw [hpush] at h ⊢
    cases hkey : key x with
    | some k =>
      rw [push_of_key hkey] at h
      exact absurd rfl h
    | none =>
      unfold push at h ⊢
      rw [hkey] at h ⊢
      dsimp only at h ⊢
      split_ifs at h ⊢ with hempty hwaits
      · exact ih h
      · by_cases hpending : (cut key breaks xs).pending = []
        · rw [hpending] at hwaits ⊢
          exact ⟨x, [], rfl, by simpa using hwaits⟩
        · obtain ⟨y, ys, hy, hbreaks⟩ := ih hpending
          exact ⟨y, ys ++ [x], by rw [hy]; rfl, hbreaks⟩
      · exact ih h

theorem lead_append (h : xs.filterMap key = []) (ys : List α) :
    (cut key breaks (xs ++ ys)).lead = xs ++ (cut key breaks ys).lead := by
  rw [filterMap_eq_nil_iff] at h
  rw [lead_cut, lead_cut, takeWhile_append_of_pos]
  intro x hx
  rw [h x hx]
  rfl

theorem lead_cons_of_key (h : key x = some k) (ys : List α) :
    (cut key breaks (x :: ys)).lead = [] := by
  rw [lead_cut, takeWhile_cons_of_neg (by simp [h])]

theorem lead_cons_of_none (h : key x = none) (ys : List α) :
    (cut key breaks (x :: ys)).lead = x :: (cut key breaks ys).lead := by
  rw [lead_cut, lead_cut, takeWhile_cons_of_pos (by simp [h])]

end Sections
