import Soloist.Dict
import Soloist.Watch.Plan

/-! The watches held by every open project: one owner set for each watched path, the budget they
spend, and the session through which the OS watches them. -/
open Option

namespace Soloist

def budgetFraction : ℕ := 2

def assumedCapacity : ℕ := 8192

structure Budget where
  total : ℕ
  spent : ℕ
  deriving DecidableEq, Repr

namespace Budget

def new (capacity : Option ℕ) : Budget := ⟨capacity.getD assumedCapacity / budgetFraction, 0⟩

def share (b : Budget) (openProjects : ℕ) : ℕ := b.total / max openProjects 1

def spend (b : Budget) (watches : ℕ) : Budget := { b with spent := b.spent + watches }

def refund (b : Budget) (watches : ℕ) : Budget := { b with spent := b.spent - watches }

def remaining (b : Budget) : ℕ := b.total - b.spent

end Budget

/-- The OS watches taken out and not given back, each with whether it is recursive. -/
abbrev WatchSession := Slots PathBuf Bool

structure Registrations where
  budget : Budget
  held : Dict PathBuf (List ProjectId)

namespace Registrations

def new (capacity : Option ℕ) : Registrations := ⟨Budget.new capacity, ∅⟩

def share (r : Registrations) (openProjects : ℕ) : ℕ := r.budget.share openProjects

def paths (r : Registrations) : List PathBuf := r.held.keys

def ownersOf (r : Registrations) (path : PathBuf) : List ProjectId :=
  (AList.lookup path r.held).getD []

def isHeld (r : Registrations) (path : PathBuf) (project : ProjectId) : Prop :=
  project ∈ r.ownersOf path

instance (r : Registrations) (path : PathBuf) (project : ProjectId) :
    Decidable (r.isHeld path project) := inferInstanceAs (Decidable (project ∈ r.ownersOf path))

def heldBy (r : Registrations) (project : ProjectId) : List PathBuf :=
  r.paths.filter fun path => r.isHeld path project

end Registrations

/-- The registrations and the session they are made through. -/
structure Watching where
  registrations : Registrations
  session : WatchSession

namespace Watching

def new (capacity : Option ℕ) : Watching := ⟨Registrations.new capacity, Slots.empty⟩

/-- `Registrations::register`; `refusal` is what the OS would answer. -/
def register (w : Watching) (path : PathBuf) (project : ProjectId) (tree : Bool)
    (refusal : Option WatchError) : Watching × Option WatchError :=
  match AList.lookup path w.registrations.held with
  | some owners =>
    ({ w with registrations.held := w.registrations.held.insert path (owners.insert project) }, none)
  | none =>
    if w.registrations.budget.remaining = 0 then (w, some .shareExhausted)
    else
      match refusal with
      | some error => (w, some error)
      | none =>
        ({ registrations :=
             { budget := w.registrations.budget.spend 1
               held := w.registrations.held.insert path [project] }
           session := w.session.put path tree },
          none)

/-- `Registrations::release`. -/
def release (w : Watching) (path : PathBuf) (project : ProjectId) : Watching :=
  match AList.lookup path w.registrations.held with
  | none => w
  | some owners =>
    let owners := owners.filter fun owner => owner ≠ project
    if owners = [] then
      { registrations :=
          { budget := w.registrations.budget.refund 1, held := w.registrations.held.erase path }
        session := w.session.erase path }
    else { w with registrations.held := w.registrations.held.insert path owners }

variable {w : Watching} {path p : PathBuf} {project q : ProjectId} {tree : Bool}
  {refusal : Option WatchError} {error : WatchError}

theorem register_cases (w : Watching) (path : PathBuf) (project : ProjectId) (tree : Bool)
    (refusal : Option WatchError) :
    (∃ owners, AList.lookup path w.registrations.held = some owners ∧
      w.register path project tree refusal =
        ({ w with registrations.held :=
            w.registrations.held.insert path (owners.insert project) }, none)) ∨
    (∃ error, AList.lookup path w.registrations.held = none ∧
      (w.registrations.budget.remaining = 0 ∨ refusal = some error) ∧
      w.register path project tree refusal = (w, some error)) ∨
    (AList.lookup path w.registrations.held = none ∧ w.registrations.budget.remaining ≠ 0 ∧
      refusal = none ∧
      w.register path project tree refusal =
        ({ registrations :=
             { budget := w.registrations.budget.spend 1
               held := w.registrations.held.insert path [project] }
           session := w.session.put path tree }, none)) := by
  unfold register
  cases hlookup : AList.lookup path w.registrations.held with
  | some owners => exact .inl ⟨owners, rfl, rfl⟩
  | none =>
    by_cases hbudget : w.registrations.budget.remaining = 0
    · exact .inr (.inl ⟨.shareExhausted, rfl, .inl hbudget, if_pos hbudget⟩)
    · cases refusal with
      | some error => exact .inr (.inl ⟨error, rfl, .inr rfl, if_neg hbudget⟩)
      | none => exact .inr (.inr ⟨rfl, hbudget, rfl, if_neg hbudget⟩)

/-- A release gives back the last owner's watch, or only leaves the owners. -/
theorem release_cases (w : Watching) (path : PathBuf) (project : ProjectId) :
    (AList.lookup path w.registrations.held = none ∧ w.release path project = w) ∨
    (∃ owners, AList.lookup path w.registrations.held = some owners ∧
      (owners.filter fun owner => owner ≠ project) = [] ∧
      w.release path project =
        { registrations :=
            { budget := w.registrations.budget.refund 1, held := w.registrations.held.erase path }
          session := w.session.erase path }) ∨
    (∃ owners, AList.lookup path w.registrations.held = some owners ∧
      (owners.filter fun owner => owner ≠ project) ≠ [] ∧
      w.release path project =
        { w with registrations.held :=
            w.registrations.held.insert path (owners.filter fun owner => owner ≠ project) }) := by
  unfold release
  cases hlookup : AList.lookup path w.registrations.held with
  | none => exact .inl ⟨rfl, rfl⟩
  | some owners =>
    by_cases hlast : (owners.filter fun owner => owner ≠ project) = []
    · exact .inr (.inl ⟨owners, rfl, hlast, if_pos hlast⟩)
    · exact .inr (.inr ⟨owners, rfl, hlast, if_neg hlast⟩)

theorem register_refused (h : (w.register path project tree refusal).2 = some error) :
    (w.register path project tree refusal).1 = w := by
  obtain ⟨owners, -, heq⟩ | ⟨error', -, -, heq⟩ | ⟨-, -, -, heq⟩ :=
    register_cases w path project tree refusal
  · rw [heq] at h
    cases h
  · rw [heq]
  · rw [heq] at h
    cases h

theorem ownersOf_insert (r : Registrations) (b : Budget) (path p : PathBuf)
    (owners : List ProjectId) :
    Registrations.ownersOf ⟨b, r.held.insert path owners⟩ p =
      if p = path then owners else r.ownersOf p := by
  unfold Registrations.ownersOf
  rw [Dict.lookup_insert]
  split_ifs with h
  · rw [getD_some]
  · rfl

theorem isHeld_register (w : Watching) (path : PathBuf) (project : ProjectId) (tree : Bool)
    (refusal : Option WatchError) :
    (w.register path project tree refusal).1.registrations.isHeld p q ↔
      w.registrations.isHeld p q ∨
        p = path ∧ q = project ∧ (w.register path project tree refusal).2 = none := by
  obtain ⟨owners, hlookup, heq⟩ | ⟨error, -, -, heq⟩ | ⟨hlookup, -, -, heq⟩ :=
    register_cases w path project tree refusal
  · have howners : w.registrations.ownersOf path = owners := by
      rw [Registrations.ownersOf, hlookup, getD_some]
    rw [heq]
    unfold Registrations.isHeld
    rw [ownersOf_insert]
    by_cases hp : p = path
    · rw [if_pos hp, hp, howners, List.mem_insert_iff]
      simp only [true_and, and_true]
      exact or_comm
    · rw [if_neg hp]
      simp [hp]
  · rw [heq]
    simp
  · have howners : w.registrations.ownersOf path = [] := by
      rw [Registrations.ownersOf, hlookup, getD_none]
    rw [heq]
    unfold Registrations.isHeld
    rw [ownersOf_insert]
    by_cases hp : p = path
    · rw [if_pos hp, hp, howners]
      simp
    · rw [if_neg hp]
      simp [hp]

theorem isHeld_release (w : Watching) (path : PathBuf) (project : ProjectId) :
    (w.release path project).registrations.isHeld p q ↔
      w.registrations.isHeld p q ∧ ¬(p = path ∧ q = project) := by
  unfold Registrations.isHeld
  obtain ⟨hlookup, heq⟩ | ⟨owners, hlookup, hlast, heq⟩ | ⟨owners, hlookup, -, heq⟩ :=
    release_cases w path project
  · have howners : w.registrations.ownersOf path = [] := by
      rw [Registrations.ownersOf, hlookup, getD_none]
    rw [heq]
    constructor
    · intro hheld
      refine ⟨hheld, ?_⟩
      rintro ⟨rfl, -⟩
      rw [howners] at hheld
      cases hheld
    · intro h
      exact h.1
  · have howners : w.registrations.ownersOf path = owners := by
      rw [Registrations.ownersOf, hlookup, getD_some]
    have hall : ∀ owner ∈ owners, owner = project := by
      intro owner howner
      by_contra hne
      have hmem : owner ∈ owners.filter fun owner => owner ≠ project := by simp [howner, hne]
      rw [hlast] at hmem
      cases hmem
    have herased : Registrations.ownersOf ⟨w.registrations.budget.refund 1,
        w.registrations.held.erase path⟩ p = if p = path then [] else w.registrations.ownersOf p := by
      unfold Registrations.ownersOf
      rw [Dict.lookup_erase]
      split_ifs with h
      · rw [getD_none]
      · rfl
    rw [heq, herased]
    by_cases hp : p = path
    · rw [if_pos hp, hp, howners]
      constructor
      · intro hmem
        cases hmem
      · rintro ⟨hmem, hne⟩
        exact absurd ⟨rfl, hall q hmem⟩ hne
    · rw [if_neg hp]
      simp [hp]
  · have howners : w.registrations.ownersOf path = owners := by
      rw [Registrations.ownersOf, hlookup, getD_some]
    rw [heq, ownersOf_insert]
    by_cases hp : p = path
    · rw [if_pos hp, hp, howners, List.mem_filter]
      simp
    · rw [if_neg hp]
      simp [hp]

/-- Owners, budget and session keep the same books. -/
structure Accounted (w : Watching) : Prop where
  owned : ∀ path owners, AList.lookup path w.registrations.held = some owners → owners ≠ []
  spent : w.registrations.budget.spent = w.registrations.paths.length
  within : w.registrations.budget.spent ≤ w.registrations.budget.total
  watched : ∀ path, (w.session path).isSome ↔ path ∈ w.registrations.paths

variable {r : Registrations}

theorem mem_paths : path ∈ r.paths ↔ ∃ owners, AList.lookup path r.held = some owners := by
  unfold Registrations.paths
  rw [← AList.mem_keys, ← AList.lookup_isSome, isSome_iff_exists]

theorem lookup_of_isHeld (h : r.isHeld path project) :
    ∃ owners, AList.lookup path r.held = some owners ∧ project ∈ owners := by
  unfold Registrations.isHeld Registrations.ownersOf at h
  cases hlookup : AList.lookup path r.held with
  | none =>
    rw [hlookup] at h
    cases h
  | some owners =>
    rw [hlookup] at h
    exact ⟨owners, rfl, h⟩

theorem mem_heldBy : path ∈ r.heldBy project ↔ r.isHeld path project := by
  unfold Registrations.heldBy
  rw [List.mem_filter, decide_eq_true_eq]
  constructor
  · intro h
    exact h.2
  · intro h
    obtain ⟨owners, hlookup, -⟩ := lookup_of_isHeld h
    exact ⟨mem_paths.mpr ⟨owners, hlookup⟩, h⟩

theorem length_keys (d : Dict PathBuf (List ProjectId)) :
    d.keys.length = Dict.total (fun _ _ => 1) d := by
  unfold Dict.total AList.keys List.keys
  simp

theorem length_keys_insert (d : Dict PathBuf (List ProjectId)) (path : PathBuf)
    (owners : List ProjectId) :
    (AList.insert path owners d).keys.length =
      if (AList.lookup path d).isSome then d.keys.length else d.keys.length + 1 := by
  have htotal := Dict.total_insert (fun _ _ => 1) d path owners
  rw [length_keys, length_keys]
  cases hlookup : AList.lookup path d with
  | none =>
    rw [hlookup] at htotal
    simpa using htotal
  | some old =>
    rw [hlookup] at htotal
    simpa using htotal

theorem length_keys_erase {d : Dict PathBuf (List ProjectId)} {owners : List ProjectId}
    (h : AList.lookup path d = some owners) :
    (AList.erase path d).keys.length + 1 = d.keys.length := by
  have htotal := Dict.total_erase (fun _ _ => 1) d path
  rw [h] at htotal
  rw [length_keys, length_keys]
  simpa using htotal

theorem accounted_new (capacity : Option ℕ) : (new capacity).Accounted where
  owned := by
    intro path owners h
    cases h
  spent := rfl
  within := Nat.zero_le _
  watched := by
    intro path
    simp [new, Registrations.new, Registrations.paths, AList.keys_empty]

theorem Accounted.reown (h : w.Accounted) {old owners : List ProjectId}
    (hlookup : AList.lookup path w.registrations.held = some old) (hne : owners ≠ []) :
    Accounted { w with
      registrations.held := AList.insert path owners w.registrations.held } := by
  constructor
  · intro p os hp
    rw [Dict.lookup_insert] at hp
    split_ifs at hp with hpath
    · cases hp
      exact hne
    · exact h.owned p os hp
  · show w.registrations.budget.spent = (AList.insert path _ w.registrations.held).keys.length
    rw [length_keys_insert, hlookup]
    exact h.spent
  · exact h.within
  · intro p
    rw [h.watched p, mem_paths, mem_paths, Dict.lookup_insert]
    by_cases hp : p = path
    · rw [if_pos hp, hp, hlookup]
      simp
    · rw [if_neg hp]

theorem Accounted.register (h : w.Accounted) (path : PathBuf) (project : ProjectId) (tree : Bool)
    (refusal : Option WatchError) : (w.register path project tree refusal).1.Accounted := by
  obtain ⟨owners, hlookup, heq⟩ | ⟨error, -, -, heq⟩ | ⟨hlookup, hbudget, -, heq⟩ :=
    register_cases w path project tree refusal
  · rw [heq]
    exact h.reown hlookup (List.ne_nil_of_mem List.mem_insert_self)
  · rw [heq]
    exact h
  · rw [heq]
    constructor
    · intro p os hp
      rw [Dict.lookup_insert] at hp
      split_ifs at hp with hpath
      · cases hp
        exact List.cons_ne_nil project []
      · exact h.owned p os hp
    · show w.registrations.budget.spent + 1 =
        (AList.insert path _ w.registrations.held).keys.length
      have hspent := h.spent
      rw [length_keys_insert, hlookup]
      simpa [Registrations.paths] using hspent
    · show w.registrations.budget.spent + 1 ≤ w.registrations.budget.total
      unfold Budget.remaining at hbudget
      omega
    · intro p
      rw [mem_paths, Dict.lookup_insert]
      by_cases hp : p = path
      · rw [if_pos hp, hp]
        simp
      · show (w.session.put path tree p).isSome ↔ _
        rw [if_neg hp, Slots.put_of_ne hp, h.watched p, mem_paths]

theorem Accounted.release (h : w.Accounted) (path : PathBuf) (project : ProjectId) :
    (w.release path project).Accounted := by
  obtain ⟨-, heq⟩ | ⟨owners, hlookup, -, heq⟩ | ⟨owners, hlookup, hne, heq⟩ :=
    release_cases w path project
  · rw [heq]
    exact h
  · have hspent := h.spent
    have hlength := length_keys_erase hlookup
    have hwithin := h.within
    unfold Registrations.paths at hspent
    rw [heq]
    constructor
    · intro p os hp
      rw [Dict.lookup_erase] at hp
      split_ifs at hp with hpath
      exact h.owned p os hp
    · show w.registrations.budget.spent - 1 = (AList.erase path w.registrations.held).keys.length
      omega
    · show w.registrations.budget.spent - 1 ≤ w.registrations.budget.total
      omega
    · intro p
      rw [mem_paths, Dict.lookup_erase]
      show (w.session.erase path p).isSome ↔ _
      unfold Slots.erase
      by_cases hp : p = path
      · rw [if_pos hp, if_pos hp]
        simp
      · rw [if_neg hp, if_neg hp, h.watched p, mem_paths]
  · rw [heq]
    exact h.reown hlookup hne

end Watching

end Soloist
