import Soloist.Watch.Set

/-! Every order of holds and releases by any owners, with the paths each owner holds as a tree. -/
open List Option

namespace Soloist

inductive HoldEvent
  | hold (path : PathBuf) (project : ProjectId) (tree : Bool) (refusal : Option WatchError)
  | release (path : PathBuf) (project : ProjectId)

/-- The registrations, and who asked for which path as a tree and has not released it. -/
structure Holds where
  watching : Watching
  trees : List (PathBuf × ProjectId)

namespace Holds

def new (capacity : Option ℕ) : Holds := ⟨Watching.new capacity, []⟩

def step (s : Holds) : HoldEvent → Holds
  | .hold path project tree refusal =>
    let (watching, refused) := s.watching.register path project tree refusal
    { watching
      trees := if tree ∧ refused = none then (path, project) :: s.trees else s.trees }
  | .release path project =>
    { watching := s.watching.release path project
      trees := s.trees.filter fun hold => hold ≠ (path, project) }

end Holds

def registrationsMachine : Machine Holds HoldEvent where
  init s := ∃ capacity, s = Holds.new capacity
  step s e := some (s.step e)

namespace Holds

/-- What every order of holds and releases keeps. -/
structure WellKept (s : Holds) : Prop where
  accounted : s.watching.Accounted
  owned : ∀ hold ∈ s.trees, s.watching.registrations.isHeld hold.1 hold.2

theorem wellKept_new (capacity : Option ℕ) : (new capacity).WellKept where
  accounted := Watching.accounted_new capacity
  owned := by
    intro hold h
    cases h

variable {s : Holds} {path : PathBuf} {project : ProjectId}

variable {tree : Bool} {refusal : Option WatchError} {hold : PathBuf × ProjectId}

theorem mem_trees_hold :
    hold ∈ (s.step (.hold path project tree refusal)).trees ↔
      hold ∈ s.trees ∨ tree ∧ (s.watching.register path project tree refusal).2 = none ∧
        hold = (path, project) := by
  show hold ∈ (if tree ∧ (s.watching.register path project tree refusal).2 = none
    then (path, project) :: s.trees else s.trees) ↔ _
  split_ifs with h
  · rw [mem_cons]
    tauto
  · tauto

theorem mem_trees_release :
    hold ∈ (s.step (.release path project)).trees ↔ hold ∈ s.trees ∧ hold ≠ (path, project) := by
  show hold ∈ s.trees.filter _ ↔ _
  rw [mem_filter, decide_eq_true_eq]

theorem WellKept.step (h : s.WellKept) (e : HoldEvent) : (s.step e).WellKept := by
  cases e with
  | hold path project tree refusal =>
    refine ⟨h.accounted.register path project tree refusal, ?_⟩
    intro hold hmem
    apply (Watching.isHeld_register _ _ _ _ _).mpr
    obtain hmem | ⟨-, hgranted, rfl⟩ := mem_trees_hold.mp hmem
    · exact .inl (h.owned hold hmem)
    · exact .inr ⟨rfl, rfl, hgranted⟩
  | release path project =>
    refine ⟨h.accounted.release path project, ?_⟩
    intro hold hmem
    obtain ⟨hmem, hne⟩ := mem_trees_release.mp hmem
    apply (Watching.isHeld_release _ _ _).mpr
    refine ⟨h.owned hold hmem, ?_⟩
    rintro ⟨hpath, hproject⟩
    exact hne (Prod.ext hpath hproject)

/-- Every path held as a tree is watched recursively by the OS. -/
def Recursive (s : Holds) : Prop := ∀ hold ∈ s.trees, s.watching.session hold.1 = some true

instance (s : Holds) : Decidable s.Recursive :=
  inferInstanceAs (Decidable (∀ hold ∈ s.trees, s.watching.session hold.1 = some true))

/-- A tree hold of a path that is registered already finds a recursive watch on it. -/
def JoinsTree (s : Holds) : HoldEvent → Prop
  | .hold path _ tree _ =>
    tree → path ∈ s.watching.registrations.paths → s.watching.session path = some true
  | .release _ _ => True

instance decidableJoinsTree (s : Holds) : ∀ e, Decidable (s.JoinsTree e)
  | .hold path _ tree _ => inferInstanceAs
      (Decidable (tree → path ∈ s.watching.registrations.paths → s.watching.session path = some true))
  | .release _ _ => isTrue trivial

variable {w : Watching}

variable {p : PathBuf}

theorem session_register (project : ProjectId) (tree : Bool) (refusal : Option WatchError)
    (hheld : p ∈ w.registrations.paths) :
    (w.register path project tree refusal).1.session p = w.session p := by
  obtain ⟨owners, -, heq⟩ | ⟨error, -, -, heq⟩ | ⟨hlookup, -, -, heq⟩ :=
    Watching.register_cases w path project tree refusal
  · rw [heq]
  · rw [heq]
  · have hne : p ≠ path := by
      rintro rfl
      obtain ⟨owners, howners⟩ := Watching.mem_paths.mp hheld
      rw [hlookup] at howners
      cases howners
    rw [heq]
    exact Slots.put_of_ne hne

theorem session_register_fresh (hfree : path ∉ w.registrations.paths)
    (hgranted : (w.register path project tree refusal).2 = none) :
    (w.register path project tree refusal).1.session path = some tree := by
  obtain ⟨owners, hlookup, -⟩ | ⟨error, -, -, heq⟩ | ⟨-, -, -, heq⟩ :=
    Watching.register_cases w path project tree refusal
  · exact absurd (Watching.mem_paths.mpr ⟨owners, hlookup⟩) hfree
  · rw [heq] at hgranted
    cases hgranted
  · rw [heq]
    exact Slots.put_self

theorem session_release {q : ProjectId}
    (hkept : (w.release path project).registrations.isHeld p q) :
    (w.release path project).session p = w.session p := by
  obtain ⟨-, heq⟩ | ⟨owners, -, -, heq⟩ | ⟨owners, -, -, heq⟩ :=
    Watching.release_cases w path project
  · rw [heq]
  · have hne : p ≠ path := by
      rintro rfl
      obtain ⟨owners', howners', -⟩ := Watching.lookup_of_isHeld hkept
      rw [heq, Dict.lookup_erase, if_pos rfl] at howners'
      cases howners'
    rw [heq]
    exact if_neg hne
  · rw [heq]

theorem recursive_step (hkept : s.WellKept) (hrec : s.Recursive) (e : HoldEvent) :
    (s.step e).Recursive ↔ s.JoinsTree e := by
  cases e with
  | hold path project tree refusal =>
    constructor
    · intro hnext htree hheld
      have hgranted : (s.watching.register path project tree refusal).2 = none := by
        obtain ⟨owners, hlookup⟩ := Watching.mem_paths.mp hheld
        unfold Watching.register
        rw [hlookup]
      have hmode := hnext (path, project) (mem_trees_hold.mpr (.inr ⟨htree, hgranted, rfl⟩))
      rw [← session_register project tree refusal hheld]
      exact hmode
    · intro hjoins hold hmem
      obtain hmem | ⟨htree, hgranted, rfl⟩ := mem_trees_hold.mp hmem
      · obtain ⟨owners, hlookup, -⟩ := Watching.lookup_of_isHeld (hkept.owned hold hmem)
        show (s.watching.register path project tree refusal).1.session hold.1 = some true
        rw [session_register project tree refusal (Watching.mem_paths.mpr ⟨owners, hlookup⟩)]
        exact hrec hold hmem
      · show (s.watching.register path project tree refusal).1.session path = some true
        by_cases hheld : path ∈ s.watching.registrations.paths
        · rw [session_register project tree refusal hheld]
          exact hjoins htree hheld
        · rw [session_register_fresh hheld hgranted, htree]
  | release path project =>
    refine ⟨fun _ => trivial, fun _ hold hmem => ?_⟩
    have hstill := (hkept.step (.release path project)).owned hold hmem
    show (s.watching.release path project).session hold.1 = some true
    rw [session_release hstill]
    exact hrec hold (mem_trees_release.mp hmem).1

end Holds

theorem registrations_wellKept {s : Holds} (h : registrationsMachine.Reachable s) : s.WellKept := by
  apply h.invariant
  · rintro s ⟨capacity, rfl⟩
    exact Holds.wellKept_new capacity
  · intro s e t hs ht
    cases ht
    exact hs.step e

/-- In a run of holds and releases, every path held as a tree is watched recursively throughout,
exactly when no tree hold joins a path that is watched as a single directory. -/
theorem trees_recursive (capacity : Option ℕ) (es : List HoldEvent) :
    registrationsMachine.Throughout Holds.Recursive (Holds.new capacity) es ↔
      registrationsMachine.Along Holds.JoinsTree (Holds.new capacity) es := by
  apply Machine.throughout_iff_along (I := Holds.WellKept)
  · intro s e t hs ht
    cases ht
    exact hs.step e
  · intro s e hs hrec
    rw [← Holds.recursive_step hs hrec e]
    constructor
    · intro h
      exact h (s.step e) rfl
    · intro h t ht
      cases ht
      exact h
  · exact Holds.wellKept_new capacity
  · intro hold hmem
    cases hmem

/-- A tree hold of a repository's refs, in a project opened inside another whose glob names the
same directory and has it registered on its own. -/
theorem tree_joins_directory :
    ¬registrationsMachine.Throughout Holds.Recursive (Holds.new none)
      [.hold [.normal "sub", stateDir, refsDir] 1 false none,
        .hold [.normal "sub", stateDir, refsDir] 2 true none] := by
  rintro ⟨-, -, hrest⟩
  have hfinal := (hrest _ rfl).1 _ rfl
  revert hfinal
  decide

end Soloist

/-! What every project holds is what its plan records, over every run of the watch set. -/
namespace Soloist

namespace Watching
variable {w : Watching} {p : PathBuf} {project q : ProjectId}

theorem isHeld_releaseAll (paths : List PathBuf) :
    (paths.foldl (fun w path => w.release path project) w).registrations.isHeld p q ↔
      w.registrations.isHeld p q ∧ ¬(p ∈ paths ∧ q = project) := by
  induction paths generalizing w with
  | nil => simp
  | cons path rest ih =>
    rw [foldl_cons, ih, isHeld_release, mem_cons]
    tauto

theorem Accounted.releaseAll (h : w.Accounted) (paths : List PathBuf) :
    (paths.foldl (fun w path => w.release path project) w).Accounted :=
  Loop.invariant (I := Accounted) (fun _ path _ hw => hw.release path project) h

theorem isHeld_releaseStale {wanted : List PathBuf} :
    (Resync.releaseStale w project wanted).registrations.isHeld p q ↔
      w.registrations.isHeld p q ∧ (q = project → p ∈ wanted) := by
  unfold Resync.releaseStale
  rw [isHeld_releaseAll, mem_filter, mem_heldBy, decide_eq_true_eq]
  constructor
  · rintro ⟨hheld, hnot⟩
    refine ⟨hheld, ?_⟩
    rintro rfl
    by_contra hunwanted
    exact hnot ⟨⟨hheld, hunwanted⟩, rfl⟩
  · rintro ⟨hheld, hwanted⟩
    refine ⟨hheld, ?_⟩
    rintro ⟨⟨-, hunwanted⟩, rfl⟩
    exact hunwanted (hwanted rfl)

end Watching

namespace Resync
variable {i : Resync} {record : WatchRecord} {acc : Watching × Option WatchError}
  {p path : PathBuf} {q : ProjectId}

theorem registerWanted_fst (h : ¬acc.1.registrations.isHeld path record.id) :
    (i.registerWanted record acc path).1 =
      (acc.1.register path record.id (path = record.root ++ [stateDir, refsDir])
        (i.refusal record.id path)).1 := by
  unfold registerWanted
  rw [if_neg h]

theorem isHeld_registerWanted
    (h : (i.registerWanted record acc path).1.registrations.isHeld p q) :
    acc.1.registrations.isHeld p q ∨ p = path ∧ q = record.id := by
  by_cases hheld : acc.1.registrations.isHeld path record.id
  · unfold registerWanted at h
    rw [if_pos hheld] at h
    exact .inl h
  · rw [registerWanted_fst hheld] at h
    obtain h | ⟨hp, hq, -⟩ := (Watching.isHeld_register _ _ _ _ _).mp h
    · exact .inl h
    · exact .inr ⟨hp, hq⟩

theorem isHeld_registerWanted_of (h : acc.1.registrations.isHeld p q) :
    (i.registerWanted record acc path).1.registrations.isHeld p q := by
  by_cases hheld : acc.1.registrations.isHeld path record.id
  · unfold registerWanted
    rwa [if_pos hheld]
  · rw [registerWanted_fst hheld]
    exact (Watching.isHeld_register _ _ _ _ _).mpr (.inl h)

theorem accounted_registerWanted (h : acc.1.Accounted) :
    (i.registerWanted record acc path).1.Accounted := by
  by_cases hheld : acc.1.registrations.isHeld path record.id
  · unfold registerWanted
    rwa [if_pos hheld]
  · rw [registerWanted_fst hheld]
    exact h.register path record.id _ _

/-- The loop over what a project wants takes only that, and only for that project. -/
theorem isHeld_registerAll (paths : List PathBuf) :
    (paths.foldl (i.registerWanted record) acc).1.registrations.isHeld p q →
      acc.1.registrations.isHeld p q ∨ p ∈ paths ∧ q = record.id := by
  induction paths generalizing acc with
  | nil => exact .inl
  | cons path rest ih =>
    intro h
    rw [foldl_cons] at h
    obtain h | ⟨hmem, hq⟩ := ih h
    · obtain h | ⟨rfl, hq⟩ := isHeld_registerWanted h
      · exact .inl h
      · exact .inr ⟨(.head _), hq⟩
    · exact .inr ⟨.tail _ hmem, hq⟩

theorem accounted_registerAll (paths : List PathBuf) (h : acc.1.Accounted) :
    (paths.foldl (i.registerWanted record) acc).1.Accounted :=
  Loop.invariant (I := fun acc : Watching × Option WatchError => acc.1.Accounted)
    (fun _ _ _ hacc => accounted_registerWanted hacc) h

end Resync

namespace RunState
variable {s : RunState} {project q : ProjectId} {f : Registered → Registered}

theorem lookup_editEntry :
    AList.lookup q (s.editEntry project f).projects =
      if q = project then (AList.lookup project s.projects).map f
      else AList.lookup q s.projects := by
  unfold editEntry
  cases hlookup : AList.lookup project s.projects with
  | none =>
    by_cases hq : q = project
    · rw [if_pos hq, hq, hlookup, map_none]
    · rw [if_neg hq]
  | some entry =>
    show AList.lookup q (AList.insert project (f entry) s.projects) = _
    rw [Dict.lookup_insert, map_some]

@[simp] theorem watching_editEntry : (s.editEntry project f).watching = s.watching := by
  unfold editEntry
  split
  · rfl
  · rfl

@[simp] theorem opened_editEntry : (s.editEntry project f).opened = s.opened := by
  unfold editEntry
  split
  · rfl
  · rfl

/-- The books agree, and what a project holds is in its entry. -/
structure Kept (s : RunState) : Prop where
  accounted : s.watching.Accounted
  recorded : ∀ path project, s.watching.registrations.isHeld path project →
    ∃ entry, AList.lookup project s.projects = some entry ∧ path ∈ entry.paths
  idle : s.opened = false → ∀ path project, ¬s.watching.registrations.isHeld path project

theorem kept_new (capacity : Option ℕ) : (new capacity).Kept where
  accounted := Watching.accounted_new capacity
  recorded := by
    intro path project h
    cases h
  idle := by
    intro _ path project h
    cases h

theorem Kept.editEntry (h : s.Kept) (hpaths : ∀ entry, entry.paths ⊆ (f entry).paths) :
    (s.editEntry project f).Kept := by
  refine ⟨?_, ?_, ?_⟩
  · rw [watching_editEntry]
    exact h.accounted
  · intro path owner hheld
    rw [watching_editEntry] at hheld
    obtain ⟨entry, hlookup, hmem⟩ := h.recorded path owner hheld
    rw [lookup_editEntry]
    by_cases howner : owner = project
    · rw [if_pos howner, ← howner, hlookup]
      exact ⟨f entry, rfl, hpaths entry hmem⟩
    · rw [if_neg howner]
      exact ⟨entry, hlookup, hmem⟩
  · rw [watching_editEntry, opened_editEntry]
    exact h.idle

theorem lookup_releaseProject :
    AList.lookup q (s.releaseProject project).projects =
      if q = project then none else AList.lookup q s.projects := by
  unfold releaseProject
  cases hlookup : AList.lookup project s.projects with
  | none =>
    by_cases hq : q = project
    · rw [if_pos hq, hq, hlookup]
    · rw [if_neg hq]
  | some entry =>
    show AList.lookup q (if _ then RunState.mk _ _ _ else RunState.mk _ _ _).projects = _
    rw [apply_ite RunState.projects, ite_self, Dict.lookup_erase]

theorem opened_releaseProject : (s.releaseProject project).opened = s.opened := by
  unfold releaseProject
  split
  · rfl
  · rw [apply_ite RunState.opened, ite_self]

/-- A closed project holds nothing; what the others hold stays. -/
theorem Kept.isHeld_releaseProject (h : s.Kept) {path : PathBuf} :
    (s.releaseProject project).watching.registrations.isHeld path q ↔
      s.watching.registrations.isHeld path q ∧ q ≠ project := by
  have hunheld : AList.lookup project s.projects = none →
      ¬s.watching.registrations.isHeld path project := by
    intro hlookup hheld
    obtain ⟨entry, hentry, -⟩ := h.recorded path project hheld
    rw [hlookup] at hentry
    cases hentry
  unfold releaseProject
  cases hlookup : AList.lookup project s.projects with
  | none =>
    constructor
    · intro hheld
      refine ⟨hheld, ?_⟩
      rintro rfl
      exact hunheld hlookup hheld
    · intro hheld
      exact hheld.1
  | some entry =>
    cases hopened : s.opened with
    | false =>
      have hidle := h.idle hopened path q
      show s.watching.registrations.isHeld path q ↔ _
      tauto
    | true =>
      show (entry.paths.foldl _ s.watching).registrations.isHeld path q ↔ _
      rw [Watching.isHeld_releaseAll]
      constructor
      · rintro ⟨hheld, hnot⟩
        refine ⟨hheld, ?_⟩
        rintro rfl
        obtain ⟨entry', hentry, hmem⟩ := h.recorded path q hheld
        rw [hlookup] at hentry
        cases hentry
        exact hnot ⟨hmem, rfl⟩
      · rintro ⟨hheld, hne⟩
        exact ⟨hheld, fun hboth => hne hboth.2⟩

theorem accounted_releaseProject (h : s.watching.Accounted) :
    (s.releaseProject project).watching.Accounted := by
  unfold releaseProject
  split
  · exact h
  · split_ifs with hopened
    · exact h.releaseAll _
    · exact h

theorem Kept.releaseProject (h : s.Kept) : (s.releaseProject project).Kept := by
  refine ⟨accounted_releaseProject h.accounted, ?_, ?_⟩
  · intro path owner hheld
    obtain ⟨hheld, hne⟩ := h.isHeld_releaseProject.mp hheld
    rw [lookup_releaseProject, if_neg hne]
    exact h.recorded path owner hheld
  · intro hopened path owner hheld
    rw [opened_releaseProject] at hopened
    exact h.idle hopened path owner (h.isHeld_releaseProject.mp hheld).1

end RunState

namespace Resync
variable {i : Resync} {share : ℕ} {record : WatchRecord} {s : RunState} {acc : Resyncing}
  {path : PathBuf} {q : ProjectId}

theorem lookup_replanIfMoved_of_ne (hq : q ≠ record.id) :
    AList.lookup q (i.replanIfMoved share s record).projects = AList.lookup q s.projects := by
  unfold replanIfMoved
  split_ifs
  · exact AList.lookup_insert_ne hq
  · rfl

/-- After the turn's planning a project has the entry of a fresh plan, or the one it had, whose
inputs have not moved. -/
theorem lookup_replanIfMoved (i : Resync) (share : ℕ) (s : RunState) (record : WatchRecord) :
    AList.lookup record.id (i.replanIfMoved share s record).projects =
        some (i.plannedEntry share record) ∨
      i.needsReplan share s record = false ∧ i.replanIfMoved share s record = s ∧
        ∃ entry, AList.lookup record.id s.projects = some entry ∧ entry.root = record.root ∧
          entry.globs = i.globs record.id := by
  unfold replanIfMoved
  by_cases hmoved : i.needsReplan share s record
  · left
    rw [if_pos hmoved]
    exact AList.lookup_insert s.projects
  · right
    rw [if_neg hmoved]
    refine ⟨Bool.eq_false_iff.mpr hmoved, rfl, ?_⟩
    unfold needsReplan at hmoved
    cases hlookup : AList.lookup record.id s.projects with
    | none => simp [hlookup] at hmoved
    | some entry =>
      simp only [hlookup, Bool.or_eq_true, decide_eq_true_eq, not_or, not_not] at hmoved
      exact ⟨entry, rfl, hmoved.2.1.1, hmoved.2.1.2⟩

theorem exists_entry (i : Resync) (share : ℕ) (s : RunState) (record : WatchRecord) :
    ∃ entry, AList.lookup record.id (i.replanIfMoved share s record).projects = some entry := by
  obtain hplanned | ⟨-, hsame, entry, hentry, -⟩ :=
    lookup_replanIfMoved i share s record
  · exact ⟨_, hplanned⟩
  · rw [hsame]
    exact ⟨entry, hentry⟩

@[simp] theorem watching_replanIfMoved : (i.replanIfMoved share s record).watching = s.watching := by
  unfold replanIfMoved
  split_ifs
  · rfl
  · rfl

@[simp] theorem opened_replanIfMoved : (i.replanIfMoved share s record).opened = s.opened := by
  unfold replanIfMoved
  split_ifs
  · rfl
  · rfl

/-- A turn of the re-sync touches the holds of its own project only, and leaves it with nothing its
entry does not want. -/
theorem isHeld_resyncRecord
    (h : (i.resyncRecord share acc record).run.watching.registrations.isHeld path q) :
    q ≠ record.id ∧ acc.run.watching.registrations.isHeld path q ∨
      q = record.id ∧ ∃ entry,
        AList.lookup record.id (i.replanIfMoved share acc.run record).projects = some entry ∧
          path ∈ entry.paths := by
  obtain ⟨entry, hentry⟩ := exists_entry i share acc.run record
  have hwanted : ∀ p, p ∈ (i.arrangement record.id).order entry.paths → p ∈ entry.paths :=
    fun p hp => ((i.arrangement record.id).perm entry.paths).mem_iff.mp hp
  unfold resyncRecord at h
  simp only [hentry, elim_some, watching_replanIfMoved] at h
  obtain hstale | ⟨hmem, hq⟩ := isHeld_registerAll _ h
  · obtain ⟨hheld, hin⟩ := Watching.isHeld_releaseStale.mp hstale
    by_cases hq : q = record.id
    · exact .inr ⟨hq, entry, hentry, hin hq⟩
    · exact .inl ⟨hq, hheld⟩
  · exact .inr ⟨hq, entry, hentry, hwanted path hmem⟩

theorem accounted_resyncRecord (h : acc.run.watching.Accounted) :
    (i.resyncRecord share acc record).run.watching.Accounted := by
  unfold resyncRecord
  apply accounted_registerAll
  show (releaseStale _ _ _).Accounted
  rw [watching_replanIfMoved]
  exact h.releaseAll _

theorem kept_resyncRecord (h : acc.run.Kept) (hopened : acc.run.opened = true) :
    (i.resyncRecord share acc record).run.Kept := by
  refine ⟨accounted_resyncRecord h.accounted, ?_, ?_⟩
  · intro path owner hheld
    obtain ⟨hne, hheld⟩ | ⟨rfl, hentry⟩ := isHeld_resyncRecord hheld
    · show ∃ entry, AList.lookup owner (i.replanIfMoved share acc.run record).projects = some entry ∧ _
      rw [lookup_replanIfMoved_of_ne hne]
      exact h.recorded path owner hheld
    · exact hentry
  · intro hclosed
    have hstill : (i.replanIfMoved share acc.run record).opened = false := hclosed
    rw [opened_replanIfMoved, hopened] at hstill
    cases hstill

theorem opened_resyncRecord : (i.resyncRecord share acc record).run.opened = acc.run.opened :=
  opened_replanIfMoved

end Resync

namespace WatchSet
variable {s : WatchSet} {i : Resync} {records : List WatchRecord} {project q : ProjectId}
  {path : PathBuf}

theorem kept_open {s : RunState} (h : s.Kept) : ({ s with opened := true } : RunState).Kept where
  accounted := h.accounted
  recorded := h.recorded
  idle := by
    intro hopened
    cases hopened

theorem lookup_releaseAll {s : RunState} (projects : List ProjectId) :
    AList.lookup q (projects.foldl RunState.releaseProject s).projects =
      if q ∈ projects then none else AList.lookup q s.projects := by
  induction projects generalizing s with
  | nil => simp
  | cons project rest ih =>
    rw [foldl_cons, ih, RunState.lookup_releaseProject]
    by_cases hrest : q ∈ rest
    · simp [hrest]
    · by_cases hq : q = project
      · simp [hq]
      · simp [hrest, hq]

theorem lookup_releaseClosed {s : RunState} :
    AList.lookup q (releaseClosed s records).projects =
      if q ∈ records.map WatchRecord.id then AList.lookup q s.projects else none := by
  unfold releaseClosed
  rw [lookup_releaseAll]
  by_cases hlisted : q ∈ records.map WatchRecord.id
  · rw [if_pos hlisted, if_neg]
    intro hmem
    have hunlisted := (mem_filter.mp hmem).2
    rw [decide_eq_true_eq] at hunlisted
    exact hunlisted hlisted
  · rw [if_neg hlisted]
    split_ifs with hmem
    · rfl
    · cases hlookup : AList.lookup q s.projects with
      | none => rfl
      | some entry =>
        exfalso
        apply hmem
        have hkey : q ∈ s.projects := AList.lookup_isSome.mp (by rw [hlookup]; rfl)
        rw [mem_filter, decide_eq_true_eq]
        exact ⟨hkey, hlisted⟩

theorem kept_releaseClosed {s : RunState} (h : s.Kept) : (releaseClosed s records).Kept :=
  Loop.invariant (I := RunState.Kept) (fun _ _ _ hs => hs.releaseProject) h

theorem opened_releaseClosed {s : RunState} (h : s.opened = true) :
    (releaseClosed s records).opened = true := by
  apply Loop.invariant (I := fun s : RunState => s.opened = true)
  · intro s project _ hs
    rw [RunState.opened_releaseProject]
    exact hs
  · exact h

/-- In the middle of a re-sync: the backend is open, the books agree and only listed projects have
an entry. -/
structure Reconciling (records : List WatchRecord) (s : RunState) : Prop where
  kept : s.Kept
  opened : s.opened = true
  unlisted : ∀ q ∉ records.map WatchRecord.id, AList.lookup q s.projects = none

theorem reconciling_start (h : s.run.Kept) :
    Reconciling records (releaseClosed { s.run with opened := true } records) where
  kept := kept_releaseClosed (kept_open h)
  opened := opened_releaseClosed rfl
  unlisted := by
    intro q hq
    rw [lookup_releaseClosed, if_neg hq]

theorem Reconciling.turn {acc : Resyncing} {share : ℕ} {record : WatchRecord}
    (h : Reconciling records acc.run) (hrecord : record ∈ records) :
    Reconciling records (i.resyncRecord share acc record).run where
  kept := Resync.kept_resyncRecord h.kept h.opened
  opened := by
    rw [Resync.opened_resyncRecord]
    exact h.opened
  unlisted := by
    intro q hq
    have hne : q ≠ record.id := by
      rintro rfl
      exact hq (List.mem_map_of_mem hrecord)
    exact (Resync.lookup_replanIfMoved_of_ne hne).trans (h.unlisted q hq)

theorem reconciling_reconcile (h : s.run.Kept) : Reconciling records (s.reconcile i records).run := by
  unfold reconcile
  apply Loop.invariant (I := fun acc : Resyncing => Reconciling records acc.run)
  · intro acc record hrecord hacc
    exact hacc.turn hrecord
  · exact reconciling_start h

theorem kept_resync (h : s.run.Kept) (i : Resync) : (s.resync i).run.Kept := by
  unfold resync
  split
  · exact h
  · split_ifs
    · exact (reconciling_reconcile h).kept
    · exact h

variable {f : Registered → Registered}

theorem exists_editEntry {s : RunState} (h : ∃ entry, AList.lookup q s.projects = some entry) :
    ∃ entry, AList.lookup q (s.editEntry project f).projects = some entry := by
  obtain ⟨entry, hentry⟩ := h
  rw [RunState.lookup_editEntry]
  by_cases hq : q = project
  · rw [if_pos hq, ← hq, hentry]
    exact ⟨f entry, rfl⟩
  · rw [if_neg hq]
    exact ⟨entry, hentry⟩

/-- The set is running with its books in order, and a project has an entry. -/
structure Absorbing (project : ProjectId) (s : RunState) : Prop where
  kept : s.Kept
  opened : s.opened = true
  entry : ∃ entry, AList.lookup project s.projects = some entry

theorem Absorbing.editEntry {s : RunState} (h : Absorbing q s)
    (hpaths : ∀ entry, entry.paths ⊆ (f entry).paths) : Absorbing q (s.editEntry project f) where
  kept := h.kept.editEntry hpaths
  opened := by
    rw [RunState.opened_editEntry]
    exact h.opened
  entry := exists_editEntry h.entry

theorem Absorbing.registered {s : RunState} {refusal : Option WatchError} {w : Watching}
    (hq : Absorbing q s) (h : Absorbing project s)
    (heq : s.watching.register path project false refusal = (w, none)) :
    Absorbing q ({ s with watching := w }.editEntry project fun entry =>
      { entry with paths := entry.paths.insert path }) := by
  have haccounted := h.kept.accounted.register path project false refusal
  rw [heq] at haccounted
  refine ⟨⟨?_, ?_, ?_⟩, ?_, exists_editEntry hq.entry⟩
  · rw [RunState.watching_editEntry]
    exact haccounted
  · intro p owner hheld
    rw [RunState.watching_editEntry] at hheld
    have hregister := Watching.isHeld_register (p := p) (q := owner) s.watching path project false
      refusal
    rw [heq] at hregister
    rw [RunState.lookup_editEntry]
    obtain hold | ⟨rfl, rfl, -⟩ := hregister.mp hheld
    · obtain ⟨entry, hlookup, hmem⟩ := h.kept.recorded p owner hold
      by_cases howner : owner = project
      · rw [if_pos howner, ← howner, hlookup]
        exact ⟨_, rfl, mem_insert_of_mem hmem⟩
      · rw [if_neg howner]
        exact ⟨entry, hlookup, hmem⟩
    · obtain ⟨entry, hlookup⟩ := h.entry
      rw [if_pos rfl, hlookup]
      exact ⟨_, rfl, mem_insert_self⟩
  · rw [RunState.opened_editEntry]
    intro hclosed
    rw [h.opened] at hclosed
    cases hclosed
  · rw [RunState.opened_editEntry]
    exact h.opened

variable {refusal : PathBuf → Option WatchError}

theorem absorbing_absorbFound {s : RunState} {found : ScannedPath} (hq : Absorbing q s)
    (h : Absorbing project s) : Absorbing q (absorbFound refusal project s found) := by
  unfold absorbFound
  split_ifs
  · split
    · rename_i w error heq
      have hsame : w = s.watching := by
        have hanswer : (s.watching.register found.path project false (refusal found.path)).2 =
            some error := by rw [heq]
        have hrefused := Watching.register_refused hanswer
        rw [heq] at hrefused
        exact hrefused
      rw [hsame]
      exact hq.editEntry fun entry => List.Subset.refl _
    · rename_i w heq
      exact hq.registered h heq
  · exact hq

theorem absorbing_absorbAll {s : RunState} {paths : List ScannedPath} (hq : Absorbing q s)
    (h : Absorbing project s) : Absorbing q (paths.foldl (absorbFound refusal project) s) := by
  induction paths generalizing s with
  | nil => exact hq
  | cons found rest ih =>
    rw [foldl_cons]
    exact ih (absorbing_absorbFound hq h) (absorbing_absorbFound h h)

variable {scan : ProjectId → ScanRequest → Scan}

theorem absorbing_absorbAppeared {refusal : ProjectId → PathBuf → Option WatchError}
    (hq : Absorbing q s.run) (h : Absorbing project s.run) :
    Absorbing q (absorbAppeared scan refusal path s project).run := by
  unfold absorbAppeared
  rw [if_pos h.opened]
  exact absorbing_absorbAll (hq.editEntry fun _ => List.Subset.refl _)
    (h.editEntry fun _ => List.Subset.refl _)

theorem kept_appeared {owners : List ProjectId} {refusal : ProjectId → PathBuf → Option WatchError}
    (h : s.run.Kept) (howners : owners.Perm (s.parentOwners path)) :
    (owners.foldl (absorbAppeared scan refusal path) s).run.Kept := by
  have hheld : ∀ owner ∈ owners, Absorbing owner s.run := by
    intro owner howner
    have hparent := howners.mem_iff.mp howner
    unfold parentOwners at hparent
    split at hparent
    · rename_i parent _
      have hopened : s.run.opened = true := by
        by_contra hclosed
        exact h.idle (Bool.eq_false_iff.mpr hclosed) parent owner hparent
      obtain ⟨entry, hentry, -⟩ := h.recorded parent owner hparent
      exact ⟨h, hopened, entry, hentry⟩
    · cases hparent
  cases owners with
  | nil => exact h
  | cons first rest =>
    have hloop : ∀ owner ∈ first :: rest,
        Absorbing owner ((first :: rest).foldl (absorbAppeared scan refusal path) s).run := by
      apply Loop.invariant (I := fun s : WatchSet => ∀ owner ∈ first :: rest, Absorbing owner s.run)
      · intro s project hproject hs owner howner
        exact absorbing_absorbAppeared (hs owner howner) (hs project hproject)
      · exact hheld
    exact (hloop first (.head _)).kept

/-- An owner that lets a path go loses it from its entry too. -/
theorem kept_prunePath {s : RunState} (h : s.Kept) : (prunePath path s project).Kept := by
  unfold prunePath
  refine ⟨?_, ?_, ?_⟩
  · rw [RunState.watching_editEntry]
    exact h.accounted.release path project
  · intro p owner hheld
    rw [RunState.watching_editEntry] at hheld
    obtain ⟨hheld, hnot⟩ := (Watching.isHeld_release _ _ _).mp hheld
    obtain ⟨entry, hlookup, hmem⟩ := h.recorded p owner hheld
    rw [RunState.lookup_editEntry]
    by_cases howner : owner = project
    · rw [if_pos howner, ← howner, hlookup]
      refine ⟨_, rfl, mem_filter.mpr ⟨hmem, ?_⟩⟩
      rw [decide_eq_true_eq]
      intro hp
      exact hnot ⟨hp, howner⟩
    · rw [if_neg howner]
      exact ⟨entry, hlookup, hmem⟩
  · rw [RunState.watching_editEntry, RunState.opened_editEntry]
    intro hclosed p owner hheld
    exact h.idle hclosed p owner ((Watching.isHeld_release _ _ _).mp hheld).1

theorem kept_pruneVanished {s : RunState} (h : s.Kept) : (pruneVanished s path).Kept := by
  unfold pruneVanished
  split_ifs
  · apply Loop.invariant (I := RunState.Kept)
    · intro s doomed _ hs
      exact Loop.invariant (I := RunState.Kept) (fun s project _ hs => kept_prunePath hs) hs
    · exact h
  · exact h

theorem kept_noteVanished {s : RunState} (h : s.Kept) : (noteVanished path s).Kept :=
  Loop.invariant (I := RunState.Kept)
    (fun _ _ _ hs => hs.editEntry fun _ => List.Subset.refl _) h

theorem kept_step {e : Event} {t : WatchSet} (h : s.run.Kept) (hstep : s.step e = some t) :
    t.run.Kept := by
  cases e with
  | resync i =>
    obtain ⟨-, hsome⟩ := ite_none_right_eq_some.mp hstep
    cases hsome
    exact kept_resync h i
  | projectOpened id i =>
    obtain ⟨-, hsome⟩ := ite_none_right_eq_some.mp hstep
    cases hsome
    have hreleased : ({ s with run := s.run.releaseProject id } : WatchSet).run.Kept :=
      h.releaseProject
    exact kept_resync hreleased i
  | appeared path owners scan refusal =>
    obtain ⟨howners, hsome⟩ := ite_none_right_eq_some.mp hstep
    cases hsome
    exact kept_appeared h howners
  | vanished path =>
    cases hstep
    exact kept_noteVanished (kept_pruneVanished h)
  | modified path =>
    cases hstep
    exact h
  | restarted capacity =>
    cases hstep
    exact RunState.kept_new capacity

end WatchSet

theorem watchSet_kept {s : WatchSet} (h : watchMachine.Reachable s) : s.run.Kept := by
  apply h.invariant (P := fun s : WatchSet => s.run.Kept)
  · rintro s ⟨capacity, rfl⟩
    exact RunState.kept_new capacity
  · intro s e t hs ht
    exact WatchSet.kept_step hs ht

/-- Every order of holds, tree holds and releases keeps the books, and a refused hold changes
nothing. Over every run of the watch set the same holds, no project holds a path its entry does not
record, and a project without an entry, so every project a re-sync no longer lists, holds nothing. -/
theorem watches_accounted :
    (∀ s, registrationsMachine.Reachable s → s.watching.Accounted ∧
      ∀ path project tree refusal error,
        (s.watching.register path project tree refusal).2 = some error →
          (s.watching.register path project tree refusal).1 = s.watching) ∧
    ∀ s, watchMachine.Reachable s →
      s.run.watching.Accounted ∧
      (∀ project, ∀ path ∈ s.run.watching.registrations.heldBy project,
        ∃ entry, AList.lookup project s.run.projects = some entry ∧ path ∈ entry.paths) ∧
      (∀ project, (s.run.releaseProject project).watching.registrations.heldBy project = []) ∧
      ∀ i t records, watchMachine.step s (.resync i) = some t → i.records = some records →
        ∀ project ∉ records.map WatchRecord.id,
          (s.run.opened = true ∨ i.opens = true) →
            t.run.watching.registrations.heldBy project = [] := by
  refine ⟨fun s hs => ⟨(registrations_wellKept hs).accounted, ?_⟩, fun s hs => ?_⟩
  · intro path project tree refusal error hrefused
    exact Watching.register_refused hrefused
  have hkept := watchSet_kept hs
  have hnothing : ∀ {r : RunState} {project}, r.Kept →
      AList.lookup project r.projects = none → r.watching.registrations.heldBy project = [] := by
    intro r project hr hnone
    apply List.eq_nil_iff_forall_not_mem.mpr
    intro path hmem
    obtain ⟨entry, hentry, -⟩ := hr.recorded path project (Watching.mem_heldBy.mp hmem)
    rw [hnone] at hentry
    cases hentry
  refine ⟨hkept.accounted, ?_, ?_, ?_⟩
  · intro project path hmem
    exact hkept.recorded path project (Watching.mem_heldBy.mp hmem)
  · intro project
    apply hnothing hkept.releaseProject
    rw [RunState.lookup_releaseProject, if_pos rfl]
  · intro i t records hstep hrecords project hproject hopens
    obtain ⟨-, hsome⟩ := Option.ite_none_right_eq_some.mp hstep
    cases hsome
    have hopen : (s.run.opened || i.opens) = true := by simpa using hopens
    have hreconciled : s.resync i = s.reconcile i records := by
      unfold WatchSet.resync
      simp only [hrecords, hopen, if_true]
    rw [hreconciled]
    have hdone : WatchSet.Reconciling records (s.reconcile i records).run :=
      WatchSet.reconciling_reconcile hkept
    exact hnothing hdone.kept (hdone.unlisted project hproject)

end Soloist
