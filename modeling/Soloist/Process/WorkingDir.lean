import Mathlib.Data.List.Infix
import Soloist.Process.Spec

/-! A command's working directory stays inside the project root, and is the plain lexical one where
that never leaves the root. -/
open List

namespace Soloist

/-- Absolute, with every `.` and `..` resolved: what registering a project makes of its root. -/
def Canonical (root : PathBuf) : Prop :=
  ∃ segments : List String, root = .rootDir :: segments.map .normal

/-- The plain lexical resolution: `..` drops what is last, and an absolute directory starts over. -/
def lexical : PathBuf → List Component → PathBuf
  | resolved, [] => resolved
  | resolved, .normal segment :: rest => lexical (resolved ++ [.normal segment]) rest
  | resolved, .curDir :: rest => lexical resolved rest
  | resolved, .parentDir :: rest => lexical (PathBuf.pop resolved).1 rest
  | _, .rootDir :: rest => lexical [.rootDir] rest

/-- No prefix of the resolution leaves the root. -/
def Stays (root : PathBuf) (dir : List Component) : Prop :=
  ∀ p ∈ dir.inits, root <+: lexical root p

/-- The directory is absolute, or has a `..` where it is at the root. -/
def Escapes (root : PathBuf) (dir : List Component) : Prop :=
  .rootDir ∈ dir ∨ ∃ p ∈ dir.inits, p ++ [.parentDir] <+: dir ∧ lexical root p = root

instance (root : PathBuf) (dir : List Component) : Decidable (Stays root dir) :=
  inferInstanceAs (Decidable (∀ p ∈ dir.inits, root <+: lexical root p))

instance (root : PathBuf) (dir : List Component) : Decidable (Escapes root dir) :=
  inferInstanceAs (Decidable (_ ∈ dir ∨ ∃ p ∈ dir.inits, _ ∧ _))

variable {root : PathBuf} {dir : List Component} {inside : List String}

theorem pop_inside (segment : String) :
    PathBuf.pop (root ++ (inside ++ [segment]).map .normal) =
      (root ++ inside.map .normal, true) := by
  have hsplit : root ++ (inside ++ [segment]).map Component.normal =
      (root ++ inside.map .normal) ++ [.normal segment] := by simp
  rw [hsplit]
  unfold PathBuf.pop
  rw [getLast?_concat, dropLast_concat]

theorem pop_root (root : PathBuf) :
    ((PathBuf.pop root).2 && root.isPrefixOf (PathBuf.pop root).1) = false := by
  unfold PathBuf.pop
  split
  · rfl
  · rfl
  next last _ hlast =>
    have hnonempty : root ≠ [] := by
      rintro rfl
      cases hlast
    have hlength : 0 < root.length := length_pos_iff.mpr hnonempty
    simp only [Bool.true_and]
    apply Bool.eq_false_iff.mpr
    intro hwithin
    have hle := (List.isPrefixOf_iff_prefix.mp hwithin).length_le
    rw [length_dropLast] at hle
    omega

theorem go_inside : ∃ inside' : List String,
    containWithin.go root (root ++ inside.map .normal) dir = root ++ inside'.map .normal := by
  induction dir generalizing inside with
  | nil => exact ⟨inside, rfl⟩
  | cons component rest ih =>
    cases component with
    | normal segment =>
      have hpush : (root ++ inside.map Component.normal) ++ [.normal segment] =
          root ++ (inside ++ [segment]).map .normal := by simp
      rw [containWithin.go, hpush]
      exact ih
    | curDir => exact ih
    | rootDir => exact ⟨[], (append_nil root).symm⟩
    | parentDir =>
      rw [containWithin.go]
      rcases eq_nil_or_concat inside with rfl | ⟨init, segment, rfl⟩
      · refine ⟨[], ?_⟩
        simp only [map_nil, append_nil, pop_root]
        simp
      · simp only [concat_eq_append, pop_inside]
        split_ifs
        · exact ih
        · exact ⟨[], (append_nil root).symm⟩

theorem Canonical.not_parentDir (h : Canonical root) : .parentDir ∉ root := by
  obtain ⟨segments, rfl⟩ := h
  simp

/-- At the root, `..` leaves it or escapes. -/
theorem Canonical.pop_of_stays (h : Canonical root) (hstays : root <+: (PathBuf.pop root).1) :
    root = [.rootDir] := by
  obtain ⟨segments, rfl⟩ := h
  rcases eq_nil_or_concat segments with rfl | ⟨init, segment, rfl⟩
  · rfl
  · rw [concat_eq_append] at hstays
    have hpop : PathBuf.pop ([.rootDir] ++ (init ++ [segment]).map .normal) =
        ([.rootDir] ++ init.map .normal, true) := pop_inside segment
    have hle := hstays.length_le
    rw [cons_append, nil_append] at hpop
    rw [hpop] at hle
    simp only [List.length_append, length_map, length_cons, length_nil] at hle
    omega

theorem Canonical.of_prefix_root (h : Canonical root) (hwithin : root <+: [.rootDir]) :
    root = [.rootDir] := by
  obtain ⟨segments, rfl⟩ := h
  have hle := hwithin.length_le
  simp only [length_cons, length_map, length_nil] at hle
  have hnil : segments = [] := eq_nil_of_length_eq_zero (by omega)
  rw [hnil]
  rfl

/-- The fold is the plain resolution as long as that stays inside and does not escape at `/`. -/
theorem go_eq_lexical (h : Canonical root)
    (hstays : ∀ p, p <+: dir → root <+: lexical (root ++ inside.map .normal) p)
    (htop : root = [.rootDir] → .rootDir ∉ dir ∧ ∀ p, p ++ [.parentDir] <+: dir →
      lexical (root ++ inside.map .normal) p ≠ root) :
    containWithin.go root (root ++ inside.map .normal) dir =
      lexical (root ++ inside.map .normal) dir := by
  induction dir generalizing inside with
  | nil => rfl
  | cons component rest ih =>
    have hrest : ∀ resolved, lexical (root ++ inside.map .normal) [component] = resolved →
        (∀ p, lexical (root ++ inside.map .normal) (component :: p) = lexical resolved p) →
        (∀ p, p <+: rest → root <+: lexical resolved p) ∧ (root = [.rootDir] →
          .rootDir ∉ rest ∧ ∀ p, p ++ [.parentDir] <+: rest → lexical resolved p ≠ root) := by
      intro resolved _ hstep
      refine ⟨fun p hp => ?_, fun hroot => ⟨?_, fun p hp => ?_⟩⟩
      · rw [← hstep]
        exact hstays _ (cons_prefix_cons.mpr ⟨rfl, hp⟩)
      · exact fun hmem => (htop hroot).1 (.tail _ hmem)
      · rw [← hstep]
        apply (htop hroot).2
        exact cons_prefix_cons.mpr ⟨rfl, hp⟩
    cases component with
    | normal segment =>
      have hpush : (root ++ inside.map Component.normal) ++ [.normal segment] =
          root ++ (inside ++ [segment]).map .normal := by simp
      have hlexical : ∀ p, lexical (root ++ inside.map .normal) (.normal segment :: p) =
          lexical (root ++ (inside ++ [segment]).map .normal) p := by
        intro p
        rw [lexical, hpush]
      obtain ⟨hstays', htop'⟩ := hrest _ (hlexical []) hlexical
      rw [containWithin.go, hlexical, hpush]
      exact ih hstays' htop'
    | curDir =>
      obtain ⟨hstays', htop'⟩ := hrest _ rfl fun p => rfl
      exact ih hstays' htop'
    | rootDir =>
      have hwithin : root <+: [.rootDir] :=
        hstays [.rootDir] (cons_prefix_cons.mpr ⟨rfl, nil_prefix⟩)
      exact absurd (.head _) (htop (h.of_prefix_root hwithin)).1
    | parentDir =>
      rcases eq_nil_or_concat inside with rfl | ⟨init, segment, rfl⟩
      · have hwithin : root <+: (PathBuf.pop root).1 := by
          have hone := hstays [.parentDir] (cons_prefix_cons.mpr ⟨rfl, nil_prefix⟩)
          rwa [map_nil, append_nil] at hone
        have hroot := h.pop_of_stays hwithin
        refine absurd ?_ ((htop hroot).2 [] (cons_prefix_cons.mpr ⟨rfl, nil_prefix⟩))
        rw [map_nil, append_nil]
        rfl
      · rw [concat_eq_append] at hrest ⊢
        have hlexical : ∀ p, lexical (root ++ (init ++ [segment]).map .normal) (.parentDir :: p) =
            lexical (root ++ init.map .normal) p := by
          intro p
          rw [lexical, pop_inside]
        obtain ⟨hstays', htop'⟩ := hrest _ (hlexical []) hlexical
        have hkept : root.isPrefixOf (root ++ init.map .normal) = true :=
          List.isPrefixOf_iff_prefix.mpr (prefix_append _ _)
        rw [containWithin.go, hlexical, pop_inside]
        simp only [hkept, Bool.and_self, if_true]
        exact ih hstays' htop'

/-- The working directory is inside the root and has no `..`; it is the plain resolution wherever
that stays inside, except that at `/` an absolute directory and a `..` at the top count as leaving
too. -/
theorem contained_resolution (hroot : Canonical root) :
    root <+: containWithin root dir ∧ .parentDir ∉ containWithin root dir ∧
      (Stays root dir → (root = [.rootDir] → ¬Escapes root dir) →
        containWithin root dir = lexical root dir) := by
  have hgo : containWithin root dir =
      containWithin.go root (root ++ ([] : List String).map .normal) dir := by
    rw [List.map_nil, List.append_nil]
    rfl
  obtain ⟨inside, hinside⟩ := (go_inside : ∃ inside' : List String, containWithin.go root
    (root ++ ([] : List String).map .normal) dir = root ++ inside'.map .normal)
  rw [← hgo] at hinside
  refine ⟨?_, ?_, fun hstays htop => ?_⟩
  · rw [hinside]
    exact List.prefix_append _ _
  · rw [hinside]
    simp [hroot.not_parentDir]
  · rw [hgo, go_eq_lexical hroot]
    · rw [List.map_nil, List.append_nil]
    · rw [List.map_nil, List.append_nil]
      exact fun p hp => hstays p ((List.mem_inits _ _).mpr hp)
    · rw [List.map_nil, List.append_nil]
      intro htop'
      refine ⟨fun hmem => htop htop' (.inl hmem), fun p hp hat => ?_⟩
      have hinit : p ∈ dir.inits := (List.mem_inits _ _).mpr ((List.prefix_append p _).trans hp)
      exact htop htop' (.inr ⟨p, hinit, hp, hat⟩)

theorem contained_resolution_sibling :
    containWithin [.rootDir, .normal "projects", .normal "app"]
        [.normal "web", .parentDir, .normal "api"] =
      [.rootDir, .normal "projects", .normal "app", .normal "api"] :=
  (contained_resolution ⟨["projects", "app"], rfl⟩).2.2 (by decide) (by decide)

/-- In a project at `/`, no absolute directory leaves the root, and each is clamped to it. -/
theorem absolute_clamped_at_top : ¬∀ (root : PathBuf) (dir : List Component), Canonical root →
    root <+: containWithin root dir ∧ .parentDir ∉ containWithin root dir ∧
      (Stays root dir → containWithin root dir = lexical root dir) := by
  intro hclaim
  have hetc := (hclaim [.rootDir] [.rootDir, .normal "etc"] ⟨[], rfl⟩).2.2 (by decide)
  exact absurd hetc (by decide)

end Soloist
