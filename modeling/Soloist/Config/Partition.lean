import Mathlib.Data.List.Sublists
import Soloist.Config.Model
import Soloist.Process.Variant

/-! What a change set accounts for: every command name is in one of its classes and in no other,
what it says leads from the old commands to the new ones, and whatever changes what a command may
run is in it as long as the directories' texts agree where their paths do. -/
open List

namespace Soloist
namespace SoloYml
variable {old new : SoloYml} {r r' : Rename} {name : String}

variable {α β : Type*}

theorem map_filterMap_sublist {f : α → Option β} {g : β → α} (h : ∀ x y, f x = some y → g y = x)
    (xs : List α) : ((xs.filterMap f).map g).Sublist xs := by
  induction xs with
  | nil => exact List.Sublist.slnil
  | cons x rest ih =>
    cases hx : f x with
    | none =>
      rw [filterMap_cons_none hx]
      exact ih.cons x
    | some y =>
      rw [filterMap_cons_some hx, map_cons, h x y hx]
      exact ih.cons_cons x

theorem nodup_lacking (config other : SoloYml) : (config.lacking other).Nodup :=
  config.processes.nodup.filter _

theorem detectRenames_spec {removed added : List String}
    (h : r ∈ detectRenames old new removed added) : ∃ spec,
      old.processes.get r.fromName = some spec ∧ (old.running spec.command removed).length = 1 ∧
        new.running spec.command added = [r.toName] := by
  obtain ⟨fromName, -, hsome⟩ := mem_filterMap.mp h
  cases hold : old.processes.get fromName with
  | none => simp [hold] at hsome
  | some spec =>
    simp only [hold] at hsome
    split_ifs at hsome with hone
    split at hsome
    next toName hto =>
      cases hsome
      exact ⟨spec, hold, hone, hto⟩
    next => cases hsome

theorem nodup_renamed_from : ((old.diff new).renamed.map Rename.fromName).Nodup := by
  refine (nodup_lacking old new).sublist (map_filterMap_sublist ?_ _)
  intro fromName r hr
  split at hr
  · cases hr
  · split_ifs at hr
    split at hr
    · cases hr
      rfl
    · cases hr

theorem nodup_renamed_to : ((old.diff new).renamed.map Rename.toName).Nodup := by
  have hfrom : ((old.diff new).renamed.map Rename.fromName).Nodup := nodup_renamed_from
  refine (Nodup.of_map Rename.fromName hfrom).map_on ?_
  intro r hr r' hr' heq
  obtain ⟨spec, hspec, hone, hto⟩ := detectRenames_spec hr
  obtain ⟨spec', hspec', hone', hto'⟩ := detectRenames_spec hr'
  have hcommand : spec.command = spec'.command := by
    have hrun : r.toName ∈ new.running spec.command (new.lacking old) := by
      rw [hto]
      exact mem_singleton_self _
    have hrun' : r.toName ∈ new.running spec'.command (new.lacking old) := by
      rw [hto', heq]
      exact mem_singleton_self _
    obtain ⟨-, target, htarget, hsame⟩ := mem_running.mp hrun
    obtain ⟨-, target', htarget', hsame'⟩ := mem_running.mp hrun'
    obtain rfl : target = target' := Option.some.inj (htarget.symm.trans htarget')
    rw [← hsame, ← hsame']
  have hmem : r.fromName ∈ old.running spec.command (old.lacking new) :=
    mem_running.mpr ⟨(of_mem_detectRenames hr).1, spec, hspec, rfl⟩
  have hmem' : r'.fromName ∈ old.running spec.command (old.lacking new) :=
    mem_running.mpr ⟨(of_mem_detectRenames hr').1, spec', hspec', hcommand.symm⟩
  obtain ⟨only, honly⟩ := length_eq_one_iff.mp hone
  rw [honly, mem_singleton] at hmem hmem'
  exact inj_on_of_nodup_map hfrom hr hr' (hmem.trans hmem'.symm)

/-- Both ends of a rename lie on their own side of the change. -/
theorem renamed_spec (h : r ∈ (old.diff new).renamed) :
    r.fromName ∈ old.lacking new ∧ r.toName ∈ new.lacking old :=
  of_mem_detectRenames h

theorem mem_added_iff : name ∈ (old.diff new).added ↔
    name ∈ new.lacking old ∧ ∀ r ∈ (old.diff new).renamed, r.toName ≠ name := by
  have hfilter : name ∈ (old.diff new).added ↔ name ∈ (new.lacking old).filter
      (fun n => !(old.diff new).renamed.any (·.toName = n)) := Iff.rfl
  rw [hfilter, mem_filter]
  simp

theorem mem_removed_iff : name ∈ (old.diff new).removed ↔
    name ∈ old.lacking new ∧ ∀ r ∈ (old.diff new).renamed, r.fromName ≠ name := by
  have hfilter : name ∈ (old.diff new).removed ↔ name ∈ (old.lacking new).filter
      (fun n => !(old.diff new).renamed.any (·.fromName = n)) := Iff.rfl
  rw [hfilter, mem_filter]
  simp

theorem filterMap_sublist_map {f : α → Option β} {g : α → β} (h : ∀ x y, f x = some y → g x = y)
    (xs : List α) : (xs.filterMap f).Sublist (xs.map g) := by
  induction xs with
  | nil => exact List.Sublist.slnil
  | cons x rest ih =>
    cases hx : f x with
    | none =>
      rw [filterMap_cons_none hx]
      exact ih.cons _
    | some y =>
      rw [filterMap_cons_some hx, map_cons, h x y hx]
      exact ih.cons_cons y

/-- Whatever is renamed or kept of a list is kept once. -/
theorem nodup_paired {names : List String} {renames : List Rename} {side : Rename → String}
    (hnames : names.Nodup) (hside : (renames.map side).Nodup) :
    (names.filter (fun n => !renames.any (side · = n)) ++ renames.map side).Nodup := by
  refine nodup_append.mpr ⟨hnames.filter _, hside, ?_⟩
  rintro n hn m hm rfl
  obtain ⟨-, hkept⟩ := mem_filter.mp hn
  obtain ⟨r, hr, hrn⟩ := mem_map.mp hm
  have hany : renames.any (side · = n) = true := any_eq_true.mpr ⟨r, hr, decide_eq_true hrn⟩
  rw [hany] at hkept
  cases hkept

/-- The names whose command is in both configs and the same. -/
def unchanged (old new : SoloYml) : List String :=
  new.processes.keys.filter fun name =>
    (old.processes.get name).any fun prev => (new.processes.get name).any fun spec => prev.Same spec

theorem mem_unchanged : name ∈ old.unchanged new ↔
    ∃ prev spec, old.processes.get name = some prev ∧ new.processes.get name = some spec ∧
      prev.Same spec := by
  rw [unchanged, mem_filter, Option.any_eq_true]
  constructor
  · rintro ⟨-, prev, hprev, hsame⟩
    obtain ⟨spec, hspec, hsame⟩ := (Option.any_eq_true _ _).mp hsame
    exact ⟨prev, spec, hprev, hspec, of_decide_eq_true hsame⟩
  · rintro ⟨prev, spec, hprev, hspec, hsame⟩
    refine ⟨IndexMap.mem_keys.mpr ⟨spec, hspec⟩, prev, hprev, ?_⟩
    rw [hspec, Option.any_some]
    exact decide_eq_true hsame

def arriving (old new : SoloYml) : List String :=
  (old.diff new).added ++ (old.diff new).renamed.map Rename.toName

def departing (old new : SoloYml) : List String :=
  (old.diff new).removed ++ (old.diff new).renamed.map Rename.fromName

def staying (old new : SoloYml) : List String := (old.diff new).updated ++ old.unchanged new

theorem nodup_arriving : (old.arriving new).Nodup :=
  nodup_paired (nodup_lacking new old) nodup_renamed_to

theorem nodup_departing : (old.departing new).Nodup :=
  nodup_paired (nodup_lacking old new) nodup_renamed_from

theorem nodup_staying : (old.staying new).Nodup := by
  refine nodup_append.mpr ⟨?_, ?_, ?_⟩
  · have hsublist : (old.diff new).updated.Sublist new.processes.keys := by
      refine filterMap_sublist_map (fun e n hn => ?_) new.processes.entries
      split at hn
      · split_ifs at hn
        cases hn
        rfl
      · cases hn
    exact new.processes.nodup.sublist hsublist
  · exact new.processes.nodup.filter _
  · rintro n hn m hm rfl
    obtain ⟨prev, spec, hprev, hspec, hdiffer⟩ := mem_updated.mp hn
    obtain ⟨prev', spec', hprev', hspec', hsame⟩ := mem_unchanged.mp hm
    obtain rfl : prev = prev' := Option.some.inj (hprev.symm.trans hprev')
    obtain rfl : spec = spec' := Option.some.inj (hspec.symm.trans hspec')
    exact hdiffer hsame

theorem mem_arriving : name ∈ old.arriving new ↔
    name ∈ new.processes.keys ∧ old.processes.get name = none := by
  rw [arriving, mem_append, mem_added, mem_lacking]

theorem mem_departing : name ∈ old.departing new ↔
    name ∈ old.processes.keys ∧ new.processes.get name = none := mem_gone_iff

theorem mem_staying : name ∈ old.staying new ↔
    name ∈ old.processes.keys ∧ name ∈ new.processes.keys := by
  rw [staying, mem_append, mem_updated, mem_unchanged]
  constructor
  · rintro (⟨prev, spec, hprev, hspec, -⟩ | ⟨prev, spec, hprev, hspec, -⟩)
    · exact ⟨IndexMap.mem_keys.mpr ⟨prev, hprev⟩, IndexMap.mem_keys.mpr ⟨spec, hspec⟩⟩
    · exact ⟨IndexMap.mem_keys.mpr ⟨prev, hprev⟩, IndexMap.mem_keys.mpr ⟨spec, hspec⟩⟩
  · rintro ⟨hold, hnew⟩
    obtain ⟨prev, hprev⟩ := IndexMap.mem_keys.mp hold
    obtain ⟨spec, hspec⟩ := IndexMap.mem_keys.mp hnew
    by_cases hsame : prev.Same spec
    · exact .inr ⟨prev, spec, hprev, hspec, hsame⟩
    · exact .inl ⟨prev, spec, hprev, hspec, hsame⟩

/-- Every name that the change set reports, class by class, with those it leaves as they are. -/
def classes (old new : SoloYml) : List String :=
  old.arriving new ++ (old.departing new ++ old.staying new)

theorem nodup_classes : (old.classes new).Nodup := by
  refine nodup_append.mpr ⟨nodup_arriving, nodup_append.mpr
    ⟨nodup_departing, nodup_staying, ?_⟩, ?_⟩
  · rintro n hn m hm rfl
    obtain ⟨-, hnone⟩ := mem_departing.mp hn
    exact IndexMap.get_eq_none.mp hnone (mem_staying.mp hm).2
  · rintro n hn m hm rfl
    obtain ⟨hnew, hnone⟩ := mem_arriving.mp hn
    rcases mem_append.mp hm with hdeparting | hstaying
    · exact IndexMap.get_eq_none.mp (mem_departing.mp hdeparting).2 hnew
    · exact IndexMap.get_eq_none.mp hnone (mem_staying.mp hstaying).1

theorem mem_classes : name ∈ old.classes new ↔
    name ∈ old.processes.keys ∨ name ∈ new.processes.keys := by
  rw [classes, mem_append, mem_append, mem_arriving, mem_departing, mem_staying,
    IndexMap.get_eq_none, IndexMap.get_eq_none]
  tauto

theorem renamed_command (h : r ∈ (old.diff new).renamed) : ∃ prev spec,
    old.processes.get r.fromName = some prev ∧ new.processes.get r.fromName = none ∧
      new.processes.get r.toName = some spec ∧ old.processes.get r.toName = none ∧
        prev.command = spec.command := by
  obtain ⟨hfrom, hto⟩ := renamed_spec h
  obtain ⟨prev, hprev, -, hrun⟩ := detectRenames_spec h
  have hmem : r.toName ∈ new.running prev.command (new.lacking old) := by
    rw [hrun]
    exact mem_singleton_self _
  obtain ⟨-, spec, hspec, hcommand⟩ := mem_running.mp hmem
  exact ⟨prev, spec, hprev, (mem_lacking.mp hfrom).2, hspec, (mem_lacking.mp hto).2, hcommand.symm⟩

theorem applied_same : ((old.diff new).apply old new).processes.Same new.processes := by
  apply Processes.same_iff.mpr
  intro name
  rw [get_applied]
  split_ifs with hagree
  · exact hagree
  · exact .refl _

theorem isEmpty_iff : (old.diff new).isEmpty = true ↔ old.processes.Same new.processes := by
  rw [Processes.same_iff]
  have hempty : (old.diff new).isEmpty = true ↔
      (old.diff new).touched = [] ∧ (old.diff new).gone = [] := by
    simp only [ConfigSync.isEmpty, ConfigSync.touched, ConfigSync.gone, append_eq_nil_iff,
      map_eq_nil_iff, Bool.and_eq_true, decide_eq_true_eq]
    tauto
  rw [hempty, eq_nil_iff_forall_not_mem, eq_nil_iff_forall_not_mem]
  constructor
  · rintro ⟨htouched, hgone⟩ name
    by_contra hdiffer
    by_cases hnew : name ∈ new.processes.keys
    · exact htouched name (mem_touched_iff.mpr ⟨hnew, hdiffer⟩)
    · have hnone := IndexMap.get_eq_none.mpr hnew
      by_cases hold : name ∈ old.processes.keys
      · exact hgone name (mem_gone_iff.mpr ⟨hold, hnone⟩)
      · rw [IndexMap.get_eq_none.mpr hold, hnone] at hdiffer
        exact hdiffer trivial
  · intro hagree
    refine ⟨fun name hname => (mem_touched_iff.mp hname).2 (hagree name), fun name hname => ?_⟩
    obtain ⟨hold, hnone⟩ := mem_gone_iff.mp hname
    obtain ⟨prev, hprev⟩ := IndexMap.mem_keys.mp hold
    have hboth := hagree name
    rw [hprev, hnone] at hboth
    exact hboth

/-- The classes of a change set partition the names of the two configs, each rename keeps the
command string, what the change set says turns the old commands into the new ones, and it is empty
exactly when the two maps are equal. -/
theorem diff_complete (old new : SoloYml) :
    ((old.classes new).Nodup ∧ ∀ name, name ∈ old.classes new ↔
      name ∈ old.processes.keys ∨ name ∈ new.processes.keys) ∧
    ((∀ name ∈ (old.diff new).added,
        name ∈ new.processes.keys ∧ old.processes.get name = none) ∧
      (∀ name ∈ (old.diff new).removed,
        name ∈ old.processes.keys ∧ new.processes.get name = none) ∧
      (∀ name ∈ (old.diff new).updated, ∃ prev spec, old.processes.get name = some prev ∧
        new.processes.get name = some spec ∧ ¬prev.Same spec)) ∧
    (∀ r ∈ (old.diff new).renamed, ∃ prev spec,
      old.processes.get r.fromName = some prev ∧ new.processes.get r.fromName = none ∧
        new.processes.get r.toName = some spec ∧ old.processes.get r.toName = none ∧
          prev.command = spec.command) ∧
    ((old.diff new).apply old new).processes.Same new.processes ∧
    ((old.diff new).isEmpty = true ↔ old.processes.Same new.processes) := by
  refine ⟨⟨nodup_classes, fun name => mem_classes⟩, ⟨?_, ?_, ?_⟩, ?_, applied_same, isEmpty_iff⟩
  · exact fun name h => mem_arriving.mp (List.mem_append_left _ h)
  · exact fun name h => mem_departing.mp (List.mem_append_left _ h)
  · exact fun name h => mem_updated.mp h
  · exact fun r h => renamed_command h

def ofCommand (name : String) (spec : ProcessSpec) : SoloYml :=
  ⟨none, none, IndexMap.empty.insert name spec⟩

/-- `npm start` in a directory, started with its project. -/
def npmIn (workingDir : Option String) : ProcessSpec :=
  ⟨"npm start", workingDir, true, false, [], []⟩

/-- A rename is recognised by the command string alone. -/
theorem moved_rename_paired : ¬∀ old new : SoloYml, ∀ r ∈ (old.diff new).renamed,
    ∃ prev spec, old.processes.get r.fromName = some prev ∧
      new.processes.get r.toName = some spec ∧ prev.Same spec := by
  intro hclaim
  obtain ⟨prev, spec, hprev, hspec, hsame⟩ := hclaim (ofCommand "Web" (npmIn none))
    (ofCommand "Site" (npmIn (some "site"))) ⟨"Web", "Site"⟩ (by decide)
  cases hprev
  cases hspec
  exact absurd hsame.workingDir (by decide)

/-- The change set has a consumer take the command anew. -/
def Reports (old new : SoloYml) (name : String) : Prop :=
  name ∈ (old.diff new).added ∨ name ∈ (old.diff new).updated ∨
    name ∈ (old.diff new).renamed.map Rename.toName

instance (old new : SoloYml) (name : String) : Decidable (old.Reports new name) :=
  inferInstanceAs (Decidable (_ ∨ _ ∨ _))

theorem reports_iff : old.Reports new name ↔ name ∈ (old.diff new).touched := by
  rw [Reports, ConfigSync.touched, mem_append, mem_append, or_assoc]

/-- Where the two directories under a name are the same path, they are the same text. -/
def SpelledAlike (old new : SoloYml) (name : String) : Prop :=
  ∀ prev ∈ old.processes.get name, ∀ spec ∈ new.processes.get name,
    prev.Same spec → prev.workingDir = spec.workingDir

instance (old new : SoloYml) (name : String) : Decidable (old.SpelledAlike new name) :=
  inferInstanceAs (Decidable (∀ prev ∈ old.processes.get name,
    ∀ spec ∈ new.processes.get name, prev.Same spec → _))

/-- A command whose trust variant differs is reported, exactly when its directory is not the same
path in another spelling. -/
theorem variant_reported_iff [Sha256] (old new : SoloYml) (name : String)
    (hmemory : ∀ prev ∈ old.processes.get name, ∀ spec ∈ new.processes.get name,
      prev.InMemory ∧ spec.InMemory)
    (hfree : ∀ prev ∈ old.processes.get name, ∀ spec ∈ new.processes.get name,
      Sha256.digest prev.preimage = Sha256.digest spec.preimage → prev.preimage = spec.preimage) :
    (∀ spec ∈ new.processes.get name,
      (old.processes.get name).map ProcessSpec.variantHash ≠ some spec.variantHash →
        old.Reports new name) ↔ old.SpelledAlike new name := by
  constructor
  · intro hreports prev hprev spec hspec hsame
    by_contra hspelled
    have hvariant : prev.variantHash ≠ spec.variantHash := by
      intro heq
      rw [ProcessSpec.variantHash_eq, ProcessSpec.variantHash_eq] at heq
      obtain ⟨hp, hs⟩ := hmemory prev hprev spec hspec
      have hpreimage := hfree prev hprev spec hspec heq
      exact hspelled ((ProcessSpec.preimage_eq_iff hp hs).mp hpreimage).workingDir
    have hreported := hreports spec hspec (by
      rw [hprev, Option.map_some]
      exact fun heq => hvariant (Option.some.inj heq))
    have hdiffer := (mem_touched_iff.mp (reports_iff.mp hreported)).2
    rw [hprev, hspec] at hdiffer
    exact hdiffer hsame
  · intro hspelled spec hspec hvariant
    rw [reports_iff, mem_touched_iff]
    refine ⟨IndexMap.mem_keys.mpr ⟨spec, hspec⟩, fun hagree => hvariant ?_⟩
    cases hprev : old.processes.get name with
    | none =>
      rw [hprev, hspec] at hagree
      exact hagree.elim
    | some prev =>
      rw [hprev, hspec] at hagree
      have hsame : prev.Same spec := hagree
      have hdir := hspelled prev hprev spec hspec hsame
      have hpreimage : prev.preimage = spec.preimage := by
        unfold ProcessSpec.preimage
        rw [hsame.command, hdir, hsame.env]
      rw [Option.map_some, ProcessSpec.variantHash_eq, ProcessSpec.variantHash_eq, hpreimage]

/-- SHA-256 on the fields of `npm start` in `web`, `web/` and `server`. -/
@[reducible] def dirSha : Sha256 where
  digest input :=
    if input.length = 53 then
      ⟨#[56, 36, 238, 143, 88, 58, 3, 108, 21, 98, 35, 227, 37, 92, 118, 135, 161, 143, 124, 85,
        4, 146, 163, 254, 11, 222, 113, 232, 246, 121, 100, 188], rfl⟩
    else if input.length = 54 then
      ⟨#[213, 196, 83, 223, 77, 140, 245, 216, 41, 170, 58, 48, 11, 91, 34, 6, 212, 34, 32, 241,
        18, 106, 6, 18, 124, 79, 190, 158, 2, 231, 168, 71], rfl⟩
    else
      ⟨#[208, 79, 129, 112, 228, 38, 101, 65, 159, 207, 211, 45, 203, 54, 144, 249, 107, 31, 36,
        255, 70, 58, 193, 161, 254, 174, 188, 34, 18, 50, 64, 78], rfl⟩

theorem npmIn_inMemory {dir : String} (h : ProcessSpec.Stored dir) :
    (npmIn (some dir)).InMemory where
  command := show (ProcessSpec.bytes "npm start").length < 2 ^ 63 by decide
  workingDir d hd := by
    cases hd
    exact h
  count := show 0 < 2 ^ 63 by decide
  entries entry hentry := by cases hentry
  sorted := List.Pairwise.nil

theorem variant_reported_iff_moved :
    letI := dirSha
    (ofCommand "Web" (npmIn (some "web"))).Reports
      (ofCommand "Web" (npmIn (some "server"))) "Web" := by
  let _ := dirSha
  refine (variant_reported_iff (ofCommand "Web" (npmIn (some "web")))
    (ofCommand "Web" (npmIn (some "server"))) "Web" ?_ ?_).mpr (by decide) _ rfl (by decide)
  · intro prev hprev spec hspec
    cases hprev
    cases hspec
    refine ⟨npmIn_inMemory ?_, npmIn_inMemory ?_⟩
    · show (ProcessSpec.bytes "web").length < 2 ^ 63
      decide
    · show (ProcessSpec.bytes "server").length < 2 ^ 63
      decide
  · intro prev hprev spec hspec heq
    cases hprev
    cases hspec
    exact absurd heq (by decide)

/-- A directory in another spelling has another variant, and the change set is empty. -/
theorem respelled_unreported :
    letI := dirSha
    ¬∀ old new : SoloYml, ∀ name, ∀ spec ∈ new.processes.get name,
      (old.processes.get name).map ProcessSpec.variantHash ≠ some spec.variantHash →
        old.Reports new name := by
  let _ := dirSha
  intro hclaim
  have hreports := hclaim (ofCommand "Web" (npmIn (some "web")))
    (ofCommand "Web" (npmIn (some "web/"))) "Web" _ rfl (by decide)
  exact absurd hreports (by decide)

end SoloYml
end Soloist
