import Mathlib.Data.List.Perm.Subperm
import Soloist.IndexMap
import Soloist.Process.Spec
import Soloist.Text

/-! The `solo.yml` data model, its comparison, and what a stored command must hold. -/
open List

namespace Soloist

/-- `working_dir` and `icon` are paths, which compare by their components. -/
def samePath (a b : Option String) : Prop := a.map components = b.map components

instance (a b : Option String) : Decidable (samePath a b) :=
  inferInstanceAs (Decidable (a.map components = b.map components))

theorem samePath.symm {a b : Option String} (h : samePath a b) : samePath b a := Eq.symm h

theorem samePath.trans {a b c : Option String} (h : samePath a b) (h' : samePath b c) :
    samePath a c := Eq.trans h h'

/-- The source's equality of specs. -/
structure ProcessSpec.Same (a b : ProcessSpec) : Prop where
  command : a.command = b.command
  workingDir : samePath a.workingDir b.workingDir
  autoStart : a.autoStart = b.autoStart
  autoRestart : a.autoRestart = b.autoRestart
  restartWhenChanged : a.restartWhenChanged = b.restartWhenChanged
  env : a.env = b.env

namespace ProcessSpec

variable {a b : ProcessSpec}

theorem same_iff : a.Same b ↔ a.command = b.command ∧
    samePath a.workingDir b.workingDir ∧ a.autoStart = b.autoStart ∧
    a.autoRestart = b.autoRestart ∧ a.restartWhenChanged = b.restartWhenChanged ∧ a.env = b.env :=
  ⟨fun h => ⟨h.1, h.2, h.3, h.4, h.5, h.6⟩, fun ⟨h1, h2, h3, h4, h5, h6⟩ => ⟨h1, h2, h3, h4, h5, h6⟩⟩

instance (a b : ProcessSpec) : Decidable (a.Same b) := decidable_of_iff' _ same_iff

theorem Same.refl (a : ProcessSpec) : a.Same a := ⟨rfl, rfl, rfl, rfl, rfl, rfl⟩

theorem Same.symm (h : a.Same b) : b.Same a :=
  ⟨h.1.symm, h.2.symm, h.3.symm, h.4.symm, h.5.symm, h.6.symm⟩

theorem Same.trans {c : ProcessSpec} (h : a.Same b) (h' : b.Same c) : a.Same c :=
  ⟨h.1.trans h'.1, h.2.trans h'.2, h.3.trans h'.3, h.4.trans h'.4, h.5.trans h'.5, h.6.trans h'.6⟩

end ProcessSpec

/-- The commands of a `solo.yml`, by name. -/
abbrev Processes := IndexMap String ProcessSpec

namespace Processes

/-- The source's equality of the maps, which disregards the order of the entries. -/
def Same (p q : Processes) : Prop :=
  p.entries.length = q.entries.length ∧ ∀ e ∈ p.entries, ∃ spec ∈ q.get e.1, e.2.Same spec

instance (p q : Processes) : Decidable (Same p q) :=
  inferInstanceAs (Decidable (_ ∧ ∀ e ∈ p.entries, ∃ spec ∈ q.get e.1, e.2.Same spec))

def Agree : Option ProcessSpec → Option ProcessSpec → Prop
  | some a, some b => a.Same b
  | none, none => True
  | _, _ => False

instance : ∀ a b, Decidable (Agree a b)
  | some a, some b => inferInstanceAs (Decidable (a.Same b))
  | none, none => isTrue trivial
  | some _, none => isFalse id
  | none, some _ => isFalse id

theorem Agree.refl : ∀ a, Agree a a
  | some a => ProcessSpec.Same.refl a
  | none => trivial

theorem Agree.symm : ∀ {a b}, Agree a b → Agree b a
  | some _, some _, h => ProcessSpec.Same.symm h
  | none, none, _ => trivial

theorem Agree.trans : ∀ {a b c}, Agree a b → Agree b c → Agree a c
  | some _, some _, some _, h, h' => ProcessSpec.Same.trans h h'
  | none, none, none, _, _ => trivial

theorem same_iff {p q : Processes} : Same p q ↔ ∀ name, Agree (p.get name) (q.get name) := by
  constructor
  · rintro ⟨hlen, hmem⟩ name
    cases hp : p.get name with
    | some a =>
      obtain ⟨b, hb, hsame⟩ := hmem (name, a) (IndexMap.get_eq_some.mp hp)
      rw [Option.mem_def] at hb
      rw [hb]
      exact hsame
    | none =>
      cases hq : q.get name with
      | none => trivial
      | some b =>
        have hsub : p.keys ⊆ q.keys := by
          intro k hk
          obtain ⟨a, ha⟩ := IndexMap.mem_keys.mp hk
          obtain ⟨b, hb, -⟩ := hmem (k, a) (IndexMap.get_eq_some.mp ha)
          exact IndexMap.mem_keys.mpr ⟨b, hb⟩
        have hsubperm : List.Subperm p.keys q.keys := subperm_of_subset p.nodup hsub
        have hle : q.keys.length ≤ p.keys.length := by simp [IndexMap.keys, hlen]
        have hperm := hsubperm.perm_of_length_le hle
        have hmemq : name ∈ q.keys := IndexMap.mem_keys.mpr ⟨b, hq⟩
        exact absurd (hperm.mem_iff.mpr hmemq) (IndexMap.get_eq_none.mp hp)
  · intro h
    constructor
    · have hmem : ∀ name, name ∈ p.keys ↔ name ∈ q.keys := by
        intro name
        have hname := h name
        rw [IndexMap.mem_keys, IndexMap.mem_keys]
        cases hp : p.get name with
        | some a =>
          cases hq : q.get name with
          | some b => simp
          | none => rw [hp, hq] at hname; exact hname.elim
        | none =>
          cases hq : q.get name with
          | some b => rw [hp, hq] at hname; exact hname.elim
          | none => simp
      have hperm : p.keys.Perm q.keys := (perm_ext_iff_of_nodup p.nodup q.nodup).mpr hmem
      simpa [IndexMap.keys] using hperm.length_eq
    · intro e he
      have hname := h e.1
      rw [IndexMap.get_eq_some.mpr he] at hname
      cases hq : q.get e.1 with
      | some b =>
        rw [hq] at hname
        exact ⟨b, rfl, hname⟩
      | none =>
        rw [hq] at hname
        exact hname.elim

end Processes

/-- A parsed `solo.yml`. -/
structure SoloYml where
  name : Option String
  icon : Option String
  processes : Processes
  deriving DecidableEq

namespace SoloYml

def default : SoloYml := ⟨none, none, IndexMap.empty⟩

/-- The source's equality of configs. -/
structure Same (a b : SoloYml) : Prop where
  name : a.name = b.name
  icon : samePath a.icon b.icon
  processes : a.processes.Same b.processes

variable {a b : SoloYml}

theorem same_iff :
    a.Same b ↔ a.name = b.name ∧ samePath a.icon b.icon ∧ a.processes.Same b.processes :=
  ⟨fun h => ⟨h.1, h.2, h.3⟩, fun ⟨h1, h2, h3⟩ => ⟨h1, h2, h3⟩⟩

instance (a b : SoloYml) : Decidable (a.Same b) := decidable_of_iff' _ same_iff

theorem Same.get (h : a.Same b) (name : String) :
    Processes.Agree (a.processes.get name) (b.processes.get name) :=
  Processes.same_iff.mp h.processes name

theorem Same.of_get (hname : a.name = b.name) (hicon : samePath a.icon b.icon)
    (h : ∀ name, Processes.Agree (a.processes.get name) (b.processes.get name)) : a.Same b :=
  ⟨hname, hicon, Processes.same_iff.mpr h⟩

theorem Same.refl (a : SoloYml) : a.Same a :=
  .of_get rfl rfl fun _ => .refl _

theorem Same.symm (h : a.Same b) : b.Same a :=
  .of_get h.name.symm h.icon.symm fun name => (h.get name).symm

end SoloYml

/-- Why a command an app surface asked to store is not admissible. -/
inductive InvalidCommand
  | blankName
  | blankCommand
  deriving DecidableEq, Repr

def checkCommandName (name : String) : Except InvalidCommand Unit :=
  if isBlank name then .error .blankName else .ok ()

def checkCommandLine (spec : ProcessSpec) : Except InvalidCommand Unit :=
  if isBlank spec.command then .error .blankCommand else .ok ()

def checkCommand (name : String) (spec : ProcessSpec) : Except InvalidCommand Unit := do
  checkCommandName name
  checkCommandLine spec

end Soloist

/-! The change set between two configs, and what applying it to a config yields. -/
namespace Soloist

/-- The same command string moved from one name to another. -/
structure Rename where
  fromName : String
  toName : String
  deriving DecidableEq, Repr

/-- What differs between two configs, by process name. -/
structure ConfigSync where
  added : List String
  updated : List String
  removed : List String
  renamed : List Rename
  deriving DecidableEq, Repr

def ConfigSync.isEmpty (d : ConfigSync) : Bool :=
  d.added = [] && d.updated = [] && d.removed = [] && d.renamed = []

namespace SoloYml

def running (config : SoloYml) (command : String) (names : List String) : List String :=
  names.filter fun name => (config.processes.get name).any fun spec => spec.command = command

/-- A removed and an added name are one rename when no other name on either side runs their
command string. -/
def detectRenames (old new : SoloYml) (removed added : List String) : List Rename :=
  removed.filterMap fun fromName =>
    match old.processes.get fromName with
    | none => none
    | some spec =>
      if (old.running spec.command removed).length = 1 then
        match new.running spec.command added with
        | [toName] => some ⟨fromName, toName⟩
        | _ => none
      else none

def lacking (config other : SoloYml) : List String :=
  config.processes.keys.filter fun name => !other.processes.contains name

def diff (old new : SoloYml) : ConfigSync :=
  let removed := old.lacking new
  let added := new.lacking old
  let renamed := detectRenames old new removed added
  { added := added.filter fun name => !renamed.any (·.toName = name)
    removed := removed.filter fun name => !renamed.any (·.fromName = name)
    renamed
    updated := new.processes.entries.filterMap fun e =>
      match old.processes.get e.1 with
      | some prev => if prev.Same e.2 then none else some e.1
      | none => none }

end SoloYml

namespace ConfigSync

/-- The names whose spec a consumer takes from the config that came with the change set. -/
def touched (d : ConfigSync) : List String :=
  d.added ++ d.updated ++ d.renamed.map Rename.toName

def gone (d : ConfigSync) : List String := d.removed ++ d.renamed.map Rename.fromName

/-- A consumer's commands after the change set: what it drops goes, and what it touches is as in
`stored`. The change set says nothing about the project's name and icon. -/
def apply (d : ConfigSync) (seen stored : SoloYml) : SoloYml :=
  let dropped := d.gone.foldl IndexMap.shiftRemove seen.processes
  { seen with
    processes := d.touched.foldl (fun processes name =>
      match stored.processes.get name with
      | some spec => processes.insert name spec
      | none => processes) dropped }

theorem get_foldl_shiftRemove (names : List String) (p : Processes) (name : String) :
    (names.foldl IndexMap.shiftRemove p).get name = if name ∈ names then none else p.get name := by
  induction names generalizing p with
  | nil => rfl
  | cons n rest ih =>
    rw [foldl_cons, ih, IndexMap.get_shiftRemove]
    by_cases hn : name = n
    · simp [hn]
    · simp [hn]

theorem get_foldl_insert {stored : SoloYml} {names : List String}
    (h : ∀ n ∈ names, n ∈ stored.processes.keys) (p : Processes) (name : String) :
    (names.foldl (fun processes n =>
      match stored.processes.get n with
      | some spec => processes.insert n spec
      | none => processes) p).get name =
      if name ∈ names then stored.processes.get name else p.get name := by
  induction names generalizing p with
  | nil => rfl
  | cons n rest ih =>
    obtain ⟨spec, hspec⟩ := IndexMap.mem_keys.mp (h n (.head _))
    rw [foldl_cons, ih fun m hm => h m (.tail _ hm), hspec]
    simp only [IndexMap.get_insert, mem_cons]
    by_cases hn : name = n
    · subst hn
      simp [hspec]
    · simp [hn]

end ConfigSync

namespace SoloYml
variable {old new : SoloYml} {name : String}

variable {config : SoloYml} {names : List String}

theorem mem_running {command : String} :
    name ∈ config.running command names ↔
      name ∈ names ∧ ∃ spec, config.processes.get name = some spec ∧ spec.command = command := by
  rw [running, mem_filter, Option.any_eq_true]
  simp

theorem mem_lacking {other : SoloYml} : name ∈ config.lacking other ↔
    name ∈ config.processes.keys ∧ other.processes.get name = none := by
  rw [lacking, mem_filter, Bool.not_eq_true', IndexMap.contains_eq_false]

/-- Both ends of a detected rename come from the lists it was looked for in. -/
theorem of_mem_detectRenames {removed added : List String} {r : Rename}
    (h : r ∈ detectRenames old new removed added) : r.fromName ∈ removed ∧ r.toName ∈ added := by
  obtain ⟨fromName, hmem, hsome⟩ := mem_filterMap.mp h
  cases hold : old.processes.get fromName with
  | none => simp [hold] at hsome
  | some spec =>
    simp only [hold] at hsome
    split_ifs at hsome with hone
    · cases hto : new.running spec.command added with
      | nil => simp [hto] at hsome
      | cons toName rest =>
        cases rest with
        | nil =>
          simp only [hto, Option.some.injEq] at hsome
          subst hsome
          have hadded : toName ∈ new.running spec.command added := by rw [hto]; simp
          exact ⟨hmem, (mem_running.mp hadded).1⟩
        | cons _ _ => simp [hto] at hsome

theorem mem_updated : name ∈ (old.diff new).updated ↔
    ∃ prev spec, old.processes.get name = some prev ∧ new.processes.get name = some spec ∧
      ¬prev.Same spec := by
  simp only [diff, mem_filterMap]
  constructor
  · rintro ⟨e, he, hsome⟩
    cases hold : old.processes.get e.1 with
    | none => simp [hold] at hsome
    | some prev =>
      simp only [hold] at hsome
      split_ifs at hsome with hsame
      cases hsome
      exact ⟨prev, e.2, hold, IndexMap.get_eq_some.mpr he, hsame⟩
  · rintro ⟨prev, spec, hold, hnew, hsame⟩
    refine ⟨(name, spec), IndexMap.get_eq_some.mp hnew, ?_⟩
    simp [hold, hsame]

/-- Renames account for added and removed names without losing one. -/
theorem mem_paired {renames : List Rename} {side : Rename → String}
    (h : ∀ r ∈ renames, side r ∈ names) :
    name ∈ names.filter (fun n => !renames.any (side · = n)) ∨ name ∈ renames.map side ↔
      name ∈ names := by
  rw [mem_filter, mem_map]
  constructor
  · rintro (⟨hmem, -⟩ | ⟨r, hr, rfl⟩)
    · exact hmem
    · exact h r hr
  · intro hmem
    by_cases hany : ∃ r ∈ renames, side r = name
    · exact .inr hany
    · exact .inl ⟨hmem, by simpa using hany⟩

theorem mem_added : name ∈ (old.diff new).added ∨ name ∈ (old.diff new).renamed.map Rename.toName ↔
    name ∈ new.lacking old :=
  mem_paired fun _ hr => (of_mem_detectRenames hr).2

theorem mem_touched_iff : name ∈ (old.diff new).touched ↔
    name ∈ new.processes.keys ∧
      ¬Processes.Agree (old.processes.get name) (new.processes.get name) := by
  have hadded : _ ↔ name ∈ new.lacking old := mem_added
  rw [mem_lacking] at hadded
  rw [ConfigSync.touched, mem_append, mem_append, or_right_comm, hadded, mem_updated]
  constructor
  · rintro (⟨hkey, hnone⟩ | ⟨prev, spec, hold, hnew, hsame⟩)
    · obtain ⟨spec, hspec⟩ := IndexMap.mem_keys.mp hkey
      refine ⟨hkey, ?_⟩
      rw [hnone, hspec]
      exact id
    · refine ⟨IndexMap.mem_keys.mpr ⟨spec, hnew⟩, ?_⟩
      rw [hold, hnew]
      exact hsame
  · rintro ⟨hkey, hdiffer⟩
    obtain ⟨spec, hspec⟩ := IndexMap.mem_keys.mp hkey
    cases hold : old.processes.get name with
    | none => exact .inl ⟨hkey, rfl⟩
    | some prev =>
      rw [hold, hspec] at hdiffer
      exact .inr ⟨prev, spec, rfl, hspec, hdiffer⟩

theorem mem_gone_iff : name ∈ (old.diff new).gone ↔
    name ∈ old.processes.keys ∧ new.processes.get name = none := by
  rw [← mem_lacking, ConfigSync.gone, mem_append]
  exact mem_paired fun _ hr => (of_mem_detectRenames hr).1

/-- What a consumer holds under a name after a change set from `old` to `new`: where the two
configs agree it keeps what it had, and elsewhere it holds what `new` holds. -/
theorem get_applied (seen : SoloYml) :
    ((old.diff new).apply seen new).processes.get name =
      if Processes.Agree (old.processes.get name) (new.processes.get name) then
        seen.processes.get name
      else new.processes.get name := by
  have htouched : ∀ n ∈ (old.diff new).touched, n ∈ new.processes.keys :=
    fun n hn => (mem_touched_iff.mp hn).1
  simp only [ConfigSync.apply, ConfigSync.get_foldl_insert htouched,
    ConfigSync.get_foldl_shiftRemove, mem_touched_iff, mem_gone_iff]
  by_cases hagree : Processes.Agree (old.processes.get name) (new.processes.get name)
  · have hkeep : ¬(name ∈ old.processes.keys ∧ new.processes.get name = none) := by
      rintro ⟨hkey, hnone⟩
      obtain ⟨prev, hprev⟩ := IndexMap.mem_keys.mp hkey
      rw [hprev, hnone] at hagree
      exact hagree
    simp [hagree, hkeep]
  · by_cases hnew : name ∈ new.processes.keys
    · simp [hagree, hnew]
    · have hnone := IndexMap.get_eq_none.mpr hnew
      have hold : name ∈ old.processes.keys := by
        by_contra hold
        rw [IndexMap.get_eq_none.mpr hold, hnone] at hagree
        exact hagree trivial
      rw [hnone] at hagree ⊢
      simp [hagree, hnew, hold]

end SoloYml
end Soloist
