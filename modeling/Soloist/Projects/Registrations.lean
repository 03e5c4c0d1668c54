import Mathlib.Data.List.AList
import Soloist.Config.Commands
import Soloist.Supervisor.Registry

/-! The registrations of a project's commands, found by label, and what a reload does to them. -/
open Slots

namespace Soloist

/-- A registry entry with the label it is filed under. -/
structure Row where
  entry : Managed
  label : String
  /-- Globs whose changes restart the command. -/
  restartWhenChanged : List String

namespace Row

def isCommandIn (row : Row) (p : ProjectId) : Bool :=
  row.entry.kind = .command ∧ row.entry.project = p

variable [Sha256]

def command (p : ProjectId) (root : PathBuf) (name : String) (spec : ProcessSpec) : Row :=
  ⟨.register (.command p root spec), name, spec.restartWhenChanged⟩

def update (row : Row) (p : ProjectId) (root : PathBuf) (name : String) (spec : ProcessSpec) :
    Row :=
  ⟨row.entry.withSpec (.command p root spec), name, spec.restartWhenChanged⟩

structure Runs (row : Row) (root : PathBuf) (spec : ProcessSpec) : Prop where
  launch : row.entry.launch = ⟨spec.command, spec.resolvedWorkingDir root, spec.env⟩
  trustVariant : row.entry.trustVariant = some spec.variantHash
  autoStart : row.entry.autoStart = spec.autoStart
  autoRestart : row.entry.autoRestart = spec.autoRestart
  restartWhenChanged : row.restartWhenChanged = spec.restartWhenChanged

variable {row : Row} {p : ProjectId} {root : PathBuf} {name : String} {spec : ProcessSpec}

theorem runs_command : (command p root name spec).Runs root spec := ⟨rfl, rfl, rfl, rfl, rfl⟩

theorem runs_update : (row.update p root name spec).Runs root spec := ⟨rfl, rfl, rfl, rfl, rfl⟩

theorem isCommandIn_command : (command p root name spec).isCommandIn p = true := by
  simp [isCommandIn, command, Managed.register, Registration.kind, Registration.project]

@[simp] theorem isCommandIn_update {q : ProjectId} :
    (row.update p root name spec).isCommandIn q = row.isCommandIn q := rfl

end Row

structure CommandRegistry where
  rows : Slots ProcessId Row
  nextProcess : ProcessId

/-- Which of several rows with one label a lookup finds: the registry keeps no order. -/
abbrev Choice := String → List ProcessId → ProcessId

namespace CommandRegistry

def Filed (g : CommandRegistry) (p : ProjectId) (name : String) (id : ProcessId) (row : Row) :
    Prop :=
  g.rows id = some row ∧ row.isCommandIn p = true ∧ row.label = name

def commandIds (g : CommandRegistry) (p : ProjectId) (name : String) : List ProcessId :=
  (List.range g.nextProcess).filter fun id =>
    (g.rows id).any fun row => row.isCommandIn p && row.label = name

def commandIdByName (g : CommandRegistry) (p : ProjectId) (choose : Choice) (name : String) :
    Option ProcessId :=
  match g.commandIds p name with
  | [] => none
  | id :: rest =>
    let chosen := choose name (id :: rest)
    some (if chosen ∈ id :: rest then chosen else id)

def erase (g : CommandRegistry) (id : ProcessId) : CommandRegistry :=
  { g with rows := g.rows.erase id }

def modifyRow (g : CommandRegistry) (id : ProcessId) (change : Row → Row) : CommandRegistry :=
  { g with rows := g.rows.modify id change }

def deregisterIfResting (g : CommandRegistry) (id : ProcessId) : CommandRegistry :=
  match g.rows id with
  | some row => if row.entry.status.isActive then g else g.erase id
  | none => g

def insert (g : CommandRegistry) (row : Row) : CommandRegistry where
  rows := g.rows.put g.nextProcess row
  nextProcess := g.nextProcess + 1

section
variable [Sha256] (p : ProjectId) (root : PathBuf)

def updateCommand (g : CommandRegistry) (id : ProcessId) (name : String) (spec : ProcessSpec) :
    CommandRegistry :=
  g.modifyRow id (·.update p root name spec)

def register (g : CommandRegistry) (name : String) (spec : ProcessSpec) : CommandRegistry :=
  g.insert (.command p root name spec)

variable (choose : Choice) (config : SoloYml)

/-- A command that is still registered, having been removed while it ran, is updated in place. -/
def reconcileAdded (g : CommandRegistry) (name : String) : CommandRegistry :=
  match config.processes.get name with
  | none => g
  | some spec =>
    match g.commandIdByName p choose name with
    | some id => g.updateCommand p root id name spec
    | none => g.register p root name spec

def reconcileUpdated (g : CommandRegistry) (name : String) : CommandRegistry :=
  match g.commandIdByName p choose name, config.processes.get name with
  | some id, some spec => g.updateCommand p root id name spec
  | _, _ => g

def reconcileRenamed (g : CommandRegistry) (r : Rename) : CommandRegistry :=
  match g.commandIdByName p choose r.fromName, config.processes.get r.toName with
  | some id, some spec => g.updateCommand p root id r.toName spec
  | _, _ => g

omit [Sha256] in
def reconcileRemoved (g : CommandRegistry) (name : String) : CommandRegistry :=
  match g.commandIdByName p choose name with
  | some id => g.deregisterIfResting id
  | none => g

def reconcile (g : CommandRegistry) (changes : ConfigSync) : CommandRegistry :=
  let g := changes.added.foldl (reconcileAdded p root choose config) g
  let g := changes.updated.foldl (reconcileUpdated p root choose config) g
  let g := changes.renamed.foldl (reconcileRenamed p root choose config) g
  changes.removed.foldl (reconcileRemoved p choose) g

end

def Serves [Sha256] (g : CommandRegistry) (p : ProjectId) (root : PathBuf) (name : String)
    (spec : ProcessSpec) : Prop :=
  ∃ id row, g.Filed p name id row ∧ row.Runs root spec

/-- Labels are names: no two commands of the project are filed under one. -/
structure Filing (g : CommandRegistry) (p : ProjectId) : Prop where
  numbered : ∀ id row, g.rows id = some row → id < g.nextProcess
  distinct : ∀ name i j row row', g.Filed p name i row → g.Filed p name j row' → i = j

def Free (g : CommandRegistry) (p : ProjectId) (name : String) : Prop :=
  ∀ id row, ¬g.Filed p name id row

def SameAt (g h : CommandRegistry) (p : ProjectId) (name : String) : Prop :=
  ∀ id row, h.Filed p name id row ↔ g.Filed p name id row

variable {g h : CommandRegistry} {p : ProjectId} {root : PathBuf} {name : String} {id : ProcessId}
  {row : Row} {spec : ProcessSpec} {choose : Choice} {config : SoloYml}

theorem SameAt.refl (g : CommandRegistry) (p : ProjectId) (name : String) : SameAt g g p name :=
  fun _ _ => Iff.rfl

theorem SameAt.trans {k : CommandRegistry} (hgh : SameAt g h p name) (hhk : SameAt h k p name) :
    SameAt g k p name :=
  fun id row => (hhk id row).trans (hgh id row)

theorem SameAt.free (hsame : SameAt g h p name) (hfree : g.Free p name) : h.Free p name :=
  fun id row hfiled => hfree id row ((hsame id row).mp hfiled)

theorem SameAt.serves [Sha256] (hsame : SameAt g h p name) (hserves : g.Serves p root name spec) :
    h.Serves p root name spec := by
  obtain ⟨id, row, hfiled, hruns⟩ := hserves
  exact ⟨id, row, (hsame id row).mpr hfiled, hruns⟩

variable (hg : g.Filing p)
include hg

theorem mem_commandIds :
    id ∈ g.commandIds p name ↔ ∃ row, g.Filed p name id row := by
  rw [commandIds, List.mem_filter, List.mem_range]
  constructor
  · rintro ⟨-, hany⟩
    obtain ⟨row, hrow, hmatch⟩ := Option.any_eq_true _ _ |>.mp hany
    rw [Bool.and_eq_true, decide_eq_true_eq] at hmatch
    exact ⟨row, hrow, hmatch⟩
  · rintro ⟨row, hrow, hcommand, hlabel⟩
    refine ⟨hg.numbered id row hrow, ?_⟩
    rw [hrow]
    simp [hcommand, hlabel]

theorem commandIdByName_of_filed (hfiled : g.Filed p name id row) :
    g.commandIdByName p choose name = some id := by
  have hmem : id ∈ g.commandIds p name := (mem_commandIds hg).mpr ⟨row, hfiled⟩
  have honly : ∀ i ∈ g.commandIds p name, i = id := by
    intro i hi
    obtain ⟨row', hfiled'⟩ := (mem_commandIds hg).mp hi
    exact hg.distinct name i id row' row hfiled' hfiled
  unfold commandIdByName
  cases hids : g.commandIds p name with
  | nil =>
    rw [hids] at hmem
    cases hmem
  | cons i rest =>
    rw [hids] at honly
    dsimp only
    split_ifs with hchosen
    · rw [honly _ hchosen]
    · rw [honly i (.head _)]

theorem commandIdByName_of_free (hfree : g.Free p name) :
    g.commandIdByName p choose name = none := by
  have hnil : g.commandIds p name = [] := by
    apply List.eq_nil_iff_forall_not_mem.mpr
    intro i hi
    obtain ⟨row, hfiled⟩ := (mem_commandIds hg).mp hi
    exact hfree i row hfiled
  unfold commandIdByName
  rw [hnil]

theorem insert_filing (row : Row)
    (hrow : row.isCommandIn p = true → g.Free p row.label) :
    (g.insert row).Filing p ∧ (∀ n, (row.isCommandIn p = true → n ≠ row.label) →
      SameAt g (g.insert row) p n) ∧
      (row.isCommandIn p = true → (g.insert row).Filed p row.label g.nextProcess row) := by
  have hfresh : g.rows g.nextProcess = none := by
    by_contra hne
    obtain ⟨old, hold⟩ := Option.ne_none_iff_exists'.mp hne
    exact absurd (hg.numbered _ old hold) (Nat.lt_irrefl _)
  have hcases : ∀ n i r, (g.insert row).Filed p n i r →
      i = g.nextProcess ∧ r = row ∧ row.isCommandIn p = true ∧ row.label = n ∨
        i ≠ g.nextProcess ∧ g.Filed p n i r := by
    rintro n i r ⟨hi, hcommand, hlabel⟩
    rcases put_eq_some.mp hi with ⟨rfl, rfl⟩ | ⟨hne, hi⟩
    · exact .inl ⟨rfl, rfl, hcommand, hlabel⟩
    · exact .inr ⟨hne, hi, hcommand, hlabel⟩
  have hold : ∀ n i r, g.Filed p n i r → (g.insert row).Filed p n i r := by
    rintro n i r ⟨hi, hcommand, hlabel⟩
    refine ⟨?_, hcommand, hlabel⟩
    have hne : i ≠ g.nextProcess := by
      rintro rfl
      rw [hfresh] at hi
      cases hi
    exact (put_of_ne hne).trans hi
  refine ⟨⟨?_, ?_⟩, ?_, ?_⟩
  · intro i r hi
    rcases put_eq_some.mp hi with ⟨rfl, -⟩ | ⟨-, hi⟩
    · exact Nat.lt_succ_self _
    · exact Nat.lt_succ_of_lt (hg.numbered i r hi)
  · intro n i j r r' hi hj
    rcases hcases n i r hi with ⟨rfl, -, hcommand, hlabel⟩ | ⟨-, hi⟩
    · rcases hcases n j r' hj with ⟨rfl, -⟩ | ⟨-, hj⟩
      · rfl
      · rw [← hlabel] at hj
        exact absurd hj (hrow hcommand j r')
    · rcases hcases n j r' hj with ⟨rfl, -, hcommand, hlabel⟩ | ⟨-, hj⟩
      · rw [← hlabel] at hi
        exact absurd hi (hrow hcommand i r)
      · exact hg.distinct n i j r r' hi hj
  · intro n hn i r
    constructor
    · intro hi
      rcases hcases n i r hi with ⟨-, -, hcommand, hlabel⟩ | ⟨-, hi⟩
      · exact absurd hlabel.symm (hn hcommand)
      · exact hi
    · exact hold n i r
  · intro hcommand
    exact ⟨put_self, hcommand, rfl⟩

/-- Rows go, or change without their kind, project and label. -/
theorem Filing.mono (hnext : g.nextProcess ≤ h.nextProcess)
    (hrows : ∀ i r, h.rows i = some r → ∃ r', g.rows i = some r' ∧
      (r.isCommandIn p = true → r'.isCommandIn p = true ∧ r'.label = r.label)) : h.Filing p := by
  constructor
  · intro i r hi
    obtain ⟨r', hi', -⟩ := hrows i r hi
    exact (hg.numbered i r' hi').trans_le hnext
  · rintro n i j r r' ⟨hi, hcommand, hlabel⟩ ⟨hj, hcommand', hlabel'⟩
    obtain ⟨s, hs, hkept⟩ := hrows i r hi
    obtain ⟨s', hs', hkept'⟩ := hrows j r' hj
    obtain ⟨hsc, hsl⟩ := hkept hcommand
    obtain ⟨hsc', hsl'⟩ := hkept' hcommand'
    exact hg.distinct n i j s s' ⟨hs, hsc, hsl.trans hlabel⟩ ⟨hs', hsc', hsl'.trans hlabel'⟩

theorem erase_filing (id : ProcessId) :
    (g.erase id).Filing p ∧
      ∀ n, (∀ row, ¬g.Filed p n id row) → SameAt g (g.erase id) p n := by
  constructor
  · refine hg.mono le_rfl ?_
    intro i r hi
    exact ⟨r, (erase_eq_some.mp hi).2, fun hrc => ⟨hrc, rfl⟩⟩
  · intro n hn i r
    constructor
    · rintro ⟨hi, hrest⟩
      exact ⟨(erase_eq_some.mp hi).2, hrest⟩
    · rintro ⟨hi, hrest⟩
      refine ⟨erase_eq_some.mpr ⟨?_, hi⟩, hrest⟩
      rintro rfl
      exact hn r ⟨hi, hrest⟩

theorem modifyRow_filing (change : Row → Row)
    (hkind : (change row).isCommandIn p = row.isCommandIn p) (hfiled : g.Filed p name id row)
    (hfree : (change row).label = name ∨ g.Free p (change row).label) :
    (g.modifyRow id change).Filing p ∧
      (g.modifyRow id change).Filed p (change row).label id (change row) ∧
      ∀ n, n ≠ name → n ≠ (change row).label → SameAt g (g.modifyRow id change) p n := by
  obtain ⟨hid, hcommand, hlabel⟩ := hfiled
  have hcases : ∀ n i r, (g.modifyRow id change).Filed p n i r →
      i = id ∧ n = (change row).label ∨ i ≠ id ∧ g.Filed p n i r := by
    rintro n i r ⟨hi, hrc, hrl⟩
    by_cases hne : i = id
    · subst hne
      have hr : change row = r := Option.some.inj ((modify_self hid).symm.trans hi)
      rw [← hr] at hrl
      exact .inl ⟨rfl, hrl.symm⟩
    · exact .inr ⟨hne, (modify_of_ne hne).symm.trans hi, hrc, hrl⟩
  -- a row under the new name is the one that has just taken it
  have hown : ∀ i r, g.Filed p (change row).label i r → i = id := by
    intro i r hi
    rcases hfree with heq | hfree
    · rw [heq] at hi
      exact hg.distinct name i id r row hi ⟨hid, hcommand, hlabel⟩
    · exact absurd hi (hfree i r)
  refine ⟨⟨?_, ?_⟩, ⟨modify_self hid, hkind.trans hcommand, rfl⟩, ?_⟩
  · intro i r hi
    obtain ⟨old, hold, -⟩ := modify_eq_some.mp hi
    exact hg.numbered i old hold
  · intro n i j r r' hi hj
    rcases hcases n i r hi with ⟨hid', hn⟩ | ⟨-, hold⟩
    · rcases hcases n j r' hj with ⟨hjd, -⟩ | ⟨-, hold'⟩
      · rw [hid', hjd]
      · rw [hn] at hold'
        rw [hid', hown j r' hold']
    · rcases hcases n j r' hj with ⟨hjd, hn⟩ | ⟨-, hold'⟩
      · rw [hn] at hold
        rw [hjd, hown i r hold]
      · exact hg.distinct n i j r r' hold hold'
  · intro n hn htarget i r
    constructor
    · intro hi
      rcases hcases n i r hi with ⟨-, rfl⟩ | ⟨-, hi⟩
      · exact absurd rfl htarget
      · exact hi
    · rintro ⟨hi, hrc, hrl⟩
      refine ⟨(modify_of_ne ?_).trans hi, hrc, hrl⟩
      rintro rfl
      obtain rfl : r = row := Option.some.inj (hi.symm.trans hid)
      exact hn (hrl.symm.trans hlabel)

theorem modifyRow_apart (change : Row → Row)
    (hkind : ∀ row, (change row).isCommandIn p = row.isCommandIn p)
    (hrow : ∀ row, g.rows id = some row → row.isCommandIn p = false) :
    (g.modifyRow id change).Filing p ∧ ∀ n, SameAt g (g.modifyRow id change) p n := by
  have hback : ∀ i r, (g.modifyRow id change).rows i = some r → r.isCommandIn p = true →
      g.rows i = some r := by
    intro i r hi hrc
    obtain ⟨old, hold, heq⟩ := modify_eq_some.mp hi
    split_ifs at heq with hne
    · subst hne
      rw [← heq, hkind, hrow old hold] at hrc
      cases hrc
    · rw [← heq]
      exact hold
  constructor
  · refine hg.mono le_rfl ?_
    intro i r hi
    obtain ⟨old, hold, -⟩ := modify_eq_some.mp hi
    by_cases hrc : r.isCommandIn p = true
    · exact ⟨r, hback i r hi hrc, fun _ => ⟨hrc, rfl⟩⟩
    · exact ⟨old, hold, fun hrc' => absurd hrc' hrc⟩
  · intro n i r
    constructor
    · rintro ⟨hi, hrc, hrl⟩
      exact ⟨hback i r hi hrc, hrc, hrl⟩
    · rintro ⟨hi, hrc, hrl⟩
      refine ⟨(modify_of_ne ?_).trans hi, hrc, hrl⟩
      rintro rfl
      rw [hrow r hi] at hrc
      cases hrc

omit hg

section
variable [Sha256]

theorem updateCommand_filing (hg : g.Filing p) (root : PathBuf) {target : String}
    (spec : ProcessSpec) (hfiled : g.Filed p name id row)
    (hfree : target = name ∨ g.Free p target) :
    (g.updateCommand p root id target spec).Filing p ∧
      (g.updateCommand p root id target spec).Serves p root target spec ∧
      ∀ n, n ≠ name → n ≠ target → SameAt g (g.updateCommand p root id target spec) p n := by
  obtain ⟨hfiling, hself, hsame⟩ :=
    modifyRow_filing hg (·.update p root target spec) Row.isCommandIn_update hfiled hfree
  exact ⟨hfiling, ⟨id, _, hself, Row.runs_update⟩, hsame⟩

theorem modifyRow_serves {change : Row → Row}
    (hkind : ∀ row, (change row).isCommandIn p = row.isCommandIn p)
    (hlabel : ∀ row, (change row).label = row.label)
    (hruns : ∀ row, row.Runs root spec → (change row).Runs root spec)
    (hserves : g.Serves p root name spec) : (g.modifyRow id change).Serves p root name spec := by
  obtain ⟨i, r, ⟨hi, hrc, hrl⟩, hr⟩ := hserves
  by_cases hne : i = id
  · subst hne
    exact ⟨i, change r, ⟨modify_self hi, (hkind r).trans hrc, (hlabel r).trans hrl⟩,
      hruns r hr⟩
  · exact ⟨i, r, ⟨(modify_of_ne hne).trans hi, hrc, hrl⟩, hr⟩

/-- What one turn of the loop over added commands leaves, and the first registrations of an opened
project. -/
theorem reconcileAdded_serves (root : PathBuf) (choose : Choice) (config : SoloYml)
    (hg : g.Filing p) :
    (g.reconcileAdded p root choose config name).Filing p ∧
      (∀ spec, config.processes.get name = some spec →
        (g.reconcileAdded p root choose config name).Serves p root name spec) ∧
      ∀ n, n ≠ name → SameAt g (g.reconcileAdded p root choose config name) p n := by
  unfold reconcileAdded
  cases hspec : config.processes.get name with
  | none =>
    refine ⟨hg, ?_, fun n _ => SameAt.refl g p n⟩
    intro spec hnone
    cases hnone
  | some spec =>
    by_cases hfree : g.Free p name
    · rw [commandIdByName_of_free hg hfree]
      obtain ⟨hfiling, hsame, hfiled⟩ :=
        insert_filing hg (.command p root name spec) (fun _ => hfree)
      refine ⟨hfiling, ?_, fun n hn => hsame n fun _ => hn⟩
      intro spec' hspec'
      cases hspec'
      exact ⟨_, _, hfiled Row.isCommandIn_command, Row.runs_command⟩
    · unfold Free at hfree
      push Not at hfree
      obtain ⟨id, row, hfiled⟩ := hfree
      rw [commandIdByName_of_filed hg hfiled]
      obtain ⟨hfiling, hserves, hsame⟩ :=
        updateCommand_filing hg root spec hfiled (.inl rfl)
      refine ⟨hfiling, ?_, fun n hn => hsame n hn hn⟩
      intro spec' hspec'
      cases hspec'
      exact hserves

theorem reconcileUpdated_serves (root : PathBuf) (choose : Choice) (config : SoloYml)
    (hg : g.Filing p) (hfiled : g.Filed p name id row) :
    (g.reconcileUpdated p root choose config name).Filing p ∧
      (∀ spec, config.processes.get name = some spec →
        (g.reconcileUpdated p root choose config name).Serves p root name spec) ∧
      ∀ n, n ≠ name → SameAt g (g.reconcileUpdated p root choose config name) p n := by
  unfold reconcileUpdated
  rw [commandIdByName_of_filed hg hfiled]
  cases hspec : config.processes.get name with
  | none =>
    refine ⟨hg, ?_, fun n _ => SameAt.refl g p n⟩
    intro spec hnone
    cases hnone
  | some spec =>
    obtain ⟨hfiling, hserves, hsame⟩ :=
      updateCommand_filing hg root spec hfiled (.inl rfl)
    refine ⟨hfiling, ?_, fun n hn => hsame n hn hn⟩
    intro spec' hspec'
    cases hspec'
    exact hserves

theorem reconcileRenamed_serves (root : PathBuf) (choose : Choice) (config : SoloYml) {r : Rename}
    (hg : g.Filing p)
    (hfiled : g.Filed p r.fromName id row) (hfree : g.Free p r.toName) :
    (g.reconcileRenamed p root choose config r).Filing p ∧
      (∀ spec, config.processes.get r.toName = some spec →
        (g.reconcileRenamed p root choose config r).Serves p root r.toName spec) ∧
      ∀ n, n ≠ r.fromName → n ≠ r.toName →
        SameAt g (g.reconcileRenamed p root choose config r) p n := by
  unfold reconcileRenamed
  rw [commandIdByName_of_filed hg hfiled]
  cases hspec : config.processes.get r.toName with
  | none =>
    refine ⟨hg, ?_, fun n _ _ => SameAt.refl g p n⟩
    intro spec hnone
    cases hnone
  | some spec =>
    obtain ⟨hfiling, hserves, hsame⟩ :=
      updateCommand_filing hg root spec hfiled (.inr hfree)
    refine ⟨hfiling, ?_, hsame⟩
    intro spec' hspec'
    cases hspec'
    exact hserves

end

theorem reconcileRemoved_kept (choose : Choice) (name : String) (hg : g.Filing p) :
    (g.reconcileRemoved p choose name).Filing p ∧
      ∀ n, n ≠ name → SameAt g (g.reconcileRemoved p choose name) p n := by
  unfold reconcileRemoved
  by_cases hfree : g.Free p name
  · rw [commandIdByName_of_free hg hfree]
    exact ⟨hg, fun n _ => SameAt.refl g p n⟩
  · unfold Free at hfree
    push Not at hfree
    obtain ⟨id, row, hfiled⟩ := hfree
    rw [commandIdByName_of_filed hg hfiled]
    simp only [deregisterIfResting, hfiled.1]
    split_ifs with hactive
    · exact ⟨hg, fun n _ => SameAt.refl g p n⟩
    · obtain ⟨hfiling, hsame⟩ := erase_filing hg id
      refine ⟨hfiling, fun n hn => hsame n ?_⟩
      rintro row' ⟨hid, -, hlabel⟩
      obtain rfl : row = row' := Option.some.inj (hfiled.1.symm.trans hid)
      exact hn (hlabel.symm.trans hfiled.2.2)

end CommandRegistry
end Soloist

/-! The labels of a project's processes: one that is taken is numbered. -/
namespace Soloist

inductive Labelling
  | exact
  | numberedIfTaken

abbrev Entries := AList fun _ : ProcessId => Row

namespace Labels
variable (base : String) (project : ProjectId) (entries : Entries)

def taken : List String :=
  (entries.entries.filter fun x => x.2.entry.project = project).map fun x => x.2.label

def add (turns : ℕ) (id : ProcessId) (row : Row) : Labelling → Option (String × Entries)
  | .exact => some (row.label, entries.insert id row)
  | .numberedIfTaken =>
    (numberLabel row.label (taken row.entry.project entries) turns).map fun label =>
      (label, entries.insert id { row with label })

/-- What a base name becomes: itself while it is free, and otherwise the free candidate with the
lowest number, of which no more have to be tried than there are labels. -/
structure Numbered (taken : List String) (label : String) : Prop where
  unchanged : base ∉ taken → label = base
  numbered : base ∈ taken → ∃ n, 2 ≤ n ∧ n ≤ taken.length + 2 ∧ label = s!"{base} {n}" ∧
    ∀ m, 2 ≤ m → m < n → s!"{base} {m}" ∈ taken
  free : label ∉ taken

theorem candidate_injective : (candidate base).Injective := by
  intro n m h
  have hlists : base.toList ++ ' ' :: Nat.toDigits 10 (n + 2) =
      base.toList ++ ' ' :: Nat.toDigits 10 (m + 2) := by
    simpa [candidate] using congrArg String.toList h
  exact Nat.add_right_cancel (Numbering.toDigits_inj (by decide) hlists)

theorem numbered_numberLabel : ∃ label, Numbered base (taken project entries) label ∧
    ∀ turns, (taken project entries).length < turns →
      numberLabel base (taken project entries) turns = some label := by
  have hinj := candidate_injective base
  by_cases htaken : base ∈ taken project entries
  · have hle := @Numbering.firstFree_le _ _ (taken project entries) _ hinj
    refine ⟨candidate base (Numbering.firstFree _ hinj (taken project entries)),
      ⟨fun h => absurd htaken h, fun _ => ⟨_, Nat.le_add_left 2 _, by omega, rfl, ?_⟩,
        Numbering.firstFree_not_mem hinj⟩, ?_⟩
    · intro m hm hlt
      obtain ⟨k, rfl⟩ := Nat.exists_eq_add_of_le' hm
      exact Numbering.mem_of_lt_firstFree hinj (by omega)
    · intro turns hturns
      rw [numberLabel, if_pos htaken, Numbering.search_eq hinj (Nat.zero_le _) (by omega)]
      rfl
  · exact ⟨base, ⟨fun _ => rfl, fun h => absurd h htaken, htaken⟩, fun _ _ => if_neg htaken⟩

theorem label_mem_taken {row : Row} {id : ProcessId} (h : entries.lookup id = some row)
    (hproject : row.entry.project = project) : row.label ∈ taken project entries := by
  have hentry : ⟨id, row⟩ ∈ entries.entries := AList.mem_lookup_iff.mp h
  exact List.mem_map.mpr ⟨_, List.mem_filter.mpr ⟨hentry, by simpa using hproject⟩, rfl⟩

end Labels

open Labels in
/-- Every registration under a base name ends, whatever labels the project holds, and its label is
that of no other process of the project. -/
theorem label_numbered (entries : Entries) (id : ProcessId) (row : Row) :
    ∃ label, Numbered row.label (taken row.entry.project entries) label ∧
      (∀ turns, (taken row.entry.project entries).length < turns →
        add entries turns id row .numberedIfTaken =
          some (label, entries.insert id { row with label })) ∧
      ∀ other r, other ≠ id → (entries.insert id { row with label }).lookup other = some r →
        r.entry.project = row.entry.project → r.label ≠ label := by
  obtain ⟨label, hnumbered, hends⟩ :=
    numbered_numberLabel row.label row.entry.project entries
  refine ⟨label, hnumbered, ?_, ?_⟩
  · intro turns hturns
    rw [add, hends turns hturns]
    rfl
  · intro other r hother hlookup hproject hlabel
    rw [AList.lookup_insert_ne hother] at hlookup
    exact hnumbered.free (hlabel ▸ label_mem_taken _ entries hlookup hproject)

end Soloist
