import Soloist.Config.CommandCalls

/-! Which names the two stores of a project's commands hold between the accesses of its edits: one
command a name, and overrides for commands alone, where every write still finds what its checks
found. -/
open Option Slots

namespace Soloist

open Notify (NotificationLevel)

namespace CommandEdit
variable {edit : CommandEdit} {f g : Slots String ProcessSpec} {name : String}

def subject : CommandEdit → Option String
  | .edit name _ | .remove name => some name
  | .rename source _ => some source
  | .add _ _ => none

def expects : CommandEdit → Option String
  | .edit name _ => some name
  | .rename source target => if source = target then none else some source
  | .add _ _ | .remove _ => none

def onto (edit : CommandEdit) (f : Slots String ProcessSpec) : Slots String ProcessSpec :=
  match edit with
  | .add name spec | .edit name spec => f.put name spec
  | .rename source target =>
    if source = target then f
    else
      match f source with
      | none => f
      | some spec => (f.erase source).put target spec
  | .remove name => f.erase name

/-- An edit may change this command as it does: by its spec, or by taking the name away. -/
def Names (edit : CommandEdit) (name : String) (after : Option ProcessSpec) : Prop :=
  (∃ spec, edit = .edit name spec) ∨ edit.vacates = some name ∧ after = none

theorem rename_get (processes : Processes) (source target : String) :
    (processes.rename source target).get =
      match processes.get source with
      | none => processes.get
      | some spec => Slots.put (Slots.erase processes.get source) target spec := by
  unfold Processes.rename IndexMap.indexOf
  cases hspec : processes.get source with
  | none =>
    cases processes.keys.idxOf? source with
    | none => rfl
    | some i => rfl
  | some spec =>
    have hfound : (processes.keys.idxOf? source).isSome :=
      List.isSome_idxOf?.mpr (IndexMap.mem_keys.mpr ⟨spec, hspec⟩)
    obtain ⟨i, hi⟩ := isSome_iff_exists.mp hfound
    rw [hi]
    funext name
    simp only [IndexMap.get_shiftInsert, IndexMap.get_shiftRemove, Slots.put, Slots.erase]

theorem rename_self_get (processes : Processes) (source : String) :
    (processes.rename source source).get = processes.get := by
  rw [rename_get]
  cases hspec : processes.get source with
  | none => rfl
  | some spec =>
    funext name
    by_cases hname : name = source
    · simp [hname, hspec]
    · simp [put_of_ne hname, Slots.erase, hname]

/-- What a mutation of `solo.yml` makes of its commands, when it does not refuse. -/
theorem mutation_get {current intended : SoloYml} (h : edit.mutation current = .ok intended) :
    intended.processes.get = edit.onto current.processes.get ∧
      ∀ name ∈ edit.subject, current.processes.get name ≠ none := by
  cases edit with
  | add name spec =>
    simp only [mutation, SoloYml.insertCommand] at h
    split_ifs at h
    cases h
    refine ⟨funext fun k => IndexMap.get_insert _ _ _ _, ?_⟩
    simp [subject]
  | edit name spec =>
    simp only [mutation, SoloYml.editCommand] at h
    split_ifs at h with hcontains
    cases h
    refine ⟨funext fun k => IndexMap.get_insert _ _ _ _, ?_⟩
    simpa [subject, IndexMap.contains, isSome_iff_ne_none] using hcontains
  | rename source target =>
    simp only [mutation, SoloYml.renameCommand] at h
    split_ifs at h with hcontains htaken
    cases h
    constructor
    · by_cases heq : source = target
      · subst heq
        rw [rename_self_get]
        simp [onto]
      · rw [rename_get]
        simp only [onto, if_neg heq]
    · simpa [subject, IndexMap.contains, isSome_iff_ne_none] using hcontains
  | remove name =>
    simp only [mutation, SoloYml.removeCommand] at h
    split_ifs at h with hcontains
    cases h
    refine ⟨funext fun k => IndexMap.get_shiftRemove _ _ _, ?_⟩
    simpa [subject, IndexMap.contains, isSome_iff_ne_none] using hcontains

theorem update_get (s : CommandSettings) (edit : CommandEdit) :
    (s.update edit).localCommands.get = edit.onto s.localCommands.get := by
  cases edit with
  | add name spec => exact funext fun k => IndexMap.get_insert _ _ _ _
  | edit name spec => exact funext fun k => IndexMap.get_insert _ _ _ _
  | rename source target =>
    unfold CommandSettings.update CommandSettings.renameCommand
    by_cases heq : source = target
    · simp [onto, heq]
    · simp only [if_neg heq, ProjectSettings.renameCommand, rename_get, onto]
  | remove name => exact funext fun k => IndexMap.get_shiftRemove _ _ _

theorem agree_onto (h : ∀ name, Processes.Agree (f name) (g name)) :
    Processes.Agree (edit.onto f name) (edit.onto g name) := by
  cases edit with
  | add source spec =>
    by_cases hname : name = source
    · simpa [onto, hname] using Processes.Agree.refl (some spec)
    · simpa [onto, put_of_ne hname] using h name
  | edit source spec =>
    by_cases hname : name = source
    · simpa [onto, hname] using Processes.Agree.refl (some spec)
    · simpa [onto, put_of_ne hname] using h name
  | rename source target =>
    unfold onto
    by_cases heq : source = target
    · simpa [heq] using h name
    · have hsource := h source
      cases hf : f source with
      | none =>
        cases hg : g source with
        | none => simpa [heq, hf, hg] using h name
        | some spec =>
          rw [hf, hg] at hsource
          exact hsource.elim
      | some spec =>
        cases hg : g source with
        | none =>
          rw [hf, hg] at hsource
          exact hsource.elim
        | some other =>
          rw [hf, hg] at hsource
          simp only [if_neg heq, hf, hg, Slots.put, Slots.erase]
          split_ifs
          · exact hsource
          · trivial
          · exact h name
  | remove source =>
    simp only [onto, Slots.erase]
    split_ifs
    · trivial
    · exact h name

theorem agree_none {a b : Option ProcessSpec} (h : Processes.Agree a b) : a = none ↔ b = none := by
  cases a with
  | none =>
    cases b with
    | none => simp
    | some spec => exact h.elim
  | some spec =>
    cases b with
    | none => exact h.elim
    | some other => simp

theorem onto_kept (edit : CommandEdit) (f : Slots String ProcessSpec) (name : String) :
    edit.onto f name = f name ∨ edit.Names name (edit.onto f name) ∨ edit.takes = some name := by
  cases edit with
  | add source spec =>
    by_cases hname : name = source
    · exact .inr (.inr (by simp [takes, hname]))
    · exact .inl (put_of_ne hname)
  | edit source spec =>
    by_cases hname : name = source
    · exact .inr (.inl (.inl ⟨spec, by rw [hname]⟩))
    · exact .inl (put_of_ne hname)
  | rename source target =>
    by_cases heq : source = target
    · exact .inl (by simp [onto, heq])
    · by_cases htarget : name = target
      · exact .inr (.inr (by simp [takes, heq, htarget]))
      · cases hspec : f source with
        | none => exact .inl (by simp [onto, hspec])
        | some spec =>
          by_cases hsource : name = source
          · refine .inr (.inl (.inr ⟨by simp [vacates, heq, hsource], ?_⟩))
            simp [onto, heq, hspec, hsource, put_of_ne heq, Slots.erase]
          · refine .inl ?_
            simp [onto, heq, hspec, put_of_ne htarget, Slots.erase, hsource]
  | remove source =>
    by_cases hname : name = source
    · exact .inr (.inl (.inr ⟨by simp [vacates, hname], by simp [onto, hname, Slots.erase]⟩))
    · exact .inl (by simp [onto, Slots.erase, hname])

theorem onto_vacated (h : edit.vacates = some name) : edit.onto f name = none := by
  cases edit with
  | add source spec => cases h
  | edit source spec => cases h
  | rename source target =>
    simp only [vacates, ite_none_left_eq_some, Option.some.injEq] at h
    obtain ⟨heq, rfl⟩ := h
    cases hspec : f source with
    | none => simp [onto, hspec]
    | some spec => simp [onto, heq, hspec, put_of_ne heq, Slots.erase]
  | remove source =>
    cases h
    simp [onto, Slots.erase]

/-- A command stays under its name unless the edit takes it away. -/
theorem onto_ne_none (h : f name ≠ none) (hstays : edit.vacates ≠ some name) :
    edit.onto f name ≠ none := by
  cases edit with
  | add source spec =>
    simp only [onto, Slots.put]
    split_ifs
    · simp
    · exact h
  | edit source spec =>
    simp only [onto, Slots.put]
    split_ifs
    · simp
    · exact h
  | rename source target =>
    by_cases heq : source = target
    · simpa [onto, heq] using h
    · have hne : name ≠ source := fun hname => hstays (by simp [vacates, heq, hname])
      cases hspec : f source with
      | none => simpa [onto, hspec] using h
      | some spec =>
        simp only [onto, if_neg heq, hspec, Slots.put, Slots.erase, if_neg hne]
        split_ifs
        · simp
        · exact h
  | remove source =>
    have hne : name ≠ source := fun hname => hstays (by simp [vacates, hname])
    simpa [onto, Slots.erase, hne] using h

theorem of_onto (h : edit.onto f name ≠ none) :
    f name ≠ none ∨ edit.takes = some name ∨ ∃ spec, edit = .edit name spec := by
  cases edit with
  | add source spec =>
    by_cases hname : name = source
    · exact .inr (.inl (by simp [takes, hname]))
    · exact .inl (by rwa [onto, put_of_ne hname] at h)
  | edit source spec =>
    by_cases hname : name = source
    · exact .inr (.inr ⟨spec, by rw [hname]⟩)
    · exact .inl (by rwa [onto, put_of_ne hname] at h)
  | rename source target =>
    by_cases heq : source = target
    · exact .inl (by simpa [onto, heq] using h)
    · by_cases htarget : name = target
      · exact .inr (.inl (by simp [takes, heq, htarget]))
      · refine .inl ?_
        cases hspec : f source with
        | none => simpa [onto, hspec] using h
        | some spec =>
          intro hnone
          simp [onto, heq, hspec, put_of_ne htarget, Slots.erase, hnone] at h
  | remove source =>
    refine .inl fun hnone => h ?_
    simp [onto, Slots.erase, hnone]

theorem onto_taken (htakes : edit.takes = some name) (hfound : ∀ source ∈ edit.expects, f source ≠ none) :
    edit.onto f name ≠ none := by
  cases edit with
  | add source spec =>
    cases htakes
    simp [onto]
  | edit source spec => cases htakes
  | rename source target =>
    simp only [takes, ite_none_left_eq_some, Option.some.injEq] at htakes
    obtain ⟨hne, rfl⟩ := htakes
    cases hspec : f source with
    | none => exact absurd hspec (hfound source (by simp [expects, hne]))
    | some spec => simp [onto, hne, hspec]
  | remove source => cases htakes

theorem takes_ne_vacates (h : edit.vacates = some name) : edit.takes ≠ some name := by
  cases edit with
  | add source spec => cases h
  | edit source spec => cases h
  | remove source => simp [takes]
  | rename source target =>
    simp only [vacates, ite_none_left_eq_some, Option.some.injEq] at h
    obtain ⟨hne, rfl⟩ := h
    simp [takes, hne, Ne.symm hne]

variable {names : List String}

theorem mem_create (h : edit.takes ≠ some name) : name ∈ edit.create names ↔ name ∈ names := by
  cases edit with
  | add source spec =>
    have hne : name ≠ source := fun heq => h (by simp [takes, heq])
    simp [create, hne]
  | edit source spec => exact Iff.rfl
  | rename source target =>
    by_cases heq : source = target
    · simp [create, heq]
    · have hne : name ≠ target := fun htarget => h (by simp [takes, heq, htarget])
      simp only [create, if_neg heq]
      split_ifs
      · simp [hne]
      · simp [hne]
  | remove source => exact Iff.rfl

variable {source target : String}

theorem mem_create_rename (hne : source ≠ target) :
    target ∈ (CommandEdit.rename source target).create names ↔ source ∈ names := by
  simp only [create, if_neg hne]
  split_ifs with hmem
  · simp [hmem]
  · simp [hmem]

theorem source_mem_create (hvacates : edit.vacates = some source)
    (htakes : edit.takes = some target) (h : target ∈ edit.create names) :
    source ∈ edit.create names := by
  cases edit with
  | add name spec => cases hvacates
  | edit name spec => cases hvacates
  | remove name => cases htakes
  | rename a b =>
    simp only [vacates, takes, ite_none_left_eq_some, Option.some.injEq] at hvacates htakes
    obtain ⟨hne, rfl⟩ := hvacates
    obtain ⟨-, rfl⟩ := htakes
    have hsource := (mem_create_rename hne).mp h
    have hkept : (CommandEdit.rename a b).takes ≠ some a := takes_ne_vacates (by simp [vacates, hne])
    exact (mem_create hkept).mpr hsource

theorem subject_of_vacates (h : edit.vacates = some name) : edit.subject = some name := by
  cases edit with
  | add source spec => cases h
  | edit source spec => cases h
  | rename source target =>
    simp only [vacates, ite_none_left_eq_some, Option.some.injEq] at h
    simp [subject, h.2]
  | remove source => exact h

end CommandEdit

namespace CommandSettings
variable {s : CommandSettings} {name : String}

theorem renamed_level {source target : String} (hne : source ≠ target) :
    (s.renameCommand source target).commandNotificationLevels name =
      if s.commandNotificationLevels source = none then s.commandNotificationLevels name
      else if name = target then s.commandNotificationLevels source
      else if name = source then none
      else s.commandNotificationLevels name := by
  simp only [renameCommand, if_neg hne]
  cases hlevel : s.commandNotificationLevels source with
  | none => simp
  | some level => simp [Slots.put, Slots.erase]

variable {edit : CommandEdit}

theorem of_settle_level (h : (s.settle edit).commandNotificationLevels name ≠ none) :
    s.commandNotificationLevels name ≠ none ∧ edit.vacates ≠ some name ∨
      ∃ source, edit.vacates = some source ∧ edit.takes = some name ∧
        s.commandNotificationLevels source ≠ none := by
  cases edit with
  | add source spec => exact .inl ⟨h, by simp [CommandEdit.vacates]⟩
  | edit source spec => exact .inl ⟨h, by simp [CommandEdit.vacates]⟩
  | remove source =>
    by_cases hname : name = source
    · exact absurd (if_pos hname) h
    · refine .inl ⟨fun hnone => h ?_, by simpa [CommandEdit.vacates, eq_comm] using hname⟩
      exact erase_of_none hnone
  | rename source target =>
    by_cases heq : source = target
    · refine .inl ⟨by simpa [settle, renameCommand, heq] using h, ?_⟩
      simp [CommandEdit.vacates, heq]
    · simp only [settle, renamed_level heq] at h
      split_ifs at h with hlevel htarget hsource
      · refine .inl ⟨h, ?_⟩
        simp only [CommandEdit.vacates, if_neg heq, ne_eq, Option.some.injEq]
        rintro rfl
        exact h hlevel
      · exact .inr ⟨source, by simp [CommandEdit.vacates, heq],
          by simp [CommandEdit.takes, heq, htarget], hlevel⟩
      · exact absurd rfl h
      · refine .inl ⟨h, ?_⟩
        simpa [CommandEdit.vacates, heq, eq_comm] using hsource

theorem update_level (s : CommandSettings) (edit : CommandEdit) :
    (s.update edit).commandNotificationLevels = (s.settle edit).commandNotificationLevels := by
  cases edit with
  | add source spec => rfl
  | edit source spec => rfl
  | rename source target => rfl
  | remove source => rfl

/-- Settling a shared edit leaves the local commands alone, where none goes by the name it took
away. -/
theorem settle_get (h : ∀ name, edit.vacates = some name → s.localCommands.get name = none) :
    (s.settle edit).localCommands.get = s.localCommands.get := by
  cases edit with
  | add source spec => rfl
  | edit source spec => rfl
  | remove source => rfl
  | rename source target =>
    by_cases heq : source = target
    · simp [settle, renameCommand, heq]
    · have hnone := h source (by simp [CommandEdit.vacates, heq])
      simp [settle, renameCommand, heq, ProjectSettings.renameCommand, CommandEdit.rename_get, hnone]

end CommandSettings

/-- A call that has replaced `solo.yml` and has not returned successfully. -/
def SharedCall.unsettled (x : SharedCall) : Bool :=
  x.written && match x.pc with
    | .returned (.ok _) => false
    | _ => true

namespace CommandWorld
variable [Yaml]

/-- What `solo.yml` reads as; nothing when it does not load. -/
def loaded (s : CommandWorld) : Option SoloYml :=
  match loadOrEmpty s.config.disk none with
  | .ok (_, config) => some config
  | .error _ => none

def sharedCommands (s : CommandWorld) : Slots String ProcessSpec := fun name =>
  s.loaded.bind fun config => config.processes.get name

omit [Yaml] in
def localCommands (s : CommandWorld) : Slots String ProcessSpec := s.settings.localCommands.get

omit [Yaml] in
def level (s : CommandWorld) : Slots String NotificationLevel :=
  s.settings.commandNotificationLevels

omit [Yaml] in
/-- The renames and removals in `solo.yml` whose overrides are still to be moved or dropped. -/
def pending (s : CommandWorld) : Slots ℕ CommandEdit := fun n =>
  (s.shared n).bind fun x =>
    if x.unsettled = true ∧ x.edit.vacates ≠ none then some x.edit else none

/-- Nothing goes by the name, and no override is to be moved from it, to it, or dropped. -/
structure Free (s : CommandWorld) (name : String) : Prop where
  shared : s.sharedCommands name = none
  locals : s.localCommands name = none
  pending : ∀ n < s.nextCall, ∀ edit ∈ s.pending n,
    edit.vacates ≠ some name ∧ edit.takes ≠ some name

/-- A command goes by the name, or went by it until an edit that is still to settle. -/
def Present (s : CommandWorld) (name : String) : Prop :=
  s.sharedCommands name ≠ none ∨ s.localCommands name ≠ none ∨
    ∃ n < s.nextCall, ∃ edit ∈ s.pending n, edit.vacates = some name

/-- Names are in one store each, overrides under names of commands; a command created in this run
has none, and a name an unsettled edit took away is in neither store. -/
structure Named (s : CommandWorld) : Prop where
  disjoint : ∀ name, s.sharedCommands name ≠ none → s.localCommands name = none
  keyed : ∀ name, s.level name ≠ none → s.Present name
  bare : ∀ name ∈ s.created, s.level name = none
  numbered : ∀ n edit, s.pending n = some edit → n < s.nextCall
  moved : ∀ n edit source target, s.pending n = some edit → edit.vacates = some source →
    edit.takes = some target → target ∈ s.created → source ∈ s.created
  vacated : ∀ n edit name, s.pending n = some edit → edit.vacates = some name →
    s.sharedCommands name = none ∧ s.localCommands name = none

variable {s t : CommandWorld} {n : ℕ} {edit : CommandEdit} {name : String}

theorem Named.level_of_free (h : s.Named) (hfree : s.Free name) : s.level name = none := by
  by_contra hlevel
  obtain hshared | hlocal | ⟨n, hn, edit, hedit, hvacates⟩ := h.keyed name hlevel
  · exact hshared hfree.shared
  · exact hlocal hfree.locals
  · exact (hfree.pending n hn edit hedit).1 hvacates

variable {other : CommandEdit}

variable (h : s.Named)
include h

theorem Named.takes_of_pending (hfree : ∀ name ∈ edit.takes, s.Free name)
    (hother : s.pending n = some other) :
    (other.vacates = some name → edit.takes ≠ some name) ∧
      (other.takes = some name → edit.takes ≠ some name) := by
  have hlt := h.numbered n other hother
  constructor
  · intro hvacates htakes
    exact ((hfree name htakes).pending n hlt other hother).1 hvacates
  · intro htaken htakes
    exact ((hfree name htakes).pending n hlt other hother).2 htaken

theorem Named.moved_create (hfree : ∀ name ∈ edit.takes, s.Free name)
    (hother : s.pending n = some other) {source target : String}
    (hvacates : other.vacates = some source) (htakes : other.takes = some target)
    (hcreated : target ∈ edit.create s.created) : source ∈ edit.create s.created := by
  have hapart : ∀ name, (other.vacates = some name → edit.takes ≠ some name) ∧
      (other.takes = some name → edit.takes ≠ some name) :=
    fun name => h.takes_of_pending hfree hother
  rw [CommandEdit.mem_create ((hapart target).2 htakes)] at hcreated
  rw [CommandEdit.mem_create ((hapart source).1 hvacates)]
  exact h.moved n other source target hother hvacates htakes hcreated

theorem Named.quiet (hdisk : t.config.disk = s.config.disk)
    (hsettings : t.settings = s.settings) (hcreated : t.created = s.created)
    (hpending : t.pending = s.pending) (hnext : s.nextCall ≤ t.nextCall) : t.Named := by
  have hshared : t.sharedCommands = s.sharedCommands := by
    unfold sharedCommands loaded
    rw [hdisk]
  have hlocal : t.localCommands = s.localCommands := by
    unfold localCommands
    rw [hsettings]
  have hlevel : t.level = s.level := by
    unfold level
    rw [hsettings]
  constructor
  · rw [hshared, hlocal]
    exact h.disjoint
  · intro name hname
    rw [hlevel] at hname
    unfold Present
    rw [hshared, hlocal, hpending]
    obtain hname | hname | ⟨n, hn, hedit⟩ := h.keyed name hname
    · exact .inl hname
    · exact .inr (.inl hname)
    · exact .inr (.inr ⟨n, by omega, hedit⟩)
  · rw [hcreated, hlevel]
    exact h.bare
  · intro n edit hedit
    rw [hpending] at hedit
    exact (h.numbered n edit hedit).trans_le hnext
  · rw [hpending, hcreated]
    exact h.moved
  · rw [hpending, hshared, hlocal]
    exact h.vacated

/-- A write of `solo.yml` that finds what its checks found. -/
theorem Named.replaced
    (hshared : ∀ name, Processes.Agree (t.sharedCommands name) (edit.onto s.sharedCommands name))
    (hsubject : ∀ name ∈ edit.subject, s.sharedCommands name ≠ none)
    (hfree : ∀ name ∈ edit.takes, s.Free name) (hsettings : t.settings = s.settings)
    (hcreated : t.created = edit.create s.created)
    (hold : ∀ other, s.pending n = some other → other = edit)
    (hpending : t.pending = if edit.vacates = none then s.pending else s.pending.put n edit)
    (hn : n < s.nextCall) (hnext : t.nextCall = s.nextCall) : t.Named := by
  have hlocal : t.localCommands = s.localCommands := by
    unfold localCommands
    rw [hsettings]
  have hlevel : t.level = s.level := by
    unfold level
    rw [hsettings]
  have hgone : ∀ name, t.sharedCommands name = none ↔ edit.onto s.sharedCommands name = none :=
    fun name => CommandEdit.agree_none (hshared name)
  have hmem : ∀ m other, t.pending m = some other →
      s.pending m = some other ∨ m = n ∧ other = edit ∧ edit.vacates ≠ none := by
    intro m other hother
    rw [hpending] at hother
    split_ifs at hother with hnone
    · exact .inl hother
    · obtain ⟨rfl, rfl⟩ | ⟨-, hother⟩ := put_eq_some.mp hother
      · exact .inr ⟨rfl, rfl, hnone⟩
      · exact .inl hother
  have hkept : ∀ m other, s.pending m = some other → t.pending m = some other := by
    intro m other hother
    rw [hpending]
    split_ifs
    · exact hother
    · by_cases hmn : m = n
      · subst hmn
        rw [hold other hother]
        exact put_self
      · rw [put_of_ne hmn]
        exact hother
  constructor
  · intro name hname
    rw [hlocal]
    obtain hold | htakes | ⟨spec, rfl⟩ := CommandEdit.of_onto (mt (hgone name).mpr hname)
    · exact h.disjoint name hold
    · exact (hfree name htakes).locals
    · exact h.disjoint name (hsubject name rfl)
  · intro name hname
    rw [hlevel] at hname
    obtain hin | hin | ⟨m, hm, other, hother, hvacates⟩ := h.keyed name hname
    · by_cases hvacates : edit.vacates = some name
      · refine .inr (.inr ⟨n, by omega, edit, ?_, hvacates⟩)
        rw [hpending, if_neg (by simp [hvacates])]
        exact put_self
      · exact .inl (mt (hgone name).mp (CommandEdit.onto_ne_none hin hvacates))
    · rw [← hlocal] at hin
      exact .inr (.inl hin)
    · exact .inr (.inr ⟨m, by omega, other, hkept m other hother, hvacates⟩)
  · intro name hname
    rw [hcreated] at hname
    rw [hlevel]
    by_cases htakes : edit.takes = some name
    · exact h.level_of_free (hfree name htakes)
    · exact h.bare name ((CommandEdit.mem_create htakes).mp hname)
  · intro m other hother
    rw [hnext]
    obtain hother | ⟨rfl, -, -⟩ := hmem m other hother
    · exact h.numbered m other hother
    · exact hn
  · intro m other source target hother hvacates htakes htarget
    rw [hcreated] at htarget ⊢
    obtain hother | ⟨-, rfl, -⟩ := hmem m other hother
    · exact h.moved_create hfree hother hvacates htakes htarget
    · exact CommandEdit.source_mem_create hvacates htakes htarget
  · intro m other name hother hvacates
    rw [hlocal]
    obtain hother | ⟨-, rfl, -⟩ := hmem m other hother
    · obtain ⟨hnone, hlocal⟩ := h.vacated m other name hother hvacates
      refine ⟨?_, hlocal⟩
      by_contra hname
      obtain hold | htakes | ⟨spec, rfl⟩ := CommandEdit.of_onto (mt (hgone name).mpr hname)
      · exact hold hnone
      · exact (h.takes_of_pending hfree hother).1 hvacates htakes
      · exact hsubject name rfl hnone
    · refine ⟨(hgone name).mpr (CommandEdit.onto_vacated hvacates), ?_⟩
      exact h.disjoint name (hsubject name (CommandEdit.subject_of_vacates hvacates))

theorem Named.updated (hdisk : t.config.disk = s.config.disk)
    (hsettings : t.settings = s.settings.update edit)
    (hexpects : ∀ name ∈ edit.expects, s.localCommands name ≠ none)
    (hfree : ∀ name ∈ edit.takes, s.Free name) (hcreated : t.created = edit.create s.created)
    (hpending : t.pending = s.pending) (hnext : t.nextCall = s.nextCall) : t.Named := by
  have hshared : t.sharedCommands = s.sharedCommands := by
    unfold sharedCommands loaded
    rw [hdisk]
  have hlocal : t.localCommands = edit.onto s.localCommands := by
    unfold localCommands
    rw [hsettings]
    exact CommandEdit.update_get s.settings edit
  have hlevel : t.level = (s.settings.settle edit).commandNotificationLevels := by
    unfold level
    rw [hsettings]
    exact CommandSettings.update_level s.settings edit
  have hnew : ∀ name, t.localCommands name ≠ none →
      s.localCommands name ≠ none ∨ edit.takes = some name := by
    intro name hname
    rw [hlocal] at hname
    obtain hold | htakes | ⟨spec, rfl⟩ := CommandEdit.of_onto hname
    · exact .inl hold
    · exact .inr htakes
    · exact .inl (hexpects name rfl)
  constructor
  · intro name hname
    rw [hshared] at hname
    by_contra hin
    obtain hold | htakes := hnew name hin
    · exact hold (h.disjoint name hname)
    · exact hname (hfree name htakes).shared
  · intro name hname
    rw [hlevel] at hname
    unfold Present
    rw [hshared, hpending, hnext]
    obtain ⟨hold, hstays⟩ | ⟨source, -, htakes, -⟩ := CommandSettings.of_settle_level hname
    · obtain hin | hin | hin := h.keyed name hold
      · exact .inl hin
      · refine .inr (.inl ?_)
        rw [hlocal]
        exact CommandEdit.onto_ne_none hin hstays
      · exact .inr (.inr hin)
    · refine .inr (.inl ?_)
      rw [hlocal]
      exact CommandEdit.onto_taken htakes hexpects
  · intro name hname
    rw [hcreated] at hname
    rw [hlevel]
    by_contra hin
    obtain ⟨hold, -⟩ | ⟨source, hvacates, htakes, hold⟩ := CommandSettings.of_settle_level hin
    · by_cases htakes : edit.takes = some name
      · exact hold (h.level_of_free (hfree name htakes))
      · exact hold (h.bare name ((CommandEdit.mem_create htakes).mp hname))
    · have hsource := CommandEdit.source_mem_create hvacates htakes hname
      rw [CommandEdit.mem_create (CommandEdit.takes_ne_vacates hvacates)] at hsource
      exact hold (h.bare source hsource)
  · rw [hpending, hnext]
    exact h.numbered
  · intro m other source target hother hvacates htakes htarget
    rw [hpending] at hother
    rw [hcreated] at htarget ⊢
    exact h.moved_create hfree hother hvacates htakes htarget
  · intro m other name hother hvacates
    rw [hpending] at hother
    rw [hshared]
    obtain ⟨hnone, hlocal⟩ := h.vacated m other name hother hvacates
    refine ⟨hnone, ?_⟩
    by_contra hin
    obtain hold | htakes := hnew name hin
    · exact hold hlocal
    · exact (h.takes_of_pending hfree hother).1 hvacates htakes

/-- A shared edit moves or drops the override it left behind, where a renamed command is still
there to have it. -/
theorem Named.settled (hdisk : t.config.disk = s.config.disk)
    (hsettings : t.settings = s.settings.settle edit) (hcreated : t.created = s.created)
    (hedit : edit.vacates ≠ none → s.pending n = some edit)
    (hold : ∀ other, s.pending n = some other → other = edit)
    (htarget : ∀ source ∈ edit.vacates, ∀ target ∈ edit.takes, s.level source ≠ none →
      s.Present target)
    (hpending : t.pending = s.pending.erase n) (hnext : t.nextCall = s.nextCall) : t.Named := by
  have hshared : t.sharedCommands = s.sharedCommands := by
    unfold sharedCommands loaded
    rw [hdisk]
  have hlocal : t.localCommands = s.localCommands := by
    unfold localCommands
    rw [hsettings]
    apply CommandSettings.settle_get
    intro name hvacates
    exact (h.vacated n edit name (hedit (by simp [hvacates])) hvacates).2
  have hlevel : t.level = (s.settings.settle edit).commandNotificationLevels := by
    unfold level
    rw [hsettings]
  have hmem : ∀ m other, t.pending m = some other → s.pending m = some other := by
    intro m other hother
    rw [hpending] at hother
    exact (erase_eq_some.mp hother).2
  have hpresent : ∀ name, s.Present name → edit.vacates ≠ some name → t.Present name := by
    intro name hname hstays
    unfold Present
    rw [hshared, hlocal, hnext]
    obtain hin | hin | ⟨m, hm, other, hother, hvacates⟩ := hname
    · exact .inl hin
    · exact .inr (.inl hin)
    · refine .inr (.inr ⟨m, hm, other, ?_, hvacates⟩)
      rw [hpending]
      refine erase_eq_some.mpr ⟨?_, hother⟩
      rintro rfl
      obtain rfl := hold other hother
      exact hstays hvacates
  constructor
  · rw [hshared, hlocal]
    exact h.disjoint
  · intro name hname
    rw [hlevel] at hname
    obtain ⟨hold, hstays⟩ | ⟨source, hvacates, htakes, hold⟩ :=
      CommandSettings.of_settle_level hname
    · exact hpresent name (h.keyed name hold) hstays
    · exact hpresent name (htarget source hvacates name htakes hold)
        fun hname => CommandEdit.takes_ne_vacates hname htakes
  · intro name hname
    rw [hcreated] at hname
    rw [hlevel]
    by_contra hin
    obtain ⟨hold, -⟩ | ⟨source, hvacates, htakes, hold⟩ := CommandSettings.of_settle_level hin
    · exact hold (h.bare name hname)
    · have hsource := h.moved n edit source name (hedit (by simp [hvacates])) hvacates htakes hname
      exact hold (h.bare source hsource)
  · intro m other hother
    rw [hnext]
    exact h.numbered m other (hmem m other hother)
  · intro m other source target hother hvacates htakes
    rw [hcreated]
    exact h.moved m other source target (hmem m other hother) hvacates htakes
  · intro m other name hother hvacates
    rw [hshared, hlocal]
    exact h.vacated m other name (hmem m other hother) hvacates

omit h

end CommandWorld

end Soloist
