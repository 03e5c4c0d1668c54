import Soloist.Config.Engine

/-! The edits of a project's commands by its user: each rewrites `solo.yml` and then trusts what the
write left untrusted, when the project's settings say so. -/
namespace Soloist

def Processes.rename (processes : Processes) (source target : String) : Processes :=
  match processes.indexOf source, processes.get source with
  | some i, some spec => (processes.shiftRemove source).shiftInsert i target spec
  | _, _ => processes

namespace SoloYml

def insertCommand (name : String) (spec : ProcessSpec) : Mutation := fun config =>
  if config.processes.contains name then .error (.duplicateCommand name)
  else .ok { config with processes := config.processes.insert name spec }

def editCommand (name : String) (spec : ProcessSpec) : Mutation := fun config =>
  if config.processes.contains name then
    .ok { config with processes := config.processes.insert name spec }
  else .error .unknownCommand

def renameCommand (source target : String) : Mutation := fun config =>
  if config.processes.contains source then
    if source ≠ target ∧ config.processes.contains target then .error (.duplicateCommand target)
    else .ok { config with processes := config.processes.rename source target }
  else .error .unknownCommand

def removeCommand (name : String) : Mutation := fun config =>
  if config.processes.contains name then
    .ok { config with processes := config.processes.shiftRemove name }
  else .error .unknownCommand

end SoloYml

/-- A project's local settings, as far as its commands go. -/
structure ProjectSettings where
  autoTrustCommandChanges : Bool
  localCommands : Processes

def ProjectSettings.renameCommand (s : ProjectSettings) (source target : String) :
    ProjectSettings :=
  if source = target then s
  else { s with localCommands := s.localCommands.rename source target }

/-- A user's edit of a shared command. -/
inductive CommandEdit
  | add (name : String) (spec : ProcessSpec)
  | edit (name : String) (spec : ProcessSpec)
  | rename (source target : String)
  | remove (name : String)

def CommandEdit.mutation : CommandEdit → Mutation
  | .add name spec => SoloYml.insertCommand name spec
  | .edit name spec => SoloYml.editCommand name spec
  | .rename source target => SoloYml.renameCommand source target
  | .remove name => SoloYml.removeCommand name

def CommandEdit.settle : CommandEdit → ProjectSettings → ProjectSettings
  | .rename source target, s => s.renameCommand source target
  | _, s => s

/-- The two stores of a project's commands, and the variants it trusts. -/
structure CommandStores where
  config : ConfigEngine
  settings : ProjectSettings
  trusted : Hash → Bool

/-- What goes wrong in one write of `solo.yml` by the user: reading and replacing the file, looking
a command up in the trust store, reading the settings, and trusting a command. -/
structure WriteFaults where
  read : Option String
  replace : Option String
  lookup : String → Option StoreError
  settings : Option StoreError
  grant : String → Option StoreError

def WriteFaults.environment (w : WriteFaults) (trusted : Hash → Bool) : Environment where
  readFault := w.read
  writeFault := w.replace
  trust name variant :=
    match w.lookup name with
    | some e => .error e
    | none => .ok (trusted variant)

/-- What goes wrong in one edit: reading the settings first, the write, updating the settings. -/
structure EditFaults where
  get : Option StoreError
  write : WriteFaults
  update : Option StoreError

namespace CommandStores

/-- Loads the settings, changes them and saves them; the fault is one of loading or of saving. -/
def updateSettings (s : CommandStores) (change : ProjectSettings → ProjectSettings)
    (fault : Option StoreError) : CommandStores × Except StoreError ProjectSettings :=
  match fault with
  | some e => (s, .error e)
  | none => ({ s with settings := change s.settings }, .ok (change s.settings))

/-- `ConfigEngine::spec`: what the engine last knew of a command. -/
def spec (s : CommandStores) (name : String) : Option ProcessSpec :=
  s.config.state.bind fun state => state.last.processes.get name

variable [Sha256]

def trustPending (s : CommandStores) (w : WriteFaults) :
    List TrustReviewCommand → CommandStores × Except ConfigWriteError (List TrustReviewCommand)
  | [] => (s, .ok [])
  | command :: rest =>
    match s.spec command.name with
    | none => s.trustPending w rest
    | some spec =>
      match w.grant command.name with
      | some e => (s, .error (.store e))
      | none =>
        { s with trusted := fun variant => variant = spec.variantHash || s.trusted variant
          }.trustPending w rest

def autoTrustUserWrites (s : CommandStores) (pending : List TrustReviewCommand) (w : WriteFaults) :
    CommandStores × Except ConfigWriteError (List TrustReviewCommand) :=
  if pending = [] then (s, .ok pending)
  else
    match w.settings with
    | some e => (s, .error (.store e))
    | none =>
      if s.settings.autoTrustCommandChanges then s.trustPending w pending else (s, .ok pending)

def writeSharedCommand [Yaml] (s : CommandStores) (mutate : Mutation) (w : WriteFaults) :
    CommandStores × Except ConfigWriteError (List TrustReviewCommand) :=
  match s.config.write mutate (w.environment s.trusted) with
  | (config, .error e) => ({ s with config }, .error e)
  | (config, .ok pending) => { s with config }.autoTrustUserWrites pending w

omit [Sha256] in
def checkLocalName (s : CommandStores) (name : String) (get : Option StoreError) :
    Except ConfigWriteError Unit :=
  match get with
  | some e => .error (.store e)
  | none =>
    if s.settings.localCommands.contains name then .error (.duplicateCommand name) else .ok ()

omit [Sha256] in
def checkEdit (s : CommandStores) (edit : CommandEdit) (get : Option StoreError) :
    Except ConfigWriteError Unit :=
  match edit with
  | .add name spec =>
    match checkCommand name spec with
    | .error e => .error (.invalidCommand e)
    | .ok () => s.checkLocalName name get
  | .edit name spec => (checkCommand name spec).mapError .invalidCommand
  | .rename source target =>
    match checkCommandName target with
    | .error e => .error (.invalidCommand e)
    | .ok () => if source = target then .ok () else s.checkLocalName target get
  | .remove _ => .ok ()

/-- `add_shared_command`, `edit_shared_command`, `rename_shared_command` and
`remove_shared_command`. -/
def editShared [Yaml] (s : CommandStores) (edit : CommandEdit) (f : EditFaults) :
    CommandStores × Except ConfigWriteError (List TrustReviewCommand) :=
  match s.checkEdit edit f.get with
  | .error e => (s, .error e)
  | .ok () =>
    match s.writeSharedCommand edit.mutation f.write with
    | (s, .error e) => (s, .error e)
    | (s, .ok commands) =>
      match edit with
      | .add _ _ | .edit _ _ => (s, .ok commands)
      | .rename _ _ | .remove _ =>
        match s.updateSettings edit.settle f.update with
        | (s, .error e) => (s, .error (.store e))
        | (s, .ok _) => (s, .ok commands)

end CommandStores

section pendingTrust
variable [Sha256] {trust : TrustLookup} {config : SoloYml} {names : List String}
  {pending : List TrustReviewCommand}

theorem mem_pendingTrust (h : pendingTrust trust config names = .ok pending)
    {command : TrustReviewCommand} : command ∈ pending ↔ ∃ name ∈ names, ∃ spec,
      config.processes.get name = some spec ∧ trust name spec.variantHash = .ok false ∧
        command = .fromSpec name spec := by
  induction names generalizing pending with
  | nil =>
    cases h
    simp
  | cons name rest ih =>
    rw [pendingTrust] at h
    cases hspec : config.processes.get name with
    | none =>
      rw [hspec] at h
      rw [ih h]
      simp [hspec]
    | some spec =>
      rw [hspec] at h
      cases htrust : trust name spec.variantHash with
      | error e =>
        simp only [htrust] at h
        cases h
      | ok trusted =>
        simp only [htrust] at h
        cases hrest : pendingTrust trust config rest with
        | error e =>
          simp only [hrest] at h
          cases h
        | ok more =>
          simp only [hrest] at h
          cases h
          cases trusted with
          | true =>
            rw [if_pos rfl, ih hrest]
            simp [hspec, htrust]
          | false =>
            rw [if_neg Bool.false_ne_true, List.mem_cons, ih hrest]
            simp [hspec, htrust]

end pendingTrust

namespace ConfigEngine
variable [Yaml] {s : ConfigEngine} {mutate : Mutation} {plan : WritePlan}

variable {readFault : Option String}

theorem prepare_eq_some (h : s.prepare mutate readFault =
    .ok (some plan)) : ∃ text, loadOrEmpty s.disk readFault = .ok (text, plan.current) ∧
      mutate plan.current = .ok plan.intended ∧
      rewrite text plan.current plan.intended = .ok plan.newText ∧
      plan.newText.utf8ByteSize ≤ maxConfigBytes := by
  unfold prepare at h
  split at h
  next => cases h
  next state hstate =>
    split at h
    next => cases h
    next text current hload =>
      unfold planWrite at h
      split at h
      next => cases h
      next intended hmutate =>
        split_ifs at h with hsame
        · cases h
        · split at h
          next => cases h
          next newText hrewrite =>
            split_ifs at h with hsize
            cases h
            exact ⟨text, hload, hmutate, hrewrite, Nat.le_of_not_lt hsize⟩

theorem prepare_state (h : s.prepare mutate readFault = .ok (some plan)) : s.state ≠ none := by
  intro hnone
  unfold prepare at h
  rw [hnone] at h
  cases h

theorem prepare_eq_none (h : s.prepare mutate readFault = .ok none) :
    ∃ text current intended, loadOrEmpty s.disk readFault = .ok (text, current) ∧
      mutate current = .ok intended ∧ intended.Same current := by
  unfold prepare at h
  split at h
  next => cases h
  next state hstate =>
    split at h
    next => cases h
    next text current hload =>
      unfold planWrite at h
      split at h
      next => cases h
      next intended hmutate =>
        split_ifs at h with hsame
        · exact ⟨text, current, intended, hload, hmutate, hsame⟩
        · split at h
          next => cases h
          next newText hrewrite =>
            split_ifs at h
            cases h

theorem prepare_congr {t : ConfigEngine} (hdisk : t.disk = s.disk)
    (hstate : t.state = none ↔ s.state = none) :
    t.prepare mutate readFault = s.prepare mutate readFault := by
  unfold prepare
  rw [hdisk]
  cases hs : s.state with
  | none =>
    rw [hstate.mpr hs]
  | some state =>
    cases ht : t.state with
    | none =>
      rw [hstate.mp ht] at hs
      cases hs
    | some _ => rfl

/-- The write gets as far as replacing the file. -/
def Replaces (s : ConfigEngine) (mutate : Mutation) (w : WriteFaults) : Prop :=
  (∃ plan, s.prepare mutate w.read = .ok (some plan)) ∧ w.replace = none

end ConfigEngine

namespace CommandStores
variable [Sha256] {s t : CommandStores} {mutate : Mutation} {w : WriteFaults} {plan : WritePlan}
  {pending : List TrustReviewCommand} {name : String}

theorem trustPending_kept (s : CommandStores) (w : WriteFaults)
    (pending : List TrustReviewCommand) :
    (s.trustPending w pending).1.config = s.config ∧
      (s.trustPending w pending).1.settings = s.settings := by
  induction pending generalizing s with
  | nil => exact ⟨rfl, rfl⟩
  | cons command rest ih =>
    rw [trustPending]
    split
    · exact ih s
    · split
      · exact ⟨rfl, rfl⟩
      · exact ih _

theorem autoTrustUserWrites_kept (s : CommandStores) (pending : List TrustReviewCommand)
    (w : WriteFaults) : (s.autoTrustUserWrites pending w).1.config = s.config ∧
      (s.autoTrustUserWrites pending w).1.settings = s.settings := by
  unfold autoTrustUserWrites
  by_cases hpending : pending = []
  · rw [if_pos hpending]
    exact ⟨rfl, rfl⟩
  · rw [if_neg hpending]
    cases w.settings with
    | some e => exact ⟨rfl, rfl⟩
    | none =>
      cases s.settings.autoTrustCommandChanges with
      | true => exact trustPending_kept s w pending
      | false => exact ⟨rfl, rfl⟩

theorem trustPending_ok_iff : (∃ left, (s.trustPending w pending).2 = .ok left) ↔
    ∀ command ∈ pending, s.spec command.name ≠ none → w.grant command.name = none := by
  induction pending generalizing s with
  | nil => simp [trustPending]
  | cons command rest ih =>
    rw [trustPending, List.forall_mem_cons]
    cases hspec : s.spec command.name with
    | none => simp [ih]
    | some spec =>
      cases hgrant : w.grant command.name with
      | some e => simp
      | none =>
        have hrest := ih (s := { s with
          trusted := fun variant => variant = spec.variantHash || s.trusted variant })
        simp only [hrest, ne_eq, reduceCtorEq, not_false_eq_true, true_implies, true_and]
        rfl

theorem autoTrustUserWrites_ok_iff : (∃ left, (s.autoTrustUserWrites pending w).2 = .ok left) ↔
    (pending ≠ [] → w.settings = none ∧ (s.settings.autoTrustCommandChanges = true →
      ∀ command ∈ pending, s.spec command.name ≠ none → w.grant command.name = none)) := by
  unfold autoTrustUserWrites
  by_cases hpending : pending = []
  · simp [hpending]
  · rw [if_neg hpending]
    cases hsettings : w.settings with
    | some e => simp [hpending]
    | none =>
      cases hauto : s.settings.autoTrustCommandChanges with
      | true => simpa [hpending, hsettings, hauto] using trustPending_ok_iff
      | false => simp

variable [Yaml]

/-- A write that does not replace the file changes neither store; it succeeds only when there is
nothing to change. -/
theorem writeSharedCommand_kept (h : ¬s.config.Replaces mutate w) :
    (s.writeSharedCommand mutate w).1 = s ∧ (∀ left,
      (s.writeSharedCommand mutate w).2 = .ok left → s.config.prepare mutate w.read = .ok none) := by
  unfold writeSharedCommand ConfigEngine.write
  cases hplan : s.config.prepare mutate (w.environment s.trusted).readFault with
  | error e =>
    refine ⟨rfl, fun left hleft => ?_⟩
    cases hleft
  | ok planned =>
    cases planned with
    | none => exact ⟨rfl, fun left _ => hplan⟩
    | some plan =>
      cases hreplace : w.replace with
      | none => exact absurd ⟨⟨plan, hplan⟩, hreplace⟩ h
      | some source =>
        have hfault : (w.environment s.trusted).writeFault = some source := hreplace
        simp only [ConfigEngine.atomicWrite, hfault]
        refine ⟨trivial, fun left hleft => ?_⟩
        cases hleft

/-- A write that replaces the file leaves the planned text there, whatever the trust store says. -/
theorem writeSharedCommand_replaced (hplan : s.config.prepare mutate w.read = .ok (some plan))
    (hreplace : w.replace = none) :
    (s.writeSharedCommand mutate w).1.config.disk = some plan.newText ∧
      (s.writeSharedCommand mutate w).1.config.state ≠ none ∧
      (s.writeSharedCommand mutate w).1.settings = s.settings := by
  have hstate := ConfigEngine.prepare_state hplan
  have hread : s.config.prepare mutate (w.environment s.trusted).readFault = .ok (some plan) :=
    hplan
  have hfault : (w.environment s.trusted).writeFault = none := hreplace
  unfold writeSharedCommand ConfigEngine.write
  rw [hread]
  simp only [ConfigEngine.atomicWrite, hfault]
  cases pendingTrust (w.environment s.trusted).trust plan.intended plan.changes.touched with
  | error e => exact ⟨rfl, hstate, rfl⟩
  | ok pending =>
    dsimp only
    obtain ⟨hconfig, hsettings⟩ := autoTrustUserWrites_kept ⟨_, s.settings, s.trusted⟩ pending w
    rw [hconfig, hsettings]
    exact ⟨rfl, Option.some_ne_none _, rfl⟩

theorem writeSharedCommand_ok_iff (hplan : s.config.prepare mutate w.read = .ok (some plan))
    (hreplace : w.replace = none) :
    (∃ left, (s.writeSharedCommand mutate w).2 = .ok left) ↔
      ∀ name ∈ plan.changes.touched, ∀ spec, plan.intended.processes.get name = some spec →
        w.lookup name = none ∧ (s.trusted spec.variantHash = true ∨ w.settings = none ∧
          (s.settings.autoTrustCommandChanges = true → w.grant name = none)) := by
  have hread : s.config.prepare mutate (w.environment s.trusted).readFault = .ok (some plan) :=
    hplan
  have hfault : (w.environment s.trusted).writeFault = none := hreplace
  have hlookup : ∀ name variant trusted, (w.environment s.trusted).trust name variant = .ok trusted ↔
      w.lookup name = none ∧ s.trusted variant = trusted := by
    intro name variant trusted
    cases hname : w.lookup name with
    | none => simp [WriteFaults.environment, hname]
    | some e => simp [WriteFaults.environment, hname]
  unfold writeSharedCommand ConfigEngine.write
  rw [hread]
  simp only [ConfigEngine.atomicWrite, hfault]
  cases hpending : pendingTrust (w.environment s.trusted).trust plan.intended
      plan.changes.touched with
  | error e =>
    have hnot := ConfigEngine.pendingTrust_error hpending
    constructor
    · rintro ⟨left, hleft⟩
      cases hleft
    · intro hall
      refine absurd ?_ hnot
      intro name hname spec hspec
      exact ⟨_, (hlookup name _ _).mpr ⟨(hall name hname spec hspec).1, rfl⟩⟩
  | ok pending =>
    have hanswers := ConfigEngine.pendingTrust_ok_iff.mp ⟨pending, hpending⟩
    have hmem := @mem_pendingTrust _ _ _ _ _ hpending
    dsimp only
    rw [autoTrustUserWrites_ok_iff]
    constructor
    · intro h name hname spec hspec
      obtain ⟨trusted, htrust⟩ := hanswers name hname spec hspec
      obtain ⟨hnone, hvariant⟩ := (hlookup name _ _).mp htrust
      refine ⟨hnone, ?_⟩
      cases htrusted : s.trusted spec.variantHash with
      | true => exact .inl rfl
      | false =>
        have hleft : TrustReviewCommand.fromSpec name spec ∈ pending :=
          hmem.mpr ⟨name, hname, spec, hspec, (hlookup name _ _).mpr ⟨hnone, htrusted⟩, rfl⟩
        obtain ⟨hsettings, hgrants⟩ := h (List.ne_nil_of_mem hleft)
        refine .inr ⟨hsettings, fun hauto => hgrants hauto _ hleft ?_⟩
        intro hmissing
        have hstored : plan.intended.processes.get name = none := hmissing
        rw [hspec] at hstored
        cases hstored
    · intro h hne
      have huntrusted : ∀ command ∈ pending, w.settings = none ∧
          (s.settings.autoTrustCommandChanges = true → w.grant command.name = none) := by
        intro command hcommand
        obtain ⟨name, hname, spec, hspec, htrust, rfl⟩ := hmem.mp hcommand
        obtain ⟨-, hvariant⟩ := (hlookup name _ _).mp htrust
        obtain ⟨-, htrusted | hleft⟩ := h name hname spec hspec
        · rw [hvariant] at htrusted
          cases htrusted
        · exact hleft
      obtain ⟨command, hcommand⟩ := List.exists_mem_of_ne_nil pending hne
      refine ⟨(huntrusted command hcommand).1, fun hauto command hcommand _ => ?_⟩
      exact (huntrusted command hcommand).2 hauto

/-- What the engine knows after a write: what it knew, or what the write has put in the file. -/
theorem writeSharedCommand_state (s : CommandStores) (mutate : Mutation) (w : WriteFaults) :
    (s.writeSharedCommand mutate w).1.config.state = s.config.state ∨
      ∃ plan commands, s.config.prepare mutate w.read = .ok (some plan) ∧ w.replace = none ∧
        pendingTrust (w.environment s.trusted).trust plan.intended plan.changes.touched =
          .ok commands ∧
        (s.writeSharedCommand mutate w).1.config.state =
          some ⟨contentHash plan.newText, plan.intended⟩ := by
  by_cases hreplaces : s.config.Replaces mutate w
  · obtain ⟨⟨plan, hplan⟩, hreplace⟩ := hreplaces
    have hread : s.config.prepare mutate (w.environment s.trusted).readFault = .ok (some plan) :=
      hplan
    have hfault : (w.environment s.trusted).writeFault = none := hreplace
    unfold writeSharedCommand ConfigEngine.write
    rw [hread]
    simp only [ConfigEngine.atomicWrite, hfault]
    cases hpending : pendingTrust (w.environment s.trusted).trust plan.intended
        plan.changes.touched with
    | error e => exact .inl rfl
    | ok pending =>
      dsimp only
      rw [(autoTrustUserWrites_kept ⟨_, s.settings, s.trusted⟩ pending w).1]
      exact .inr ⟨plan, pending, hplan, hreplace, hpending, rfl⟩
  · rw [(writeSharedCommand_kept hreplaces).1]
    exact .inl rfl

/-- An edit changes the file and the engine's state through its write alone, once it passes its checks. -/
theorem editShared_config (s : CommandStores) (edit : CommandEdit) (f : EditFaults) :
    (s.editShared edit f).1.config = s.config ∨ s.checkEdit edit f.get = .ok () ∧
      (s.editShared edit f).1.config = (s.writeSharedCommand edit.mutation f.write).1.config := by
  unfold editShared
  cases hcheck : s.checkEdit edit f.get with
  | error e => exact .inl rfl
  | ok _ =>
    refine .inr ⟨rfl, ?_⟩
    dsimp only
    cases s.writeSharedCommand edit.mutation f.write with
    | mk t result =>
      cases result with
      | error e => rfl
      | ok commands =>
        cases edit with
        | add name spec | edit name spec => rfl
        | rename source target | remove name => cases f.update <;> rfl

end CommandStores
end Soloist
