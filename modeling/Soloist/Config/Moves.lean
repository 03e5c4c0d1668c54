import Soloist.Config.Commands

/-! Moving a command between `solo.yml` and the project's local commands, when any step of the move
may fail. -/
namespace Soloist

namespace SoloYml
variable {name n : String} {spec : ProcessSpec} {old new : SoloYml}

theorem removeCommand_ok (h : removeCommand name old = .ok new) :
    ∃ prev, old.processes.get name = some prev ∧
      ∀ n, new.processes.get n = if n = name then none else old.processes.get n := by
  unfold removeCommand at h
  split_ifs at h with hcontains
  cases h
  obtain ⟨prev, hprev⟩ := IndexMap.mem_keys.mp (IndexMap.contains_iff.mp hcontains)
  exact ⟨prev, hprev, fun n => IndexMap.get_shiftRemove old.processes name n⟩

theorem insertCommand_ok (h : insertCommand name spec old = .ok new) :
    old.processes.get name = none ∧
      ∀ n, new.processes.get n = if n = name then some spec else old.processes.get n := by
  unfold insertCommand at h
  split_ifs at h with hcontains
  cases h
  have hnone := IndexMap.contains_eq_false.mp (Bool.eq_false_iff.mpr hcontains)
  exact ⟨hnone, fun n => IndexMap.get_insert old.processes name n spec⟩

theorem touched_removed (h : removeCommand name old = .ok new) : (old.diff new).touched = [] := by
  obtain ⟨-, -, hget⟩ := removeCommand_ok h
  apply List.eq_nil_iff_forall_not_mem.mpr
  intro n hn
  obtain ⟨hkey, hdiffer⟩ := mem_touched_iff.mp hn
  obtain ⟨spec, hspec⟩ := IndexMap.mem_keys.mp hkey
  rw [hget n] at hspec hdiffer
  split_ifs at hspec hdiffer with heq
  exact hdiffer (.refl _)

theorem mem_touched_inserted (h : insertCommand name spec old = .ok new) :
    n ∈ (old.diff new).touched ↔ n = name := by
  obtain ⟨hnone, hget⟩ := insertCommand_ok h
  rw [mem_touched_iff]
  constructor
  · rintro ⟨-, hdiffer⟩
    by_contra hne
    rw [hget n, if_neg hne] at hdiffer
    exact hdiffer (.refl _)
  · rintro rfl
    have hspec : new.processes.get n = some spec := by
      rw [hget n, if_pos rfl]
    refine ⟨IndexMap.mem_keys.mpr ⟨spec, hspec⟩, ?_⟩
    rw [hnone, hspec]
    exact id

end SoloYml

/-- A spec that `solo.yml` accepts. -/
def ProcessSpec.Valid (spec : ProcessSpec) : Prop :=
  ∀ glob ∈ spec.restartWhenChanged, isBlank glob = false

instance (spec : ProcessSpec) : Decidable spec.Valid :=
  inferInstanceAs (Decidable (∀ glob ∈ spec.restartWhenChanged, _))

/-- The lines above a file's first content are comments to YAML too. -/
def PlainComments (disk : Option String) : Prop :=
  ∀ line ∈ leadingLines (disk.getD ""), line.isYamlComment = true

instance (disk : Option String) : Decidable (PlainComments disk) :=
  inferInstanceAs (Decidable (∀ line ∈ leadingLines (disk.getD ""), _))

inductive MoveCommandError
  | notShared
  | notLocal
  | config (error : ConfigWriteError)
  | store (error : StoreError)
  deriving DecidableEq, Repr

namespace ProjectSettings

def insertLocal (s : ProjectSettings) (name : String) (spec : ProcessSpec) : ProjectSettings :=
  { s with localCommands := s.localCommands.insert name spec }

def removeLocal (s : ProjectSettings) (name : String) : ProjectSettings :=
  { s with localCommands := s.localCommands.shiftRemove name }

end ProjectSettings

namespace CommandStores
variable [Yaml]

/-- The command in `solo.yml`, as the file is. -/
def shared (s : CommandStores) (name : String) : Option ProcessSpec :=
  match loadOrEmpty s.config.disk none with
  | .ok (_, config) => config.processes.get name
  | .error _ => none

omit [Yaml] in
def localCommand (s : CommandStores) (name : String) : Option ProcessSpec :=
  s.settings.localCommands.get name

variable [Sha256]

/-- Adds the engine's copy of a shared command to the local store, and removes the command from
`solo.yml`; when that fails the local one goes again. -/
def makeCommandLocal (s : CommandStores) (name : String) (add : Option StoreError) (w : WriteFaults)
    (undo : Option StoreError) : CommandStores × Except MoveCommandError ProjectSettings :=
  match s.spec name with
  | none => (s, .error .notShared)
  | some spec =>
    match s.updateSettings (·.insertLocal name spec) add with
    | (s, .error e) => (s, .error (.store e))
    | (s, .ok added) =>
      match s.writeSharedCommand (SoloYml.removeCommand name) w with
      | (s, .ok _) => (s, .ok added)
      | (s, .error e) => ((s.updateSettings (·.removeLocal name) undo).1, .error (.config e))

/-- Writes a local command to `solo.yml`, and clears the local one; when that fails the shared one
goes again. -/
def saveCommandToYaml (s : CommandStores) (name : String) (get : Option StoreError)
    (w : WriteFaults) (clear : Option StoreError) (undo : WriteFaults) :
    CommandStores × Except MoveCommandError (List TrustReviewCommand) :=
  match get with
  | some e => (s, .error (.store e))
  | none =>
    match s.localCommand name with
    | none => (s, .error .notLocal)
    | some spec =>
      match s.writeSharedCommand (SoloYml.insertCommand name spec) w with
      | (s, .error e) => (s, .error (.config e))
      | (s, .ok commands) =>
        match s.updateSettings (·.removeLocal name) clear with
        | (s, .error e) =>
          ((s.writeSharedCommand (SoloYml.removeCommand name) undo).1, .error (.store e))
        | (s, .ok _) => (s, .ok commands)

omit [Sha256] in
def OneCopy (s : CommandStores) (name : String) (spec : ProcessSpec) : Prop :=
  match s.shared name, s.localCommand name with
  | some copy, none | none, some copy => copy.Same spec
  | _, _ => False

/-- When a move out of `solo.yml` of a command that the file has with `spec` leaves one copy: the
move does nothing and there was no local one, or it fails before the file is replaced and the local
one goes again, or it replaces the file and the engine knew the spec. -/
def LocalMoves (s : CommandStores) (name : String) (spec : ProcessSpec) (add : Option StoreError)
    (w : WriteFaults) (undo : Option StoreError) : Prop :=
  match s.spec name, add with
  | some known, none =>
    (s.config.Replaces (SoloYml.removeCommand name) w → known.Same spec) ∧
      (¬s.config.Replaces (SoloYml.removeCommand name) w → undo = none)
  | _, _ => s.localCommand name = none

omit [Yaml] in
/-- The trust store answers on a new command, and takes the grant the settings ask for. -/
def Trusts (s : CommandStores) (name : String) (spec : ProcessSpec) (w : WriteFaults) : Prop :=
  w.lookup name = none ∧ (s.trusted spec.variantHash = true ∨ w.settings = none ∧
    (s.settings.autoTrustCommandChanges = true → w.grant name = none))

/-- When a move into `solo.yml` of a local command with `spec` leaves one copy: the file does not
have the command, and if the move replaces the file, then it goes on past the trust store and either
clears the local command, with a spec the file is loaded with, or replaces the file again. A spec
the file is not loaded with makes the file as good as without the command. -/
def SharedMoves (s : CommandStores) (name : String) (spec : ProcessSpec) (get : Option StoreError)
    (w : WriteFaults) (clear : Option StoreError) (undo : WriteFaults) : Prop :=
  s.shared name = none ∧ ∀ plan, get = none → w.replace = none →
    s.config.prepare (SoloYml.insertCommand name spec) w.read = .ok (some plan) →
      (s.Trusts name spec w → clear = none → spec.Valid) ∧
      (s.Trusts name spec w → clear ≠ none → spec.Valid →
        ConfigEngine.Replaces { s.config with disk := some plan.newText }
          (SoloYml.removeCommand name) undo) ∧
      (¬s.Trusts name spec w → ¬spec.Valid)

end CommandStores

namespace CommandStores
variable [Yaml] {s t : CommandStores} {name : String} {spec : ProcessSpec} {plan : WritePlan}
  {readFault : Option String}

theorem shared_eq_some : s.shared name = some spec ↔ ∃ text config,
    loadOrEmpty s.config.disk none = .ok (text, config) ∧
      config.processes.get name = some spec := by
  unfold shared
  cases hload : loadOrEmpty s.config.disk none with
  | error e => simp
  | ok loaded =>
    obtain ⟨text, config⟩ := loaded
    simp

theorem shared_congr (h : t.config.disk = s.config.disk) : t.shared name = s.shared name := by
  unfold shared
  rw [h]

variable {mutate : Mutation}

variable (hyaml : Yaml.Faithful)
include hyaml

variable (hcomments : PlainComments s.config.disk)
include hcomments

theorem shared_planned
    (hplan : s.config.prepare mutate readFault = .ok (some plan))
    (hdisk : t.config.disk = some plan.newText) (hshared : t.shared name = some spec) :
    ∃ copy, plan.intended.processes.get name = some copy ∧ spec.Same copy := by
  obtain ⟨text, hload, -, hrewrite, -⟩ := ConfigEngine.prepare_eq_some hplan
  obtain ⟨-, rfl, -, -⟩ := loadOrEmpty_eq_ok hload
  obtain ⟨text', config, hread, hget⟩ := shared_eq_some.mp hshared
  rw [hdisk] at hread
  obtain ⟨-, rfl, -, -⟩ := loadOrEmpty_eq_ok hread
  have hsame := same_of_parse_rewrite hyaml hrewrite hcomments (loadOrEmpty_some hread)
  have hagree := hsame.get name
  rw [hget] at hagree
  cases hcopy : plan.intended.processes.get name with
  | none =>
    rw [hcopy] at hagree
    exact hagree.elim
  | some copy =>
    rw [hcopy] at hagree
    exact ⟨copy, rfl, hagree⟩

theorem shared_of_planned
    (hplan : s.config.prepare mutate readFault = .ok (some plan))
    (hdisk : t.config.disk = some plan.newText) (hvalid : plan.intended.validate = .ok ())
    (hget : plan.intended.processes.get name = some spec) :
    ∃ copy, t.shared name = some copy ∧ copy.Same spec := by
  obtain ⟨text, hload, -, hrewrite, hsize⟩ := ConfigEngine.prepare_eq_some hplan
  obtain ⟨-, rfl, -, -⟩ := loadOrEmpty_eq_ok hload
  obtain ⟨config, hparse, hsame⟩ := (rewrite_readsBack hyaml hrewrite).1
    (SoloYml.validate_eq_ok.mp hvalid) hcomments
  have hagree := hsame.get name
  rw [hget] at hagree
  cases hcopy : config.processes.get name with
  | none =>
    rw [hcopy] at hagree
    exact hagree.elim
  | some copy =>
    rw [hcopy] at hagree
    refine ⟨copy, shared_eq_some.mpr ⟨plan.newText, config, ?_, hcopy⟩, hagree⟩
    rw [hdisk]
    simp only [loadOrEmpty, if_neg (Nat.not_lt.mpr hsize), hparse]

theorem shared_removed
    (hplan : s.config.prepare (SoloYml.removeCommand name) readFault = .ok (some plan))
    (hdisk : t.config.disk = some plan.newText) : t.shared name = none := by
  obtain ⟨-, -, hmutate, -, -⟩ := ConfigEngine.prepare_eq_some hplan
  obtain ⟨-, -, hget⟩ := SoloYml.removeCommand_ok hmutate
  cases hshared : t.shared name with
  | none => rfl
  | some copy =>
    obtain ⟨planned, hplanned, -⟩ := shared_planned hyaml hcomments hplan hdisk hshared
    rw [hget name, if_pos rfl] at hplanned
    cases hplanned

theorem shared_inserted
    (hplan : s.config.prepare (SoloYml.insertCommand name spec) readFault = .ok (some plan))
    (hdisk : t.config.disk = some plan.newText) :
    (spec.Valid → ∃ copy, t.shared name = some copy ∧ copy.Same spec) ∧
      (¬spec.Valid → t.shared name = none) := by
  obtain ⟨text, hload, hmutate, -, -⟩ := ConfigEngine.prepare_eq_some hplan
  obtain ⟨-, -, hcurrent, -⟩ := loadOrEmpty_eq_ok hload
  obtain ⟨-, hget⟩ := SoloYml.insertCommand_ok hmutate
  have hspec : plan.intended.processes.get name = some spec := by
    rw [hget name, if_pos rfl]
  constructor
  · intro hvalid
    apply shared_of_planned hyaml hcomments hplan hdisk ?_ hspec
    apply SoloYml.validate_eq_ok.mpr
    intro n prev hprev
    rw [hget n] at hprev
    split_ifs at hprev with hn
    · cases hprev
      exact hvalid
    · exact SoloYml.validate_eq_ok.mp hcurrent n prev hprev
  · intro hinvalid
    cases hshared : t.shared name with
    | none => rfl
    | some copy =>
      obtain ⟨planned, hplanned, hsame⟩ := shared_planned hyaml hcomments hplan hdisk hshared
      rw [hspec] at hplanned
      cases hplanned
      obtain ⟨text', config, hread, hcopy⟩ := shared_eq_some.mp hshared
      obtain ⟨-, -, hvalid, -⟩ := loadOrEmpty_eq_ok hread
      refine absurd ?_ hinvalid
      intro glob hglob
      rw [← hsame.restartWhenChanged] at hglob
      exact SoloYml.validate_eq_ok.mp hvalid name copy hcopy glob hglob

omit hcomments

omit hyaml

theorem oneCopy_of_shared (hshared : s.shared name = some spec) :
    s.OneCopy name spec ↔ s.localCommand name = none := by
  unfold OneCopy
  rw [hshared]
  cases s.localCommand name with
  | none => simp [ProcessSpec.Same.refl]
  | some other => simp

/-- A removal or an insertion is never without a change to make. -/
theorem prepare_removed : s.config.prepare (SoloYml.removeCommand name) readFault ≠ .ok none := by
  intro h
  obtain ⟨text, current, intended, -, hmutate, hsame⟩ := ConfigEngine.prepare_eq_none h
  obtain ⟨prev, hprev, hget⟩ := SoloYml.removeCommand_ok hmutate
  have hagree := hsame.get name
  rw [hget name, if_pos rfl, hprev] at hagree
  exact hagree

theorem prepare_inserted :
    s.config.prepare (SoloYml.insertCommand name spec) readFault ≠ .ok none := by
  intro h
  obtain ⟨text, current, intended, -, hmutate, hsame⟩ := ConfigEngine.prepare_eq_none h
  obtain ⟨hnone, hget⟩ := SoloYml.insertCommand_ok hmutate
  have hagree := hsame.get name
  rw [hget name, if_pos rfl, hnone] at hagree
  exact hagree

variable [Sha256] {w undo : WriteFaults} {add get clear : Option StoreError}

/-- Removing a command from the file leaves nothing to trust, so it fails only before the file is
replaced. -/
theorem writeSharedCommand_removed
    (hplan : s.config.prepare (SoloYml.removeCommand name) w.read = .ok (some plan))
    (hreplace : w.replace = none) :
    ∃ left, (s.writeSharedCommand (SoloYml.removeCommand name) w).2 = .ok left := by
  apply (writeSharedCommand_ok_iff hplan hreplace).mpr
  obtain ⟨-, -, hmutate, -, -⟩ := ConfigEngine.prepare_eq_some hplan
  intro n hn
  rw [WritePlan.changes, SoloYml.touched_removed hmutate] at hn
  cases hn

theorem writeSharedCommand_inserted
    (hplan : s.config.prepare (SoloYml.insertCommand name spec) w.read = .ok (some plan))
    (hreplace : w.replace = none) :
    (∃ left, (s.writeSharedCommand (SoloYml.insertCommand name spec) w).2 = .ok left) ↔
      s.Trusts name spec w := by
  rw [writeSharedCommand_ok_iff hplan hreplace]
  obtain ⟨-, -, hmutate, -, -⟩ := ConfigEngine.prepare_eq_some hplan
  obtain ⟨-, hget⟩ := SoloYml.insertCommand_ok hmutate
  have hspec : plan.intended.processes.get name = some spec := by
    rw [hget name, if_pos rfl]
  constructor
  · intro h
    exact h name ((SoloYml.mem_touched_inserted hmutate).mpr rfl) spec hspec
  · intro h n hn prev hprev
    obtain rfl := (SoloYml.mem_touched_inserted hmutate).mp hn
    rw [hspec] at hprev
    cases hprev
    exact h

theorem makeCommandLocal_oneCopy (hyaml : Yaml.Faithful) (hcomments : PlainComments s.config.disk)
    (hshared : s.shared name = some spec) {undo : Option StoreError} :
    (s.makeCommandLocal name add w undo).1.OneCopy name spec ↔
      s.LocalMoves name spec add w undo := by
  unfold makeCommandLocal LocalMoves
  cases s.spec name with
  | none => exact oneCopy_of_shared hshared
  | some known =>
    cases add with
    | some e => exact oneCopy_of_shared hshared
    | none =>
      dsimp only [updateSettings]
      generalize hadded : ({ s with settings := s.settings.insertLocal name known }) = added
      have hconfig : added.config = s.config := by rw [← hadded]
      have hlocal : added.localCommand name = some known := by
        rw [← hadded]
        exact (IndexMap.get_insert s.settings.localCommands name name known).trans (if_pos rfl)
      by_cases hreplaces : s.config.Replaces (SoloYml.removeCommand name) w
      · obtain ⟨⟨plan, hplan⟩, hreplace⟩ := hreplaces
        have hplan' := hplan
        rw [← hconfig] at hplan' hcomments
        obtain ⟨left, hleft⟩ := writeSharedCommand_removed hplan' hreplace
        obtain ⟨hdisk, -, hsettings⟩ := writeSharedCommand_replaced hplan' hreplace
        have hgone := shared_removed hyaml hcomments hplan' hdisk
        cases hwrite : added.writeSharedCommand (SoloYml.removeCommand name) w with
        | mk written result =>
          rw [hwrite] at hleft hdisk hsettings hgone
          have hresult : result = .ok left := hleft
          have hkept : written.localCommand name = some known := by
            unfold localCommand
            rw [hsettings]
            exact hlocal
          subst hresult
          unfold OneCopy
          rw [hgone, hkept]
          have hdone : s.config.Replaces (SoloYml.removeCommand name) w :=
            ⟨⟨plan, hplan⟩, hreplace⟩
          exact ⟨fun h => ⟨fun _ => h, fun hnot => absurd hdone hnot⟩, fun h => h.1 hdone⟩
      · have hnot := hreplaces
        rw [← hconfig] at hnot
        obtain ⟨hsame, hok⟩ := writeSharedCommand_kept hnot
        cases hwrite : added.writeSharedCommand (SoloYml.removeCommand name) w with
        | mk written result =>
          rw [hwrite] at hsame hok
          have hwritten : written = added := hsame
          subst hwritten
          cases result with
          | ok left => exact absurd (hok left rfl) prepare_removed
          | error e =>
            have hstill : written.shared name = some spec :=
              (shared_congr (congrArg ConfigEngine.disk hconfig)).trans hshared
            have hiff : (s.config.Replaces (SoloYml.removeCommand name) w → known.Same spec) ∧
                (¬s.config.Replaces (SoloYml.removeCommand name) w → undo = none) ↔
                  undo = none := by
              simp [hreplaces]
            rw [hiff]
            cases undo with
            | some e =>
              dsimp only
              rw [oneCopy_of_shared hstill, hlocal]
              simp
            | none =>
              dsimp only
              have hstill' : shared { written with
                  settings := written.settings.removeLocal name } name = some spec := hstill
              rw [oneCopy_of_shared hstill']
              refine iff_of_true ?_ rfl
              exact (IndexMap.get_shiftRemove written.settings.localCommands name name).trans
                (if_pos rfl)

omit [Sha256] in
theorem oneCopy_of_local (hlocal : s.localCommand name = some spec) :
    s.OneCopy name spec ↔ s.shared name = none := by
  unfold OneCopy
  rw [hlocal]
  cases s.shared name with
  | none => simp [ProcessSpec.Same.refl]
  | some other => simp

omit [Sha256] in
theorem replaces_inserted_of_shared {prev : ProcessSpec} (hshared : s.shared name = some prev) :
    ¬s.config.Replaces (SoloYml.insertCommand name spec) w := by
  rintro ⟨⟨plan, hplan⟩, -⟩
  obtain ⟨text, hload, hmutate, -, -⟩ := ConfigEngine.prepare_eq_some hplan
  obtain ⟨-, -, -, hread⟩ := loadOrEmpty_eq_ok hload
  obtain ⟨hnone, -⟩ := SoloYml.insertCommand_ok hmutate
  obtain ⟨text', config, hread', hget⟩ := shared_eq_some.mp hshared
  rw [hread] at hread'
  cases hread'
  rw [hnone] at hget
  cases hget

theorem writeSharedCommand_undone (hyaml : Yaml.Faithful) (hcomments : PlainComments s.config.disk)
    (hlocal : s.localCommand name = some spec) :
    (s.writeSharedCommand (SoloYml.removeCommand name) undo).1.OneCopy name spec ↔
      s.shared name = none ∨ s.config.Replaces (SoloYml.removeCommand name) undo := by
  by_cases hreplaces : s.config.Replaces (SoloYml.removeCommand name) undo
  · obtain ⟨⟨plan, hplan⟩, hreplace⟩ := hreplaces
    obtain ⟨hdisk, -, hsettings⟩ := writeSharedCommand_replaced hplan hreplace
    have hkept : localCommand (s.writeSharedCommand (SoloYml.removeCommand name) undo).1 name =
        some spec := by
      unfold localCommand
      rw [hsettings]
      exact hlocal
    rw [oneCopy_of_local hkept]
    exact iff_of_true (shared_removed hyaml hcomments hplan hdisk)
      (.inr ⟨⟨plan, hplan⟩, hreplace⟩)
  · rw [(writeSharedCommand_kept hreplaces).1, oneCopy_of_local hlocal]
    simp [hreplaces]

theorem saveCommandToYaml_replaced (hyaml : Yaml.Faithful) (hcomments : PlainComments s.config.disk)
    (hlocal : s.localCommand name = some spec)
    (hplan : s.config.prepare (SoloYml.insertCommand name spec) w.read = .ok (some plan))
    (hreplace : w.replace = none) (hcomments' : PlainComments (some plan.newText)) :
    (s.saveCommandToYaml name none w clear undo).1.OneCopy name spec ↔
      (s.Trusts name spec w → clear = none → spec.Valid) ∧
      (s.Trusts name spec w → clear ≠ none → spec.Valid →
        ConfigEngine.Replaces { s.config with disk := some plan.newText }
          (SoloYml.removeCommand name) undo) ∧
      (¬s.Trusts name spec w → ¬spec.Valid) := by
  have htrusts := writeSharedCommand_inserted (s := s) hplan hreplace
  obtain ⟨hdisk, hstate, hsettings⟩ := writeSharedCommand_replaced hplan hreplace
  obtain ⟨hvalid, hinvalid⟩ := shared_inserted hyaml hcomments hplan hdisk
  unfold saveCommandToYaml
  rw [hlocal]
  dsimp only
  cases hwrite : s.writeSharedCommand (SoloYml.insertCommand name spec) w with
  | mk written result =>
    rw [hwrite] at htrusts hdisk hstate hsettings hvalid hinvalid
    dsimp only at htrusts hdisk hstate hsettings hvalid hinvalid
    have hkept : written.localCommand name = some spec := by
      unfold localCommand
      rw [hsettings]
      exact hlocal
    have hshared : written.shared name = none ↔ ¬spec.Valid := by
      constructor
      · intro hnone hspec
        obtain ⟨copy, hcopy, -⟩ := hvalid hspec
        rw [hnone] at hcopy
        cases hcopy
      · exact hinvalid
    cases result with
    | error e =>
      have hnot : ¬s.Trusts name spec w := by
        intro htrust
        obtain ⟨left, hleft⟩ := htrusts.mpr htrust
        cases hleft
      simp only [hnot, false_implies, true_and, not_false_eq_true, true_implies]
      exact (oneCopy_of_local hkept).trans hshared
    | ok commands =>
      have htrust : s.Trusts name spec w := htrusts.mp ⟨commands, rfl⟩
      cases clear with
      | none =>
        have hcleared : (written.settings.removeLocal name).localCommands.get name = none :=
          (IndexMap.get_shiftRemove written.settings.localCommands name name).trans (if_pos rfl)
        simp only [updateSettings, htrust, true_implies, ne_eq, not_true_eq_false, false_implies,
          and_true]
        by_cases hspec : spec.Valid
        · obtain ⟨copy, hcopy, hsame⟩ := hvalid hspec
          refine iff_of_true ?_ hspec
          have hshared' : shared { written with
              settings := written.settings.removeLocal name } name = some copy := hcopy
          have hlocal' : localCommand { written with
              settings := written.settings.removeLocal name } name = none := hcleared
          unfold OneCopy
          rw [hshared', hlocal']
          exact hsame
        · refine iff_of_false ?_ hspec
          have hshared' : shared { written with
              settings := written.settings.removeLocal name } name = none := hinvalid hspec
          have hlocal' : localCommand { written with
              settings := written.settings.removeLocal name } name = none := hcleared
          unfold OneCopy
          rw [hshared', hlocal']
          exact id
      | some e =>
        have hcomments₁ : PlainComments written.config.disk := by
          rw [hdisk]
          exact hcomments'
        have hundo : written.config.Replaces (SoloYml.removeCommand name) undo ↔
            ConfigEngine.Replaces { s.config with disk := some plan.newText }
              (SoloYml.removeCommand name) undo := by
          unfold ConfigEngine.Replaces
          rw [ConfigEngine.prepare_congr (s := { s.config with disk := some plan.newText }) hdisk]
          have hopen : s.config.state ≠ none := ConfigEngine.prepare_state hplan
          exact iff_of_false hstate hopen
        simp only [updateSettings, htrust, true_implies, ne_eq, reduceCtorEq, false_implies,
          not_false_eq_true, true_and, not_true_eq_false, and_true]
        rw [writeSharedCommand_undone hyaml hcomments₁ hkept, hshared, hundo]
        tauto

theorem saveCommandToYaml_oneCopy (hyaml : Yaml.Faithful) (hcomments : PlainComments s.config.disk)
    (hlocal : s.localCommand name = some spec)
    (hcomments' : ∀ plan, s.config.prepare (SoloYml.insertCommand name spec) w.read =
      .ok (some plan) → PlainComments (some plan.newText)) :
    (s.saveCommandToYaml name get w clear undo).1.OneCopy name spec ↔
      s.SharedMoves name spec get w clear undo := by
  unfold SharedMoves
  cases get with
  | some e =>
    refine (oneCopy_of_local hlocal).trans ?_
    simp
  | none =>
    by_cases hreplaces : s.config.Replaces (SoloYml.insertCommand name spec) w
    · obtain ⟨⟨plan, hplan⟩, hreplace⟩ := hreplaces
      have hnone : s.shared name = none := by
        cases hshared : s.shared name with
        | none => rfl
        | some prev =>
          exact absurd ⟨⟨plan, hplan⟩, hreplace⟩ (replaces_inserted_of_shared hshared)
      rw [saveCommandToYaml_replaced hyaml hcomments hlocal hplan hreplace (hcomments' plan hplan)]
      constructor
      · intro h
        refine ⟨hnone, fun plan' _ _ hplan' => ?_⟩
        rw [hplan] at hplan'
        cases hplan'
        exact h
      · intro h
        exact h.2 plan rfl hreplace hplan
    · obtain ⟨hsame, hok⟩ := writeSharedCommand_kept hreplaces
      have hsaved : (s.saveCommandToYaml name none w clear undo).1 = s := by
        unfold saveCommandToYaml
        rw [hlocal]
        dsimp only
        cases hwrite : s.writeSharedCommand (SoloYml.insertCommand name spec) w with
        | mk written result =>
          rw [hwrite] at hsame hok
          cases result with
          | ok left => exact absurd (hok left rfl) prepare_inserted
          | error e => exact hsame
      rw [hsaved, oneCopy_of_local hlocal]
      constructor
      · intro hnone
        exact ⟨hnone, fun plan _ hreplace hplan => absurd ⟨⟨plan, hplan⟩, hreplace⟩ hreplaces⟩
      · intro h
        exact h.1

end CommandStores

/-- A move of a command between the two stores leaves it in exactly one of them, with the spec it had
in the store it came from, exactly under these conditions on the stores and on what goes wrong. -/
theorem move_leaves_one_copy [Yaml] [Sha256] (hyaml : Yaml.Faithful) (s : CommandStores)
    (name : String) (spec : ProcessSpec) (hcomments : PlainComments s.config.disk) :
    (s.shared name = some spec → ∀ add w undo,
      ((s.makeCommandLocal name add w undo).1.OneCopy name spec ↔
        s.LocalMoves name spec add w undo)) ∧
    (s.localCommand name = some spec → ∀ get w clear undo,
      (∀ plan, s.config.prepare (SoloYml.insertCommand name spec) w.read = .ok (some plan) →
        PlainComments (some plan.newText)) →
      ((s.saveCommandToYaml name get w clear undo).1.OneCopy name spec ↔
        s.SharedMoves name spec get w clear undo)) := by
  constructor
  · intro hshared add w undo
    exact CommandStores.makeCommandLocal_oneCopy hyaml hcomments hshared
  · intro hlocal get w clear undo hplanned
    exact CommandStores.saveCommandToYaml_oneCopy hyaml hcomments hlocal hplanned

def WriteFaults.none : WriteFaults := ⟨.none, .none, fun _ => .none, .none, fun _ => .none⟩

def WriteFaults.unanswered : WriteFaults :=
  { WriteFaults.none with lookup := fun _ => some (.backend "disk I/O error") }

/-- A project without a `solo.yml` has a local command. -/
def localServe [Sha256] : CommandStores where
  config := ⟨none, some ⟨contentHash "", .default⟩, []⟩
  settings := ⟨false, (serveConfig []).processes⟩
  trusted _ := false

theorem move_leaves_one_copy_saved :
    letI := Yaml.ofTable renderings
    letI := Sha256.ofTable firstWriteDigests
    (localServe.saveCommandToYaml "web" none .none none .none).1.OneCopy "web"
      ⟨"serve", none, true, false, [], []⟩ := by
  let _ := Yaml.ofTable renderings
  let _ := Sha256.ofTable firstWriteDigests
  have hplan : ∃ plan, localServe.config.prepare
      (SoloYml.insertCommand "web" ⟨"serve", none, true, false, [], []⟩) none = .ok (some plan) ∧
        PlainComments (some plan.newText) := ⟨_, rfl, by decide⟩
  obtain ⟨plan, hplan, hcomments⟩ := hplan
  apply ((move_leaves_one_copy faithful_renderings localServe "web" _ (by decide)).2 rfl none .none
    none .none ?_).mpr
  · refine ⟨by decide, fun plan _ _ _ => ⟨fun _ _ => by decide, fun _ h => absurd rfl h, ?_⟩⟩
    intro htrust
    refine absurd ?_ htrust
    exact ⟨rfl, .inr ⟨rfl, fun h => absurd h Bool.false_ne_true⟩⟩
  · intro plan' hplan'
    have heq : some plan' = some plan := Except.ok.inj (hplan'.symm.trans hplan)
    cases heq
    exact hcomments

/-- The trust store fails behind the replaced file: the move reports an error, and both stores have
the command. -/
theorem save_doubles_command :
    letI := Yaml.ofTable renderings
    letI := Sha256.ofTable firstWriteDigests
    localServe.localCommand "web" = some ⟨"serve", none, true, false, [], []⟩ ∧
      (localServe.saveCommandToYaml "web" none .unanswered none .none).2 =
        .error (.config (.store (.backend "disk I/O error"))) ∧
      (localServe.saveCommandToYaml "web" none .unanswered none .none).1.shared "web" =
        some ⟨"serve", none, true, false, [], []⟩ ∧
      (localServe.saveCommandToYaml "web" none .unanswered none .none).1.localCommand "web" =
        some ⟨"serve", none, true, false, [], []⟩ ∧
      ¬(localServe.saveCommandToYaml "web" none .unanswered none .none).1.OneCopy "web"
        ⟨"serve", none, true, false, [], []⟩ := by
  let _ := Yaml.ofTable renderings
  let _ := Sha256.ofTable firstWriteDigests
  have hshared : (localServe.saveCommandToYaml "web" none .unanswered none .none).1.shared "web" =
      some ⟨"serve", none, true, false, [], []⟩ := by decide
  refine ⟨rfl, by decide, hshared, by decide, ?_⟩
  rw [CommandStores.oneCopy_of_shared hshared]
  decide

/-- The file was edited after the engine read it: the local copy is the engine's, and the edit is in
neither store. -/
example :
    letI := Yaml.ofTable (("processes:\n", .default) :: renderings)
    letI := Sha256.ofTable firstWriteDigests
    let s : CommandStores :=
      { config := ⟨some plainText, some ⟨contentHash "", serveConfig ["src"]⟩, []⟩
        settings := ⟨false, IndexMap.empty⟩
        trusted := fun _ => false }
    let t := s.makeCommandLocal "web" none .none none
    s.shared "web" = some ⟨"serve", none, true, false, [], []⟩ ∧ t.1.shared "web" = none ∧
      t.1.localCommand "web" = some ⟨"serve", none, true, false, ["src"], []⟩ := by
  decide

end Soloist
