import Soloist.Config.Commands
import Soloist.Config.Interleaving
import Soloist.Notify.Reactor

/-! The edits of a project's shared and local commands under any interleaving, one access at a
time: what each reads of the two stores, and what it writes after that. -/
namespace Soloist

open Notify (NotificationLevel)

/-- A project's local settings, with the level overrides its command names key. -/
structure CommandSettings extends ProjectSettings where
  commandNotificationLevels : Slots String NotificationLevel

namespace CommandSettings

/-- Moves what is kept under a command's name to another name. -/
def renameCommand (s : CommandSettings) (source target : String) : CommandSettings :=
  if source = target then s
  else {
    toProjectSettings := s.toProjectSettings.renameCommand source target
    commandNotificationLevels :=
      match s.commandNotificationLevels source with
      | none => s.commandNotificationLevels
      | some level => (s.commandNotificationLevels.erase source).put target level }

def forgetCommand (s : CommandSettings) (name : String) : CommandSettings :=
  { s with commandNotificationLevels := s.commandNotificationLevels.erase name }

/-- What a shared edit leaves to the settings once `solo.yml` holds it. -/
def settle (s : CommandSettings) : CommandEdit → CommandSettings
  | .add _ _ | .edit _ _ => s
  | .rename source target => s.renameCommand source target
  | .remove name => s.forgetCommand name

def update (s : CommandSettings) : CommandEdit → CommandSettings
  | .add name spec | .edit name spec =>
    { s with localCommands := s.localCommands.insert name spec }
  | .rename source target => s.renameCommand source target
  | .remove name =>
    { s with localCommands := s.localCommands.shiftRemove name }.forgetCommand name

end CommandSettings

inductive LocalCommandError
  | duplicate (name : String)
  | unknown
  | invalid (error : InvalidCommand)
  | store (error : StoreError)
  deriving DecidableEq, Repr

def CommandEdit.check : CommandEdit → Except InvalidCommand Unit
  | .add name spec | .edit name spec => checkCommand name spec
  | .rename _ target => checkCommandName target
  | .remove _ => .ok ()

namespace CommandEdit

def takes : CommandEdit → Option String
  | .add name _ => some name
  | .rename source target => if source = target then none else some target
  | .edit _ _ | .remove _ => none

/-- The name the edit takes from a command, which the settings may hold an override under. -/
def vacates : CommandEdit → Option String
  | .rename source target => if source = target then none else some source
  | .remove name => some name
  | .add _ _ | .edit _ _ => none

def create (names : List String) : CommandEdit → List String
  | .add name _ => name :: names
  | .rename source target =>
    if source = target then names
    else if source ∈ names then target :: names
    else names.filter fun name => name ≠ target
  | .edit _ _ | .remove _ => names

end CommandEdit

/-- Where an edit of a shared command stands. -/
inductive SharedPc
  /-- The new name is to be looked up among the local commands. -/
  | checking
  | ready
  /-- Its write of `solo.yml` is this call of the engine. -/
  | writing (call : ℕ)
  | trusting (pending : List TrustReviewCommand)
  | settling (commands : List TrustReviewCommand)
  | returned (result : Except ConfigWriteError (List TrustReviewCommand))

structure SharedCall where
  edit : CommandEdit
  pc : SharedPc
  /-- `solo.yml` has been replaced. -/
  written : Bool

/-- Where an edit of a local command stands. -/
inductive LocalPc
  | checkingShared
  | checkingLocal
  | updating
  | returned (result : Except LocalCommandError CommandSettings)

structure LocalCall where
  edit : CommandEdit
  pc : LocalPc

/-- What one access of a shared edit meets: the environment of its write, a fault of the settings
store, and a fault of granting trust. -/
structure SharedEnvironment where
  write : Environment
  settings : Option StoreError
  grant : Option StoreError

structure CommandWorld where
  config : ConfigWorld
  settings : CommandSettings
  shared : Slots ℕ SharedCall
  locals : Slots ℕ LocalCall
  nextCall : ℕ
  /-- The names of the commands created in this run. -/
  created : List String

inductive CommandEvent
  | beginShared (edit : CommandEdit)
  | sharedNext (n : ℕ) (env : SharedEnvironment)
  | beginLocal (edit : CommandEdit)
  | localNext (n : ℕ) (fault : Option StoreError)
  /-- The file watcher re-reads `solo.yml`. -/
  | beginSync
  | syncNext (c : ℕ) (env : Environment)

/-- Whether a call of the engine re-reads the file. -/
def ConfigCall.isSync : ConfigCall → Bool
  | .syncing _ | .trusting .sync _ | .storing .sync _ _ | .publishing .sync _ _
  | .returned (.synced _) => true
  | _ => false

/-- The first access of a shared edit, once it has passed its check. -/
def CommandEdit.startShared (edit : CommandEdit) : SharedPc :=
  match edit.check, edit with
  | .error e, _ => .returned (.error (.invalidCommand e))
  | .ok (), .add _ _ => .checking
  | .ok (), .rename source target => if source = target then .ready else .checking
  | .ok (), .edit _ _ | .ok (), .remove _ => .ready

/-- The first access of a local edit, once it has passed its check. -/
def CommandEdit.startLocal (edit : CommandEdit) : LocalPc :=
  match edit.check, edit with
  | .error e, _ => .returned (.error (.invalid e))
  | .ok (), .add _ _ => .checkingShared
  | .ok (), .edit _ _ | .ok (), .rename _ _ | .ok (), .remove _ => .checkingLocal

namespace CommandWorld

def setShared (s : CommandWorld) (n : ℕ) (x : SharedCall) : CommandWorld :=
  { s with shared := s.shared.put n x }

def setLocal (s : CommandWorld) (n : ℕ) (x : LocalCall) : CommandWorld :=
  { s with locals := s.locals.put n x }

def sharedCommandExists (s : CommandWorld) (name : String) : Bool :=
  s.config.state.last.processes.contains name

def checkShared (s : CommandWorld) (edit : CommandEdit) (fault : Option StoreError) : SharedPc :=
  match fault with
  | some e => .returned (.error (.store e))
  | none =>
    match edit.takes with
    | none => .ready
    | some name =>
      if s.settings.localCommands.contains name then .returned (.error (.duplicateCommand name))
      else .ready

def checkLocal (s : CommandWorld) (edit : CommandEdit) (fault : Option StoreError) : LocalPc :=
  match fault with
  | some e => .returned (.error (.store e))
  | none =>
    match edit with
    | .add name _ =>
      if s.settings.localCommands.contains name then .returned (.error (.duplicate name))
      else .updating
    | .edit name _ | .remove name =>
      if s.settings.localCommands.contains name then .updating
      else .returned (.error .unknown)
    | .rename source target =>
      if s.settings.localCommands.contains source then
        if source = target then .updating
        else if s.settings.localCommands.contains target then .returned (.error (.duplicate target))
        else .checkingShared
      else .returned (.error .unknown)

def checkSharedName (s : CommandWorld) (edit : CommandEdit) : LocalPc :=
  match edit.takes with
  | none => .updating
  | some name =>
    if s.sharedCommandExists name then .returned (.error (.duplicate name))
    else
      match edit with
      | .add _ _ => .checkingLocal
      | _ => .updating

/-- `auto_trust_user_writes`, as far as it can fail: the variants it trusts are in later answers of
the trust store. -/
def autoTrust (s : CommandWorld) (pending : List TrustReviewCommand) (env : SharedEnvironment) :
    Except ConfigWriteError (List TrustReviewCommand) :=
  if pending = [] then .ok pending
  else
    match env.settings with
    | some e => .error (.store e)
    | none =>
      if s.settings.autoTrustCommandChanges then
        match env.grant with
        | some e => .error (.store e)
        | none => .ok []
      else .ok pending

def afterTrust (edit : CommandEdit) :
    Except ConfigWriteError (List TrustReviewCommand) → SharedPc
  | .error e => .returned (.error e)
  | .ok commands =>
    match edit with
    | .add _ _ | .edit _ _ => .returned (.ok commands)
    | .rename _ _ | .remove _ => .settling commands

variable [Yaml] [Sha256]

/-- The next access of a shared edit's write of `solo.yml`. -/
def writeNext (s : CommandWorld) (n : ℕ) (x : SharedCall) (c : ℕ) (env : SharedEnvironment) :
    Option CommandWorld :=
  match s.config.calls c with
  | some (.returned (.written (.ok pending))) =>
    some (s.setShared n { x with pc := .trusting pending })
  | some (.returned (.written (.error e))) =>
    some (s.setShared n { x with pc := .returned (.error e) })
  | some (.replacing _) =>
    (s.config.proceed c env.write).map fun config =>
      if env.write.writeFault = none then
        { s.setShared n { x with written := true } with
          config, created := x.edit.create s.created }
      else { s with config }
  | _ => (s.config.proceed c env.write).map fun config => { s with config }

def sharedNext (s : CommandWorld) (n : ℕ) (env : SharedEnvironment) : Option CommandWorld :=
  match s.shared n with
  | none => none
  | some x =>
    match x.pc with
    | .returned _ => none
    | .checking => some (s.setShared n { x with pc := s.checkShared x.edit env.settings })
    | .ready =>
      some { s.setShared n { x with pc := .writing s.config.nextCall } with
        config := s.config.begin (.writing x.edit.mutation) }
    | .writing c => s.writeNext n x c env
    | .trusting pending =>
      some (s.setShared n { x with pc := afterTrust x.edit (s.autoTrust pending env) })
    | .settling commands =>
      match env.settings with
      | some e => some (s.setShared n { x with pc := .returned (.error (.store e)) })
      | none =>
        some { s.setShared n { x with pc := .returned (.ok commands) } with
          settings := s.settings.settle x.edit }

omit [Yaml] [Sha256] in
def localNext (s : CommandWorld) (n : ℕ) (fault : Option StoreError) : Option CommandWorld :=
  match s.locals n with
  | none => none
  | some x =>
    match x.pc with
    | .returned _ => none
    | .checkingShared => some (s.setLocal n { x with pc := s.checkSharedName x.edit })
    | .checkingLocal => some (s.setLocal n { x with pc := s.checkLocal x.edit fault })
    | .updating =>
      match fault with
      | some e => some (s.setLocal n { x with pc := .returned (.error (.store e)) })
      | none =>
        let settings := s.settings.update x.edit
        some { s.setLocal n { x with pc := .returned (.ok settings) } with
          settings, created := x.edit.create s.created }

def step (s : CommandWorld) : CommandEvent → Option CommandWorld
  | .beginShared edit =>
    some { s.setShared s.nextCall ⟨edit, edit.startShared, false⟩ with nextCall := s.nextCall + 1 }
  | .sharedNext n env => s.sharedNext n env
  | .beginLocal edit =>
    some { s.setLocal s.nextCall ⟨edit, edit.startLocal⟩ with nextCall := s.nextCall + 1 }
  | .localNext n fault => s.localNext n fault
  | .beginSync => some { s with config := s.config.begin (.syncing s.config.state) }
  | .syncNext c env =>
    if (s.config.calls c).any ConfigCall.isSync then
      (s.config.proceed c env).map fun config => { s with config }
    else none

end CommandWorld

end Soloist
