import Soloist.Config.Edit

/-! The sync engine of one project: re-reading its `solo.yml`, and writing it. Every answer of the
file system and of the trust store is an input. -/
namespace Soloist

inductive SyncError
  | config (error : ConfigError)
  | store (error : StoreError)
  deriving DecidableEq, Repr

inductive ConfigWriteError
  | unknownProject
  | unknownCommand
  | duplicateCommand (name : String)
  | unsupportedIcon (path : String)
  | invalidCommand (error : InvalidCommand)
  | config (error : ConfigError)
  | write (error : SoloYml.WriteError)
  | store (error : StoreError)
  deriving DecidableEq, Repr

/-- What the review dialog shows of a command whose variant is not trusted. -/
structure TrustReviewCommand where
  name : String
  variantHash : Hash
  command : String
  workingDir : Option String
  env : Env
  deriving DecidableEq

def TrustReviewCommand.fromSpec [Sha256] (name : String) (spec : ProcessSpec) :
    TrustReviewCommand :=
  ⟨name, spec.variantHash, spec.command, spec.workingDir, spec.env⟩

/-- The digest of the file's bytes, by which a re-read tells whether the file changed. -/
def contentHash [Sha256] (text : String) : Hash := Sha256.digest (ProcessSpec.bytes text)

abbrev TrustLookup := String → Hash → Except StoreError Bool

/-- What one call meets: a fault of reading the file, a fault of replacing it, and the trust
store's answers. -/
structure Environment where
  readFault : Option String
  writeFault : Option String
  trust : TrustLookup

/-- The commands among `names` whose current variant is not trusted. -/
def pendingTrust [Sha256] (trust : TrustLookup) (config : SoloYml) :
    List String → Except StoreError (List TrustReviewCommand)
  | [] => .ok []
  | name :: rest =>
    match config.processes.get name with
    | none => pendingTrust trust config rest
    | some spec =>
      match trust name spec.variantHash with
      | .error e => .error e
      | .ok trusted =>
        match pendingTrust trust config rest with
        | .error e => .error e
        | .ok pending =>
          .ok (if trusted then pending else .fromSpec name spec :: pending)

/-- The last-known state of one project's `solo.yml`. -/
structure ProjectState where
  lastHash : Hash
  last : SoloYml
  deriving DecidableEq

structure ConfigChanged where
  diff : ConfigSync
  requiresTrust : Bool
  commands : List TrustReviewCommand
  deriving DecidableEq

/-- The file of one project and the engine's state of it, which an unopened project lacks, with
the changes announced so far. -/
structure ConfigEngine where
  disk : Option String
  state : Option ProjectState
  bus : List ConfigChanged
  deriving DecidableEq

abbrev Mutation := SoloYml → Except ConfigWriteError SoloYml

/-- The text a write is about to put in place: the file was read as `current`, and the text stands
for `intended`. -/
structure WritePlan where
  newText : String
  current : SoloYml
  intended : SoloYml

def planWrite [Yaml] (text : String) (current : SoloYml) (mutate : Mutation) :
    Except ConfigWriteError (Option WritePlan) :=
  match mutate current with
  | .error e => .error e
  | .ok intended =>
    if intended.Same current then .ok none
    else
      match rewrite text current intended with
      | .error e => .error (.write e)
      | .ok newText =>
        if maxConfigBytes < newText.utf8ByteSize then
          .error (.config (.tooLarge newText.utf8ByteSize))
        else .ok (some ⟨newText, current, intended⟩)

def WritePlan.changes (plan : WritePlan) : ConfigSync := plan.current.diff plan.intended

namespace ConfigEngine
variable [Yaml] [Sha256]

/-- Stores what a file was read or written as, and announces what changed. -/
def store (s : ConfigEngine) (hash : Hash) (config : SoloYml) (changes : ConfigSync)
    (commands : List TrustReviewCommand) : ConfigEngine :=
  { s with
    state := some ⟨hash, config⟩
    bus := if changes.isEmpty then s.bus else s.bus ++ [⟨changes, !commands.isEmpty, commands⟩] }

def openProject (s : ConfigEngine) (readFault : Option String) :
    ConfigEngine × Except ConfigError SoloYml :=
  match loadOrEmpty s.disk readFault with
  | .error e => (s, .error e)
  | .ok (text, config) => ({ s with state := some ⟨contentHash text, config⟩ }, .ok config)

def sync (s : ConfigEngine) (env : Environment) :
    ConfigEngine × Except SyncError (Option ConfigSync) :=
  match s.state with
  | none => (s, .ok none)
  | some prev =>
    match loadOrEmpty s.disk env.readFault with
    | .error e => (s, .error (.config e))
    | .ok (text, config) =>
      if contentHash text = prev.lastHash then (s, .ok none)
      else
        let changes := prev.last.diff config
        match pendingTrust env.trust config changes.touched with
        | .error e => (s, .error (.store e))
        | .ok commands => (s.store (contentHash text) config changes commands, .ok (some changes))

/-- Replaces the file, or leaves it as it is: the new text is complete before it takes the name. -/
def atomicWrite (s : ConfigEngine) (newText : String) (fault : Option String) :
    ConfigEngine × Except SoloYml.WriteError Unit :=
  match fault with
  | some source => (s, .error (.write source))
  | none => ({ s with disk := some newText }, .ok ())

def prepare (s : ConfigEngine) (mutate : Mutation) (readFault : Option String) :
    Except ConfigWriteError (Option WritePlan) :=
  match s.state with
  | none => .error .unknownProject
  | some _ =>
    match loadOrEmpty s.disk readFault with
    | .error e => .error (.config e)
    | .ok (text, current) => planWrite text current mutate

def write (s : ConfigEngine) (mutate : Mutation) (env : Environment) :
    ConfigEngine × Except ConfigWriteError (List TrustReviewCommand) :=
  match s.prepare mutate env.readFault with
  | .error e => (s, .error e)
  | .ok none => (s, .ok [])
  | .ok (some plan) =>
    match s.atomicWrite plan.newText env.writeFault with
    | (s, .error e) => (s, .error (.write e))
    | (s, .ok ()) =>
      -- the file is replaced before the trust store is asked
      match pendingTrust env.trust plan.intended plan.changes.touched with
      | .error e => (s, .error (.store e))
      | .ok commands =>
        (s.store (contentHash plan.newText) plan.intended plan.changes commands, .ok commands)

/-- The trust store answers on every command among `names`. -/
def AnswersOn (trust : TrustLookup) (config : SoloYml) (names : List String) : Prop :=
  ∀ name ∈ names, ∀ spec, config.processes.get name = some spec →
    ∃ trusted, trust name spec.variantHash = .ok trusted

variable {trust : TrustLookup} {config : SoloYml} {names : List String}

omit [Yaml] in
theorem pendingTrust_ok_iff :
    (∃ commands, pendingTrust trust config names = .ok commands) ↔
      AnswersOn trust config names := by
  induction names with
  | nil => simp [pendingTrust, AnswersOn]
  | cons name rest ih =>
    have hcons : AnswersOn trust config (name :: rest) ↔
        (∀ spec, config.processes.get name = some spec →
          ∃ trusted, trust name spec.variantHash = .ok trusted) ∧ AnswersOn trust config rest :=
      List.forall_mem_cons
    rw [hcons, pendingTrust, ← ih]
    cases hspec : config.processes.get name with
    | none => simp
    | some spec =>
      cases htrust : trust name spec.variantHash with
      | error e => simp [htrust]
      | ok trusted =>
        cases hrest : pendingTrust trust config rest with
        | error e => simp [htrust]
        | ok pending => simp [htrust]

omit [Yaml] in
theorem pendingTrust_error {e : StoreError} (h : pendingTrust trust config names = .error e) :
    ¬AnswersOn trust config names := by
  rw [← pendingTrust_ok_iff]
  rintro ⟨commands, hok⟩
  rw [h] at hok
  cases hok

/-- Once a new text has replaced the file, the trust store answers on every command the change
touches. -/
def TrustAnswers (s : ConfigEngine) (mutate : Mutation) (env : Environment) : Prop :=
  ∀ plan, s.prepare mutate env.readFault = .ok (some plan) → env.writeFault = none →
    s.disk ≠ some plan.newText → AnswersOn env.trust plan.intended plan.changes.touched

/-- A failed write leaves the file and the engine's state untouched exactly when it is not the
trust store that fails it, behind the replaced file. -/
theorem write_failure_untouched (s : ConfigEngine) (mutate : Mutation) (env : Environment) :
    (∀ e, (s.write mutate env).2 = .error e →
      (s.write mutate env).1.disk = s.disk ∧ (s.write mutate env).1.state = s.state) ↔
    s.TrustAnswers mutate env := by
  unfold write TrustAnswers
  cases hplan : s.prepare mutate env.readFault with
  | error e => simp
  | ok planned =>
    cases planned with
    | none => simp
    | some plan =>
      cases hfault : env.writeFault with
      | some source => simp [atomicWrite]
      | none =>
        simp only [atomicWrite, Except.ok.injEq, Option.some.injEq, forall_eq', true_implies]
        cases htrust : pendingTrust env.trust plan.intended plan.changes.touched with
        | ok commands =>
          have hall := pendingTrust_ok_iff.mp ⟨commands, htrust⟩
          simp [hall]
        | error e =>
          have hnot := pendingTrust_error htrust
          simp only [Except.error.injEq, forall_eq', and_true, hnot, imp_false, not_not]
          exact eq_comm

end ConfigEngine

def Hash.ofNat (n : ℕ) : Hash := Vector.ofFn fun i => UInt8.ofNat (n / 256 ^ (31 - i.val))

@[reducible] def Sha256.ofTable (digests : List (List UInt8 × ℕ)) : Sha256 where
  digest input := Hash.ofNat (((digests.find? (·.1 = input)).map Prod.snd).getD 0)

def firstWriteDigests : List (List UInt8 × ℕ) :=
  [([], 0xe3b0c44298fc1c149afbf4c8996fb92427ae41e4649b934ca495991b7852b855)]

/-- A first command is written to a project that has no `solo.yml`. -/
def firstWrite [Yaml] [Sha256] (trust : TrustLookup) :
    ConfigEngine × Except ConfigWriteError (List TrustReviewCommand) :=
  ConfigEngine.write ⟨none, some ⟨contentHash "", .default⟩, []⟩ (fun _ => .ok (serveConfig []))
    ⟨none, none, trust⟩

/-- The trust store fails behind the replaced file. -/
theorem write_failure_touched :
    letI := Yaml.ofTable renderings
    letI := Sha256.ofTable firstWriteDigests
    (firstWrite fun _ _ => .error (.backend "disk I/O error")).2 =
        .error (.store (.backend "disk I/O error")) ∧
      (firstWrite fun _ _ => .error (.backend "disk I/O error")).1.disk =
        some ("\n" ++ plainText) := by
  let _ := Yaml.ofTable renderings
  let _ := Sha256.ofTable firstWriteDigests
  decide

end Soloist
