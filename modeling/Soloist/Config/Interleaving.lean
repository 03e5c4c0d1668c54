import Soloist.Config.Engine
import Soloist.Process.Variant

/-! `sync` and `write` of an open project under any interleaving with each other and with edits of
the file: whether the published change sets add up to the configuration last stored. -/
open Slots

namespace Soloist

theorem ConfigSync.apply_of_isEmpty {d : ConfigSync} (h : d.isEmpty) (seen stored : SoloYml) :
    d.apply seen stored = seen := by
  obtain ⟨⟨⟨hadded, hupdated⟩, hremoved⟩, hrenamed⟩ : ((d.added = [] ∧ d.updated = []) ∧
      d.removed = []) ∧ d.renamed = [] := by simpa [ConfigSync.isEmpty] using h
  simp [ConfigSync.apply, ConfigSync.touched, ConfigSync.gone, hadded, hremoved, hupdated, hrenamed]

/-- What a call is about to store: the change set it announces goes from `base` to `config`. -/
structure Commit where
  base : SoloYml
  hash : Hash
  config : SoloYml

def Commit.changes (commit : Commit) : ConfigSync := commit.base.diff commit.config

inductive ConfigReply
  | synced (result : Except SyncError (Option ConfigSync))
  | written (result : Except ConfigWriteError (List TrustReviewCommand))

/-- The two operations, which store and publish alike. -/
inductive ConfigOp
  | sync
  | write
  deriving DecidableEq, Repr

namespace ConfigOp

def storeFailed (e : StoreError) : ConfigOp → ConfigReply
  | .sync => .synced (.error (.store e))
  | .write => .written (.error (.store e))

def done (commit : Commit) (commands : List TrustReviewCommand) : ConfigOp → ConfigReply
  | .sync => .synced (.ok (some commit.changes))
  | .write => .written (.ok commands)

end ConfigOp

/-- A call under way, as what it holds before its next access. -/
inductive ConfigCall
  | syncing (prev : ProjectState)
  | writing (mutate : Mutation)
  | replacing (plan : WritePlan)
  | trusting (op : ConfigOp) (commit : Commit)
  | storing (op : ConfigOp) (commit : Commit) (commands : List TrustReviewCommand)
  | publishing (op : ConfigOp) (commit : Commit) (commands : List TrustReviewCommand)
  | returned (reply : ConfigReply)

def ConfigCall.unpublished : ConfigCall → Option Commit
  | .publishing _ commit _ => some commit
  | _ => none

def ConfigCall.unstored : ConfigCall → Option Commit
  | .storing _ commit _ => some commit
  | _ => none

structure ConfigWorld where
  disk : Option String
  state : ProjectState
  calls : Slots ℕ ConfigCall
  nextCall : ℕ
  /-- The configuration opened first, with every change set published since applied to it. -/
  seen : SoloYml

inductive ConfigEvent
  /-- Another program replaces or removes the file. -/
  | edit (content : Option String)
  | beginSync
  | beginWrite (mutate : Mutation)
  /-- The next access of a call, with what it meets. -/
  | proceed (call : ℕ) (env : Environment)

namespace ConfigWorld

def begin (s : ConfigWorld) (call : ConfigCall) : ConfigWorld :=
  { s with calls := s.calls.put s.nextCall call, nextCall := s.nextCall + 1 }

def setCall (s : ConfigWorld) (c : ℕ) (call : ConfigCall) : ConfigWorld :=
  { s with calls := s.calls.put c call }

variable [Yaml] [Sha256]

/-- The re-read of a sync, which ends it when the file fails to load or is as it was. -/
def syncRead (s : ConfigWorld) (prev : ProjectState) (env : Environment) : ConfigCall :=
  match loadOrEmpty s.disk env.readFault with
  | .error e => .returned (.synced (.error (.config e)))
  | .ok (text, config) =>
    if contentHash text = prev.lastHash then .returned (.synced (.ok none))
    else .trusting .sync ⟨prev.last, contentHash text, config⟩

def writeRead (s : ConfigWorld) (mutate : Mutation) (env : Environment) : ConfigCall :=
  match loadOrEmpty s.disk env.readFault with
  | .error e => .returned (.written (.error (.config e)))
  | .ok (text, current) =>
    match planWrite text current mutate with
    | .error e => .returned (.written (.error e))
    | .ok none => .returned (.written (.ok []))
    | .ok (some plan) => .replacing plan

def proceed (s : ConfigWorld) (c : ℕ) (env : Environment) : Option ConfigWorld :=
  match s.calls c with
  | none | some (.returned _) => none
  | some (.syncing prev) => some (s.setCall c (s.syncRead prev env))
  | some (.writing mutate) => some (s.setCall c (s.writeRead mutate env))
  | some (.replacing plan) =>
    match env.writeFault with
    | some source => some (s.setCall c (.returned (.written (.error (.write (.write source))))))
    | none =>
      some { s.setCall c
          (.trusting .write ⟨plan.current, contentHash plan.newText, plan.intended⟩) with
        disk := some plan.newText }
  | some (.trusting op commit) =>
    match pendingTrust env.trust commit.config commit.changes.touched with
    | .error e => some (s.setCall c (.returned (op.storeFailed e)))
    | .ok commands => some (s.setCall c (.storing op commit commands))
  | some (.storing op commit commands) =>
    let call := if commit.changes.isEmpty then .returned (op.done commit commands)
      else .publishing op commit commands
    some { s.setCall c call with state := ⟨commit.hash, commit.config⟩ }
  | some (.publishing op commit commands) =>
    some { s.setCall c (.returned (op.done commit commands)) with
      seen := commit.changes.apply s.seen commit.config }

def step (s : ConfigWorld) : ConfigEvent → Option ConfigWorld
  | .edit content => some { s with disk := content }
  | .beginSync => some (s.begin (.syncing s.state))
  | .beginWrite mutate => some (s.begin (.writing mutate))
  | .proceed c env => s.proceed c env

end ConfigWorld

/-- The runs that start from an opened project. -/
def configMachine [Yaml] [Sha256] : Machine ConfigWorld ConfigEvent where
  init s := ∃ text config, loadOrEmpty s.disk none = .ok (text, config) ∧
    s.state = ⟨contentHash text, config⟩ ∧ s.calls = Slots.empty ∧ s.nextCall = 0 ∧
    s.seen = config
  step := ConfigWorld.step

/-- The stored configuration differs from `last` at most on commands that the change set reports:
where `base` and the new configuration agree, so do `last` and the new configuration. -/
structure Commit.Covers (commit : Commit) (last : SoloYml) : Prop where
  name : last.name = commit.config.name
  icon : samePath last.icon commit.config.icon
  commands : ∀ name,
    Processes.Agree (commit.base.processes.get name) (commit.config.processes.get name) →
    Processes.Agree (last.processes.get name) (commit.config.processes.get name)

namespace Commit

variable {commit : Commit} {last : SoloYml}

theorem covers_iff : commit.Covers last ↔
    last.name = commit.config.name ∧ samePath last.icon commit.config.icon ∧
      ∀ name ∈ commit.config.processes.keys ++ last.processes.keys,
        Processes.Agree (commit.base.processes.get name) (commit.config.processes.get name) →
        Processes.Agree (last.processes.get name) (commit.config.processes.get name) := by
  constructor
  · intro h
    exact ⟨h.name, h.icon, fun name _ => h.commands name⟩
  · rintro ⟨hname, hicon, hkeys⟩
    refine ⟨hname, hicon, fun name hagree => ?_⟩
    by_cases hmem : name ∈ commit.config.processes.keys ++ last.processes.keys
    · exact hkeys name hmem hagree
    · rw [List.mem_append, not_or] at hmem
      rw [IndexMap.get_eq_none.mpr hmem.1, IndexMap.get_eq_none.mpr hmem.2]
      trivial

instance (commit : Commit) (last : SoloYml) : Decidable (commit.Covers last) :=
  decidable_of_iff' _ covers_iff

theorem Covers.apply {seen : SoloYml} (h : commit.Covers last) (hseen : seen.Same last) :
    (commit.changes.apply seen commit.config).Same commit.config := by
  apply SoloYml.Same.of_get
  · exact hseen.name.trans h.name
  · exact hseen.icon.trans h.icon
  · intro name
    rw [Commit.changes, SoloYml.get_applied]
    split_ifs with hagree
    · exact (hseen.get name).trans (h.commands name hagree)
    · exact Processes.Agree.refl _

end Commit

namespace ConfigWorld

/-- No call is between its store and its publication. -/
def Settled (s : ConfigWorld) : Prop :=
  ∀ c < s.nextCall, (s.calls c).bind ConfigCall.unpublished = none

instance (s : ConfigWorld) : Decidable s.Settled :=
  inferInstanceAs (Decidable (∀ c < s.nextCall, _))

/-- A call stores what it has read or written while no other call has stored and not yet published,
and its change set covers the configuration last stored. -/
def StoresCovered (s : ConfigWorld) : ConfigEvent → Prop
  | .proceed c _ =>
    ∀ commit ∈ (s.calls c).bind ConfigCall.unstored, s.Settled ∧ commit.Covers s.state.last
  | _ => True

instance (s : ConfigWorld) : DecidablePred s.StoresCovered
  | .proceed c _ =>
    inferInstanceAs (Decidable (∀ commit ∈ (s.calls c).bind ConfigCall.unstored, _))
  | .edit _ | .beginSync | .beginWrite _ => isTrue trivial

/-- What has been published adds up to the last configuration, once the change set that a call has
stored and not yet published is counted in. -/
structure Announced (s : ConfigWorld) : Prop where
  numbered : ∀ c call, s.calls c = some call → c < s.nextCall
  settled : s.Settled → s.seen.Same s.state.last
  pending : ∀ c call commit, s.calls c = some call → call.unpublished = some commit →
    (commit.changes.apply s.seen commit.config).Same s.state.last
  single : ∀ c d call other, s.calls c = some call → s.calls d = some other →
    call.unpublished ≠ none → other.unpublished ≠ none → c = d

variable {s t : ConfigWorld}

theorem settled_iff (hnum : ∀ c call, s.calls c = some call → c < s.nextCall) :
    s.Settled ↔ ∀ c call, s.calls c = some call → call.unpublished = none := by
  constructor
  · intro h c call hc
    have hnone := h c (hnum c call hc)
    rwa [hc] at hnone
  · intro h c _
    cases hc : s.calls c with
    | none => rfl
    | some call => exact h c call hc

variable {c : ℕ} {call : ConfigCall}

/-- A call that neither stores nor publishes, beginning or moving on, changes nothing of the sum. -/
theorem Announced.quiet (h : s.Announced)
    (hold : ∀ prev, s.calls c = some prev → prev.unpublished = none)
    (hquiet : call.unpublished = none) (hcalls : t.calls = s.calls.put c call) (hc : c < t.nextCall)
    (hnext : s.nextCall ≤ t.nextCall) (hstate : t.state = s.state) (hseen : t.seen = s.seen) :
    t.Announced := by
  have hother : ∀ d x, t.calls d = some x → x.unpublished ≠ none → s.calls d = some x := by
    intro d x hd hx
    rw [hcalls, put_eq_some] at hd
    obtain ⟨-, rfl⟩ | ⟨-, hd⟩ := hd
    · exact absurd hquiet hx
    · exact hd
  have hnum : ∀ d x, t.calls d = some x → d < t.nextCall := by
    intro d x hd
    rw [hcalls, put_eq_some] at hd
    obtain ⟨rfl, -⟩ | ⟨-, hd⟩ := hd
    · exact hc
    · exact (h.numbered d x hd).trans_le hnext
  constructor
  · exact hnum
  · intro ht
    rw [hstate, hseen]
    apply h.settled
    rw [settled_iff h.numbered]
    intro d x hd
    by_cases hdc : d = c
    · subst d
      exact hold x hd
    · have htd : t.calls d = some x := by rw [hcalls, put_of_ne hdc, hd]
      exact (settled_iff hnum).mp ht d x htd
  · intro d x commit hd hx
    rw [hstate, hseen]
    exact h.pending d x commit (hother d x hd (by simp [hx])) hx
  · intro d e x y hd he hx hy
    exact h.single d e x y (hother d x hd hx) (hother e y he hy) hx hy

variable {commit : Commit}

/-- A store under the guard: what is yet to be published leads to the new configuration. -/
theorem Announced.stored (h : s.Announced) (hsettled : s.Settled)
    (hcovers : commit.Covers s.state.last) (hc : c < s.nextCall)
    (hcall : call.unpublished = if commit.changes.isEmpty then none else some commit) :
    { s.setCall c call with state := ⟨commit.hash, commit.config⟩ }.Announced := by
  have happly := hcovers.apply (h.settled hsettled)
  have hquiet := (settled_iff h.numbered).mp hsettled
  have honly : ∀ d x, s.calls.put c call d = some x → x.unpublished ≠ none → d = c := by
    intro d x hd hx
    obtain ⟨rfl, -⟩ | ⟨-, hd⟩ := put_eq_some.mp hd
    · rfl
    · exact absurd (hquiet d x hd) hx
  constructor
  · intro d x hd
    obtain ⟨rfl, -⟩ | ⟨-, hd⟩ := put_eq_some.mp hd
    · exact hc
    · exact h.numbered d x hd
  · intro ht
    have hnone : call.unpublished = none := by
      have hself : (s.calls.put c call c).bind ConfigCall.unpublished = none := ht c hc
      rwa [put_self] at hself
    have hempty : commit.changes.isEmpty := by
      by_contra hempty
      rw [hcall, if_neg hempty] at hnone
      cases hnone
    rwa [ConfigSync.apply_of_isEmpty hempty] at happly
  · intro d x other hd hx
    obtain rfl := honly d x hd (by simp [hx])
    obtain rfl := Option.some.inj (put_self.symm.trans hd)
    rw [hcall] at hx
    split_ifs at hx with hempty
    · cases hx
      exact happly
  · intro d e x y hd he hx hy
    rw [honly d x hd hx, honly e y he hy]

theorem Announced.published (h : s.Announced) {next : ConfigCall} (hcall : s.calls c = some call)
    (hpending : call.unpublished = some commit) (hnext : next.unpublished = none) :
    { s.setCall c next with seen := commit.changes.apply s.seen commit.config }.Announced := by
  have hnone : ∀ d x, s.calls.put c next d = some x → x.unpublished = none := by
    intro d x hd
    obtain ⟨-, rfl⟩ | ⟨hne, hd⟩ := put_eq_some.mp hd
    · exact hnext
    · by_contra hx
      exact hne (h.single d c x call hd hcall hx (by simp [hpending]))
  constructor
  · intro d x hd
    obtain ⟨rfl, -⟩ | ⟨-, hd⟩ := put_eq_some.mp hd
    · exact h.numbered d call hcall
    · exact h.numbered d x hd
  · intro _
    exact h.pending c call commit hcall hpending
  · intro d x other hd hx
    rw [hnone d x hd] at hx
    cases hx
  · intro d e x y hd _ hx
    exact absurd (hnone d x hd) hx

variable [Yaml] [Sha256]

theorem syncRead_unpublished (s : ConfigWorld) (prev : ProjectState) (env : Environment) :
    (s.syncRead prev env).unpublished = none := by
  unfold syncRead
  split
  · rfl
  · split_ifs
    · rfl
    · rfl

omit [Sha256] in
theorem writeRead_unpublished (s : ConfigWorld) (mutate : Mutation) (env : Environment) :
    (s.writeRead mutate env).unpublished = none := by
  unfold writeRead
  split
  · rfl
  · split
    · rfl
    · rfl
    · rfl

omit [Yaml] [Sha256] in
theorem Announced.begin (h : s.Announced) (hcall : call.unpublished = none) :
    (s.begin call).Announced := by
  have hfresh : ∀ prev, s.calls s.nextCall = some prev → prev.unpublished = none :=
    fun prev hprev => absurd (h.numbered _ prev hprev) (lt_irrefl _)
  exact h.quiet (t := s.begin call) hfresh hcall rfl (Nat.lt_succ_self _) (Nat.le_succ _) rfl rfl

theorem Announced.proceed (h : s.Announced) {env : Environment}
    (hstores : s.StoresCovered (.proceed c env)) (ht : s.proceed c env = some t) : t.Announced := by
  unfold ConfigWorld.proceed at ht
  cases hc : s.calls c with
  | none => simp [hc] at ht
  | some call =>
    have hlt := h.numbered c call hc
    have hmove : ∀ next (disk : Option String), call.unpublished = none →
        next.unpublished = none → { s.setCall c next with disk := disk }.Announced := by
      intro next disk hcall hnext
      have hold : ∀ prev, s.calls c = some prev → prev.unpublished = none := by
        intro prev hprev
        obtain rfl := Option.some.inj (hc.symm.trans hprev)
        exact hcall
      exact h.quiet (t := { s.setCall c next with disk := disk }) hold hnext rfl hlt le_rfl rfl rfl
    cases call with
    | returned reply => simp [hc] at ht
    | syncing prev =>
      rw [hc] at ht
      cases ht
      exact hmove _ s.disk rfl (s.syncRead_unpublished prev env)
    | writing mutate =>
      rw [hc] at ht
      cases ht
      exact hmove _ s.disk rfl (s.writeRead_unpublished mutate env)
    | replacing plan =>
      simp only [hc] at ht
      split at ht
      · cases ht
        exact hmove _ s.disk rfl rfl
      · cases ht
        exact hmove _ _ rfl rfl
    | trusting op commit =>
      simp only [hc] at ht
      split at ht
      · cases ht
        cases op with
        | sync => exact hmove _ s.disk rfl rfl
        | write => exact hmove _ s.disk rfl rfl
      · cases ht
        exact hmove _ s.disk rfl rfl
    | storing op commit commands =>
      rw [hc] at ht
      cases ht
      have hguard := hstores commit (by simp [hc, ConfigCall.unstored])
      apply h.stored hguard.1 hguard.2 hlt
      split_ifs
      · rfl
      · rfl
    | publishing op commit commands =>
      rw [hc] at ht
      cases ht
      exact h.published hc rfl rfl

theorem Announced.step (h : s.Announced) {e : ConfigEvent} (hstores : s.StoresCovered e)
    (ht : s.step e = some t) : t.Announced := by
  cases e with
  | edit content =>
    cases ht
    exact ⟨h.numbered, h.settled, h.pending, h.single⟩
  | beginSync =>
    cases ht
    exact h.begin rfl
  | beginWrite mutate =>
    cases ht
    exact h.begin rfl
  | proceed c env => exact h.proceed hstores ht

theorem announced_of_init (h : configMachine.init s) : s.Announced := by
  obtain ⟨text, config, -, hstate, hcalls, hnext, hseen⟩ := h
  constructor
  · simp [hcalls]
  · intro _
    rw [hseen, hstate]
    exact SoloYml.Same.refl config
  · simp [hcalls]
  · simp [hcalls]

/-- In a run whose stores are covered, the change sets published so far make the configuration
opened first into the one last stored. -/
theorem published_add_up (h : configMachine.ReachableUnder StoresCovered s) (hs : s.Settled) :
    s.seen.Same s.state.last := by
  have hinv : s.Announced :=
    h.invariant (fun _ => announced_of_init) fun _ _ _ hstores ha ht => ha.step hstores ht
  exact hinv.settled hs

end ConfigWorld

def runSpec : ProcessSpec := ⟨"run", none, true, false, [], []⟩

def runText : String := "processes:\n  api:\n    command: run\n"

def bothText : String := "processes:\n  web:\n    command: serve\n  api:\n    command: run\n"

def editedDocuments : List (String × SoloYml) :=
  [(plainText, serveConfig []),
    (runText, { SoloYml.default with processes := IndexMap.empty.insert "api" runSpec }),
    (bothText, { serveConfig [] with processes := (serveConfig []).processes.insert "api" runSpec })]

def editedDigests : List (List UInt8 × ℕ) :=
  [([], 0xe3b0c44298fc1c149afbf4c8996fb92427ae41e4649b934ca495991b7852b855),
    (ProcessSpec.bytes plainText,
      0x9a35decf1e41ddecfd0035c3c1f19dd24b3eabdb14ce05db3ab4eed8719f7b04),
    (ProcessSpec.bytes bothText,
      0x88b248cb1e01212b033c279827473db7274679d2f2f7b90aa4516807b32906f1),
    (ProcessSpec.preimage ⟨"serve", none, true, false, [], []⟩,
      0x68d023bf372d34fdde24db9fd5f7b3dbe8eedb9529a738139c910eabbfa38770),
    (ProcessSpec.preimage runSpec,
      0xcacfce622c81f3b725430ef721af1c97b8c54ca23da1953e2c0160537f8d6c6a)]

/-- The project before it has a `solo.yml`. -/
def unwritten : ConfigWorld :=
  ⟨none, ⟨Hash.ofNat 0xe3b0c44298fc1c149afbf4c8996fb92427ae41e4649b934ca495991b7852b855, .default⟩,
    Slots.empty, 0, .default⟩

def trustsAll : Environment := ⟨none, none, fun _ _ => .ok true⟩

def ConfigEvent.alone (call n : ℕ) : List ConfigEvent := List.replicate n (.proceed call trustsAll)

def addRun : Mutation := fun config =>
  .ok { config with processes := config.processes.insert "api" runSpec }

theorem init_unwritten : letI := Yaml.ofTable editedDocuments
    letI := Sha256.ofTable editedDigests
    configMachine.init unwritten := by
  let _ := Yaml.ofTable editedDocuments
  let _ := Sha256.ofTable editedDigests
  exact ⟨"", .default, by decide, by decide, rfl, rfl, rfl⟩

/-- A new file is re-read, and a command is added to it after that. -/
theorem published_add_up_synced : letI := Yaml.ofTable editedDocuments
    letI := Sha256.ofTable editedDigests
    ∃ s, (configMachine.ReachableUnder ConfigWorld.StoresCovered s ∧ s.Settled ∧
      s.disk = some bothText) ∧ s.seen.Same s.state.last := by
  let _ := Yaml.ofTable editedDocuments
  let _ := Sha256.ofTable editedDigests
  have hrun := Machine.exists_reachableUnder_of_run (G := ConfigWorld.StoresCovered) init_unwritten
    ([.edit (some plainText), .beginSync] ++ ConfigEvent.alone 0 4 ++ [.beginWrite addRun] ++
      ConfigEvent.alone 1 5) (by decide) (fun s => s.Settled ∧ s.disk = some bothText) (by decide)
  obtain ⟨s, hs, hsettled, hdisk⟩ := hrun
  exact ⟨s, ⟨hs, hsettled, hdisk⟩, ConfigWorld.published_add_up hs hsettled⟩

/-- A command is added to a new file that no sync has read: the new file's own command is stored
with it and never announced, and to a later sync the file is as it was. -/
theorem edit_swallowed : letI := Yaml.ofTable editedDocuments
    letI := Sha256.ofTable editedDigests
    ∃ s, configMachine.Reachable s ∧ s.Settled ∧ s.disk = some bothText ∧
      contentHash bothText = s.state.lastHash ∧ ¬s.seen.Same s.state.last := by
  let _ := Yaml.ofTable editedDocuments
  let _ := Sha256.ofTable editedDigests
  exact Machine.exists_reachable_of_run init_unwritten
    ([.edit (some plainText), .beginWrite addRun] ++ ConfigEvent.alone 0 5)
    (fun s => s.Settled ∧ s.disk = some bothText ∧ contentHash bothText = s.state.lastHash ∧
      ¬s.seen.Same s.state.last) (by decide)

end Soloist
