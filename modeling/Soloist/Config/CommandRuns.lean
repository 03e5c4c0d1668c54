import Soloist.Config.CommandNames

/-! Runs of command edits. The invariant that ties an edit to its write of `solo.yml`, what each
access then does to the names, and that names stay with their commands. -/
open Option Slots

namespace Soloist

/-- What a write of `solo.yml` on behalf of an edit has come to. -/
def SharedCall.Writes [Yaml] (x : SharedCall) : ConfigCall → Prop
  | .writing mutate => mutate = x.edit.mutation
  | .replacing plan => ∃ text, planWrite text plan.current x.edit.mutation = .ok (some plan)
  | .trusting .write _ | .storing .write _ _ | .publishing .write _ _ => x.written = true
  | .returned (.written (.ok _)) => x.written = true ∨ x.edit.vacates = none
  | .returned (.written (.error _)) => True
  | _ => False

theorem CommandEdit.vacates_of_same {edit : CommandEdit} {current intended : SoloYml}
    (h : edit.mutation current = .ok intended) (hsame : intended.Same current) :
    edit.vacates = none := by
  cases hvacates : edit.vacates with
  | none => rfl
  | some name =>
    obtain ⟨hget, hsubject⟩ := mutation_get h
    have hagree := agree_none (hsame.get name)
    rw [hget, onto_vacated hvacates] at hagree
    exact absurd (hagree.mp rfl) (hsubject name (subject_of_vacates hvacates))

section planned
variable [Yaml] {text : String} {current : SoloYml} {mutate : Mutation}

theorem of_planWrite_none (h : planWrite text current mutate = .ok none) :
    ∃ intended, mutate current = .ok intended ∧ intended.Same current := by
  unfold planWrite at h
  split at h
  · cases h
  · next intended hmutate =>
    split_ifs at h with hsame
    · exact ⟨intended, hmutate, hsame⟩
    · split at h
      · cases h
      · split_ifs at h
        cases h

theorem of_planWrite_some {plan : WritePlan} (h : planWrite text current mutate = .ok (some plan)) :
    plan.current = current ∧ mutate current = .ok plan.intended ∧
      plan.newText.utf8ByteSize ≤ maxConfigBytes := by
  unfold planWrite at h
  split at h
  · cases h
  · next intended hmutate =>
    split_ifs at h with hsame
    · cases h
    · split at h
      · cases h
      · split_ifs at h with hsize
        cases h
        exact ⟨rfl, hmutate, Nat.le_of_not_lt hsize⟩

end planned

namespace ConfigWorld
variable [Yaml] [Sha256] {s t : ConfigWorld} {c : ℕ} {env : Environment}

/-- What one access of a call does: the call moves on, and only a replacement changes the file. -/
theorem proceed_eq_some (h : s.proceed c env = some t) :
    ∃ call next, s.calls c = some call ∧ t.calls = s.calls.put c next ∧
      t.nextCall = s.nextCall ∧
      ((∃ plan commit, call = .replacing plan ∧ env.writeFault = none ∧
          t.disk = some plan.newText ∧ next = .trusting .write commit) ∨
        t.disk = s.disk ∧ (∀ plan, call = .replacing plan → env.writeFault ≠ none) ∧
          ∀ x : SharedCall, x.Writes call → x.Writes next) := by
  unfold proceed at h
  split at h
  · cases h
  · cases h
  · next prev hcall =>
    cases h
    exact ⟨_, _, hcall, rfl, rfl, .inr ⟨rfl, by simp, fun x hx => hx.elim⟩⟩
  · next mutate hcall =>
    cases h
    refine ⟨_, _, hcall, rfl, rfl, .inr ⟨rfl, by simp, fun x hx => ?_⟩⟩
    cases hx
    unfold writeRead
    split
    · trivial
    · split
      · trivial
      · next hplan =>
        obtain ⟨intended, hmutate, hsame⟩ := of_planWrite_none hplan
        exact .inr (CommandEdit.vacates_of_same hmutate hsame)
      · next plan hplan =>
        have hcurrent := (of_planWrite_some hplan).1
        exact ⟨_, by rw [hcurrent]; exact hplan⟩
  · next plan hcall =>
    split at h
    · next source hfault =>
      cases h
      refine ⟨_, _, hcall, rfl, rfl, .inr ⟨rfl, fun _ _ => ?_, fun x _ => trivial⟩⟩
      rw [hfault]
      exact some_ne_none source
    · next hfault =>
      cases h
      exact ⟨_, _, hcall, rfl, rfl, .inl ⟨plan, _, rfl, hfault, rfl, rfl⟩⟩
  · next op commit hcall =>
    split at h
    · cases h
      refine ⟨_, _, hcall, rfl, rfl, .inr ⟨rfl, by simp, fun x hx => ?_⟩⟩
      cases op with
      | sync => exact hx.elim
      | write => trivial
    · cases h
      refine ⟨_, _, hcall, rfl, rfl, .inr ⟨rfl, by simp, fun x hx => ?_⟩⟩
      cases op with
      | sync => exact hx.elim
      | write => exact hx
  · next op commit commands hcall =>
    cases h
    refine ⟨_, _, hcall, rfl, rfl, .inr ⟨rfl, by simp, fun x hx => ?_⟩⟩
    cases op with
    | sync => exact hx.elim
    | write =>
      split_ifs
      · exact .inl hx
      · exact hx
  · next op commit commands hcall =>
    cases h
    refine ⟨_, _, hcall, rfl, rfl, .inr ⟨rfl, by simp, fun x hx => ?_⟩⟩
    cases op with
    | sync => exact hx.elim
    | write => exact .inl hx

end ConfigWorld

namespace CommandWorld

def Stage [Yaml] (s : CommandWorld) (x : SharedCall) : Prop :=
  match x.pc with
  | .checking | .ready | .returned _ => True
  | .writing c => ∃ call, s.config.calls c = some call ∧ x.Writes call
  | .trusting _ | .settling _ => x.written = true ∨ x.edit.vacates = none

/-- Calls are numbered, and each write of `solo.yml` is of the edit it says. -/
structure Wired [Yaml] (s : CommandWorld) : Prop where
  calls : ∀ c call, s.config.calls c = some call → c < s.config.nextCall
  numbered : ∀ n x, s.shared n = some x → n < s.nextCall
  stage : ∀ n x, s.shared n = some x → s.Stage x
  single : ∀ n m x y c, s.shared n = some x → s.shared m = some y → x.pc = .writing c →
    y.pc = .writing c → n = m

/-- Nothing is under way, the names are in one store each, and the overrides are of commands. -/
structure Opened [Yaml] (s : CommandWorld) : Prop where
  calls : s.config.calls = Slots.empty
  shared : s.shared = Slots.empty
  locals : s.locals = Slots.empty
  created : s.created = []
  disjoint : ∀ name, s.sharedCommands name ≠ none → s.localCommands name = none
  keyed : ∀ name, s.level name ≠ none → s.sharedCommands name ≠ none ∨ s.localCommands name ≠ none

variable {s t : CommandWorld} {n : ℕ} {x y : SharedCall}

theorem pending_put (hshared : t.shared = s.shared.put n y) (m : ℕ) :
    t.pending m = if m = n then
      (if y.unsettled = true ∧ y.edit.vacates ≠ none then some y.edit else none)
    else s.pending m := by
  unfold pending
  rw [hshared]
  by_cases hm : m = n
  · subst hm
    simp
  · simp [put_of_ne hm, hm]

theorem pending_eq (hx : s.shared n = some x) :
    s.pending n = if x.unsettled = true ∧ x.edit.vacates ≠ none then some x.edit else none := by
  simp [pending, hx]

theorem pending_only (hx : s.shared n = some x) {other : CommandEdit}
    (h : s.pending n = some other) : other = x.edit := by
  rw [pending_eq hx] at h
  split_ifs at h
  exact (some.inj h).symm

/-- A call that has settled as much as before has left as much to settle. -/
theorem pending_kept (hx : s.shared n = some x) (hshared : t.shared = s.shared.put n y)
    (hedit : y.edit = x.edit) (hunsettled : y.edit.vacates ≠ none → y.unsettled = x.unsettled) :
    t.pending = s.pending := by
  funext m
  rw [pending_put hshared]
  by_cases hm : m = n
  · subst hm
    rw [if_pos rfl, pending_eq hx, hedit] at *
    by_cases hvacates : x.edit.vacates = none
    · simp [hvacates]
    · rw [hunsettled hvacates]
  · rw [if_neg hm]

section
variable [Yaml]

/-- A change of the engine's calls that leaves every write of an edit where the edit has it. -/
theorem Wired.engine (h : s.Wired) (hshared : t.shared = s.shared)
    (hnext : t.nextCall = s.nextCall)
    (hcalls : ∀ c call, t.config.calls c = some call → c < t.config.nextCall)
    (hwrites : ∀ (x : SharedCall) c call, s.config.calls c = some call → x.Writes call →
      ∃ next, t.config.calls c = some next ∧ x.Writes next) : t.Wired := by
  constructor
  · exact hcalls
  · rw [hshared, hnext]
    exact h.numbered
  · intro n x hx
    rw [hshared] at hx
    have hstage := h.stage n x hx
    unfold Stage at hstage ⊢
    split
    · trivial
    · trivial
    · trivial
    · next c hpc =>
      rw [hpc] at hstage
      obtain ⟨call, hcall, hwrites'⟩ := hstage
      exact hwrites x c call hcall hwrites'
    · next hpc =>
      rw [hpc] at hstage
      exact hstage
    · next hpc =>
      rw [hpc] at hstage
      exact hstage
  · rw [hshared]
    exact h.single

/-- One edit moves on, or begins, while the writes of the others stay theirs. -/
theorem Wired.put (h : s.Wired) (hshared : t.shared = s.shared.put n y) (hn : n < t.nextCall)
    (hnext : s.nextCall ≤ t.nextCall)
    (hcalls : ∀ c call, t.config.calls c = some call → c < t.config.nextCall)
    (hwrites : ∀ (m : ℕ) (z : SharedCall) (c : ℕ) (call : ConfigCall), m ≠ n →
      s.shared m = some z → z.pc = .writing c → s.config.calls c = some call → z.Writes call →
        ∃ next, t.config.calls c = some next ∧ z.Writes next)
    (hstage : t.Stage y)
    (hown : ∀ m z c, y.pc = .writing c → s.shared m = some z → z.pc = .writing c → m = n) :
    t.Wired := by
  constructor
  · exact hcalls
  · intro m z hz
    rw [hshared, put_eq_some] at hz
    obtain ⟨rfl, -⟩ | ⟨-, hz⟩ := hz
    · exact hn
    · exact (h.numbered m z hz).trans_le hnext
  · intro m z hz
    rw [hshared, put_eq_some] at hz
    obtain ⟨-, rfl⟩ | ⟨hm, hz⟩ := hz
    · exact hstage
    · have hold := h.stage m z hz
      unfold Stage at hold ⊢
      split
      · trivial
      · trivial
      · trivial
      · next c hpc =>
        rw [hpc] at hold
        obtain ⟨call, hcall, hwrites'⟩ := hold
        exact hwrites m z c call hm hz hpc hcall hwrites'
      · next hpc =>
        rw [hpc] at hold
        exact hold
      · next hpc =>
        rw [hpc] at hold
        exact hold
  · intro m k z w c hz hw hzc hwc
    rw [hshared, put_eq_some] at hz hw
    obtain ⟨rfl, rfl⟩ | ⟨hm, hz⟩ := hz
    · obtain ⟨rfl, -⟩ | ⟨-, hw⟩ := hw
      · rfl
      · exact (hown k w c hzc hw hwc).symm
    · obtain ⟨rfl, rfl⟩ | ⟨-, hw⟩ := hw
      · exact hown m z c hwc hz hzc
      · exact h.single m k z w c hz hw hzc hwc

theorem Wired.moved (h : s.Wired) (hx : s.shared n = some x)
    (hshared : t.shared = s.shared.put n y) (hconfig : t.config = s.config)
    (hnext : t.nextCall = s.nextCall) (hstage : s.Stage y)
    (hpc : ∀ c, y.pc ≠ .writing c) : t.Wired := by
  apply h.put hshared
  · rw [hnext]
    exact h.numbered n x hx
  · exact hnext.ge
  · rw [hconfig]
    exact h.calls
  · intro m z c call _ _ _ hcall hwrites
    rw [hconfig]
    exact ⟨call, hcall, hwrites⟩
  · unfold Stage
    rw [hconfig]
    exact hstage
  · exact fun m z c hwriting => absurd hwriting (hpc c)

/-- A new call of the engine is numbered, and the calls before it stay. -/
theorem Wired.calls_begin (h : s.Wired) {call : ConfigCall}
    (hconfig : t.config = s.config.begin call) :
    (∀ c other, t.config.calls c = some other → c < t.config.nextCall) ∧
      ∀ c other, s.config.calls c = some other → t.config.calls c = some other := by
  rw [hconfig]
  constructor
  · intro c other hc
    obtain ⟨rfl, -⟩ | ⟨-, hc⟩ := put_eq_some.mp hc
    · exact Nat.lt_succ_self _
    · exact Nat.lt_succ_of_lt (h.calls c other hc)
  · intro c other hc
    exact (put_of_ne (Nat.ne_of_lt (h.calls c other hc))).trans hc

/-- An edit turns to its write of `solo.yml`. -/
theorem Wired.beginWrite (h : s.Wired) (hx : s.shared n = some x)
    (hshared : t.shared = s.shared.put n { x with pc := .writing s.config.nextCall })
    (hconfig : t.config = s.config.begin (.writing x.edit.mutation))
    (hnext : t.nextCall = s.nextCall) : t.Wired := by
  obtain ⟨hcalls, hkept⟩ := h.calls_begin hconfig
  apply h.put hshared
  · rw [hnext]
    exact h.numbered n x hx
  · exact hnext.ge
  · exact hcalls
  · intro m z c call _ _ _ hcall hwrites
    exact ⟨call, hkept c call hcall, hwrites⟩
  · refine ⟨.writing x.edit.mutation, ?_, rfl⟩
    rw [hconfig]
    exact put_self
  · intro m z c hwriting hz hpc
    cases hwriting
    have hstage := h.stage m z hz
    unfold Stage at hstage
    rw [hpc] at hstage
    obtain ⟨call, hcall, -⟩ := hstage
    exact absurd (h.calls _ call hcall) (lt_irrefl _)

/-- The edit that is about to replace `solo.yml`, with its plan. -/
def replacing (s : CommandWorld) (n : ℕ) : Option (CommandEdit × WritePlan) :=
  (s.shared n).bind fun x =>
    match x.pc with
    | .writing c =>
      match s.config.calls c with
      | some (.replacing plan) => some (x.edit, plan)
      | _ => none
    | _ => none

def updating (s : CommandWorld) (n : ℕ) : Option CommandEdit :=
  (s.locals n).bind fun x =>
    match x.pc with
    | .updating => some x.edit
    | _ => none

def settling (s : CommandWorld) (n : ℕ) : Option CommandEdit :=
  (s.shared n).bind fun x =>
    match x.pc with
    | .settling _ => some x.edit
    | _ => none

/-- Each write still finds what its checks found. `solo.yml` is replaced where it reads as it did,
by a text that reads as was meant. A local edit finds the command it changes or renames. The name an
edit gives to a command is free. A rename moves an override to a command that is still there. -/
def Timely (s : CommandWorld) : CommandEvent → Prop
  | .sharedNext n env =>
    (env.write.writeFault = none → ∀ p ∈ s.replacing n,
      (∃ config ∈ s.loaded, config.Same p.2.current) ∧ ReadsBack p.2.newText p.2.intended ∧
        ∀ name ∈ p.1.takes, s.Free name) ∧
    (env.settings = none → ∀ edit ∈ s.settling n, ∀ source ∈ edit.vacates,
      ∀ target ∈ edit.takes, s.level source ≠ none → s.Present target)
  | .localNext n fault =>
    fault = none → ∀ edit ∈ s.updating n, (∀ name ∈ edit.expects, s.localCommands name ≠ none) ∧
      ∀ name ∈ edit.takes, s.Free name
  | _ => True

def sharedEdit (s : CommandWorld) : CommandEvent → Option CommandEdit
  | .sharedNext n _ => (s.shared n).map SharedCall.edit
  | _ => none

def localEdit (s : CommandWorld) : CommandEvent → Option CommandEdit
  | .localNext n _ => (s.locals n).map LocalCall.edit
  | _ => none

/-- Each command stays as it is, unless the access is of an edit that names it. -/
structure Spares (s : CommandWorld) (e : CommandEvent) (t : CommandWorld) : Prop where
  shared : ∀ name spec, s.sharedCommands name = some spec →
    Processes.Agree (some spec) (t.sharedCommands name) ∨
      ∃ edit ∈ s.sharedEdit e, edit.Names name (t.sharedCommands name)
  locals : ∀ name spec, s.localCommands name = some spec →
    t.localCommands name = some spec ∨
      ∃ edit ∈ s.localEdit e, edit.Names name (t.localCommands name)

theorem sharedCommands_congr (h : t.config.disk = s.config.disk) :
    t.sharedCommands = s.sharedCommands := by
  unfold sharedCommands loaded
  rw [h]

variable {e : CommandEvent}

theorem Spares.of_eq (hdisk : t.config.disk = s.config.disk)
    (hlocal : t.localCommands = s.localCommands) : s.Spares e t := by
  constructor
  · intro name spec hspec
    rw [sharedCommands_congr hdisk, hspec]
    exact .inl (.refl _)
  · intro name spec hspec
    rw [hlocal]
    exact .inl hspec

variable {edit : CommandEdit}

variable {plan : WritePlan}

/-- The commands of `solo.yml` once a planned text is in place that reads as was meant. -/
theorem sharedCommands_replaced {text : String}
    (hplan : planWrite text plan.current edit.mutation = .ok (some plan))
    (hloaded : ∃ config ∈ s.loaded, config.Same plan.current)
    (hreads : ReadsBack plan.newText plan.intended) (hdisk : t.config.disk = some plan.newText) :
    (∀ name, Processes.Agree (t.sharedCommands name) (edit.onto s.sharedCommands name)) ∧
      ∀ name ∈ edit.subject, s.sharedCommands name ≠ none := by
  obtain ⟨-, hmutate, hsize⟩ := of_planWrite_some hplan
  obtain ⟨hget, hsubject⟩ := CommandEdit.mutation_get hmutate
  obtain ⟨config, hconfig, hsame⟩ := hloaded
  obtain ⟨read, hparse, hread⟩ := hreads
  have hbefore : s.sharedCommands = config.processes.get := by
    unfold sharedCommands
    rw [hconfig]
    rfl
  have hafter : t.sharedCommands = read.processes.get := by
    unfold sharedCommands loaded
    rw [hdisk]
    simp only [loadOrEmpty, if_neg (Nat.not_lt.mpr hsize), hparse]
    rfl
  constructor
  · intro name
    rw [hafter, hbefore]
    have hintended := hread.get name
    rw [hget] at hintended
    exact hintended.trans (CommandEdit.agree_onto fun name => (hsame.get name).symm)
  · intro name hname
    rw [hbefore]
    exact mt (CommandEdit.agree_none (hsame.get name)).mp (hsubject name hname)

theorem agree_or_names {name : String} {spec : ProcessSpec} {after : Option ProcessSpec}
    (hspec : s.sharedCommands name = some spec)
    (hafter : Processes.Agree after (edit.onto s.sharedCommands name))
    (hfree : ∀ name ∈ edit.takes, s.Free name) :
    Processes.Agree (some spec) after ∨ edit.Names name after := by
  obtain hkept | hnames | htakes := edit.onto_kept s.sharedCommands name
  · rw [hkept, hspec] at hafter
    exact .inl hafter.symm
  · obtain hspec' | ⟨hvacates, hnone⟩ := hnames
    · exact .inr (.inl hspec')
    · exact .inr (.inr ⟨hvacates, (CommandEdit.agree_none hafter).mpr hnone⟩)
  · rw [(hfree name htakes).shared] at hspec
    cases hspec

/-- An access that changes neither store. -/
theorem Named.idle (h : s.Named) (hdisk : t.config.disk = s.config.disk)
    (hsettings : t.settings = s.settings) (hcreated : t.created = s.created)
    (hpending : t.pending = s.pending) (hnext : s.nextCall ≤ t.nextCall) :
    t.Named ∧ s.Spares e t := by
  refine ⟨h.quiet hdisk hsettings hcreated hpending hnext, .of_eq hdisk ?_⟩
  unfold localCommands
  rw [hsettings]

variable [Sha256]

variable {c : ℕ}

variable {config : ConfigWorld}

theorem engine_sound (hw : s.Wired) (hn : s.Named) {env : Environment}
    (h : s.config.proceed c env = some config)
    (hquiet : ∀ plan, s.config.calls c = some (.replacing plan) → env.writeFault ≠ none) :
    Wired { s with config } ∧ Named { s with config } ∧ s.Spares e { s with config } := by
  obtain ⟨call, next, hcall, hcalls, hnext, hmoved⟩ := ConfigWorld.proceed_eq_some h
  obtain ⟨plan, commit, rfl, hfault, -⟩ | ⟨hdisk, -, hwrites⟩ := hmoved
  · exact absurd hfault (hquiet plan hcall)
  · constructor
    · apply hw.engine (t := { s with config }) rfl rfl
      · intro d other hd
        rw [hnext]
        rw [hcalls, put_eq_some] at hd
        obtain ⟨rfl, -⟩ | ⟨-, hd⟩ := hd
        · exact hw.calls d call hcall
        · exact hw.calls d other hd
      · intro x d other hd hx
        rw [hcalls]
        by_cases hdc : d = c
        · subst hdc
          obtain rfl := some.inj (hcall.symm.trans hd)
          exact ⟨next, put_self, hwrites x hx⟩
        · exact ⟨other, (put_of_ne hdc).trans hd, hx⟩
    · exact hn.idle (t := { s with config }) hdisk rfl rfl rfl le_rfl

variable {env : SharedEnvironment}

theorem replace_sound (hw : s.Wired) (hn : s.Named) (hx : s.shared n = some x)
    (hpc : x.pc = .writing c) (hcall : s.config.calls c = some (.replacing plan))
    (hfault : env.write.writeFault = none)
    (hguard : s.Timely (.sharedNext n env))
    (h : s.config.proceed c env.write = some config)
    (ht : t = { s.setShared n { x with written := true } with
      config, created := x.edit.create s.created }) :
    t.Wired ∧ t.Named ∧ s.Spares (.sharedNext n env) t := by
  have hreplacing : s.replacing n = some (x.edit, plan) := by
    simp [replacing, hx, hpc, hcall]
  obtain ⟨hloaded, hreads, hfree⟩ := hguard.1 hfault (x.edit, plan) hreplacing
  have hwrites := hw.stage n x hx
  unfold Stage at hwrites
  rw [hpc] at hwrites
  obtain ⟨call, hsome, text, hplan⟩ : ∃ call, s.config.calls c = some call ∧ ∃ text,
      planWrite text plan.current x.edit.mutation = .ok (some plan) := by
    obtain ⟨call, hsome, hwrites⟩ := hwrites
    obtain rfl := some.inj (hcall.symm.trans hsome)
    exact ⟨_, hcall, hwrites⟩
  obtain ⟨call', next, hcall', hcalls, hnext, hmoved⟩ := ConfigWorld.proceed_eq_some h
  obtain rfl := some.inj (hcall.symm.trans hcall')
  have hnew : ∃ commit, next = .trusting .write commit ∧ config.disk = some plan.newText := by
    obtain ⟨plan', commit, heq, -, hdisk, rfl⟩ | ⟨-, hquiet, -⟩ := hmoved
    · cases heq
      exact ⟨commit, rfl, hdisk⟩
    · exact absurd hfault (hquiet plan rfl)
  obtain ⟨commit, rfl, hdisk⟩ := hnew
  have hlt := hw.numbered n x hx
  have hshared' : t.shared = s.shared.put n { x with written := true } := by
    rw [ht]
    rfl
  have hconfig : t.config = config := by
    rw [ht]
  obtain ⟨hshared, hsubject⟩ := sharedCommands_replaced (t := t) hplan hloaded hreads
    (by rw [hconfig]; exact hdisk)
  refine ⟨?_, ?_, ?_⟩
  · apply hw.put hshared'
    · rw [ht]
      exact hlt
    · rw [ht]
      exact le_rfl
    · rw [hconfig]
      intro d other hd
      rw [hnext]
      rw [hcalls, put_eq_some] at hd
      obtain ⟨rfl, -⟩ | ⟨-, hd⟩ := hd
      · exact hw.calls d _ hcall
      · exact hw.calls d other hd
    · intro m z d other hm hz hzpc hd hzw
      have hdc : d ≠ c := by
        rintro rfl
        exact hm (hw.single m n z x d hz hx hzpc hpc)
      refine ⟨other, ?_, hzw⟩
      rw [hconfig, hcalls]
      exact (put_of_ne hdc).trans hd
    · unfold Stage
      rw [hpc, hconfig, hcalls]
      exact ⟨_, put_self, rfl⟩
    · intro m z d hwriting hz hzpc
      obtain rfl : c = d := by
        rw [hpc] at hwriting
        exact SharedPc.writing.inj hwriting
      exact hw.single m n z x c hz hx hzpc hpc
  · apply hn.replaced (n := n) hshared hsubject hfree
    · rw [ht]
      rfl
    · rw [ht]
    · exact fun other hother => pending_only hx hother
    · funext m
      have hunsettled : ({ x with written := true } : SharedCall).unsettled = true := by
        simp [SharedCall.unsettled, hpc]
      rw [pending_put hshared']
      by_cases hm : m = n
      · subst hm
        by_cases hvacates : x.edit.vacates = none
        · simp [hvacates, pending_eq hx]
        · simp [hvacates, hunsettled]
      · by_cases hvacates : x.edit.vacates = none
        · simp [hm, hvacates]
        · simp [hm, hvacates, put_of_ne hm]
    · exact hlt
    · rw [ht]
      rfl
  · constructor
    · intro name spec hspec
      obtain hagree | hnames := agree_or_names hspec (hshared name) hfree
      · exact .inl hagree
      · exact .inr ⟨x.edit, by simp [sharedEdit, hx], hnames⟩
    · intro name spec hspec
      have hlocal : t.localCommands = s.localCommands := by
        unfold localCommands
        rw [ht]
        rfl
      rw [hlocal]
      exact .inl hspec

variable {pc : SharedPc}

omit [Sha256] in
theorem moved_sound (hw : s.Wired) (hn : s.Named) (hx : s.shared n = some x)
    (hstage : s.Stage { x with pc }) (hpc : ∀ c, pc ≠ .writing c)
    (hunsettled : x.edit.vacates ≠ none →
      ({ x with pc } : SharedCall).unsettled = x.unsettled) :
    (s.setShared n { x with pc }).Wired ∧ (s.setShared n { x with pc }).Named ∧
      s.Spares e (s.setShared n { x with pc }) := by
  constructor
  · exact hw.moved hx rfl rfl rfl hstage hpc
  · exact hn.idle (t := s.setShared n { x with pc }) rfl rfl rfl
      (pending_kept hx rfl rfl hunsettled) le_rfl

omit [Yaml] [Sha256] in
theorem unsettled_of_pc (h : ∀ commands, pc ≠ .returned (.ok commands)) :
    ({ x with pc } : SharedCall).unsettled = x.written := by
  unfold SharedCall.unsettled
  cases pc with
  | returned result =>
    cases result with
    | ok commands => exact absurd rfl (h commands)
    | error e => simp
  | checking => simp
  | ready => simp
  | writing c => simp
  | trusting pending => simp
  | settling commands => simp

theorem writeNext_sound (hw : s.Wired) (hn : s.Named) (hx : s.shared n = some x)
    (hpc : x.pc = .writing c) (hguard : s.Timely (.sharedNext n env))
    (h : s.writeNext n x c env = some t) : t.Wired ∧ t.Named ∧ s.Spares (.sharedNext n env) t := by
  have hunsettled : x.unsettled = x.written := by
    have hopen : ({ x with pc := .writing c } : SharedCall).unsettled = x.written :=
      unsettled_of_pc nofun
    rw [← hopen, ← hpc]
  have hstage := hw.stage n x hx
  unfold Stage at hstage
  rw [hpc] at hstage
  obtain ⟨call, hcall, hwrites⟩ := hstage
  unfold writeNext at h
  rw [hcall] at h
  split at h
  · next pending heq =>
    cases h
    cases heq
    refine moved_sound hw hn hx hwrites nofun fun _ => ?_
    rw [hunsettled]
    exact unsettled_of_pc nofun
  · next e heq =>
    cases h
    refine moved_sound hw hn hx trivial nofun fun _ => ?_
    rw [hunsettled]
    exact unsettled_of_pc nofun
  · next plan heq =>
    cases heq
    obtain ⟨config, hproceed, hconfig⟩ := map_eq_some_iff.mp h
    by_cases hfault : env.write.writeFault = none
    · rw [if_pos hfault] at hconfig
      exact replace_sound hw hn hx hpc hcall hfault hguard hproceed hconfig.symm
    · rw [if_neg hfault] at hconfig
      subst hconfig
      exact engine_sound hw hn hproceed fun plan _ => hfault
  · next hother =>
    obtain ⟨config, hproceed, hconfig⟩ := map_eq_some_iff.mp h
    subst hconfig
    refine engine_sound hw hn hproceed fun plan hplan => ?_
    rw [hcall] at hplan
    exact absurd hplan (hother plan)

omit [Sha256] in
/-- The settings change: the override of a renamed or removed command goes with it. -/
theorem settle_sound (hw : s.Wired) (hn : s.Named) (hx : s.shared n = some x)
    {commands : List TrustReviewCommand} (hpc : x.pc = .settling commands)
    (hfault : env.settings = none)
    (hguard : s.Timely (.sharedNext n env)) (ht : t =
      { s.setShared n { x with pc := .returned (.ok commands) } with
        settings := s.settings.settle x.edit }) :
    t.Wired ∧ t.Named ∧ s.Spares (.sharedNext n env) t := by
  have hstage := hw.stage n x hx
  unfold Stage at hstage
  rw [hpc] at hstage
  have hunsettled : x.unsettled = x.written := by
    have hopen : ({ x with pc := .settling commands } : SharedCall).unsettled = x.written :=
      unsettled_of_pc (by simp)
    rw [← hopen, ← hpc]
  have hedit : x.edit.vacates ≠ none → s.pending n = some x.edit := by
    intro hvacates
    have hwritten := hstage.resolve_right hvacates
    rw [pending_eq hx, if_pos ⟨hunsettled.trans hwritten, hvacates⟩]
  have hshared : t.shared = s.shared.put n { x with pc := .returned (.ok commands) } := by
    rw [ht]
    rfl
  have hpending : t.pending = s.pending.erase n := by
    funext m
    rw [pending_put hshared]
    by_cases hm : m = n
    · simp [hm, SharedCall.unsettled, Slots.erase]
    · simp [hm, Slots.erase]
  have hsettling : s.settling n = some x.edit := by
    simp [settling, hx, hpc]
  have hlocal : t.localCommands = s.localCommands := by
    rw [ht]
    apply CommandSettings.settle_get
    intro name hvacates
    exact (hn.vacated n x.edit name (hedit (by simp [hvacates])) hvacates).2
  have hsettled := hguard.2 hfault x.edit hsettling
  have hdisk : t.config.disk = s.config.disk := by
    rw [ht]
    rfl
  refine ⟨?_, ?_, .of_eq hdisk hlocal⟩
  · apply hw.moved hx hshared
    · rw [ht]
      rfl
    · rw [ht]
      rfl
    · trivial
    · simp
  · apply hn.settled hdisk _ _ hedit (fun other hother => pending_only hx hother) hsettled hpending
    · rw [ht]
      rfl
    · rw [ht]
    · rw [ht]
      rfl

theorem sharedNext_sound (hw : s.Wired) (hn : s.Named) (hguard : s.Timely (.sharedNext n env))
    (h : s.sharedNext n env = some t) : t.Wired ∧ t.Named ∧ s.Spares (.sharedNext n env) t := by
  unfold sharedNext at h
  split at h
  · cases h
  · next x hx =>
    have hopen : ∀ pc, x.pc = pc → (∀ commands, pc ≠ .returned (.ok commands)) →
        x.unsettled = x.written := by
      rintro pc rfl hpc
      exact unsettled_of_pc (x := x) hpc
    split at h
    · cases h
    · next hpc =>
      cases h
      have hcases : s.checkShared x.edit env.settings = .ready ∨
          ∃ e, s.checkShared x.edit env.settings = .returned (.error e) := by
        unfold checkShared
        split
        · exact .inr ⟨_, rfl⟩
        · split
          · exact .inl rfl
          · split_ifs
            · exact .inr ⟨_, rfl⟩
            · exact .inl rfl
      obtain hnext | ⟨e, hnext⟩ := hcases
      · rw [hnext]
        refine moved_sound hw hn hx trivial (by simp) fun _ => ?_
        rw [hopen _ hpc (by simp)]
        exact unsettled_of_pc (by simp)
      · rw [hnext]
        refine moved_sound hw hn hx trivial (by simp) fun _ => ?_
        rw [hopen _ hpc (by simp)]
        exact unsettled_of_pc (by simp)
    · next hpc =>
      cases h
      constructor
      · exact hw.beginWrite hx rfl rfl rfl
      · refine hn.idle rfl rfl rfl (pending_kept hx rfl rfl fun _ => ?_) le_rfl
        rw [hopen _ hpc (by simp)]
        exact unsettled_of_pc (by simp)
    · next c hpc => exact writeNext_sound hw hn hx hpc hguard h
    · next pending hpc =>
      cases h
      have hstage := hw.stage n x hx
      unfold Stage at hstage
      rw [hpc] at hstage
      unfold afterTrust
      split
      · refine moved_sound hw hn hx trivial (by simp) fun _ => ?_
        rw [hopen _ hpc (by simp)]
        exact unsettled_of_pc (by simp)
      · split
        · next hedit =>
          refine moved_sound hw hn hx trivial (by simp) fun hvacates => ?_
          rw [hedit] at hvacates
          exact absurd rfl hvacates
        · next hedit =>
          refine moved_sound hw hn hx trivial (by simp) fun hvacates => ?_
          rw [hedit] at hvacates
          exact absurd rfl hvacates
        · refine moved_sound hw hn hx hstage (by simp) fun _ => ?_
          rw [hopen _ hpc (by simp)]
          exact unsettled_of_pc (by simp)
        · refine moved_sound hw hn hx hstage (by simp) fun _ => ?_
          rw [hopen _ hpc (by simp)]
          exact unsettled_of_pc (by simp)
    · next commands hpc =>
      split at h
      · cases h
        refine moved_sound hw hn hx trivial (by simp) fun _ => ?_
        rw [hopen _ hpc (by simp)]
        exact unsettled_of_pc (by simp)
      · next hfault =>
        exact settle_sound hw hn hx hpc hfault hguard (some.inj h).symm

omit [Sha256] in
theorem localNext_sound (hw : s.Wired) (hn : s.Named) {fault : Option StoreError}
    (hguard : s.Timely (.localNext n fault)) (h : s.localNext n fault = some t) :
    t.Wired ∧ t.Named ∧ s.Spares (.localNext n fault) t := by
  have hidle : ∀ y, (s.setLocal n y).Wired ∧ (s.setLocal n y).Named ∧
      s.Spares (.localNext n fault) (s.setLocal n y) :=
    fun y => ⟨⟨hw.calls, hw.numbered, hw.stage, hw.single⟩,
      hn.idle (t := s.setLocal n y) rfl rfl rfl rfl le_rfl⟩
  unfold localNext at h
  split at h
  · cases h
  · next x hx =>
    split at h
    · cases h
    · cases h
      exact hidle _
    · cases h
      exact hidle _
    · next hpc =>
      split at h
      · cases h
        exact hidle _
      · have hupdating : s.updating n = some x.edit := by simp [updating, hx, hpc]
        obtain ⟨hexpects, hfree⟩ := hguard rfl x.edit hupdating
        cases h
        refine ⟨⟨hw.calls, hw.numbered, hw.stage, hw.single⟩, ?_, ?_⟩
        · exact hn.updated rfl rfl hexpects hfree rfl rfl rfl
        · constructor
          · intro name spec hspec
            exact .inl (by rw [← hspec]; exact .refl _)
          · intro name spec hspec
            have hlocal : (s.settings.update x.edit).localCommands.get name =
                x.edit.onto s.localCommands name :=
              congrFun (CommandEdit.update_get s.settings x.edit) name
            obtain hkept | hnames | htakes := x.edit.onto_kept s.localCommands name
            · exact .inl (hlocal.trans (hkept.trans hspec))
            · refine .inr ⟨x.edit, by simp [localEdit, hx], ?_⟩
              rw [← hlocal] at hnames
              exact hnames
            · rw [(hfree name htakes).locals] at hspec
              cases hspec

omit [Yaml] [Sha256] in
theorem startShared_cases (edit : CommandEdit) : edit.startShared = .checking ∨
    edit.startShared = .ready ∨ ∃ e, edit.startShared = .returned (.error e) := by
  unfold CommandEdit.startShared
  split
  · exact .inr (.inr ⟨_, rfl⟩)
  · exact .inl rfl
  · split_ifs
    · exact .inr (.inl rfl)
    · exact .inl rfl
  · exact .inr (.inl rfl)
  · exact .inr (.inl rfl)

omit [Sha256] in
theorem beginShared_sound (hw : s.Wired) (hn : s.Named)
    (hshared : t.shared = s.shared.put s.nextCall ⟨edit, edit.startShared, false⟩)
    (hconfig : t.config = s.config) (hnext : t.nextCall = s.nextCall + 1)
    (hsettings : t.settings = s.settings) (hcreated : t.created = s.created) :
    t.Wired ∧ t.Named ∧ s.Spares (.beginShared edit) t := by
  have hfresh : s.pending s.nextCall = none := by
    cases hx : s.shared s.nextCall with
    | none => simp [pending, hx]
    | some x => exact absurd (hw.numbered _ x hx) (lt_irrefl _)
  constructor
  · apply hw.put hshared (by omega) (by omega)
    · rw [hconfig]
      exact hw.calls
    · intro m z c call _ _ _ hcall hwrites
      rw [hconfig]
      exact ⟨call, hcall, hwrites⟩
    · unfold Stage
      obtain hpc | hpc | ⟨e, hpc⟩ := startShared_cases edit
      · simp only [hpc]
      · simp only [hpc]
      · simp only [hpc]
    · intro m z c hwriting
      obtain hpc | hpc | ⟨e, hpc⟩ := startShared_cases edit
      all_goals
        rw [hpc] at hwriting
        cases hwriting
  · apply hn.idle (by rw [hconfig]) hsettings hcreated _ (by omega)
    funext m
    rw [pending_put hshared]
    by_cases hm : m = s.nextCall
    · simp [hm, SharedCall.unsettled, hfresh]
    · simp [hm]

theorem step_sound (hw : s.Wired) (hn : s.Named) (hguard : s.Timely e) (h : s.step e = some t) :
    t.Wired ∧ t.Named ∧ s.Spares e t := by
  cases e with
  | sharedNext n env => exact sharedNext_sound hw hn hguard h
  | localNext n fault => exact localNext_sound hw hn hguard h
  | beginShared edit =>
    cases h
    exact beginShared_sound hw hn rfl rfl rfl rfl rfl
  | beginLocal edit =>
    cases h
    exact ⟨⟨hw.calls, fun m z hz => Nat.lt_succ_of_lt (hw.numbered m z hz), hw.stage, hw.single⟩,
      hn.idle rfl rfl rfl rfl (Nat.le_succ _)⟩
  | beginSync =>
    cases h
    obtain ⟨hcalls, hkept⟩ := hw.calls_begin (t := { s with config := s.config.begin (.syncing s.config.state) }) rfl
    exact ⟨hw.engine rfl rfl hcalls fun x c call hcall hx => ⟨call, hkept c call hcall, hx⟩,
      hn.idle rfl rfl rfl rfl le_rfl⟩
  | syncNext c env =>
    simp only [step, ite_none_right_eq_some] at h
    obtain ⟨hsync, h⟩ := h
    obtain ⟨config, hproceed, rfl⟩ := map_eq_some_iff.mp h
    refine engine_sound hw hn hproceed fun plan hplan => ?_
    rw [hplan] at hsync
    cases hsync

end

end CommandWorld

def commandMachine [Yaml] [Sha256] : Machine CommandWorld CommandEvent where
  init := CommandWorld.Opened
  step := CommandWorld.step

namespace CommandWorld
variable [Yaml] {s : CommandWorld}

theorem Opened.wired (h : s.Opened) : s.Wired := by
  constructor
  · simp [h.calls]
  · simp [h.shared]
  · simp [h.shared]
  · simp [h.shared]

theorem Opened.named (h : s.Opened) : s.Named := by
  have hpending : ∀ n, s.pending n = none := by
    intro n
    simp [pending, h.shared]
  constructor
  · exact h.disjoint
  · intro name hname
    exact (h.keyed name hname).imp_right .inl
  · simp [h.created]
  · simp [hpending]
  · simp [hpending]
  · simp [hpending]

/-- Every edit that has replaced `solo.yml` has returned successfully. -/
def Settled (s : CommandWorld) : Prop :=
  ∀ n < s.nextCall, ∀ x ∈ s.shared n, x.unsettled = false

omit [Yaml] in
theorem Settled.pending (h : s.Settled) {n : ℕ} (hn : n < s.nextCall) : s.pending n = none := by
  cases hx : s.shared n with
  | none => simp [CommandWorld.pending, hx]
  | some x =>
    have hsettled := h n hn x hx
    simp [CommandWorld.pending, hx, hsettled]

/-- In a run whose writes find what their checks found, no name is in both stores, a command changes
by the edits that name it alone, a created command carries no override, and where the edits have
returned every override is of a command. -/
theorem command_name_has_one_owner [Sha256] {s₀ : CommandWorld} {es : List CommandEvent}
    (hinit : s₀.Opened) (hguard : commandMachine.Along Timely s₀ es) :
    commandMachine.Along (fun s e => ∀ t, s.step e = some t → s.Spares e t) s₀ es ∧
      ∀ s, commandMachine.run s₀ es = some s →
        (∀ name, s.sharedCommands name ≠ none → s.localCommands name = none) ∧
        (∀ name ∈ s.created, s.level name = none) ∧
        (s.Settled → ∀ name, s.level name ≠ none →
          s.sharedCommands name ≠ none ∨ s.localCommands name ≠ none) := by
  have hstart : s₀.Wired ∧ s₀.Named := ⟨hinit.wired, hinit.named⟩
  constructor
  · refine Machine.along_of_invariant (P := fun s => s.Wired ∧ s.Named) ?_ ?_ hstart hguard
    · intro s e t hguard hs hstep
      obtain ⟨hwired, hnamed, -⟩ := step_sound hs.1 hs.2 hguard hstep
      exact ⟨hwired, hnamed⟩
    · intro s e hguard hs t hstep
      exact (step_sound hs.1 hs.2 hguard hstep).2.2
  · intro s hrun
    have hs : s.Wired ∧ s.Named := by
      refine Machine.invariant_along (P := fun s => s.Wired ∧ s.Named) ?_ hstart hguard hrun
      intro s e t hguard hs hstep
      obtain ⟨hwired, hnamed, -⟩ := step_sound hs.1 hs.2 hguard hstep
      exact ⟨hwired, hnamed⟩
    refine ⟨hs.2.disjoint, hs.2.bare, fun hsettled name hname => ?_⟩
    obtain hin | hin | ⟨n, hn, edit, hedit, -⟩ := hs.2.keyed name hname
    · exact .inl hin
    · exact .inr hin
    · rw [hsettled.pending hn] at hedit
      cases hedit

instance (s : CommandWorld) (name : String) : Decidable (s.Free name) :=
  decidable_of_iff (s.sharedCommands name = none ∧ s.localCommands name = none ∧
    ∀ n < s.nextCall, ∀ edit ∈ s.pending n, edit.vacates ≠ some name ∧ edit.takes ≠ some name)
    ⟨fun ⟨hshared, hlocal, hpending⟩ => ⟨hshared, hlocal, hpending⟩,
      fun h => ⟨h.shared, h.locals, h.pending⟩⟩

instance (s : CommandWorld) (name : String) : Decidable (s.Present name) :=
  inferInstanceAs (Decidable (_ ∨ _ ∨ ∃ n, n < s.nextCall ∧ ∃ edit ∈ s.pending n, _))

instance (s : CommandWorld) : DecidablePred s.Timely
  | .sharedNext _ _ => inferInstanceAs (Decidable ((_ → _) ∧ (_ → _)))
  | .localNext _ _ => inferInstanceAs (Decidable (_ → _))
  | .beginShared _ | .beginLocal _ | .beginSync | .syncNext _ _ => isTrue trivial

end CommandWorld

namespace CommandWorld

def bare : CommandWorld :=
  ⟨unwritten, ⟨⟨false, IndexMap.empty⟩, Slots.empty⟩, Slots.empty, Slots.empty, 0, []⟩

theorem opened_bare : letI := Yaml.ofTable editedDocuments
    bare.Opened := by
  let _ := Yaml.ofTable editedDocuments
  exact ⟨rfl, rfl, rfl, rfl, fun _ _ => rfl, fun _ h => absurd rfl h⟩

def quietAccess : SharedEnvironment := ⟨trustsAll, none, none⟩

def serveSpec : ProcessSpec := ⟨"serve", none, true, false, [], []⟩

def addedInTurn : List CommandEvent :=
  .beginShared (.add "web" serveSpec) :: List.replicate 9 (.sharedNext 0 quietAccess) ++
    .beginLocal (.add "api" runSpec) :: List.replicate 3 (.localNext 1 none)

theorem command_name_has_one_owner_added : letI := Yaml.ofTable editedDocuments
    letI := Sha256.ofTable editedDigests
    ∃ s, commandMachine.run bare addedInTurn = some s ∧ s.sharedCommands "web" ≠ none ∧
      s.localCommands "web" = none ∧ s.localCommands "api" ≠ none ∧ s.sharedCommands "api" = none ∧
      s.created = ["api", "web"] ∧ s.level "api" = none := by
  let _ := Yaml.ofTable editedDocuments
  let _ := Sha256.ofTable editedDigests
  obtain ⟨s, hs, hP⟩ := (Option.any_eq_true (fun s : CommandWorld =>
    s.sharedCommands "web" ≠ none ∧ s.localCommands "api" ≠ none ∧ s.created = ["api", "web"])
    (commandMachine.run bare addedInTurn)).mp (by decide)
  obtain ⟨hweb, hapi, hcreated⟩ := of_decide_eq_true hP
  obtain ⟨-, hruns⟩ := command_name_has_one_owner opened_bare
    (by decide : commandMachine.Along Timely bare addedInTurn)
  obtain ⟨hdisjoint, hbare, -⟩ := hruns s hs
  refine ⟨s, hs, hweb, hdisjoint "web" hweb, hapi, ?_, hcreated, hbare "api" (by simp [hcreated])⟩
  by_contra hshared
  exact hapi (hdisjoint "api" hshared)

def succeeded (s : CommandWorld) (n : ℕ) : Bool :=
  (s.locals n).any fun x =>
    match x.pc with
    | .returned (.ok _) => true
    | _ => false

/-- Two callers add a command under one name: the local look-up reads before the shared write has
told the engine of it, and the shared look-up before the local write. -/
def addedTogether : List CommandEvent :=
  [.beginShared (.add "web" serveSpec), .sharedNext 0 quietAccess,
    .beginLocal (.add "web" serveSpec)] ++ List.replicate 3 (.localNext 1 none) ++
      List.replicate 8 (.sharedNext 0 quietAccess)

theorem command_name_taken_twice : letI := Yaml.ofTable editedDocuments
    letI := Sha256.ofTable editedDigests
    ∃ es s, bare.Opened ∧ commandMachine.run bare es = some s ∧ s.Settled ∧
      s.succeeded 1 = true ∧ s.sharedCommands "web" = some serveSpec ∧
      s.localCommands "web" = some serveSpec := by
  let _ := Yaml.ofTable editedDocuments
  let _ := Sha256.ofTable editedDigests
  obtain ⟨s, hs, hP⟩ := (Option.any_eq_true (fun s : CommandWorld => s.nextCall = 2 ∧
    ((s.shared 0).any fun x => !x.unsettled) ∧ (s.shared 1).isNone ∧ s.succeeded 1 = true ∧
      s.sharedCommands "web" = some serveSpec ∧ s.localCommands "web" = some serveSpec)
    (commandMachine.run bare addedTogether)).mp (by decide)
  obtain ⟨hnext, hfirst, hsecond, hP⟩ := of_decide_eq_true hP
  refine ⟨addedTogether, s, opened_bare, hs, fun n hn x hx => ?_, hP⟩
  rw [hnext] at hn
  obtain rfl | rfl : n = 0 ∨ n = 1 := by omega
  · rw [hx] at hfirst
    simpa using hfirst
  · rw [hx] at hsecond
    cases hsecond

end CommandWorld

end Soloist
