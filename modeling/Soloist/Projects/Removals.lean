import Soloist.Projects.Lifecycle

/-! What a removed project leaves behind. -/
open Option Slots

namespace Soloist

namespace LifecycleOp

def sweep : LifecycleOp → Option (ProjectId × List ProcessId)
  | .closingAll project ids _ => some (project, ids)
  | .forgetting project | .deleting project | .announcing project | .done (.removed project) =>
    some (project, [])
  | _ => none

/-- The project a removal has forgotten the `solo.yml` state of. -/
def forgets : LifecycleOp → Option ProjectId
  | .deleting project | .announcing project | .done (.removed project) => some project
  | _ => none

def registersIn : LifecycleOp → Option ProjectId
  | .filing project _ _ (.register ..) _ => some project
  | .registering r _ => some r.project
  | _ => none

/-- The project the next access stores the `solo.yml` state of. -/
def storesIn : LifecycleOp → Option ProjectId
  | .seeding project _ | .storing project .. => some project
  | _ => none

def outcome : LifecycleOp → Option LifecycleOutcome
  | .done outcome => some outcome
  | _ => none

theorem outcome_eq_some {op : LifecycleOp} {o : LifecycleOutcome} :
    op.outcome = some o ↔ op = .done o := by
  cases op <;> simp [outcome]

/-- What the next access of `op` adds is not what `removal` has already swept or forgotten. -/
def Clear (op removal : LifecycleOp) : Prop :=
  (∀ project ∈ op.registersIn, removal.sweep.map Prod.fst ≠ some project) ∧
    ∀ project ∈ op.storesIn, removal.forgets ≠ some project

instance (op removal : LifecycleOp) : Decidable (op.Clear removal) :=
  inferInstanceAs (Decidable (_ ∧ _))

end LifecycleOp

/-- No process is registered in a project that a removal, under way or returned, has listed the
processes of, and no `solo.yml` state stored that one has forgotten. -/
def Timely (s : Lifecycle) : LifecycleEvent → Prop
  | .proceed k _ => ∀ j < s.nextOp, ∀ op ∈ s.ops k, ∀ removal ∈ s.ops j, op.Clear removal
  | _ => True

instance : ∀ s e, Decidable (Timely s e)
  | s, .proceed k _ => inferInstanceAs
      (Decidable (∀ j < s.nextOp, ∀ op ∈ s.ops k, ∀ removal ∈ s.ops j, op.Clear removal))
  | _, .remove _ | _, .open _ | _, .reload _ | _, .launch .. | _, .core _ | _, .rename .. =>
    isTrue trivial

namespace Supervisor
variable {s t : Supervisor} {e : SupervisorEvent}

variable {id : ProcessId} {m : Managed}

theorem step_row [Sha256] (howned : s.fleet.Owned) (he : e.isRegister = false)
    (h : s.step e = some t) (hm : t.fleet.registry id = some m) :
    ∃ m₀, s.fleet.registry id = some m₀ ∧ m₀.project = m.project := by
  rcases step_fleet h with hsame | ⟨act, hact, hissues⟩
  · exact ⟨m, hsame ▸ hm, rfl⟩
  · rcases Fleet.step_entry howned.manned hact hm with ⟨m₀, hm₀, hevolves⟩ | ⟨r, rfl, -⟩
    · refine ⟨m₀, hm₀, ?_⟩
      cases hevolves <;> rfl
    · cases hissues with
      | direct e act hacts =>
        cases hacts
        cases he

theorem step_register [Sha256] {r : Registration} (h : s.step (.register r) = some t)
    (hm : t.fleet.registry id = some m) :
    id = s.fleet.nextProcess ∧ m.project = r.project ∨
      id ≠ s.fleet.nextProcess ∧ s.fleet.registry id = some m := by
  cases h
  rcases put_eq_some.mp hm with ⟨hid, rfl⟩ | hold
  · exact .inl ⟨hid, rfl⟩
  · exact .inr hold

end Supervisor

namespace Lifecycle
variable {s t : Lifecycle} {k : Nat} {env : LifecycleEnv} {op op' : LifecycleOp}

/-- What the next access of an operation at `op` does, which leaves it at `op'`. -/
inductive Turn [Sha256] (s : Lifecycle) (t : Lifecycle) : LifecycleOp → LifecycleOp → Prop
  | goes (op op' : LifecycleOp) (hsup : t.sup = s.sup) (hhomes : t.homes = s.homes)
      (hengine : t.engine = s.engine) (hsweep : op'.sweep = none ∨ op'.sweep = op.sweep)
      (hforgets : op'.forgets = none ∨ op'.forgets = op.forgets) : Turn s t op op'
  | called (op op' : LifecycleOp) (e : SupervisorEvent) (he : e.isRegister = false)
      (hsup : s.sup.step e = some t.sup) (hhomes : t.homes = s.homes)
      (hengine : t.engine = s.engine) (hsweep : op'.sweep = none) (hforgets : op'.forgets = none) :
    Turn s t op op'
  | registered (op op' : LifecycleOp) (r : Registration) (hop : op.registersIn = some r.project)
      (hsup : s.sup.step (.register r) = some t.sup)
      (hhomes : t.homes = s.homes.put s.sup.fleet.nextProcess r.project)
      (hengine : t.engine = s.engine) (hsweep : op'.sweep = none) (hforgets : op'.forgets = none) :
    Turn s t op op'
  | stored (op op' : LifecycleOp) (project : ProjectId) (next : OpenConfig)
      (hop : op.storesIn = some project) (hsup : t.sup = s.sup) (hhomes : t.homes = s.homes)
      (hengine : t.engine = s.engine.put project next) (hsweep : op'.sweep = none)
      (hforgets : op'.forgets = none) : Turn s t op op'
  | listed (project : ProjectId) (ids : List ProcessId) (hids : ids.Perm (s.idsIn project))
      (hsup : t.sup = s.sup) (hhomes : t.homes = s.homes) (hengine : t.engine = s.engine) :
    Turn s t (.listing project) (.closingAll project ids none)
  | closed (project : ProjectId) (id : ProcessId) (rest : List ProcessId) (call : CallId)
      (hsup : s.sup.step (.close id) = some t.sup) (hhomes : t.homes = s.homes)
      (hengine : t.engine = s.engine) :
    Turn s t (.closingAll project (id :: rest) none) (.closingAll project rest (some call))
  | forgot (project : ProjectId) (hsup : t.sup = s.sup) (hhomes : t.homes = s.homes)
      (hengine : t.engine = s.engine.erase project) :
    Turn s t (.forgetting project) (.deleting project)

/-- The operation `k` is at `op'` after its turn. -/
def Turns [Sha256] (s : Lifecycle) (k : Nat) (op : LifecycleOp) (t : Lifecycle) : Prop :=
  ∃ op', t.ops = s.ops.put k op' ∧ t.nextOp = s.nextOp ∧ Turn s t op op'

section turns
variable [Sha256]

theorem Turns.goes (hsweep : op'.sweep = none ∨ op'.sweep = op.sweep)
    (hforgets : op'.forgets = none ∨ op'.forgets = op.forgets) :
    s.Turns k op (s.setOp k op') :=
  ⟨op', rfl, rfl, .goes op op' rfl rfl rfl hsweep hforgets⟩

/-- The next program point belongs to no removal. -/
theorem Turns.plain (hsweep : op'.sweep = none) (hforgets : op'.forgets = none) :
    s.Turns k op (s.setOp k op') :=
  .goes (.inl hsweep) (.inl hforgets)

theorem asks_turns {e : SupervisorEvent} {next : CallId → LifecycleOp}
    (he : e.isRegister = false) (hsweep : ∀ call, (next call).sweep = none)
    (hforgets : ∀ call, (next call).forgets = none) (ht : s.asks k e next = some t) :
    s.Turns k op t := by
  obtain ⟨sup, hsup, rfl⟩ := map_eq_some_iff.mp ht
  exact ⟨next s.sup.nextCall, rfl, rfl, .called op _ e he hsup rfl rfl (hsweep _) (hforgets _)⟩

theorem awaits_turns {call : CallId} (hsweep : op'.sweep = none ∨ op'.sweep = op.sweep)
    (hforgets : op'.forgets = none ∨ op'.forgets = op.forgets)
    (ht : s.awaits k call op' = some t) : s.Turns k op t := by
  unfold awaits at ht
  split_ifs at ht
  cases ht
  exact .goes hsweep hforgets

variable {label : String}

theorem register_turns {r : Registration} {next : ProcessId → LifecycleOp}
    (hop : op.registersIn = some r.project) (hsweep : ∀ id, (next id).sweep = none)
    (hforgets : ∀ id, (next id).forgets = none) (ht : s.register k r label next = some t) :
    s.Turns k op t := by
  simp only [register] at ht
  obtain ⟨sup, hsup, rfl⟩ := map_eq_some_iff.mp ht
  exact ⟨next s.sup.fleet.nextProcess, rfl, rfl,
    .registered op _ r hop hsup rfl rfl (hsweep _) (hforgets _)⟩

variable {project : ProjectId}

variable {ids : List ProcessId}

theorem stopAll_turns (ht : s.stopAll k project ids = some t) : s.Turns k op t := by
  cases ids with
  | nil =>
    cases ht
    exact .plain rfl rfl
  | cons id rest =>
    simp only [stopAll] at ht
    exact asks_turns rfl (fun _ => rfl) (fun _ => rfl) ht

theorem closeAll_turns (ht : s.closeAll k project ids = some t) :
    s.Turns k (.closingAll project ids none) t := by
  cases ids with
  | nil =>
    cases ht
    exact .goes (.inr rfl) (.inl rfl)
  | cons id rest =>
    simp only [closeAll] at ht
    obtain ⟨sup, hsup, rfl⟩ := map_eq_some_iff.mp ht
    exact ⟨_, rfl, rfl, .closed project id rest _ hsup rfl rfl⟩

variable {root : PathBuf}

theorem upsert_turns : s.Turns k op (s.upsert k root) := by
  unfold upsert
  split
  next project => exact .plain rfl rfl
  next => exact ⟨_, rfl, rfl, .goes op _ rfl rfl rfl (.inl rfl) (.inl rfl)⟩

theorem seed_turns : s.Turns k (.seeding project root) (s.seed k env project root) := by
  unfold seed
  split
  next => exact .plain rfl rfl
  next => exact ⟨_, rfl, rfl, .stored _ _ project _ rfl rfl rfl rfl rfl rfl⟩

theorem read_turns {prev : OpenConfig} : s.Turns k op (s.read k env project root prev) := by
  unfold read
  split
  next => exact .plain rfl rfl
  next =>
    dsimp only
    split_ifs
    · exact .plain rfl rfl
    · split
      next => exact .plain rfl rfl
      next => exact .plain rfl rfl

variable {config : SoloYml}

theorem lookUp_turns {work : List Change} (ht : s.lookUp k env project root config work = some t) :
    s.Turns k op t := by
  unfold lookUp at ht
  split at ht
  next =>
    cases ht
    exact .plain rfl rfl
  next change rest =>
    obtain ⟨-, ht⟩ := ite_none_right_eq_some.mp ht
    split at ht
    next =>
      cases ht
      exact .plain rfl rfl
    next =>
      cases ht
      exact .plain rfl rfl

theorem file_turns {rest : List Change} {filing : Filing}
    (ht : s.file k project root config rest filing = some t) :
    s.Turns k (.filing project root config filing rest) t := by
  cases filing with
  | register name spec =>
    simp only [file] at ht
    exact register_turns rfl (fun _ => rfl) (fun _ => rfl) ht
  | update id name spec =>
    simp only [file] at ht
    obtain ⟨u, hu, rfl⟩ := map_eq_some_iff.mp ht
    obtain ⟨sup, hsup, rfl⟩ := map_eq_some_iff.mp hu
    exact ⟨_, rfl, rfl, .called _ _ _ rfl hsup rfl rfl rfl rfl⟩
  | drop id =>
    simp only [file] at ht
    exact asks_turns rfl (fun _ => rfl) (fun _ => rfl) ht

theorem openLaunch_turns {launching : Launching} :
    s.Turns k op (s.openLaunch k env project launching label) := by
  unfold openLaunch
  split
  next => exact .plain rfl rfl
  next => exact .plain rfl rfl
  next root =>
    dsimp only
    split
    next => exact .plain rfl rfl
    next spec =>
      split_ifs
      · exact .plain rfl rfl
      · exact .plain rfl rfl

theorem proceed_turns (ht : s.proceed k env op = some t) : s.Turns k op t := by
  cases op with
  | removing project =>
    simp only [proceed] at ht
    split at ht <;> cases ht <;> exact .plain rfl rfl
  | listingLive project =>
    simp only [proceed] at ht
    split_ifs at ht
    cases ht
    exact .plain rfl rfl
  | stoppingAll project ids call =>
    cases call with
    | none => exact stopAll_turns ht
    | some call => exact awaits_turns (.inl rfl) (.inl rfl) ht
  | listing project =>
    simp only [proceed] at ht
    split_ifs at ht with hperm
    cases ht
    exact ⟨_, rfl, rfl, .listed project env.order (List.isPerm_iff.mp hperm) rfl rfl rfl⟩
  | closingAll project ids call =>
    cases call with
    | none => exact closeAll_turns ht
    | some call =>
      have hsweep : (LifecycleOp.closingAll project ids none).sweep =
          (LifecycleOp.closingAll project ids (some call)).sweep := rfl
      exact awaits_turns (.inr hsweep) (.inl rfl) ht
  | forgetting project =>
    cases ht
    exact ⟨_, rfl, rfl, .forgot project rfl rfl rfl⟩
  | deleting project =>
    simp only [proceed] at ht
    split at ht
    next =>
      cases ht
      exact .plain rfl rfl
    next =>
      cases ht
      exact ⟨_, rfl, rfl, .goes _ _ rfl rfl rfl (.inr rfl) (.inr rfl)⟩
  | announcing project =>
    cases ht
    exact .goes (.inr rfl) (.inr rfl)
  | loading root =>
    simp only [proceed] at ht
    split at ht <;> cases ht <;> exact .plain rfl rfl
  | adding root =>
    simp only [proceed] at ht
    split at ht
    next =>
      cases ht
      exact .plain rfl rfl
    next =>
      cases ht
      exact upsert_turns
  | seeding project root =>
    cases ht
    exact seed_turns
  | reloading project =>
    simp only [proceed] at ht
    split at ht <;> cases ht <;> exact .plain rfl rfl
  | snapshotting project root =>
    simp only [proceed] at ht
    split at ht <;> cases ht <;> exact .plain rfl rfl
  | reading project root prev =>
    cases ht
    exact read_turns
  | storing project root next changes =>
    cases ht
    exact ⟨_, rfl, rfl, .stored _ _ project next rfl rfl rfl rfl rfl rfl⟩
  | reviewing project root changes =>
    simp only [proceed] at ht
    split at ht <;> cases ht <;> exact .plain rfl rfl
  | applying project root config work call =>
    cases call with
    | none => exact lookUp_turns ht
    | some call => exact awaits_turns (.inl rfl) (.inl rfl) ht
  | filing project root config filing rest => exact file_turns ht
  | launching project launching label =>
    cases ht
    exact openLaunch_turns
  | registering r label => exact register_turns rfl (fun _ => rfl) (fun _ => rfl) ht
  | starting id => exact asks_turns rfl (fun _ => rfl) (fun _ => rfl) ht
  | awaiting call => exact awaits_turns (.inl rfl) (.inl rfl) ht
  | done outcome => cases ht

end turns

/-- What a removal has swept and forgotten stays so. -/
structure Swept [Sha256] (s : Lifecycle) : Prop where
  sup : supervisorMachine.Reachable s.sup
  op_lt : ∀ k op, s.ops k = some op → k < s.nextOp
  home : ∀ id m, s.sup.fleet.registry id = some m → s.homes id = some m.project
  /-- Every process of a swept project is still to be closed. -/
  left : ∀ k op project ids, s.ops k = some op → op.sweep = some (project, ids) →
    ∀ id m, s.sup.fleet.registry id = some m → m.project = project → id ∈ ids
  forgotten : ∀ k op project, s.ops k = some op → op.forgets = some project →
    s.engine project = none

section turn
variable [Sha256]

theorem Turn.sup (h : Turn s t op op') :
    t.sup = s.sup ∨ ∃ e, supervisorMachine.step s.sup e = some t.sup := by
  cases h with
  | goes op op' hsup | stored op op' project next hop hsup | listed project ids hids hsup
  | forgot project hsup => exact .inl hsup
  | called op op' e he hsup => exact .inr ⟨e, hsup⟩
  | registered op op' r hop hsup => exact .inr ⟨.register r, hsup⟩
  | closed project id rest call hsup => exact .inr ⟨.close id, hsup⟩

variable {id : ProcessId} {m : Managed}

theorem Turn.row (h : Turn s t op op') (hs : s.Swept) (hm : t.sup.fleet.registry id = some m) :
    (∃ m₀, s.sup.fleet.registry id = some m₀ ∧ m₀.project = m.project) ∧
        t.homes id = s.homes id ∨
      op.registersIn = some m.project ∧ t.homes id = some m.project := by
  have howned := fleet_owned hs.sup
  cases h with
  | goes op op' hsup hhomes | stored op op' project next hop hsup hhomes
  | listed project ids hids hsup hhomes | forgot project hsup hhomes =>
    rw [hsup] at hm
    exact .inl ⟨⟨m, hm, rfl⟩, congrFun hhomes id⟩
  | called op op' e he hsup hhomes =>
    exact .inl ⟨Supervisor.step_row howned he hsup hm, congrFun hhomes id⟩
  | closed project i rest call hsup hhomes =>
    exact .inl ⟨Supervisor.step_row howned rfl hsup hm, congrFun hhomes id⟩
  | registered op op' r hop hsup hhomes =>
    rw [hhomes]
    rcases Supervisor.step_register hsup hm with ⟨rfl, hproject⟩ | ⟨hid, hold⟩
    · rw [hproject]
      exact .inr ⟨hop, put_self⟩
    · exact .inl ⟨⟨m, hold, rfl⟩, put_of_ne hid⟩

variable {project : ProjectId}

theorem Turn.engine (h : Turn s t op op') (hnone : s.engine project = none)
    (hstores : op.storesIn ≠ some project) : t.engine project = none := by
  cases h with
  | goes op op' hsup hhomes hengine | called op op' e he hsup hhomes hengine
  | registered op op' r hop hsup hhomes hengine | listed p ids hids hsup hhomes hengine
  | closed p id rest call hsup hhomes hengine =>
    rw [hengine]
    exact hnone
  | forgot p hsup hhomes hengine =>
    rw [hengine]
    exact erase_of_none hnone
  | stored op op' p next hop hsup hhomes hengine =>
    have hne : project ≠ p := by
      intro heq
      rw [heq] at hstores
      exact hstores hop
    rw [hengine, put_of_ne hne]
    exact hnone

theorem Turn.left (h : Turn s t op op') (hs : s.Swept) (hk : s.ops k = some op)
    {ids : List ProcessId} (hsweep : op'.sweep = some (project, ids))
    (hm : t.sup.fleet.registry id = some m) (hproject : m.project = project) : id ∈ ids := by
  cases h with
  | goes op op' hsup hhomes hengine hkeeps =>
    rw [hsup] at hm
    rcases hkeeps with hnone | hsame
    · rw [hnone] at hsweep
      cases hsweep
    · exact hs.left k op project ids hk (hsame.symm.trans hsweep) id m hm hproject
  | called op op' e he hsup hhomes hengine hnone
  | registered op op' r hop hsup hhomes hengine hnone
  | stored op op' p next hop hsup hhomes hengine hnone =>
    rw [hnone] at hsweep
    cases hsweep
  | listed p order hids hsup =>
    cases hsweep
    rw [hsup] at hm
    have hlt := (fleet_owned hs.sup).entry_lt id m hm
    have hlisted : id ∈ s.idsIn project := by
      simp [idsIn, hlt, hm, hproject]
    exact hids.mem_iff.mpr hlisted
  | closed p i rest call hsup =>
    cases hsweep
    obtain ⟨m₀, hm₀, hsame⟩ := Supervisor.step_row (fleet_owned hs.sup) rfl hsup hm
    have hleft := hs.left k _ project (i :: ids) hk rfl id m₀ hm₀ (hsame.trans hproject)
    rcases List.mem_cons.mp hleft with rfl | hrest
    · rcases Supervisor.close_step hsup with ⟨m₁, -, hfleet, -⟩ | ⟨hgone, -⟩
      · rw [hfleet] at hm
        exact absurd rfl (erase_eq_some.mp hm).1
      · rw [hgone] at hm₀
        cases hm₀
    · exact hrest
  | forgot p hsup =>
    cases hsweep
    rw [hsup] at hm
    exact hs.left k _ project [] hk rfl id m hm hproject

theorem Turn.forgotten (h : Turn s t op op') (hs : s.Swept) (hk : s.ops k = some op)
    (hforgets : op'.forgets = some project) : t.engine project = none := by
  cases h with
  | goes op op' hsup hhomes hengine hsweep hkeeps =>
    rw [hengine]
    rcases hkeeps with hnone | hsame
    · rw [hnone] at hforgets
      cases hforgets
    · exact hs.forgotten k op project hk (hsame.symm.trans hforgets)
  | called op op' e he hsup hhomes hengine hsweep hnone
  | registered op op' r hop hsup hhomes hengine hsweep hnone
  | stored op op' p next hop hsup hhomes hengine hsweep hnone =>
    rw [hnone] at hforgets
    cases hforgets
  | listed p order | closed p i rest call => cases hforgets
  | forgot p hsup hhomes hengine =>
    cases hforgets
    rw [hengine]
    exact if_pos rfl

theorem Swept.turns (hs : s.Swept) (hk : s.ops k = some op) (ht : s.Turns k op t)
    (hclear : ∀ j removal, s.ops j = some removal → op.Clear removal) : t.Swept := by
  obtain ⟨op', hops, hnext, hturn⟩ := ht
  constructor
  · rcases hturn.sup with hsame | ⟨e, he⟩
    · rw [hsame]
      exact hs.sup
    · exact hs.sup.step he
  · intro j removal hj
    rw [hops] at hj
    rw [hnext]
    rcases put_eq_some.mp hj with ⟨rfl, -⟩ | ⟨-, hold⟩
    · exact hs.op_lt j op hk
    · exact hs.op_lt j removal hold
  · intro id m hm
    rcases hturn.row hs hm with ⟨⟨m₀, hm₀, hsame⟩, hhome⟩ | ⟨-, hhome⟩
    · rw [hhome, ← hsame]
      exact hs.home id m₀ hm₀
    · exact hhome
  · intro j removal project ids hj hsweep id m hm hproject
    rw [hops] at hj
    rcases put_eq_some.mp hj with ⟨rfl, rfl⟩ | ⟨-, hold⟩
    · exact hturn.left hs hk hsweep hm hproject
    · rcases hturn.row hs hm with ⟨⟨m₀, hm₀, hsame⟩, -⟩ | ⟨hregisters, -⟩
      · exact hs.left j removal project ids hold hsweep id m₀ hm₀ (hsame.trans hproject)
      · have hswept : removal.sweep.map Prod.fst = some m.project := by
          rw [hsweep, hproject]
          rfl
        exact absurd hswept ((hclear j removal hold).1 m.project hregisters)
  · intro j removal project hj hforgets
    rw [hops] at hj
    rcases put_eq_some.mp hj with ⟨rfl, rfl⟩ | ⟨-, hold⟩
    · exact hturn.forgotten hs hk hforgets
    · refine hturn.engine (hs.forgotten j removal project hold hforgets) ?_
      intro hstores
      exact (hclear j removal hold).2 project hstores hforgets

end turn

section runs
variable [Sha256]

variable {e : LifecycleEvent}

theorem sup_step (ht : s.step e = some t) :
    t.sup = s.sup ∨ ∃ act, supervisorMachine.step s.sup act = some t.sup := by
  cases e with
  | remove project | «open» root | reload project | launch project launching label
  | rename id label =>
    cases ht
    exact .inl rfl
  | proceed k env =>
    obtain ⟨op, -, hop⟩ := bind_eq_some_iff.mp ht
    obtain ⟨op', -, -, hturn⟩ := proceed_turns hop
    exact hturn.sup
  | core e =>
    simp only [step] at ht
    split_ifs at ht
    obtain ⟨sup, hsup, rfl⟩ := map_eq_some_iff.mp ht
    exact .inr ⟨e, hsup⟩

theorem sup_reachable (h : lifecycleMachine.Reachable s) :
    supervisorMachine.Reachable s.sup := by
  refine h.map ?_ fun s e t => sup_step
  intro s hs
  rw [hs]
  rfl

theorem swept_init : Swept .init := by
  constructor
  · exact Machine.reachable_of_init rfl
  · intro k op hk
    cases hk
  · intro id m hm
    cases hm
  · intro k op project ids hk
    cases hk
  · intro k op project hk
    cases hk

theorem Swept.begin (hs : s.Swept) (hsweep : op.sweep = none) (hforgets : op.forgets = none) :
    (s.begin op).Swept := by
  constructor
  · exact hs.sup
  · intro k op' hk
    rcases put_eq_some.mp hk with ⟨rfl, -⟩ | ⟨-, hold⟩
    · exact Nat.lt_succ_self _
    · exact Nat.lt_succ_of_lt (hs.op_lt k op' hold)
  · exact hs.home
  · intro k op' project ids hk hswept
    rcases put_eq_some.mp hk with ⟨-, rfl⟩ | ⟨-, hold⟩
    · rw [hsweep] at hswept
      cases hswept
    · exact hs.left k op' project ids hold hswept
  · intro k op' project hk hforgot
    rcases put_eq_some.mp hk with ⟨-, rfl⟩ | ⟨-, hold⟩
    · rw [hforgets] at hforgot
      cases hforgot
    · exact hs.forgotten k op' project hold hforgot

theorem Swept.core (hs : s.Swept) {e : SupervisorEvent} (he : e.isRegister = false)
    {sup : Supervisor} (hsup : s.sup.step e = some sup) : Swept { s with sup } := by
  have howned := fleet_owned hs.sup
  constructor
  · exact hs.sup.step (e := e) hsup
  · exact hs.op_lt
  · intro id m hm
    obtain ⟨m₀, hm₀, hsame⟩ := Supervisor.step_row howned he hsup hm
    rw [← hsame]
    exact hs.home id m₀ hm₀
  · intro k op project ids hk hsweep id m hm hproject
    obtain ⟨m₀, hm₀, hsame⟩ := Supervisor.step_row howned he hsup hm
    exact hs.left k op project ids hk hsweep id m₀ hm₀ (hsame.trans hproject)
  · exact hs.forgotten

theorem swept_step (htimely : Timely s e) (hs : s.Swept) (ht : s.step e = some t) : t.Swept := by
  cases e with
  | remove project | «open» root | reload project | launch project launching label =>
    cases ht
    exact hs.begin rfl rfl
  | proceed k env =>
    obtain ⟨op, hk, hop⟩ := bind_eq_some_iff.mp ht
    refine hs.turns hk (proceed_turns hop) ?_
    intro j removal hj
    exact htimely j (hs.op_lt j removal hj) op hk removal hj
  | core e =>
    simp only [step] at ht
    by_cases he : e.isRegister
    · rw [if_pos he] at ht
      cases ht
    · rw [if_neg he] at ht
      obtain ⟨sup, hsup, rfl⟩ := map_eq_some_iff.mp ht
      exact hs.core (Bool.eq_false_iff.mpr he) hsup
  | rename id label =>
    cases ht
    exact ⟨hs.sup, hs.op_lt, hs.home, hs.left, hs.forgotten⟩

theorem swept_of_reachableUnder (h : lifecycleMachine.ReachableUnder Timely s) : s.Swept := by
  refine h.invariant (P := fun s => s.Swept) ?_ ?_
  · intro s hs
    rw [hs]
    exact swept_init
  · intro s e t hG hs ht
    exact swept_step hG hs ht

end runs

end Lifecycle

/-- In every run in which no process is registered in a project once a removal of it has listed its
processes, and no state of it stored once one has forgotten it: after a removal has returned, no
process of the project is registered, none holds a child once everything addressed to it has been
handled, and the engine keeps nothing of the project. -/
theorem Lifecycle.removed_project_holds_nothing [Sha256] {s : Lifecycle}
    (h : lifecycleMachine.ReachableUnder Timely s) {k : Nat} {project : ProjectId}
    (hk : s.ops k = some (.done (.removed project))) :
    (∀ id m, s.sup.fleet.registry id = some m → m.project ≠ project) ∧
      (∀ a x, s.sup.fleet.actors a = some x → s.homes x.process = some project →
        s.sup.Settled x.process → x.child = .none) ∧
      s.engine project = none := by
  have hs := swept_of_reachableUnder h
  have hrows : ∀ id m, s.sup.fleet.registry id = some m → m.project ≠ project := by
    intro id m hm hproject
    have hleft := hs.left k _ project [] hk rfl id m hm hproject
    cases hleft
  refine ⟨hrows, ?_, hs.forgotten k _ project hk rfl⟩
  intro a x hx hhome hsettled
  by_contra hchild
  have hlive : x.Live := by
    intro hdone
    have hholds := ((fleet_owned hs.sup).sound a x hx).child hchild
    rw [hdone] at hholds
    cases hholds
  have hheld := Supervisor.held_of_reachable hs.sup
  obtain ⟨-, -, -, m, hm⟩ := hsettled.of_live hheld hx rfl hlive
  have hprojects := (hs.home x.process m hm).symm.trans hhome
  exact hrows x.process m hm (Option.some.inj hprojects)

/-- A project without a `solo.yml` of its own is opened. -/
def openEmpty : List LifecycleEvent := .open [.rootDir] :: List.replicate 4 (.proceed 0 {})

/-- A terminal is launched in it, up to the read of the project's root. -/
def requestTerminal : List LifecycleEvent :=
  [.launch 1 (.ungated ⟨.terminal, ProcessKind.terminal_ne_command⟩ "bash" none) "Terminal", .proceed 1 {}]

/-- It is registered and started, and runs. -/
def runTerminal : List LifecycleEvent :=
  [.proceed 1 {}, .proceed 1 {}, .core (.proceed 0 0 none), .core (.proceed 0 0 none),
    .core (.proceed 0 0 none), .proceed 1 {}, .core (.publish 0), .core (.move 0 .spawnTask),
    .core (.attachJoin 0), .core (.move 0 .poll), .core (.move 0 .tryRecv),
    .core (.move 0 (.spawn [])), .core (.advance 0), .core (.publish 0)]

/-- The removal of the project stops and closes the terminal. -/
def removeBusy : List LifecycleEvent :=
  [.remove 1, .proceed 2 {}, .proceed 2 { order := [1] }, .proceed 2 {},
    .core (.proceed 1 0 none), .proceed 2 {}, .proceed 2 {}, .proceed 2 { order := [1] },
    .proceed 2 {}, .core (.proceed 2 0 none), .core (.move 0 .recv), .core (.advance 0),
    .core (.publish 0), .core (.move 0 .reap), .core (.advance 0), .core (.publish 0),
    .core (.proceed 2 0 none), .core (.proceed 2 0 none)] ++ List.replicate 5 (.proceed 2 {})

theorem Lifecycle.removed_project_holds_nothing_busy :
    letI := zeroSha
    ∃ s x, lifecycleMachine.ReachableUnder Timely s ∧ s.ops 2 = some (.done (.removed 1)) ∧
      s.sup.fleet.actors 0 = some x ∧ s.homes x.process = some 1 ∧ x.child = .none ∧
      (∀ id m, s.sup.fleet.registry id = some m → m.project ≠ 1) ∧ s.engine 1 = none := by
  let _ := zeroSha
  obtain ⟨s, hs, hremoved, hactor, hquiet, htold⟩ :=
    Machine.exists_reachableUnder_of_run (M := lifecycleMachine) (G := Timely) rfl
      (openEmpty ++ requestTerminal ++ runTerminal ++ removeBusy) (by decide)
      (fun s => (s.ops 2).bind LifecycleOp.outcome = some (.removed 1) ∧
        (s.sup.fleet.actors 0).any (fun x => s.homes x.process = some 1) = true ∧
        (∀ a < s.sup.fleet.nextActor, ∀ x ∈ s.sup.fleet.actors a, x.Quiet) ∧
        ∀ c < s.sup.nextCall, ∀ call ∈ s.sup.calls c, call.takenHandle = none) (by decide)
  obtain ⟨op, hk, hop⟩ := Option.bind_eq_some_iff.mp hremoved
  obtain rfl := LifecycleOp.outcome_eq_some.mp hop
  obtain ⟨x, hx, hhome⟩ := Option.any_eq_true _ _ |>.mp hactor
  have hhome := of_decide_eq_true hhome
  obtain ⟨hrows, hchildren, hengine⟩ := removed_project_holds_nothing hs hk
  have hsup : supervisorMachine.Reachable s.sup := (swept_of_reachableUnder hs).sup
  have hsettled := (Supervisor.held_of_reachable hsup).settled_all hquiet htold x.process
  exact ⟨s, x, hs, hk, hx, hhome, hchildren 0 x hx hhome hsettled, hrows, hengine⟩

/-- A terminal is launched while the project is removed: it registers when the removal has listed
the project's processes. The removal has returned, every operation and the terminal are at rest, and
the terminal is registered in the removed project with a live child. -/
theorem Lifecycle.terminal_outlives_removal :
    letI := zeroSha
    ∃ s, lifecycleMachine.Reachable s ∧ s.ops 2 = some (.done (.removed 1)) ∧
      (∀ k < s.nextOp, ∀ op ∈ s.ops k, op.outcome ≠ none) ∧ (∀ id, s.sup.Settled id) ∧
      (∃ m, s.sup.fleet.registry 1 = some m ∧ m.project = 1) ∧
      ∃ x, s.sup.fleet.actors 0 = some x ∧ x.process = 1 ∧ x.child = .live := by
  let _ := zeroSha
  obtain ⟨s, hs, hremoved, hdone, hquiet, htold, hrow, hactor⟩ :=
    Machine.exists_reachable_of_run (M := lifecycleMachine) rfl
      (openEmpty ++ requestTerminal ++ .remove 1 :: List.replicate 8 (.proceed 2 {}) ++ runTerminal)
      (fun s => (s.ops 2).bind LifecycleOp.outcome = some (.removed 1) ∧
        (∀ k < s.nextOp, ∀ op ∈ s.ops k, op.outcome ≠ none) ∧
        (∀ a < s.sup.fleet.nextActor, ∀ x ∈ s.sup.fleet.actors a, x.Quiet) ∧
        (∀ c < s.sup.nextCall, ∀ call ∈ s.sup.calls c, call.takenHandle = none) ∧
        (s.sup.fleet.registry 1).any (fun m => m.project = 1) = true ∧
        (s.sup.fleet.actors 0).any (fun x => x.process = 1 ∧ x.child = .live) = true) (by decide)
  obtain ⟨op, hk, hop⟩ := Option.bind_eq_some_iff.mp hremoved
  obtain rfl := LifecycleOp.outcome_eq_some.mp hop
  obtain ⟨m, hm, hproject⟩ := Option.any_eq_true _ _ |>.mp hrow
  obtain ⟨x, hx, hchild⟩ := Option.any_eq_true _ _ |>.mp hactor
  have hsup := sup_reachable hs
  have hsettled := (Supervisor.held_of_reachable hsup).settled_all hquiet htold
  exact ⟨s, hs, hk, hdone, hsettled, ⟨m, hm, of_decide_eq_true hproject⟩,
    x, hx, of_decide_eq_true hchild⟩

end Soloist
