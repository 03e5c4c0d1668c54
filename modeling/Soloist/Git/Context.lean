import Soloist.Git.StatusWatch

/-! The git context that every surface shares: the last status read of each project, the gate that
its operations take in turn, and the signal that stops the exchange running against it. The context
learns of a removed project from the bus, and drops what it holds one map after the other. -/
namespace Soloist

abbrev GateId := Nat
abbrev GitOpId := Nat

/-- What a caller asks of the context. -/
inductive GitOp
  /-- The remembered status, or else a read. -/
  | status
  /-- A read that is filed: `refresh`, or `status` with nothing remembered. -/
  | read
  /-- `mutating`, which asks for trust first; an exchange with a remote arms its stop signal. -/
  | change (arms : Bool)
  /-- Anything else run under the gate: a look at the repository, or a request to the forge, which
  arms its stop signal. -/
  | gated (arms : Bool)
  deriving DecidableEq, Repr

/-- How far a caller's operation is. -/
inductive GitStage (Status : Type)
  | begun
  /-- It has a handle on the gate. -/
  | waiting (gate : GateId)
  /-- It holds the gate, and the repository or the forge is at work. -/
  | locked (gate : GateId)
  | armed (gate : GateId)
  /-- The repository answered; `stamp` counts the answers. -/
  | answered (gate : GateId) (stamp : ℕ) (read : Option Status)
  | finished (gate : GateId)
  | over
  deriving DecidableEq, Repr

/-- The three maps of the context. -/
inductive Shelf
  | cached | gates | stops
  deriving DecidableEq, Repr

variable {Status : Type}

def GitStage.gate : GitStage Status → Option GateId
  | .begun | .over => none
  | .waiting gate | .locked gate | .armed gate | .answered gate _ _ | .finished gate => some gate

def GitStage.held : GitStage Status → Option GateId
  | .begun | .over | .waiting _ => none
  | .locked gate | .armed gate | .answered gate _ _ | .finished gate => some gate

structure GitTask (Status : Type) where
  project : ProjectId
  op : GitOp
  stage : GitStage Status
  deriving DecidableEq, Repr

structure GitContext (Status : Type) where
  /-- The projects with a durable record. -/
  projects : List ProjectId
  nextProject : ProjectId
  /-- The projects whose record is gone and whose removal is not announced yet. -/
  removing : List ProjectId
  busCapacity : ℕ
  bus : Feed RailEvent
  /-- The project being forgotten, and the maps it is still to be dropped from. -/
  forgetting : Option (ProjectId × List Shelf)
  /-- The last read per project; `none` is a root that is not a repository. -/
  cached : Dict ProjectId (Option Status)
  gates : Dict ProjectId GateId
  /-- The stop signal on file, named by the operation that armed it. -/
  stops : Dict ProjectId GitOpId
  nextGate : GateId
  tasks : Dict GitOpId (GitTask Status)
  nextStamp : ℕ
  /-- Of the reads that were filed, the one the repository answered last. -/
  latest : Dict ProjectId (ℕ × Option Status)

inductive GitContextEvent (Status : Type)
  /-- A folder is opened: its record is new, also when the folder was open before. -/
  | openProject
  /-- A removal that found the project's record deletes it. -/
  | remove (project : ProjectId)
  /-- Its removal is published. -/
  | announceRemoved (project : ProjectId)
  /-- Anything else is published. -/
  | announce (e : RailEvent)
  /-- The reactor reads the bus. -/
  | hear
  /-- It drops the project from the next map. -/
  | forget
  /-- A caller has resolved the root of a project. -/
  | begin (id : GitOpId) (project : ProjectId) (op : GitOp)
  | consult (id : GitOpId)
  | authorize (id : GitOpId) (trusted : Bool)
  | takeGate (id : GitOpId)
  | lock (id : GitOpId)
  | arm (id : GitOpId)
  | answer (id : GitOpId) (status : Except GitError Status)
  | file (id : GitOpId)
  /-- The repository, or the forge, is done. -/
  | conclude (id : GitOpId)
  | release (id : GitOpId)
  /-- The caller is done, or goes on with the next part of what it does. -/
  | proceed (id : GitOpId) (next : Option GitOp)
  deriving DecidableEq, Repr

namespace GitContext

def readOf : Except GitError Status → Option (Option Status)
  | .ok status => some (some status)
  | .error .notARepo => some none
  | .error _ => none

def setStage (s : GitContext Status) (id : GitOpId) (task : GitTask Status)
    (stage : GitStage Status) : GitContext Status :=
  { s with tasks := AList.insert id { task with stage } s.tasks }

def Free (s : GitContext Status) (gate : GateId) : Prop :=
  ∀ entry ∈ s.tasks.entries, entry.2.stage.held ≠ some gate

instance (s : GitContext Status) (gate : GateId) : Decidable (s.Free gate) :=
  inferInstanceAs (Decidable (∀ entry ∈ _, _))

def gate (s : GitContext Status) (project : ProjectId) : GateId :=
  (AList.lookup project s.gates).getD s.nextGate

/-- The first lines of `status`: what is remembered is the answer. -/
def consulted (s : GitContext Status) (id : GitOpId) (task : GitTask Status) : GitContext Status :=
  if (AList.lookup task.project s.cached).isSome then s.setStage id task .over
  else s.setStage id { task with op := .read } .begun

/-- `mutating` asks the durable record first. -/
def authorized (s : GitContext Status) (id : GitOpId) (task : GitTask Status) (arms trusted : Bool) :
    GitContext Status :=
  if trusted then s.setStage id { task with op := .gated arms } .begun
  else s.setStage id task .over

/-- `Git::gate`. -/
def gateTaken (s : GitContext Status) (id : GitOpId) (task : GitTask Status) : GitContext Status :=
  let gate := s.gate task.project
  let nextGate := if (AList.lookup task.project s.gates).isSome then s.nextGate else s.nextGate + 1
  { s.setStage id task (.waiting gate) with
    gates := AList.insert task.project gate s.gates
    nextGate }

/-- `Git::arm`. -/
def armedBy (s : GitContext Status) (id : GitOpId) (task : GitTask Status) (gate : GateId) :
    GitContext Status :=
  { s.setStage id task (.armed gate) with stops := AList.insert task.project id s.stops }

/-- A failed read leaves what is remembered untouched. -/
def answeredWith (s : GitContext Status) (id : GitOpId) (task : GitTask Status) (gate : GateId)
    (status : Except GitError Status) : GitContext Status :=
  match readOf status with
  | some read =>
    { s.setStage id task (.answered gate s.nextStamp read) with nextStamp := s.nextStamp + 1 }
  | none => s.setStage id task (.finished gate)

/-- The last lines of `Git::read`. -/
def filed (s : GitContext Status) (id : GitOpId) (task : GitTask Status) (gate : GateId)
    (stamp : ℕ) (read : Option Status) : GitContext Status :=
  let newest := (AList.lookup task.project s.latest).all fun last => last.1 < stamp
  { s.setStage id task (.finished gate) with
    cached := AList.insert task.project read s.cached
    latest := if newest then AList.insert task.project (stamp, read) s.latest else s.latest }

def heard (s : GitContext Status) : Option RailEvent → GitContext Status
  | some (.removed id) => { s with forgetting := some (id, [.cached, .gates, .stops]) }
  | some .opened | some .other | none => s

/-- One line of `Git::forget`. -/
def dropped (s : GitContext Status) (project : ProjectId) : Shelf → GitContext Status
  | .cached => { s with cached := AList.erase project s.cached }
  | .gates => { s with gates := AList.erase project s.gates }
  | .stops => { s with stops := AList.erase project s.stops }

/-- What is left of a `forget`. -/
def leftToForget (project : ProjectId) (rest : List Shelf) : Option (ProjectId × List Shelf) :=
  if rest = [] then none else some (project, rest)

def taskStep (s : GitContext Status) (id : GitOpId) (task : GitTask Status) :
    GitContextEvent Status → Option (GitContext Status)
  | .consult _ =>
    match task.stage, task.op with
    | .begun, .status => some (s.consulted id task)
    | _, _ => none
  | .authorize _ trusted =>
    match task.stage, task.op with
    | .begun, .change arms => some (s.authorized id task arms trusted)
    | _, _ => none
  | .takeGate _ =>
    match task.stage, task.op with
    | .begun, .read | .begun, .gated _ => some (s.gateTaken id task)
    | _, _ => none
  | .lock _ =>
    match task.stage with
    | .waiting gate => if s.Free gate then some (s.setStage id task (.locked gate)) else none
    | _ => none
  | .arm _ =>
    match task.stage, task.op with
    | .locked gate, .gated true => some (s.armedBy id task gate)
    | _, _ => none
  | .answer _ status =>
    match task.stage, task.op with
    | .locked gate, .read => some (s.answeredWith id task gate status)
    | _, _ => none
  | .file _ =>
    match task.stage with
    | .answered gate stamp read => some (s.filed id task gate stamp read)
    | _ => none
  | .conclude _ =>
    match task.stage, task.op with
    | .armed gate, _ => some (s.setStage id task (.finished gate))
    | .locked gate, .gated false => some (s.setStage id task (.finished gate))
    | _, _ => none
  | .release _ =>
    match task.stage with
    | .finished _ => some (s.setStage id task .over)
    | _ => none
  | .proceed _ next =>
    match task.stage, next with
    | .over, some op => some (s.setStage id { task with op } .begun)
    | .over, none => some { s with tasks := AList.erase id s.tasks }
    | _, _ => none
  | _ => none

def onTask (s : GitContext Status) (id : GitOpId) (e : GitContextEvent Status) :
    Option (GitContext Status) :=
  (AList.lookup id s.tasks).bind fun task => s.taskStep id task e

def step (s : GitContext Status) : GitContextEvent Status → Option (GitContext Status)
  | .openProject =>
    some { s with
      projects := s.nextProject :: s.projects
      nextProject := s.nextProject + 1 }
  | .remove project =>
    if project < s.nextProject then
      some { s with
        projects := s.projects.filter fun p => p ≠ project
        removing := project :: s.removing }
    else none
  | .announceRemoved project =>
    if project ∈ s.removing then
      some { s with
        removing := s.removing.erase project
        bus := s.bus.publish s.busCapacity (.removed project) }
    else none
  | .announce e =>
    if e = .opened ∨ e = .other then some { s with bus := s.bus.publish s.busCapacity e } else none
  | .hear =>
    if s.forgetting = none then
      s.bus.recv.map fun r => { s with bus := r.2 }.heard r.1
    else none
  | .forget =>
    match s.forgetting with
    | some (project, shelf :: rest) =>
      some { s.dropped project shelf with forgetting := leftToForget project rest }
    | _ => none
  | .begin id project op =>
    if project ∈ s.projects ∧ AList.lookup id s.tasks = none then
      some { s with tasks := AList.insert id ⟨project, op, .begun⟩ s.tasks }
    else none
  | .consult id => s.onTask id (.consult id)
  | .authorize id trusted => s.onTask id (.authorize id trusted)
  | .takeGate id => s.onTask id (.takeGate id)
  | .lock id => s.onTask id (.lock id)
  | .arm id => s.onTask id (.arm id)
  | .answer id status => s.onTask id (.answer id status)
  | .file id => s.onTask id (.file id)
  | .conclude id => s.onTask id (.conclude id)
  | .release id => s.onTask id (.release id)
  | .proceed id next => s.onTask id (.proceed id next)

def new (projects : List ProjectId) (nextProject : ProjectId) (busCapacity : ℕ) :
    GitContext Status where
  projects
  nextProject
  removing := []
  busCapacity
  bus := .empty
  forgetting := none
  cached := ∅
  gates := ∅
  stops := ∅
  nextGate := 0
  tasks := ∅
  nextStamp := 0
  latest := ∅

end GitContext

open GitContext in
def gitContext (Status : Type) : Machine (GitContext Status) (GitContextEvent Status) where
  init s := ∃ projects next capacity, (∀ p ∈ projects, p < next) ∧ s = new projects next capacity
  step := step

end Soloist

/-! The steps of the git context one by one, and what they do to its tasks and their gates. -/
namespace Soloist
namespace GitContext
variable {Status : Type} {s t : GitContext Status} {e : GitContextEvent Status}
variable {id : GitOpId} {task : GitTask Status}

attribute [local simp] taskStep

inductive TaskTurn (s : GitContext Status) (id : GitOpId) (task : GitTask Status) :
    GitContextEvent Status → GitContext Status → Prop
  | consult (hstage : task.stage = .begun) (hop : task.op = .status) :
    TaskTurn s id task (.consult id) (s.consulted id task)
  | authorize (arms trusted : Bool) (hstage : task.stage = .begun) (hop : task.op = .change arms) :
    TaskTurn s id task (.authorize id trusted) (s.authorized id task arms trusted)
  | takeGate (hstage : task.stage = .begun) :
    TaskTurn s id task (.takeGate id) (s.gateTaken id task)
  | lock (gate : GateId) (hstage : task.stage = .waiting gate) (hfree : s.Free gate) :
    TaskTurn s id task (.lock id) (s.setStage id task (.locked gate))
  | arm (gate : GateId) (hstage : task.stage = .locked gate) (hop : task.op = .gated true) :
    TaskTurn s id task (.arm id) (s.armedBy id task gate)
  | answer (gate : GateId) (status : Except GitError Status) (hstage : task.stage = .locked gate)
    (hop : task.op = .read) :
    TaskTurn s id task (.answer id status) (s.answeredWith id task gate status)
  | file (gate : GateId) (stamp : ℕ) (read : Option Status)
    (hstage : task.stage = .answered gate stamp read) :
    TaskTurn s id task (.file id) (s.filed id task gate stamp read)
  | conclude (gate : GateId) (hstage : task.stage = .armed gate ∨ task.stage = .locked gate) :
    TaskTurn s id task (.conclude id) (s.setStage id task (.finished gate))
  | release (gate : GateId) (hstage : task.stage = .finished gate) :
    TaskTurn s id task (.release id) (s.setStage id task .over)
  | resume (op : GitOp) (hstage : task.stage = .over) :
    TaskTurn s id task (.proceed id (some op)) (s.setStage id { task with op } .begun)
  | leave (hstage : task.stage = .over) :
    TaskTurn s id task (.proceed id none) { s with tasks := AList.erase id s.tasks }

inductive Turn (s : GitContext Status) : GitContextEvent Status → GitContext Status → Prop
  | openProject :
    Turn s .openProject { s with
      projects := s.nextProject :: s.projects
      nextProject := s.nextProject + 1 }
  | remove (project : ProjectId) :
    Turn s (.remove project) { s with
      projects := s.projects.filter fun p => p ≠ project
      removing := project :: s.removing }
  | announceRemoved (project : ProjectId) (h : project ∈ s.removing) :
    Turn s (.announceRemoved project) { s with
      removing := s.removing.erase project
      bus := s.bus.publish s.busCapacity (.removed project) }
  | announce (e : RailEvent) :
    Turn s (.announce e) { s with bus := s.bus.publish s.busCapacity e }
  | hear (e : Option RailEvent) (bus : Feed RailEvent) (h : s.forgetting = none)
    (hrecv : s.bus.recv = some (e, bus)) : Turn s .hear ({ s with bus }.heard e)
  | forget (project : ProjectId) (shelf : Shelf) (rest : List Shelf)
    (h : s.forgetting = some (project, shelf :: rest)) :
    Turn s .forget { s.dropped project shelf with forgetting := leftToForget project rest }
  | begin (id : GitOpId) (project : ProjectId) (op : GitOp)
    (h : AList.lookup id s.tasks = none) :
    Turn s (.begin id project op)
      { s with tasks := AList.insert id ⟨project, op, .begun⟩ s.tasks }
  | task (id : GitOpId) (task : GitTask Status) {e : GitContextEvent Status} {t : GitContext Status}
    (h : AList.lookup id s.tasks = some task) (hturn : TaskTurn s id task e t) : Turn s e t

theorem consult_turn (h : s.taskStep id task (.consult id) = some t) :
    TaskTurn s id task (.consult id) t := by
  simp only [taskStep] at h
  split at h
  next hstage hop =>
    cases h
    exact .consult hstage hop
  · cases h

theorem authorize_turn {trusted : Bool} (h : s.taskStep id task (.authorize id trusted) = some t) :
    TaskTurn s id task (.authorize id trusted) t := by
  simp only [taskStep] at h
  split at h
  next arms hstage hop =>
    cases h
    exact .authorize arms trusted hstage hop
  · cases h

theorem takeGate_turn (h : s.taskStep id task (.takeGate id) = some t) :
    TaskTurn s id task (.takeGate id) t := by
  simp only [taskStep] at h
  split at h
  next hstage _ =>
    cases h
    exact .takeGate hstage
  next hstage _ =>
    cases h
    exact .takeGate hstage
  · cases h

theorem lock_turn (h : s.taskStep id task (.lock id) = some t) : TaskTurn s id task (.lock id) t := by
  simp only [taskStep] at h
  split at h
  next gate hstage =>
    split_ifs at h with hfree
    cases h
    exact .lock gate hstage hfree
  · cases h

theorem arm_turn (h : s.taskStep id task (.arm id) = some t) : TaskTurn s id task (.arm id) t := by
  simp only [taskStep] at h
  split at h
  next gate hstage hop =>
    cases h
    exact .arm gate hstage hop
  · cases h

theorem answer_turn {status : Except GitError Status}
    (h : s.taskStep id task (.answer id status) = some t) :
    TaskTurn s id task (.answer id status) t := by
  simp only [taskStep] at h
  split at h
  next gate hstage hop =>
    cases h
    exact .answer gate status hstage hop
  · cases h

theorem file_turn (h : s.taskStep id task (.file id) = some t) : TaskTurn s id task (.file id) t := by
  simp only [taskStep] at h
  split at h
  next gate stamp read hstage =>
    cases h
    exact .file gate stamp read hstage
  · cases h

theorem conclude_turn (h : s.taskStep id task (.conclude id) = some t) :
    TaskTurn s id task (.conclude id) t := by
  simp only [taskStep] at h
  split at h
  next gate hstage =>
    cases h
    exact .conclude gate (.inl hstage)
  next gate hstage _ =>
    cases h
    exact .conclude gate (.inr hstage)
  · cases h

theorem release_turn (h : s.taskStep id task (.release id) = some t) :
    TaskTurn s id task (.release id) t := by
  simp only [taskStep] at h
  split at h
  next gate hstage =>
    cases h
    exact .release gate hstage
  · cases h

theorem proceed_turn {next : Option GitOp} (h : s.taskStep id task (.proceed id next) = some t) :
    TaskTurn s id task (.proceed id next) t := by
  simp only [taskStep] at h
  split at h
  next op hstage =>
    cases h
    exact .resume op hstage
  next hstage =>
    cases h
    exact .leave hstage
  · cases h

theorem turn_of_onTask (hturn : ∀ task, s.taskStep id task e = some t → TaskTurn s id task e t)
    (h : s.onTask id e = some t) : s.Turn e t := by
  obtain ⟨task, htask, hstep⟩ := Option.bind_eq_some_iff.mp h
  exact .task id task htask (hturn task hstep)

theorem turn_of_step (h : s.step e = some t) : s.Turn e t := by
  cases e with
  | openProject =>
    cases h
    exact .openProject
  | remove project =>
    simp only [step] at h
    split_ifs at h with hknown
    cases h
    exact .remove project
  | announceRemoved project =>
    simp only [step] at h
    split_ifs at h with hremoving
    cases h
    exact .announceRemoved project hremoving
  | announce e =>
    simp only [step] at h
    split_ifs at h with hother
    cases h
    exact .announce e
  | hear =>
    simp only [step] at h
    split_ifs at h with hidle
    obtain ⟨⟨e, bus⟩, hrecv, ht⟩ := Option.map_eq_some_iff.mp h
    cases ht
    exact .hear e bus hidle hrecv
  | forget =>
    simp only [step] at h
    split at h
    next project shelf rest hforget =>
      cases h
      exact .forget project shelf rest hforget
    · cases h
  | begin id project op =>
    simp only [step] at h
    split_ifs at h with hguard
    cases h
    exact .begin id project op hguard.2
  | consult id => exact turn_of_onTask (fun _ => consult_turn) h
  | authorize id trusted => exact turn_of_onTask (fun _ => authorize_turn) h
  | takeGate id => exact turn_of_onTask (fun _ => takeGate_turn) h
  | lock id => exact turn_of_onTask (fun _ => lock_turn) h
  | arm id => exact turn_of_onTask (fun _ => arm_turn) h
  | answer id status => exact turn_of_onTask (fun _ => answer_turn) h
  | file id => exact turn_of_onTask (fun _ => file_turn) h
  | conclude id => exact turn_of_onTask (fun _ => conclude_turn) h
  | release id => exact turn_of_onTask (fun _ => release_turn) h
  | proceed id next => exact turn_of_onTask (fun _ => proceed_turn) h

end GitContext
end Soloist
