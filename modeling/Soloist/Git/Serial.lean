import Soloist.Git.Context

/-! When the operations of the git context run one at a time against each project, and when what it
holds is dropped with the project. A removal forgets the gate along with the rest, so it must find
no operation that still has a handle on it, and none that has still something to leave behind. -/
namespace Soloist
namespace GitContext
variable {Status : Type} {s t : GitContext Status} {e : GitContextEvent Status}
variable {id i j : GitOpId} {task a b : GitTask Status} {g g' : GateId} {p : ProjectId}

def HasHandle (s : GitContext Status) (project : ProjectId) : Prop :=
  ∃ entry ∈ s.tasks.entries, entry.2.project = project ∧ entry.2.stage.gate ≠ none

instance (s : GitContext Status) (project : ProjectId) : Decidable (s.HasHandle project) :=
  inferInstanceAs (Decidable (∃ entry ∈ _, _))

theorem hasHandle_of_lookup (h : AList.lookup i s.tasks = some a) (hg : a.stage.gate = some g) :
    s.HasHandle a.project := by
  have hne : a.stage.gate ≠ none := by simp [hg]
  exact ⟨⟨i, a⟩, AList.mem_lookup_iff.mp h, rfl, hne⟩

theorem Free.not_held (hfree : s.Free g) (h : AList.lookup i s.tasks = some a) :
    a.stage.held ≠ some g :=
  hfree ⟨i, a⟩ (AList.mem_lookup_iff.mp h)

theorem gate_of_held {stage : GitStage Status} (h : stage.held = some g) : stage.gate = some g := by
  cases stage with
  | begun | «over» | waiting gate => cases h
  | locked gate | armed gate | answered gate stamp read | finished gate => exact h

/-- No two operations hold a gate of one project at once. -/
def Serial (s : GitContext Status) : Prop :=
  ∀ i j a b, AList.lookup i s.tasks = some a → AList.lookup j s.tasks = some b →
    a.project = b.project → a.stage.held ≠ none → b.stage.held ≠ none → i = j

/-- No gate is made for a project while an operation has a handle on an earlier one. -/
def NoRivalGate (s : GitContext Status) : GitContextEvent Status → Prop
  | .takeGate id => ∀ task ∈ AList.lookup id s.tasks,
      AList.lookup task.project s.gates = none → ¬ s.HasHandle task.project
  | _ => True

instance (s : GitContext Status) : ∀ e, Decidable (s.NoRivalGate e)
  | .takeGate id => inferInstanceAs (Decidable (∀ task ∈ AList.lookup id s.tasks, _ → ¬ _))
  | .openProject | .remove _ | .announceRemoved _ | .announce _ | .hear | .forget | .begin _ _ _
  | .consult _ | .authorize _ _ | .lock _ | .arm _ | .answer _ _ | .file _ | .conclude _
  | .release _ | .proceed _ _ => isTrue trivial

/-- A project's operations share one gate, the one on file if there is one, and take turns. -/
structure Turns (s : GitContext Status) : Prop where
  onFile : ∀ i a g g', AList.lookup i s.tasks = some a → a.stage.gate = some g →
    AList.lookup a.project s.gates = some g' → g = g'
  shared : ∀ i j a b g g', AList.lookup i s.tasks = some a → AList.lookup j s.tasks = some b →
    a.project = b.project → a.stage.gate = some g → b.stage.gate = some g' → g = g'
  single : ∀ i j a b g, AList.lookup i s.tasks = some a → AList.lookup j s.tasks = some b →
    a.stage.held = some g → b.stage.held = some g → i = j

theorem Turns.serial (h : s.Turns) : s.Serial := by
  intro i j a b ha hb hproject hheld hheld'
  obtain ⟨g, hg⟩ := Option.ne_none_iff_exists'.mp hheld
  obtain ⟨g', hg'⟩ := Option.ne_none_iff_exists'.mp hheld'
  have hsame : g = g' := h.shared i j a b g g' ha hb hproject (gate_of_held hg) (gate_of_held hg')
  subst hsame
  exact h.single i j a b g ha hb hg hg'

inductive Moves (s t : GitContext Status) : Prop
  | still (htasks : t.tasks = s.tasks) (hgates : t.gates = s.gates)
  | forgot (project : ProjectId) (htasks : t.tasks = s.tasks)
    (hgates : t.gates = AList.erase project s.gates)
  /-- A task begins, or gives up its gate. -/
  | bare (id : GitOpId) (task : GitTask Status) (hbare : task.stage.gate = none)
    (htasks : t.tasks = AList.insert id task s.tasks) (hgates : t.gates = s.gates)
  | ended (id : GitOpId) (htasks : t.tasks = AList.erase id s.tasks) (hgates : t.gates = s.gates)
  | handed (id : GitOpId) (task : GitTask Status)
    (htasks : t.tasks = AList.insert id { task with stage := .waiting (s.gate task.project) } s.tasks)
    (hgates : t.gates = AList.insert task.project (s.gate task.project) s.gates)
    (hrival : AList.lookup task.project s.gates = none → ¬ s.HasHandle task.project)
  /-- A task keeps its handle, and holds the gate from now on or as before. -/
  | kept (id : GitOpId) (task task' : GitTask Status) (h : AList.lookup id s.tasks = some task)
    (hproject : task'.project = task.project) (hgate : task'.stage.gate = task.stage.gate)
    (hheld : task'.stage.held = task.stage.held ∨ ∃ gate, task'.stage.held = some gate ∧ s.Free gate)
    (htasks : t.tasks = AList.insert id task' s.tasks) (hgates : t.gates = s.gates)

theorem moves_of_taskTurn (h : AList.lookup id s.tasks = some task) (hturn : s.TaskTurn id task e t)
    (hrival : s.NoRivalGate e) : s.Moves t := by
  cases hturn with
  | consult hstage hop =>
    unfold consulted
    split_ifs with hcached
    · exact .bare id { task with stage := .over } rfl rfl rfl
    · exact .bare id { task with op := .read, stage := .begun } rfl rfl rfl
  | authorize arms trusted hstage hop =>
    unfold authorized
    split_ifs with htrusted
    · exact .bare id { task with op := .gated arms, stage := .begun } rfl rfl rfl
    · exact .bare id { task with stage := .over } rfl rfl rfl
  | takeGate hstage => exact .handed id task rfl rfl (hrival task h)
  | lock gate hstage hfree =>
    have hgate : (GitStage.locked gate : GitStage Status).gate = task.stage.gate := by
      rw [hstage]
      rfl
    exact .kept id task { task with stage := .locked gate } h rfl hgate (.inr ⟨gate, rfl, hfree⟩)
      rfl rfl
  | arm gate hstage hop =>
    refine .kept id task { task with stage := .armed gate } h rfl ?_ (.inl ?_) rfl rfl
    · rw [hstage]
      rfl
    · rw [hstage]
      rfl
  | answer gate status hstage hop =>
    unfold answeredWith
    split
    next read _ =>
      refine .kept id task { task with stage := .answered gate s.nextStamp read } h rfl ?_ (.inl ?_)
        rfl rfl
      · rw [hstage]
        rfl
      · rw [hstage]
        rfl
    next _ =>
      refine .kept id task { task with stage := .finished gate } h rfl ?_ (.inl ?_) rfl rfl
      · rw [hstage]
        rfl
      · rw [hstage]
        rfl
  | file gate stamp read hstage =>
    refine .kept id task { task with stage := .finished gate } h rfl ?_ (.inl ?_) rfl rfl
    · rw [hstage]
      rfl
    · rw [hstage]
      rfl
  | conclude gate hstage =>
    refine .kept id task { task with stage := .finished gate } h rfl ?_ (.inl ?_) rfl rfl
    · rcases hstage with hstage | hstage <;> rw [hstage] <;> rfl
    · rcases hstage with hstage | hstage <;> rw [hstage] <;> rfl
  | release gate hstage => exact .bare id { task with stage := .over } rfl rfl rfl
  | resume op hstage => exact .bare id { task with op, stage := .begun } rfl rfl rfl
  | leave hstage => exact .ended id rfl rfl

theorem moves_of_step (h : s.step e = some t) (hrival : s.NoRivalGate e) : s.Moves t := by
  cases turn_of_step h with
  | openProject => exact .still rfl rfl
  | remove project => exact .still rfl rfl
  | announceRemoved project _ => exact .still rfl rfl
  | announce e => exact .still rfl rfl
  | hear e bus _ _ =>
    cases e with
    | none => exact .still rfl rfl
    | some e => cases e <;> exact .still rfl rfl
  | forget project shelf rest _ =>
    cases shelf with
    | cached => exact .still rfl rfl
    | gates => exact .forgot project rfl rfl
    | stops => exact .still rfl rfl
  | begin id project op _ => exact .bare id ⟨project, op, .begun⟩ rfl rfl rfl
  | task id task h hturn => exact moves_of_taskTurn h hturn hrival

variable {tasks : Dict GitOpId (GitTask Status)}

theorem mem_of_insert (htasks : t.tasks = AList.insert id b tasks)
    (h : AList.lookup i t.tasks = some a) :
    i = id ∧ a = b ∨ i ≠ id ∧ AList.lookup i tasks = some a := by
  rw [htasks, Dict.lookup_insert] at h
  split_ifs at h with hi
  · exact .inl ⟨hi, (Option.some.inj h).symm⟩
  · exact .inr ⟨hi, h⟩

theorem mem_of_erase (htasks : t.tasks = AList.erase id tasks)
    (h : AList.lookup i t.tasks = some a) : AList.lookup i tasks = some a := by
  rw [htasks, Dict.lookup_erase] at h
  split_ifs at h with hi
  exact h

variable (hs : s.Turns)
include hs

theorem Turns.bare (hbare : task.stage.gate = none)
    (htasks : t.tasks = AList.insert id task s.tasks) (hgates : t.gates = s.gates) : t.Turns := by
  have hold : ∀ i a g, AList.lookup i t.tasks = some a → a.stage.gate = some g →
      AList.lookup i s.tasks = some a := by
    intro i a g ha hg
    rcases mem_of_insert htasks ha with ⟨-, rfl⟩ | ⟨-, ha⟩
    · rw [hbare] at hg
      cases hg
    · exact ha
  constructor
  · intro i a g g' ha hg hg'
    rw [hgates] at hg'
    exact hs.onFile i a g g' (hold i a g ha hg) hg hg'
  · intro i j a b g g' ha hb hproject hg hg'
    exact hs.shared i j a b g g' (hold i a g ha hg) (hold j b g' hb hg') hproject hg hg'
  · intro i j a b g ha hb hg hg'
    have ha := hold i a g ha (gate_of_held hg)
    have hb := hold j b g hb (gate_of_held hg')
    exact hs.single i j a b g ha hb hg hg'

theorem Turns.ended (htasks : t.tasks = AList.erase id s.tasks)
    (hgates : t.gates = s.gates) : t.Turns := by
  constructor
  · intro i a g g' ha hg hg'
    rw [hgates] at hg'
    exact hs.onFile i a g g' (mem_of_erase htasks ha) hg hg'
  · intro i j a b g g' ha hb
    exact hs.shared i j a b g g' (mem_of_erase htasks ha) (mem_of_erase htasks hb)
  · intro i j a b g ha hb
    exact hs.single i j a b g (mem_of_erase htasks ha) (mem_of_erase htasks hb)

theorem Turns.forgot (htasks : t.tasks = s.tasks)
    (hgates : t.gates = AList.erase p s.gates) : t.Turns := by
  constructor
  · intro i a g g' ha hg hg'
    rw [htasks] at ha
    rw [hgates, Dict.lookup_erase] at hg'
    split_ifs at hg' with hp
    exact hs.onFile i a g g' ha hg hg'
  · intro i j a b g g' ha hb
    rw [htasks] at ha hb
    exact hs.shared i j a b g g' ha hb
  · intro i j a b g ha hb
    rw [htasks] at ha hb
    exact hs.single i j a b g ha hb

theorem Turns.gate_eq (ha : AList.lookup i s.tasks = some a)
    (hg : a.stage.gate = some g)
    (hrival : AList.lookup a.project s.gates = none → ¬ s.HasHandle a.project) :
    g = s.gate a.project := by
  unfold GitContext.gate
  cases hfile : AList.lookup a.project s.gates with
  | none => exact absurd (hasHandle_of_lookup ha hg) (hrival hfile)
  | some g' => exact hs.onFile i a g g' ha hg hfile

theorem Turns.handed
    (htasks : t.tasks = AList.insert id { task with stage := .waiting (s.gate task.project) } s.tasks)
    (hgates : t.gates = AList.insert task.project (s.gate task.project) s.gates)
    (hrival : AList.lookup task.project s.gates = none → ¬ s.HasHandle task.project) : t.Turns := by
  -- every handle on a gate of this project is one on the gate just handed out
  have hgate : ∀ i a g, AList.lookup i t.tasks = some a → a.stage.gate = some g →
      a.project = task.project → g = s.gate task.project := by
    intro i a g ha hg hproject
    rcases mem_of_insert htasks ha with ⟨-, rfl⟩ | ⟨-, ha⟩
    · exact (Option.some.inj hg).symm
    · rw [← hproject] at hrival ⊢
      exact hs.gate_eq ha hg hrival
  have hold : ∀ i a, AList.lookup i t.tasks = some a →
      a.project = task.project ∨ AList.lookup i s.tasks = some a := by
    intro i a ha
    rcases mem_of_insert htasks ha with ⟨-, rfl⟩ | ⟨-, ha⟩
    · exact .inl rfl
    · exact .inr ha
  constructor
  · intro i a g g' ha hg hg'
    rw [hgates, Dict.lookup_insert] at hg'
    split_ifs at hg' with hproject
    · rw [hgate i a g ha hg hproject]
      exact Option.some.inj hg'
    · exact hs.onFile i a g g' ((hold i a ha).resolve_left hproject) hg hg'
  · intro i j a b g g' ha hb hproject hg hg'
    by_cases hsame : a.project = task.project
    · rw [hgate i a g ha hg hsame, hgate j b g' hb hg' (hproject ▸ hsame)]
    · have hb' := (hold j b hb).resolve_left (hproject ▸ hsame)
      exact hs.shared i j a b g g' ((hold i a ha).resolve_left hsame) hb' hproject hg hg'
  · intro i j a b g ha hb hg hg'
    have hheld : ∀ i a g, AList.lookup i t.tasks = some a → a.stage.held = some g →
        AList.lookup i s.tasks = some a := by
      intro i a g ha hg
      rcases mem_of_insert htasks ha with ⟨-, rfl⟩ | ⟨-, ha⟩
      · cases hg
      · exact ha
    exact hs.single i j a b g (hheld i a g ha hg) (hheld j b g hb hg') hg hg'

theorem Turns.kept {task' : GitTask Status} (h : AList.lookup id s.tasks = some task)
    (hproject : task'.project = task.project) (hgate : task'.stage.gate = task.stage.gate)
    (hheld : task'.stage.held = task.stage.held ∨ ∃ gate, task'.stage.held = some gate ∧ s.Free gate)
    (htasks : t.tasks = AList.insert id task' s.tasks) (hgates : t.gates = s.gates) : t.Turns := by
  -- each task has the handle that it had
  have hold : ∀ i a, AList.lookup i t.tasks = some a → ∃ b, AList.lookup i s.tasks = some b ∧
      b.project = a.project ∧ b.stage.gate = a.stage.gate := by
    intro i a ha
    rcases mem_of_insert htasks ha with ⟨rfl, rfl⟩ | ⟨-, ha⟩
    · exact ⟨task, h, hproject.symm, hgate.symm⟩
    · exact ⟨a, ha, rfl, rfl⟩
  constructor
  · intro i a g g' ha hg hg'
    obtain ⟨b, hb, hproject, hsame⟩ := hold i a ha
    rw [hgates, ← hproject] at hg'
    exact hs.onFile i b g g' hb (hsame.trans hg) hg'
  · intro i j a b g g' ha hb hab hg hg'
    obtain ⟨a', ha', hpa, hga⟩ := hold i a ha
    obtain ⟨b', hb', hpb, hgb⟩ := hold j b hb
    have hab' : a'.project = b'.project := hpa.trans (hab.trans hpb.symm)
    exact hs.shared i j a' b' g g' ha' hb' hab' (hga.trans hg) (hgb.trans hg')
  · intro i j a b g ha hb hg hg'
    -- a gate just taken was held by nobody
    have hnew : ∀ j b, task'.stage.held = some g → j ≠ id → AList.lookup j s.tasks = some b →
        b.stage.held ≠ some g := by
      intro j b htask hj hb hg'
      rcases hheld with hsame | ⟨gate, hgate, hfree⟩
      · exact hj (hs.single j id b task g hb h hg' (hsame.symm.trans htask))
      · cases htask.symm.trans hgate
        exact hfree.not_held hb hg'
    rcases mem_of_insert htasks ha with ⟨rfl, rfl⟩ | ⟨hi, ha⟩
    · rcases mem_of_insert htasks hb with ⟨rfl, -⟩ | ⟨hj, hb⟩
      · rfl
      · exact absurd hg' (hnew j b hg hj hb)
    · rcases mem_of_insert htasks hb with ⟨rfl, rfl⟩ | ⟨-, hb⟩
      · exact absurd hg (hnew i a hg' hi ha)
      · exact hs.single i j a b g ha hb hg hg'

omit hs

theorem Moves.turns (h : s.Moves t) (hs : s.Turns) : t.Turns := by
  cases h with
  | still htasks hgates =>
    obtain ⟨honFile, hshared, hsingle⟩ := hs
    constructor
    · rwa [htasks, hgates]
    · rwa [htasks]
    · rwa [htasks]
  | forgot project htasks hgates => exact hs.forgot htasks hgates
  | bare id task hbare htasks hgates => exact hs.bare hbare htasks hgates
  | ended id htasks hgates => exact hs.ended htasks hgates
  | handed id task htasks hgates hrival => exact hs.handed htasks hgates hrival
  | kept id task task' h hproject hgate hheld htasks hgates =>
    exact hs.kept h hproject hgate hheld htasks hgates

theorem turns_step (h : s.step e = some t) (hrival : s.NoRivalGate e) (hs : s.Turns) : t.Turns :=
  (moves_of_step h hrival).turns hs

theorem turns_new (projects : List ProjectId) (next capacity : ℕ) :
    (new projects next capacity : GitContext Status).Turns := by
  constructor
  · intro i a g g' ha
    cases ha
  · intro i j a b g g' ha
    cases ha
  · intro i j a b g ha
    cases ha

end GitContext
end Soloist
