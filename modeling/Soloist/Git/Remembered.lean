import Soloist.Git.Serial

/-! What the git context remembers of a project is its latest read, and goes when the project goes:
as long as whatever is put on file for a removed project is put there before the removal reaches the
map, and no removal is pushed out of the bus unread. -/
namespace Soloist
namespace GitContext
variable {Status : Type} {s t : GitContext Status} {e : GitContextEvent Status}
variable {id i j : GitOpId} {task a b : GitTask Status} {p : ProjectId} {m : Shelf}

/-- The remembered status is what the latest completed read found. -/
def Current (s : GitContext Status) : Prop :=
  ∀ p r, AList.lookup p s.cached = some r → ∃ k, AList.lookup p s.latest = some (k, r)

structure Dated (s : GitContext Status) : Prop where
  current : s.Current
  old : ∀ p k r, AList.lookup p s.latest = some (k, r) → k < s.nextStamp
  recent : ∀ i a g k r, AList.lookup i s.tasks = some a → a.stage = .answered g k r →
    k < s.nextStamp ∧ ∀ k' r', AList.lookup a.project s.latest = some (k', r') → k' < k

inductive Notes (s t : GitContext Status) : Prop
  | still (hcached : ∀ p r, AList.lookup p t.cached = some r → AList.lookup p s.cached = some r)
    (hlatest : t.latest = s.latest) (hstamp : t.nextStamp = s.nextStamp)
    (htasks : ∀ i a g k r, AList.lookup i t.tasks = some a → a.stage = .answered g k r →
      AList.lookup i s.tasks = some a)
  | answered (id : GitOpId) (task : GitTask Status) (gate : GateId) (read : Option Status)
    (hcached : t.cached = s.cached) (hlatest : t.latest = s.latest)
    (hstamp : t.nextStamp = s.nextStamp + 1)
    (htasks : t.tasks =
      AList.insert id { task with stage := .answered gate s.nextStamp read } s.tasks)
  | filed (id : GitOpId) (task : GitTask Status) (gate : GateId) (stamp : ℕ) (read : Option Status)
    (h : AList.lookup id s.tasks = some task) (hstage : task.stage = .answered gate stamp read)
    (ht : t = s.filed id task gate stamp read)

theorem Notes.of_insert (hstage : ∀ g k r, task.stage ≠ .answered g k r)
    (htasks : t.tasks = AList.insert id task s.tasks) (hcached : t.cached = s.cached)
    (hlatest : t.latest = s.latest) (hstamp : t.nextStamp = s.nextStamp) : s.Notes t := by
  refine .still (fun p r hr => hcached ▸ hr) hlatest hstamp ?_
  intro i a g k r ha hanswered
  rcases mem_of_insert htasks ha with ⟨-, rfl⟩ | ⟨-, ha⟩
  · exact absurd hanswered (hstage g k r)
  · exact ha

theorem Notes.of_tasks_eq (htasks : t.tasks = s.tasks)
    (hcached : ∀ p r, AList.lookup p t.cached = some r → AList.lookup p s.cached = some r)
    (hlatest : t.latest = s.latest) (hstamp : t.nextStamp = s.nextStamp) : s.Notes t :=
  .still hcached hlatest hstamp fun _ _ _ _ _ ha _ => htasks ▸ ha

theorem notes_of_taskTurn (h : AList.lookup id s.tasks = some task)
    (hturn : s.TaskTurn id task e t) : s.Notes t := by
  cases hturn with
  | consult hstage hop =>
    unfold consulted
    split_ifs with hcached
    · exact .of_insert (by simp) rfl rfl rfl rfl
    · exact .of_insert (by simp) rfl rfl rfl rfl
  | authorize arms trusted hstage hop =>
    unfold authorized
    split_ifs with htrusted
    · exact .of_insert (by simp) rfl rfl rfl rfl
    · exact .of_insert (by simp) rfl rfl rfl rfl
  | takeGate hstage => exact .of_insert (by simp) rfl rfl rfl rfl
  | lock gate hstage hfree => exact .of_insert (by simp) rfl rfl rfl rfl
  | arm gate hstage hop => exact .of_insert (by simp) rfl rfl rfl rfl
  | answer gate status hstage hop =>
    unfold answeredWith
    split
    next read _ => exact .answered id task gate read rfl rfl rfl rfl
    next _ => exact .of_insert (by simp) rfl rfl rfl rfl
  | file gate stamp read hstage => exact .filed id task gate stamp read h hstage rfl
  | conclude gate hstage => exact .of_insert (by simp) rfl rfl rfl rfl
  | release gate hstage => exact .of_insert (by simp) rfl rfl rfl rfl
  | resume op hstage => exact .of_insert (by simp) rfl rfl rfl rfl
  | leave hstage =>
    exact .still (fun p r hr => hr) rfl rfl fun i a g k r ha _ => mem_of_erase rfl ha

theorem notes_of_step (h : s.step e = some t) : s.Notes t := by
  cases turn_of_step h with
  | openProject => exact .of_tasks_eq rfl (fun p r hr => hr) rfl rfl
  | remove project => exact .of_tasks_eq rfl (fun p r hr => hr) rfl rfl
  | announceRemoved project _ => exact .of_tasks_eq rfl (fun p r hr => hr) rfl rfl
  | announce e => exact .of_tasks_eq rfl (fun p r hr => hr) rfl rfl
  | hear e bus _ _ =>
    cases e with
    | none => exact .of_tasks_eq rfl (fun p r hr => hr) rfl rfl
    | some e => cases e <;> exact .of_tasks_eq rfl (fun p r hr => hr) rfl rfl
  | forget project shelf rest _ =>
    cases shelf with
    | cached =>
      refine .of_tasks_eq rfl ?_ rfl rfl
      intro p r hr
      have hold : (if p = project then none else AList.lookup p s.cached) = some r :=
        (Dict.lookup_erase s.cached project p).symm.trans hr
      split_ifs at hold with hp
      exact hold
    | gates => exact .of_tasks_eq rfl (fun p r hr => hr) rfl rfl
    | stops => exact .of_tasks_eq rfl (fun p r hr => hr) rfl rfl
  | begin id project op _ => exact .of_insert (by simp) rfl rfl rfl rfl
  | task id task h hturn => exact notes_of_taskTurn h hturn

variable {gate : GateId} {read : Option Status}

theorem Dated.answered (hs : s.Dated)
    (hcached : t.cached = s.cached) (hlatest : t.latest = s.latest)
    (hstamp : t.nextStamp = s.nextStamp + 1)
    (htasks : t.tasks =
      AList.insert id { task with stage := .answered gate s.nextStamp read } s.tasks) : t.Dated := by
  constructor
  · intro p r hr
    rw [hcached] at hr
    rw [hlatest]
    exact hs.current p r hr
  · intro p k r hr
    rw [hlatest] at hr
    rw [hstamp]
    exact Nat.lt_succ_of_lt (hs.old p k r hr)
  · intro i a g k r ha hanswered
    rw [hlatest, hstamp]
    rcases mem_of_insert htasks ha with ⟨-, rfl⟩ | ⟨-, ha⟩
    · cases hanswered
      exact ⟨Nat.lt_succ_self _, fun k' r' hr' => hs.old task.project k' r' hr'⟩
    · have hrecent := hs.recent i a g k r ha hanswered
      exact ⟨Nat.lt_succ_of_lt hrecent.1, hrecent.2⟩

/-- Filing is the one step that rests on the operations taking turns: no other read of the project
has an answer that is still to be filed. -/
theorem Dated.filed {stamp : ℕ} (hs : s.Dated) (hserial : s.Serial)
    (h : AList.lookup id s.tasks = some task) (hstage : task.stage = .answered gate stamp read) :
    (s.filed id task gate stamp read).Dated := by
  have hrecent := hs.recent id task gate stamp read h hstage
  have hnewest : ((AList.lookup task.project s.latest).all fun last => last.1 < stamp) = true := by
    cases hlast : AList.lookup task.project s.latest with
    | none => rfl
    | some last => simpa using hrecent.2 last.1 last.2 hlast
  have hlatest : ∀ p, AList.lookup p (s.filed id task gate stamp read).latest =
      if p = task.project then some (stamp, read) else AList.lookup p s.latest := by
    intro p
    rw [GitContext.filed, hnewest, if_pos rfl]
    exact Dict.lookup_insert s.latest task.project p _
  have hcached : ∀ p, AList.lookup p (s.filed id task gate stamp read).cached =
      if p = task.project then some read else AList.lookup p s.cached :=
    fun p => Dict.lookup_insert s.cached task.project p read
  constructor
  · intro p r hr
    rw [hcached] at hr
    rw [hlatest]
    split_ifs at hr ⊢ with hp
    · cases hr
      exact ⟨stamp, rfl⟩
    · exact hs.current p r hr
  · intro p k r hr
    rw [hlatest] at hr
    split_ifs at hr with hp
    · cases hr
      exact hrecent.1
    · exact hs.old p k r hr
  · intro i a g k r ha hanswered
    have htasks : (s.filed id task gate stamp read).tasks =
        AList.insert id { task with stage := .finished gate } s.tasks := rfl
    rcases mem_of_insert htasks ha with ⟨-, rfl⟩ | ⟨hi, ha⟩
    · cases hanswered
    · refine ⟨(hs.recent i a g k r ha hanswered).1, ?_⟩
      intro k' r' hr'
      rw [hlatest] at hr'
      split_ifs at hr' with hp
      · have hheld : a.stage.held ≠ none := by simp [hanswered, GitStage.held]
        have hheld' : task.stage.held ≠ none := by simp [hstage, GitStage.held]
        exact absurd (hserial i id a task ha h hp hheld hheld') hi
      · exact (hs.recent i a g k r ha hanswered).2 k' r' hr'

theorem Notes.dated (h : s.Notes t) (hserial : s.Serial) (hs : s.Dated) : t.Dated := by
  cases h with
  | still hcached hlatest hstamp htasks =>
    constructor
    · intro p r hr
      rw [hlatest]
      exact hs.current p r (hcached p r hr)
    · rw [hlatest, hstamp]
      exact hs.old
    · intro i a g k r ha hanswered
      rw [hlatest, hstamp]
      exact hs.recent i a g k r (htasks i a g k r ha hanswered) hanswered
  | answered id task gate read hcached hlatest hstamp htasks =>
    exact hs.answered hcached hlatest hstamp htasks
  | filed id task gate stamp read h hstage ht =>
    subst ht
    exact hs.filed hserial h hstage

theorem dated_step (h : s.step e = some t) (hserial : s.Serial) (hs : s.Dated) : t.Dated :=
  (notes_of_step h).dated hserial hs

theorem dated_new (projects : List ProjectId) (next capacity : ℕ) :
    (new projects next capacity : GitContext Status).Dated := by
  constructor
  · intro p r hr
    cases hr
  · intro p k r hr
    cases hr
  · intro i a g k r ha
    cases ha

def Holds (s : GitContext Status) : Shelf → ProjectId → Prop
  | .cached, p => (AList.lookup p s.cached).isSome = true
  | .gates, p => (AList.lookup p s.gates).isSome = true
  | .stops, p => (AList.lookup p s.stops).isSome = true

instance (s : GitContext Status) : ∀ m p, Decidable (s.Holds m p)
  | .cached, _ | .gates, _ | .stops, _ => inferInstanceAs (Decidable (_ = true))

/-- The project is open, or its removal is still to come to this map. -/
def Awaited (s : GitContext Status) (m : Shelf) (p : ProjectId) : Prop :=
  p ∈ s.projects ∨ p ∈ s.removing ∨ .removed p ∈ s.bus.unread ∨
    ∃ left ∈ s.forgetting, left.1 = p ∧ m ∈ left.2

instance (s : GitContext Status) (m : Shelf) (p : ProjectId) : Decidable (s.Awaited m p) :=
  inferInstanceAs (Decidable (_ ∨ _ ∨ _ ∨ ∃ left ∈ s.forgetting, _))

def published (s : GitContext Status) (e : RailEvent) : GitContext Status :=
  { s with bus := s.bus.publish s.busCapacity e }

/-- Publishing does not push out the removal that something on file is waiting for. -/
def Unmissed (s : GitContext Status) (e : RailEvent) : Prop :=
  ∀ p ∈ (s.bus.lost s.busCapacity).bind fun
      | .removed p => some p
      | .opened | .other => none,
    ∀ m ∈ [Shelf.cached, .gates, .stops], s.Holds m p → (s.published e).Awaited m p

instance (s : GitContext Status) (e : RailEvent) : Decidable (s.Unmissed e) :=
  inferInstanceAs (Decidable (∀ p ∈ _, ∀ m ∈ _, _))

/-- What is put on file is put there before the project's removal has come to the map, and the bus
loses no removal. -/
def InTime (s : GitContext Status) : GitContextEvent Status → Prop
  | .takeGate id => ∀ task ∈ AList.lookup id s.tasks, s.Awaited .gates task.project
  | .arm id => ∀ task ∈ AList.lookup id s.tasks, s.Awaited .stops task.project
  | .file id => ∀ task ∈ AList.lookup id s.tasks, s.Awaited .cached task.project
  | .announce e => s.Unmissed e
  | .announceRemoved p => s.Unmissed (.removed p)
  | _ => True

instance (s : GitContext Status) : ∀ e, Decidable (s.InTime e)
  | .takeGate id => inferInstanceAs (Decidable (∀ task ∈ AList.lookup id s.tasks, _))
  | .arm id => inferInstanceAs (Decidable (∀ task ∈ AList.lookup id s.tasks, _))
  | .file id => inferInstanceAs (Decidable (∀ task ∈ AList.lookup id s.tasks, _))
  | .announce e => inferInstanceAs (Decidable (s.Unmissed e))
  | .announceRemoved p => inferInstanceAs (Decidable (s.Unmissed (.removed p)))
  | .openProject | .remove _ | .hear | .forget | .begin _ _ _ | .consult _ | .authorize _ _
  | .lock _ | .answer _ _ | .conclude _ | .release _ | .proceed _ _ => isTrue trivial

/-- Whatever is on file is of an open project, or will be dropped. -/
def Bound (s : GitContext Status) : Prop := ∀ m p, s.Holds m p → s.Awaited m p

theorem frame_of_taskTurn (hturn : s.TaskTurn id task e t) :
    t.projects = s.projects ∧ t.removing = s.removing ∧ t.bus = s.bus ∧
      t.forgetting = s.forgetting := by
  cases hturn with
  | consult hstage hop =>
    unfold consulted
    split_ifs <;> exact ⟨rfl, rfl, rfl, rfl⟩
  | authorize arms trusted hstage hop =>
    unfold authorized
    split_ifs <;> exact ⟨rfl, rfl, rfl, rfl⟩
  | answer gate status hstage hop =>
    unfold answeredWith
    split <;> exact ⟨rfl, rfl, rfl, rfl⟩
  | _ => exact ⟨rfl, rfl, rfl, rfl⟩

theorem awaited_of_taskTurn (hturn : s.TaskTurn id task e t) (h : s.Awaited m p) :
    t.Awaited m p := by
  obtain ⟨hprojects, hremoving, hbus, hforgetting⟩ := frame_of_taskTurn hturn
  unfold Awaited
  rwa [hprojects, hremoving, hbus, hforgetting]

variable {q : ProjectId}

variable {α : Type}

/-- An entry made by a step is one of the step's project. -/
theorem isSome_insert {d : Dict ProjectId α} {x : α}
    (h : (AList.lookup p (AList.insert q x d)).isSome = true) :
    p = q ∨ (AList.lookup p d).isSome = true := by
  rw [Dict.lookup_insert] at h
  split_ifs at h with hp
  · exact .inl hp
  · exact .inr h

theorem isSome_erase {d : Dict ProjectId α} (h : (AList.lookup p (AList.erase q d)).isSome = true) :
    p ≠ q ∧ (AList.lookup p d).isSome = true := by
  rw [Dict.lookup_erase] at h
  split_ifs at h with hp
  · cases h
  · exact ⟨hp, h⟩

theorem holds_of_taskTurn (h : AList.lookup id s.tasks = some task) (hturn : s.TaskTurn id task e t)
    (hintime : s.InTime e) (hholds : t.Holds m p) : s.Holds m p ∨ s.Awaited m p := by
  cases hturn with
  | consult hstage hop =>
    unfold consulted at hholds
    split_ifs at hholds <;> cases m <;> exact .inl hholds
  | authorize arms trusted hstage hop =>
    unfold authorized at hholds
    split_ifs at hholds <;> cases m <;> exact .inl hholds
  | answer gate status hstage hop =>
    unfold answeredWith at hholds
    split at hholds <;> cases m <;> exact .inl hholds
  | takeGate hstage =>
    cases m with
    | cached | stops => exact .inl hholds
    | gates =>
      rcases isSome_insert hholds with rfl | hold
      · exact .inr (hintime task h)
      · exact .inl hold
  | arm gate hstage hop =>
    cases m with
    | cached | gates => exact .inl hholds
    | stops =>
      rcases isSome_insert hholds with rfl | hold
      · exact .inr (hintime task h)
      · exact .inl hold
  | file gate stamp read hstage =>
    cases m with
    | gates | stops => exact .inl hholds
    | cached =>
      rcases isSome_insert hholds with rfl | hold
      · exact .inr (hintime task h)
      · exact .inl hold
  | _ => cases m <;> exact .inl hholds

theorem awaited_published {e : RailEvent} (hmissed : s.Unmissed e) (hholds : s.Holds m p)
    (h : s.Awaited m p) : (s.published e).Awaited m p := by
  rcases h with hopen | hremoving | hunread | hforgetting
  · exact .inl hopen
  · exact .inr (.inl hremoving)
  · by_cases hlost : s.bus.lost s.busCapacity = some (.removed p)
    · refine hmissed p (by simp [hlost]) m ?_ hholds
      cases m <;> simp
    · exact .inr (.inr (.inl (Feed.mem_publish_of_ne hunread hlost)))
  · exact .inr (.inr (.inr hforgetting))

theorem Bound.announceRemoved (hs : s.Bound) (hmissed : s.Unmissed (.removed q))
    (hholds : s.Holds m p) :
    { s.published (.removed q) with removing := s.removing.erase q }.Awaited m p := by
  have hpublished := awaited_published hmissed hholds (hs m p hholds)
  by_cases hp : p = q
  · subst hp
    exact .inr (.inr (.inl Feed.mem_publish_self))
  · rcases hpublished with hopen | hremoving | hunread | hforgetting
    · exact .inl hopen
    · exact .inr (.inl ((List.mem_erase_of_ne hp).mpr hremoving))
    · exact .inr (.inr (.inl hunread))
    · exact .inr (.inr (.inr hforgetting))

theorem awaited_heard {e : Option RailEvent} {bus : Feed RailEvent} (hidle : s.forgetting = none)
    (hrecv : s.bus.recv = some (e, bus)) (h : s.Awaited m p) :
    ({ s with bus }.heard e).Awaited m p := by
  have hkept : ∀ e', e = some e' → e' ≠ .removed p → .removed p ∈ s.bus.unread →
      .removed p ∈ bus.unread := by
    intro e' he hne hunread
    rcases Feed.recv_eq_some hrecv with ⟨hgap, -⟩ | ⟨e'', he', hread⟩
    · cases he.symm.trans hgap
    · cases he.symm.trans he'
      rw [hread, List.mem_cons] at hunread
      exact hunread.resolve_left fun heq => hne heq.symm
  rcases h with hopen | hremoving | hunread | ⟨left, hleft, -⟩
  · refine .inl ?_
    cases e with
    | none => exact hopen
    | some e => cases e <;> exact hopen
  · refine .inr (.inl ?_)
    cases e with
    | none => exact hremoving
    | some e => cases e <;> exact hremoving
  · cases e with
    | none =>
      rcases Feed.recv_eq_some hrecv with ⟨-, hread⟩ | ⟨e, he, -⟩
      · exact .inr (.inr (.inl (hread ▸ hunread)))
      · cases he
    | some e =>
      cases e with
      | opened => exact .inr (.inr (.inl (hkept .opened rfl (by simp) hunread)))
      | other => exact .inr (.inr (.inl (hkept .other rfl (by simp) hunread)))
      | removed q =>
        by_cases hp : q = p
        · subst hp
          have hshelf : m ∈ [Shelf.cached, .gates, .stops] := by cases m <;> simp
          exact .inr (.inr (.inr ⟨(q, [.cached, .gates, .stops]), rfl, rfl, hshelf⟩))
        · exact .inr (.inr (.inl (hkept (.removed q) rfl (by simpa using hp) hunread)))
  · rw [hidle] at hleft
    cases hleft

variable {shelf : Shelf}

theorem holds_of_dropped (h : (s.dropped q shelf).Holds m p) :
    s.Holds m p ∧ (p = q → m ≠ shelf) := by
  cases shelf with
  | cached =>
    cases m with
    | cached =>
      obtain ⟨hp, hold⟩ := isSome_erase h
      exact ⟨hold, fun heq => absurd heq hp⟩
    | gates | stops => exact ⟨h, fun _ => by simp⟩
  | gates =>
    cases m with
    | gates =>
      obtain ⟨hp, hold⟩ := isSome_erase h
      exact ⟨hold, fun heq => absurd heq hp⟩
    | cached | stops => exact ⟨h, fun _ => by simp⟩
  | stops =>
    cases m with
    | stops =>
      obtain ⟨hp, hold⟩ := isSome_erase h
      exact ⟨hold, fun heq => absurd heq hp⟩
    | cached | gates => exact ⟨h, fun _ => by simp⟩

theorem dropped_frame (s : GitContext Status) (q : ProjectId) (shelf : Shelf) :
    (s.dropped q shelf).projects = s.projects ∧ (s.dropped q shelf).removing = s.removing ∧
      (s.dropped q shelf).bus = s.bus := by
  cases shelf <;> exact ⟨rfl, rfl, rfl⟩

theorem Bound.forget {rest : List Shelf} (hs : s.Bound)
    (hforget : s.forgetting = some (q, shelf :: rest)) :
    { s.dropped q shelf with forgetting := leftToForget q rest }.Bound := by
  intro m p hholds
  have hdropped : (s.dropped q shelf).Holds m p := by cases m <;> exact hholds
  obtain ⟨hold, hne⟩ := holds_of_dropped hdropped
  obtain ⟨hprojects, hremoving, hbus⟩ := dropped_frame s q shelf
  unfold Awaited
  simp only [hprojects, hremoving, hbus]
  rcases hs m p hold with hopen | hr | hunread | ⟨left, hleft, hp, hm⟩
  · exact .inl hopen
  · exact .inr (.inl hr)
  · exact .inr (.inr (.inl hunread))
  · rw [hforget] at hleft
    cases hleft
    have hmem : m ∈ rest := (List.mem_cons.mp hm).resolve_left (hne hp.symm)
    have hleft : leftToForget q rest = some (q, rest) := if_neg (List.ne_nil_of_mem hmem)
    exact .inr (.inr (.inr ⟨(q, rest), hleft, hp, hmem⟩))

theorem Bound.step (hs : s.Bound) (hintime : s.InTime e) (h : s.step e = some t) : t.Bound := by
  cases turn_of_step h with
  | openProject =>
    intro m p hholds
    have hold : s.Holds m p := by cases m <;> exact hholds
    exact (hs m p hold).imp_left (List.mem_cons_of_mem _)
  | remove project =>
    intro m p hholds
    have hold : s.Holds m p := by cases m <;> exact hholds
    rcases hs m p hold with hopen | hremoving | hrest
    · by_cases hp : p = project
      · exact .inr (.inl (hp ▸ (.head _)))
      · exact .inl (List.mem_filter.mpr ⟨hopen, by simpa using hp⟩)
    · exact .inr (.inl (.tail _ hremoving))
    · exact .inr (.inr hrest)
  | announceRemoved project _ =>
    intro m p hholds
    have hold : s.Holds m p := by cases m <;> exact hholds
    exact hs.announceRemoved hintime hold
  | announce e =>
    intro m p hholds
    have hold : s.Holds m p := by cases m <;> exact hholds
    exact awaited_published hintime hold (hs m p hold)
  | hear e bus hidle hrecv =>
    intro m p hholds
    have hold : s.Holds m p := by
      cases e with
      | none => cases m <;> exact hholds
      | some e => cases e <;> cases m <;> exact hholds
    exact awaited_heard hidle hrecv (hs m p hold)
  | forget project shelf rest hforget => exact hs.forget hforget
  | begin id project op _ =>
    intro m p hholds
    have hold : s.Holds m p := by cases m <;> exact hholds
    exact hs m p hold
  | task id task htask hturn =>
    intro m p hholds
    refine awaited_of_taskTurn hturn ?_
    rcases holds_of_taskTurn htask hturn hintime hholds with hold | hawaited
    · exact hs m p hold
    · exact hawaited

theorem bound_new (projects : List ProjectId) (next capacity : ℕ) :
    (new projects next capacity : GitContext Status).Bound := by
  intro m p hholds
  cases m <;> cases hholds

/-- Every event is consumed, every removal announced and forgotten, and every operation over. -/
def Quiet (s : GitContext Status) : Prop :=
  s.bus.unread = [] ∧ s.removing = [] ∧ s.forgetting = none ∧
    ∀ id, AList.lookup id s.tasks = none

def OpenOnly (s : GitContext Status) : Prop := ∀ m p, s.Holds m p → p ∈ s.projects

theorem Bound.openOnly (hs : s.Bound) (hquiet : s.Quiet) : s.OpenOnly := by
  obtain ⟨hunread, hremoving, hforgetting, -⟩ := hquiet
  intro m p hholds
  rcases hs m p hholds with hopen | hr | hu | ⟨left, hleft, -⟩
  · exact hopen
  · rw [hremoving] at hr
    cases hr
  · rw [hunread] at hu
    cases hu
  · rw [hforgetting] at hleft
    cases hleft

/-- One operation at a time, the latest read remembered, and nothing kept of a removed project. -/
def Orderly (s : GitContext Status) : Prop :=
  s.Serial ∧ s.Current ∧ (s.Quiet → s.OpenOnly)

/-- The removal of a project does not overtake the operations that run against it. -/
def Undisturbed (s : GitContext Status) (e : GitContextEvent Status) : Prop :=
  s.NoRivalGate e ∧ s.InTime e

instance (s : GitContext Status) (e : GitContextEvent Status) : Decidable (s.Undisturbed e) :=
  inferInstanceAs (Decidable (_ ∧ _))

/-- In a run whose removals overtake no operation, the context is orderly throughout. -/
theorem orderly_of_undisturbed (h : (gitContext Status).ReachableUnder Undisturbed s) :
    s.Orderly := by
  have hs : s.Turns ∧ s.Dated ∧ s.Bound := by
    refine h.invariant (P := fun s => s.Turns ∧ s.Dated ∧ s.Bound) ?_ ?_
    · rintro s ⟨projects, next, capacity, -, rfl⟩
      exact ⟨turns_new projects next capacity, dated_new projects next capacity,
        bound_new projects next capacity⟩
    · intro s e t hundisturbed hs hstep
      obtain ⟨hturns, hdated, hbound⟩ := hs
      exact ⟨turns_step hstep hundisturbed.1 hturns, dated_step hstep hturns.serial hdated,
        hbound.step hundisturbed.2 hstep⟩
  obtain ⟨hturns, hdated, hbound⟩ := hs
  exact ⟨hturns.serial, hdated.current, hbound.openOnly⟩

def oneProject : GitContext ℕ := new [1] 2 16

def removal : List (GitContextEvent ℕ) :=
  [.remove 1, .announceRemoved 1, .hear, .forget, .forget, .forget]

def readUnderWay (id : GitOpId) : List (GitContextEvent ℕ) :=
  [.begin id 1 .read, .takeGate id, .lock id]

theorem oneProject_init : (gitContext ℕ).init oneProject := ⟨[1], 2, 16, by decide, rfl⟩

/-- A read that is over when its project is removed leaves nothing behind. -/
theorem removal_after_read :
    ∃ s, (gitContext ℕ).ReachableUnder Undisturbed s ∧ s.projects = [] ∧ s.Orderly := by
  obtain ⟨s, hs, hprojects⟩ := Machine.exists_reachableUnder_of_run (G := Undisturbed)
    oneProject_init
    (readUnderWay 0 ++ [.answer 0 (.ok 5), .file 0, .release 0, .proceed 0 none] ++ removal)
    (by decide) (fun s => s.projects = []) (by decide)
  exact ⟨s, hs, hprojects, orderly_of_undisturbed hs⟩

/-- A gate, and with it the turn, is lost to a removal: a second operation runs beside a read of the
same project, an older answer replaces a newer one, and a read leaves its status behind. -/
theorem removal_overtakes :
    (∃ s, (gitContext ℕ).Reachable s ∧ ¬ s.Serial) ∧
      (∃ s, (gitContext ℕ).Reachable s ∧ ¬ s.Current) ∧
      ∃ s, (gitContext ℕ).Reachable s ∧ s.Quiet ∧ ¬ s.OpenOnly := by
  refine ⟨?_, ?_, ?_⟩
  · obtain ⟨s, hs, ha, hb⟩ := Machine.exists_reachable_of_run oneProject_init
      (readUnderWay 0 ++ [.begin 1 1 (.gated false)] ++ removal ++ [.takeGate 1, .lock 1])
      (fun s => AList.lookup 0 s.tasks = some ⟨1, .read, .locked 0⟩ ∧
        AList.lookup 1 s.tasks = some ⟨1, .gated false, .locked 1⟩) (by decide)
    refine ⟨s, hs, fun hserial => ?_⟩
    have hsame := hserial 0 1 _ _ ha hb rfl (by decide) (by decide)
    cases hsame
  · obtain ⟨s, hs, hcached, hlatest⟩ := Machine.exists_reachable_of_run oneProject_init
      (readUnderWay 0 ++ [.answer 0 (.ok 5), .begin 1 1 .read] ++ removal ++
        [.takeGate 1, .lock 1, .answer 1 (.ok 7), .file 1, .file 0])
      (fun s => AList.lookup 1 s.cached = some (some 5) ∧
        AList.lookup 1 s.latest = some (1, some 7)) (by decide)
    refine ⟨s, hs, fun hcurrent => ?_⟩
    obtain ⟨k, hk⟩ := hcurrent 1 _ hcached
    cases hlatest.symm.trans hk
  · obtain ⟨s, hs, ⟨hunread, hremoving, hforgetting, htasks⟩, hholds, hopen⟩ :=
      Machine.exists_reachable_of_run oneProject_init
        (readUnderWay 0 ++ removal ++ [.answer 0 (.ok 5), .file 0, .release 0, .proceed 0 none])
        (fun s => (s.bus.unread = [] ∧ s.removing = [] ∧ s.forgetting = none ∧
          s.tasks.entries = []) ∧ s.Holds .cached 1 ∧ 1 ∉ s.projects) (by decide)
    refine ⟨s, hs, ⟨hunread, hremoving, hforgetting, fun id => ?_⟩, fun hbounded => ?_⟩
    · cases hid : AList.lookup id s.tasks with
      | none => rfl
      | some task =>
        have hmem := AList.mem_lookup_iff.mp hid
        rw [htasks] at hmem
        cases hmem
    · exact hopen (hbounded .cached 1 hholds)

end GitContext
end Soloist
