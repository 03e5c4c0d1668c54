import Mathlib.Data.List.Nodup
import Soloist.Machine

/-! The appearance mutation queue: optimistic updates and task commands, persisted one at a time.
Updates that wait together share one write, and a waiting command gives way to the next for its
target. -/
open List

namespace Soloist.Ui

/-- Targets whose queued commands supersede one another rather than stacking up. -/
inductive AppearanceMutationTarget
  | glassOpacity
  deriving DecidableEq, Repr

/-- What an update makes of the current value; making it of the result again changes nothing. -/
structure Projection (T : Type*) where
  toFun : T → T
  idem : ∀ x, toFun (toFun x) = toFun x

/-- The promises returned so far are numbered. -/
abbrev Ticket := ℕ

structure Update (T : Type*) where
  ticket : Ticket
  project : Projection T

inductive PendingMutation (T : Type*)
  | update (updates : List (Update T))
  | task (target : Option AppearanceMutationTarget) (command : T → T) (waiters : List Ticket)

/-- How a promise was settled. -/
inductive Outcome (T : Type*)
  | updated
  | answered (stored : T)
  | rejected (error : String)

/-- What one run of `drain` awaits. -/
inductive Drain (T : Type*)
  | writing (updates : List (Update T)) (value : T)
  | commanding (target : Option AppearanceMutationTarget) (command : T → T)
    (waiters : List Ticket)
  | reading (waiters : List Ticket) (error : String)
  | rejecting (waiters : List Ticket) (error : String)

/-- What a caller asked for. -/
inductive Submission (T : Type*)
  | update (project : Projection T)
  | task (command : T → T) (target : Option AppearanceMutationTarget)

structure MutationQueue (T : Type*) where
  current : T
  stored : T
  pending : List (PendingMutation T)
  running : Bool
  drains : List (Drain T)
  settled : List (Ticket × Outcome T)
  /-- What was asked for, by ticket. -/
  submitted : List (Submission T)
  accepted : List (PendingMutation T)
  /-- The values stored by the accepted mutations. -/
  persisted : List T
  /-- The updates made to the current value since it was last adopted. -/
  ahead : List (Update T)
  /-- The last write, command or recovery read that ended succeeded. -/
  fresh : Bool

inductive QueueEvent (T : Type*)
  | update (project : Projection T)
  | task (command : T → T) (target : Option AppearanceMutationTarget)
  /-- The write or the command that a drain awaits ends. -/
  | finish (drain : ℕ) (fault : Option String)
  /-- The recovery read ends. -/
  | read (drain : ℕ) (failed : Bool)
  /-- The drain goes on after its recovery read. -/
  | reject (drain : ℕ)

variable {T : Type*}

namespace Outcome

def isRejected : Outcome T → Bool
  | rejected _ => true
  | updated | answered _ => false

end Outcome

def Update.projectAll (updates : List (Update T)) (value : T) : T :=
  updates.foldl (fun value update => update.project.toFun value) value

namespace PendingMutation

def waiters : PendingMutation T → List Ticket
  | update updates => updates.map Update.ticket
  | task _ _ waiters => waiters

def apply (write : T → T) (stored : T) : PendingMutation T → T
  | update updates => write (Update.projectAll updates stored)
  | task _ command _ => command stored

def replay (write : T → T) : T → List (PendingMutation T) → List T
  | _, [] => []
  | stored, mutation :: rest =>
    mutation.apply write stored :: replay write (mutation.apply write stored) rest

def Made (submitted : List (Submission T)) : PendingMutation T → Prop
  | update updates =>
    updates ≠ [] ∧ ∀ u ∈ updates, submitted[u.ticket]? = some (.update u.project)
  | task target command waiters =>
    (∀ ticket ∈ waiters, ∃ command, submitted[ticket]? = some (.task command target)) ∧
      (∃ last, waiters.getLast? = some last ∧ submitted[last]? = some (.task command target)) ∧
      (target = none → waiters.length = 1)

def pushUpdate (pending : List (PendingMutation T)) (next : Update T) : List (PendingMutation T) :=
  match pending.getLast? with
  | some (update updates) => pending.dropLast ++ [update (updates ++ [next])]
  | some (task _ _ _) | none => pending ++ [update [next]]

def pushTask (pending : List (PendingMutation T)) (target : Option AppearanceMutationTarget)
    (command : T → T) (ticket : Ticket) : List (PendingMutation T) :=
  match pending.getLast? with
  | some (task other _ waiters) =>
    if target ≠ none ∧ other = target then
      pending.dropLast ++ [task target command (waiters ++ [ticket])]
    else pending ++ [task target command [ticket]]
  | some (update _) | none => pending ++ [task target command [ticket]]

end PendingMutation

namespace Drain

def waiters : Drain T → List Ticket
  | writing updates _ => updates.map Update.ticket
  | commanding _ _ waiters | reading waiters _ | rejecting waiters _ => waiters

def mutation : Drain T → Option (PendingMutation T)
  | writing updates _ => some (.update updates)
  | commanding target command waiters => some (.task target command waiters)
  | reading _ _ | rejecting _ _ => none

end Drain

namespace MutationQueue

def new (loaded : T) : MutationQueue T where
  current := loaded
  stored := loaded
  pending := []
  running := false
  drains := []
  settled := []
  submitted := []
  accepted := []
  persisted := []
  ahead := []
  fresh := true

/-- One turn of the loop of `drain`: the next mutation begins, or the loop ends. -/
def turn (s : MutationQueue T) : MutationQueue T :=
  match s.pending with
  | [] => { s with running := false }
  | .update updates :: rest =>
    { s with
      pending := rest
      drains := s.drains ++ [.writing updates (Update.projectAll updates s.current)] }
  | .task target command waiters :: rest =>
    { s with pending := rest, drains := s.drains ++ [.commanding target command waiters] }

def drain (s : MutationQueue T) : MutationQueue T :=
  if s.running then s else { s with running := true }.turn

def update (s : MutationQueue T) (project : Projection T) : MutationQueue T :=
  let next := ⟨s.submitted.length, project⟩
  drain { s with
    current := project.toFun s.current
    ahead := s.ahead ++ [next]
    pending := PendingMutation.pushUpdate s.pending next
    submitted := s.submitted ++ [.update project] }

def task (s : MutationQueue T) (command : T → T) (target : Option AppearanceMutationTarget) :
    MutationQueue T :=
  drain { s with
    pending := PendingMutation.pushTask s.pending target command s.submitted.length
    submitted := s.submitted ++ [.task command target] }

def commit (s : MutationQueue T) (mutation : PendingMutation T) (value : T)
    (outcome : Outcome T) : MutationQueue T :=
  { s with
    current := value
    stored := value
    ahead := []
    fresh := true
    settled := s.settled ++ mutation.waiters.map (·, outcome)
    accepted := s.accepted ++ [mutation]
    persisted := s.persisted ++ [value] }

def step (write : T → T) (s : MutationQueue T) : QueueEvent T → Option (MutationQueue T)
  | .update project => some (s.update project)
  | .task command target => some (s.task command target)
  | .finish i fault =>
    match s.drains[i]?, fault with
    | some (.writing updates value), none =>
      let stored := write value
      some ({ s with drains := s.drains.eraseIdx i }.commit (.update updates) stored .updated).turn
    | some (.commanding target command waiters), none =>
      let stored := command s.stored
      some ({ s with drains := s.drains.eraseIdx i }.commit (.task target command waiters) stored
        (.answered stored)).turn
    | some (.writing updates _), some error =>
      some { s with
        drains := s.drains.set i (.reading (updates.map Update.ticket) error)
        fresh := false }
    | some (.commanding _ _ waiters), some error =>
      some { s with drains := s.drains.set i (.reading waiters error), fresh := false }
    | some (.reading _ _), _ | some (.rejecting _ _), _ | none, _ => none
  | .read i failed =>
    match s.drains[i]? with
    | some (.reading waiters error) =>
      let drains := s.drains.set i (.rejecting waiters error)
      -- without an answer the optimistic value is kept
      some (if failed then { s with drains, fresh := false }
        else { s with drains, current := s.stored, ahead := [], fresh := true })
    | some (.writing _ _) | some (.commanding _ _ _) | some (.rejecting _ _) | none => none
  | .reject i =>
    match s.drains[i]? with
    | some (.rejecting waiters error) =>
      some { s with
        drains := s.drains.eraseIdx i
        settled := s.settled ++ waiters.map (·, Outcome.rejected error) }.turn
    | some (.writing _ _) | some (.commanding _ _ _) | some (.reading _ _) | none => none

/-- No batch is computed from a value that carries other updates than its own single one. -/
def Alone (s : MutationQueue T) : Prop :=
  match s.pending with
  | .update updates :: _ => s.ahead = [] ∨ s.ahead = updates ∧ updates.length = 1
  | .task _ _ _ :: _ | [] => True

/-- A step at which every batch that begins is rebased onto the stored value. -/
def Rebased (s : MutationQueue T) : QueueEvent T → Prop
  | .update _ => s.running = true ∨ s.ahead = []
  | .reject _ => s.Alone
  | .task _ _ | .finish _ _ | .read _ _ => True

/-- One drain at most, and nothing waits without one. -/
def Serial (s : MutationQueue T) : Prop :=
  (∃ d, s.drains = [d]) ∧ s.running = true ∨ s.drains = [] ∧ s.running = false ∧ s.pending = []

def tickets (s : MutationQueue T) : List Ticket :=
  s.settled.map Prod.fst ++ s.drains.flatMap Drain.waiters ++
    s.pending.flatMap PendingMutation.waiters

/-- The invariant of the queue, in and between its turns. -/
structure Lossless (write : T → T) (loaded : T) (s : MutationQueue T) : Prop where
  tickets : s.tickets = List.range s.submitted.length
  waiting : ∀ m ∈ s.pending, m.Made s.submitted
  begun : ∀ d ∈ s.drains, ∀ m ∈ d.mutation, m.Made s.submitted
  accepted : ∀ m ∈ s.accepted, m.Made s.submitted
  answered : s.accepted.flatMap PendingMutation.waiters =
    (s.settled.filter fun answer => !answer.2.isRejected).map Prod.fst
  persisted : s.persisted = PendingMutation.replay write loaded s.accepted
  stored : s.stored = s.persisted.getLastD loaded
  current : s.current = Update.projectAll s.ahead s.stored
  values : ∀ updates value, .writing updates value ∈ s.drains →
    value = Update.projectAll updates s.stored
  kept : s.fresh = true → s.pending = [] → (∀ d ∈ s.drains, d.mutation = none) → s.ahead = []

end MutationQueue

theorem Update.projectAll_append (updates : List (Update T)) (next : Update T) (value : T) :
    projectAll (updates ++ [next]) value = next.project.toFun (projectAll updates value) := by
  unfold projectAll
  rw [foldl_append]
  rfl

namespace PendingMutation
variable {pending : List (PendingMutation T)} {m : PendingMutation T} {next : Update T}
  {submitted : List (Submission T)}

theorem replay_snoc (write : T → T) (loaded : T) (ms : List (PendingMutation T))
    (m : PendingMutation T) :
    replay write loaded (ms ++ [m]) =
      replay write loaded ms ++ [m.apply write ((replay write loaded ms).getLastD loaded)] := by
  induction ms generalizing loaded with
  | nil => rfl
  | cons first rest ih =>
    simp only [cons_append, replay, ih, getLastD_cons]

theorem Made.snoc (h : m.Made submitted) (next : Submission T) : m.Made (submitted ++ [next]) := by
  have hkeep : ∀ (ticket : Ticket) (x : Submission T), submitted[ticket]? = some x →
      (submitted ++ [next])[ticket]? = some x := by
    intro ticket x hx
    rw [getElem?_append_left (List.getElem?_eq_some_iff.mp hx).1]
    exact hx
  cases m with
  | update updates => exact ⟨h.1, fun u hu => hkeep _ _ (h.2 u hu)⟩
  | task target command waiters =>
    obtain ⟨htasks, ⟨last, hlast, hcommand⟩, hsingle⟩ := h
    refine ⟨fun ticket hticket => ?_, ⟨last, hlast, hkeep _ _ hcommand⟩, hsingle⟩
    obtain ⟨other, hother⟩ := htasks ticket hticket
    exact ⟨other, hkeep _ _ hother⟩

theorem waiters_pushUpdate :
    (pushUpdate pending next).flatMap waiters = pending.flatMap waiters ++ [next.ticket] := by
  unfold pushUpdate
  split
  · rename_i updates htail
    obtain ⟨first, rfl⟩ := getLast?_eq_some_iff.mp htail
    simp [waiters]
  all_goals simp [waiters]

variable {target : Option AppearanceMutationTarget} {command : T → T}

variable {ticket : Ticket}

theorem waiters_pushTask :
    (pushTask pending target command ticket).flatMap waiters =
      pending.flatMap waiters ++ [ticket] := by
  unfold pushTask
  split
  · rename_i other replaced tickets htail
    split_ifs
    · obtain ⟨first, rfl⟩ := getLast?_eq_some_iff.mp htail
      simp [waiters]
    · simp [waiters]
  all_goals simp [waiters]

theorem made_pushUpdate {project : Projection T} (h : ∀ m ∈ pending, m.Made submitted) :
    ∀ m ∈ pushUpdate pending ⟨submitted.length, project⟩,
      m.Made (submitted ++ [.update project]) := by
  have hnext : (submitted ++ [.update project])[submitted.length]? =
      some (Submission.update project) := getElem?_concat_length
  intro m hm
  unfold pushUpdate at hm
  split at hm
  · rename_i updates htail
    obtain ⟨first, rfl⟩ := getLast?_eq_some_iff.mp htail
    rw [dropLast_concat] at hm
    rcases mem_append.mp hm with hm | hm
    · exact (h m (mem_append_left _ hm)).snoc _
    · cases mem_singleton.mp hm
      have hold := (h _ (mem_append_right _ (mem_singleton_self _))).snoc
        (.update project)
      refine ⟨concat_ne_nil _ _, fun u hu => ?_⟩
      rcases mem_append.mp hu with hu | hu
      · exact hold.2 u hu
      · cases mem_singleton.mp hu
        exact hnext
  all_goals
    rcases mem_append.mp hm with hm | hm
    · exact (h m hm).snoc _
    · cases mem_singleton.mp hm
      refine ⟨cons_ne_nil _ _, fun u hu => ?_⟩
      cases mem_singleton.mp hu
      exact hnext

theorem made_pushTask (h : ∀ m ∈ pending, m.Made submitted) :
    ∀ m ∈ pushTask pending target command submitted.length,
      m.Made (submitted ++ [.task command target]) := by
  have hnext : (submitted ++ [.task command target])[submitted.length]? =
      some (Submission.task command target) := getElem?_concat_length
  have hsingle : Made (submitted ++ [.task command target])
      (task target command [submitted.length]) := by
    refine ⟨fun ticket hticket => ?_, ⟨_, rfl, hnext⟩, fun _ => rfl⟩
    cases mem_singleton.mp hticket
    exact ⟨command, hnext⟩
  intro m hm
  unfold pushTask at hm
  split at hm
  · rename_i other replaced tickets htail
    split_ifs at hm with hreplace
    · obtain ⟨hsome, rfl⟩ := hreplace
      obtain ⟨first, rfl⟩ := getLast?_eq_some_iff.mp htail
      rw [dropLast_concat] at hm
      rcases mem_append.mp hm with hm | hm
      · exact (h m (mem_append_left _ hm)).snoc _
      · cases mem_singleton.mp hm
        have hold := (h _ (mem_append_right _ (mem_singleton_self _))).snoc
          (.task command other)
        refine ⟨fun ticket hticket => ?_, ⟨_, getLast?_concat, hnext⟩,
          fun hnone => absurd hnone hsome⟩
        rcases mem_append.mp hticket with hticket | hticket
        · exact hold.1 ticket hticket
        · cases mem_singleton.mp hticket
          exact ⟨command, hnext⟩
    · rcases mem_append.mp hm with hm | hm
      · exact (h m hm).snoc _
      · cases mem_singleton.mp hm
        exact hsingle
  all_goals
    rcases mem_append.mp hm with hm | hm
    · exact (h m hm).snoc _
    · cases mem_singleton.mp hm
      exact hsingle

theorem pushUpdate_ne_nil : pushUpdate pending next ≠ [] := by
  unfold pushUpdate
  split
  all_goals exact concat_ne_nil _ _

theorem pushTask_ne_nil : pushTask pending target command ticket ≠ [] := by
  unfold pushTask
  split
  · split_ifs
    all_goals exact concat_ne_nil _ _
  all_goals exact concat_ne_nil _ _

end PendingMutation

namespace MutationQueue
variable {write : T → T} {loaded : T} {s t : MutationQueue T} {d : Drain T} {m : PendingMutation T}

theorem waiters_of_mutation (hm : d.mutation = some m) : d.waiters = m.waiters := by
  cases d with
  | writing updates value =>
    cases hm
    rfl
  | commanding target command waiters =>
    cases hm
    rfl
  | reading waiters error => cases hm
  | rejecting waiters error => cases hm

theorem serial_turn (hdrains : s.drains = []) (hrunning : s.running = true) : s.turn.Serial := by
  unfold turn
  split
  · rename_i hpending
    exact .inr ⟨hdrains, rfl, hpending⟩
  all_goals
    refine .inl ⟨?_, hrunning⟩
    simp only [hdrains, nil_append]
    exact ⟨_, rfl⟩

theorem lossless_new (loaded : T) : Lossless write loaded (new loaded) where
  tickets := rfl
  waiting _ hm := absurd hm not_mem_nil
  begun _ hd := absurd hd not_mem_nil
  accepted _ hm := absurd hm not_mem_nil
  answered := rfl
  persisted := rfl
  stored := rfl
  current := rfl
  values _ _ hd := absurd hd not_mem_nil
  kept _ _ _ := rfl

/-- The next mutation leaves the queue for the drain that begins it. -/
theorem lossless_begin {rest : List (PendingMutation T)} (hs : Lossless write loaded s)
    (hdrains : s.drains = []) (hpending : s.pending = m :: rest) (hm : d.mutation = some m)
    (hvalue : ∀ updates value, d = .writing updates value →
      value = Update.projectAll updates s.stored) :
    Lossless write loaded { s with pending := rest, drains := s.drains ++ [d] } := by
  have htickets := hs.tickets
  unfold tickets at htickets
  rw [hdrains, hpending, flatMap_nil, append_nil] at htickets
  refine ⟨?_, fun n hn => hs.waiting n (hpending ▸ .tail _ hn), fun e he n hn => ?_, hs.accepted,
    hs.answered, hs.persisted, hs.stored, hs.current, fun updates value he => ?_,
    fun _ _ hnone => ?_⟩
  · rw [← htickets]
    simp [tickets, hdrains, waiters_of_mutation hm]
  · rw [hdrains] at he
    cases mem_singleton.mp he
    cases hm.symm.trans hn
    exact hs.waiting _ (hpending ▸ (.head _))
  · rw [hdrains] at he
    exact hvalue updates value (mem_singleton.mp he).symm
  · have hbegun := hnone _ (mem_append_right _ (mem_singleton_self d))
    cases hbegun.symm.trans hm

theorem lossless_turn (hs : Lossless write loaded s) (hdrains : s.drains = [])
    (halone : s.Alone) : Lossless write loaded s.turn := by
  unfold turn
  split
  · exact ⟨hs.tickets, hs.waiting, hs.begun, hs.accepted, hs.answered, hs.persisted, hs.stored,
      hs.current, hs.values, hs.kept⟩
  · rename_i updates rest hpending
    refine lossless_begin hs hdrains hpending rfl fun others value hd => ?_
    obtain ⟨rfl, rfl⟩ := Drain.writing.inj hd
    have halone : s.ahead = [] ∨ s.ahead = updates ∧ updates.length = 1 := by
      unfold Alone at halone
      rw [hpending] at halone
      exact halone
    have hcurrent := hs.current
    rcases halone with hnil | ⟨hsame, hone⟩
    · rw [hnil] at hcurrent
      rw [hcurrent]
      rfl
    · -- its own update is made a second time
      obtain ⟨own, rfl⟩ := length_eq_one_iff.mp hone
      rw [hsame] at hcurrent
      rw [hcurrent]
      exact own.project.idem s.stored
  · rename_i hpending
    exact lossless_begin hs hdrains hpending rfl nofun

/-- What is asked for waits for its turn: the drain under way takes it, or one that it starts. -/
theorem lossless_ask (hserial : s.Serial)
    (hpushed : ∀ running, Lossless write loaded { t with running })
    (hrunning : t.running = s.running) (hdrains : t.drains = s.drains)
    (halone : s.running = false → s.pending = [] → t.Alone) :
    t.drain.Serial ∧ Lossless write loaded t.drain := by
  unfold drain
  rcases hserial with ⟨hdrain, hbusy⟩ | ⟨hnone, hidle, hpending⟩
  · have hbusy := hrunning.trans hbusy
    rw [if_pos hbusy]
    exact ⟨.inl ⟨hdrains ▸ hdrain, hbusy⟩, hpushed t.running⟩
  · have hnone := hdrains.trans hnone
    rw [if_neg (by rw [hrunning, hidle]; decide)]
    exact ⟨serial_turn hnone rfl, lossless_turn (hpushed true) hnone (halone hidle hpending)⟩

theorem lossless_update (hs : Lossless write loaded s) (hserial : s.Serial)
    (project : Projection T) (hrebased : s.Rebased (.update project)) :
    (s.update project).Serial ∧ Lossless write loaded (s.update project) := by
  have hpushed : ∀ running, Lossless write loaded { s with
      running
      current := project.toFun s.current
      ahead := s.ahead ++ [⟨s.submitted.length, project⟩]
      pending := PendingMutation.pushUpdate s.pending ⟨s.submitted.length, project⟩
      submitted := s.submitted ++ [.update project] } := by
    intro running
    refine ⟨?_, PendingMutation.made_pushUpdate hs.waiting, fun d hd m hm => ?_, fun m hm => ?_,
      hs.answered, hs.persisted, hs.stored, ?_, hs.values, fun _ hnil => ?_⟩
    · have htickets := hs.tickets
      unfold tickets at htickets ⊢
      rw [PendingMutation.waiters_pushUpdate, ← append_assoc, htickets, List.length_append,
        length_singleton, range_succ]
    · exact (hs.begun d hd m hm).snoc _
    · exact (hs.accepted m hm).snoc _
    · rw [Update.projectAll_append, ← hs.current]
    · exact absurd hnil PendingMutation.pushUpdate_ne_nil
  refine lossless_ask hserial hpushed rfl rfl fun hidle hpending => ?_
  have hnil : s.ahead = [] := by
    rcases hrebased with hbusy | hnil
    · rw [hidle] at hbusy
      cases hbusy
    · exact hnil
  unfold Alone
  simp only [hpending, hnil]
  exact .inr ⟨rfl, rfl⟩

theorem lossless_task (hs : Lossless write loaded s) (hserial : s.Serial) (command : T → T)
    (target : Option AppearanceMutationTarget) :
    (s.task command target).Serial ∧ Lossless write loaded (s.task command target) := by
  have hpushed : ∀ running, Lossless write loaded { s with
      running
      pending := PendingMutation.pushTask s.pending target command s.submitted.length
      submitted := s.submitted ++ [.task command target] } := by
    intro running
    refine ⟨?_, PendingMutation.made_pushTask hs.waiting, fun d hd m hm => ?_, fun m hm => ?_,
      hs.answered, hs.persisted, hs.stored, hs.current, hs.values, fun _ hnil => ?_⟩
    · have htickets := hs.tickets
      unfold tickets at htickets ⊢
      rw [PendingMutation.waiters_pushTask, ← append_assoc, htickets, List.length_append,
        length_singleton, range_succ]
    · exact (hs.begun d hd m hm).snoc _
    · exact (hs.accepted m hm).snoc _
    · exact absurd hnil PendingMutation.pushTask_ne_nil
  refine lossless_ask hserial hpushed rfl rfl fun _ hpending => ?_
  unfold Alone
  simp only [hpending]
  exact trivial

theorem lossless_commit (value : T) (outcome : Outcome T) (hs : Lossless write loaded s)
    (hdrain : s.drains = [d]) (hm : d.mutation = some m) (hvalue : value = m.apply write s.stored)
    (houtcome : outcome.isRejected = false) :
    Lossless write loaded ({ s with drains := [] }.commit m value outcome) := by
  refine ⟨?_, hs.waiting, fun d hd => absurd hd not_mem_nil, fun n hn => ?_, ?_, ?_, ?_, rfl,
    fun updates value hd => absurd hd not_mem_nil, fun _ _ _ => rfl⟩
  · have htickets := hs.tickets
    unfold tickets at htickets ⊢
    rw [hdrain] at htickets
    simp only [commit, ← htickets, waiters_of_mutation hm, map_append, map_map,
      flatMap_nil, flatMap_cons, append_nil]
    congr 2
    exact map_id _
  · rcases mem_append.mp hn with hn | hn
    · exact hs.accepted n hn
    · cases mem_singleton.mp hn
      exact hs.begun d (hdrain ▸ mem_singleton_self d) _ hm
  · have hall : (m.waiters.map (·, outcome)).filter (fun answer => !answer.2.isRejected) =
        m.waiters.map (·, outcome) := by
      rw [filter_eq_self]
      intro answer hanswer
      obtain ⟨ticket, -, rfl⟩ := mem_map.mp hanswer
      rw [houtcome]
      rfl
    simp only [commit, flatMap_append, hs.answered, filter_append, hall,
      map_append, map_map, flatMap_cons, flatMap_nil, append_nil]
    congr 1
    exact (map_id _).symm
  · have hpersisted := hs.persisted
    simp only [commit]
    rw [PendingMutation.replay_snoc, ← hpersisted, ← hs.stored, ← hvalue]
  · simp [commit]

variable {e : Drain T}

theorem lossless_fail (hs : Lossless write loaded s) (hdrain : s.drains = [d])
    (hwaiters : e.waiters = d.waiters) (hnone : e.mutation = none) :
    Lossless write loaded { s with drains := [e], fresh := false } := by
  refine ⟨?_, hs.waiting, fun d' hd m hm => ?_, hs.accepted, hs.answered, hs.persisted, hs.stored,
    hs.current, fun updates value hd => ?_, fun hfresh => ?_⟩
  · have htickets := hs.tickets
    unfold tickets at htickets ⊢
    rw [hdrain] at htickets
    simp only [flatMap_cons, flatMap_nil, append_nil, hwaiters] at htickets ⊢
    exact htickets
  · cases mem_singleton.mp hd
    rw [hnone] at hm
    cases hm
  · rw [← mem_singleton.mp hd] at hnone
    cases hnone
  · cases hfresh

/-- A recovery read takes the stored value over again. -/
theorem lossless_adopt (hs : Lossless write loaded s) (hdrain : s.drains = [d])
    (hwaiters : e.waiters = d.waiters) (hnone : e.mutation = none) :
    Lossless write loaded
      { s with drains := [e], current := s.stored, ahead := [], fresh := true } := by
  have hfail := lossless_fail hs hdrain hwaiters hnone
  exact ⟨hfail.tickets, hfail.waiting, hfail.begun, hfail.accepted, hfail.answered,
    hfail.persisted, hfail.stored, rfl, hfail.values, fun _ _ _ => rfl⟩

theorem lossless_reject {waiters : List Ticket} {error : String} (hs : Lossless write loaded s)
    (hdrain : s.drains = [.rejecting waiters error]) :
    Lossless write loaded { s with
      drains := []
      settled := s.settled ++ waiters.map (·, Outcome.rejected error) } := by
  refine ⟨?_, hs.waiting, fun d hd => absurd hd not_mem_nil, hs.accepted, ?_, hs.persisted,
    hs.stored, hs.current, fun updates value hd => absurd hd not_mem_nil,
    fun hfresh hpending _ => hs.kept hfresh hpending fun d hd => ?_⟩
  · have htickets := hs.tickets
    unfold tickets at htickets ⊢
    rw [hdrain] at htickets
    simp only [← htickets, Drain.waiters, map_append, map_map, flatMap_nil,
      flatMap_cons, append_nil]
    congr 2
    exact map_id _
  · have hnone : (waiters.map (·, Outcome.rejected (T := T) error)).filter
        (fun answer => !answer.2.isRejected) = [] := by
      rw [filter_eq_nil_iff]
      intro answer hanswer
      obtain ⟨ticket, -, rfl⟩ := mem_map.mp hanswer
      exact Bool.not_eq_true _ |>.mpr rfl
    rw [filter_append, hnone, append_nil]
    exact hs.answered
  · rw [hdrain] at hd
    cases mem_singleton.mp hd
    rfl

theorem alone_of_ahead (hahead : s.ahead = []) : s.Alone := by
  unfold Alone
  split
  · exact .inl hahead
  all_goals trivial

theorem only_drain (hserial : s.Serial) {i : ℕ} (hd : s.drains[i]? = some d) :
    i = 0 ∧ s.drains = [d] ∧ s.running = true := by
  rcases hserial with ⟨⟨d', hdrain⟩, hrunning⟩ | ⟨hdrains, -, -⟩
  · rw [hdrain] at hd ⊢
    have hi : i < 1 := (List.getElem?_eq_some_iff.mp hd).1
    obtain rfl : i = 0 := by omega
    cases hd
    exact ⟨rfl, rfl, hrunning⟩
  · rw [hdrains] at hd
    cases hd

theorem lossless_step {e : QueueEvent T} (hrebased : s.Rebased e)
    (hs : s.Serial ∧ Lossless write loaded s) (h : s.step write e = some t) :
    t.Serial ∧ Lossless write loaded t := by
  obtain ⟨hserial, hs⟩ := hs
  cases e with
  | update project =>
    cases h
    exact lossless_update hs hserial project hrebased
  | task command target =>
    cases h
    exact lossless_task hs hserial command target
  | finish i fault =>
    simp only [step] at h
    split at h
    · rename_i updates value hd
      obtain ⟨rfl, hdrain, hrunning⟩ := only_drain hserial hd
      cases h
      have hvalue := hs.values updates value (hdrain ▸ mem_singleton_self _)
      have hcommit := lossless_commit (write value) .updated hs hdrain rfl
        (congrArg write hvalue) rfl
      simp only [hdrain, eraseIdx_zero, tail_cons]
      exact ⟨serial_turn rfl hrunning, lossless_turn hcommit rfl (alone_of_ahead rfl)⟩
    · rename_i target command waiters hd
      obtain ⟨rfl, hdrain, hrunning⟩ := only_drain hserial hd
      cases h
      have hcommit := lossless_commit (command s.stored) (.answered (command s.stored)) hs hdrain
        rfl rfl rfl
      simp only [hdrain, eraseIdx_zero, tail_cons]
      exact ⟨serial_turn rfl hrunning, lossless_turn hcommit rfl (alone_of_ahead rfl)⟩
    · rename_i updates value error hd
      obtain ⟨rfl, hdrain, hrunning⟩ := only_drain hserial hd
      cases h
      simp only [hdrain, set_cons_zero]
      exact ⟨.inl ⟨⟨_, rfl⟩, hrunning⟩, lossless_fail hs hdrain rfl rfl⟩
    · rename_i target command waiters error hd
      obtain ⟨rfl, hdrain, hrunning⟩ := only_drain hserial hd
      cases h
      simp only [hdrain, set_cons_zero]
      exact ⟨.inl ⟨⟨_, rfl⟩, hrunning⟩, lossless_fail hs hdrain rfl rfl⟩
    all_goals cases h
  | read i failed =>
    simp only [step] at h
    split at h
    · rename_i waiters error hd
      obtain ⟨rfl, hdrain, hrunning⟩ := only_drain hserial hd
      cases h
      simp only [hdrain, set_cons_zero]
      cases failed with
      | true => exact ⟨.inl ⟨⟨_, rfl⟩, hrunning⟩, lossless_fail hs hdrain rfl rfl⟩
      | false => exact ⟨.inl ⟨⟨_, rfl⟩, hrunning⟩, lossless_adopt hs hdrain rfl rfl⟩
    all_goals cases h
  | reject i =>
    simp only [step] at h
    split at h
    · rename_i waiters error hd
      obtain ⟨rfl, hdrain, hrunning⟩ := only_drain hserial hd
      cases h
      simp only [hdrain, eraseIdx_zero, tail_cons]
      exact ⟨serial_turn rfl hrunning, lossless_turn (lossless_reject hs hdrain) rfl hrebased⟩
    all_goals cases h

end MutationQueue

def mutations (write : T → T) : Machine (MutationQueue T) (QueueEvent T) where
  init s := ∃ loaded, s = .new loaded
  step := MutationQueue.step write

namespace MutationQueue
variable {write : T → T} {loaded : T} {s : MutationQueue T}

/-- The queue is serial and lossless in every run in which each batch is rebased onto the stored
value: one drain at a time; every promise settled once, in the order of submission, and all of them
when the queue is idle; the stored values those of the accepted mutations, which are made up of what
was submitted and hold nothing that was rejected; and the current value the stored one when the
queue is idle after a success. -/
theorem queue_lossless {es : List (QueueEvent T)}
    (halong : (mutations write).Along Rebased (new loaded) es)
    (hrun : (mutations write).run (new loaded) es = some s) :
    s.drains.length ≤ 1 ∧
    (s.settled.map Prod.fst ++ s.drains.flatMap Drain.waiters ++
        s.pending.flatMap PendingMutation.waiters = List.range s.submitted.length ∧
      (s.running = false → s.settled.map Prod.fst = List.range s.submitted.length)) ∧
    (∃ accepted : List (PendingMutation T),
      (∀ m ∈ accepted, m.Made s.submitted) ∧
      accepted.flatMap PendingMutation.waiters =
        (s.settled.filter fun answer => !answer.2.isRejected).map Prod.fst ∧
      s.persisted = PendingMutation.replay write loaded accepted ∧
      s.stored = s.persisted.getLastD loaded ∧
      ∀ ticket error, (ticket, Outcome.rejected error) ∈ s.settled →
        ∀ m ∈ accepted, ticket ∉ m.waiters) ∧
    (s.running = false → s.fresh = true → s.current = s.stored) := by
  have hinvariant : s.Serial ∧ Lossless write loaded s := by
    refine Machine.invariant_along (P := fun s => s.Serial ∧ Lossless write loaded s) ?_ ?_ halong
      hrun
    · intro s e t hrebased hs hstep
      exact lossless_step hrebased hs hstep
    · exact ⟨.inr ⟨rfl, rfl, rfl⟩, lossless_new loaded⟩
  obtain ⟨hserial, hs⟩ := hinvariant
  have hidle : s.running = false → s.drains = [] ∧ s.pending = [] := by
    intro hrunning
    rcases hserial with ⟨-, hbusy⟩ | ⟨hdrains, -, hpending⟩
    · rw [hrunning] at hbusy
      cases hbusy
    · exact ⟨hdrains, hpending⟩
  refine ⟨?_, ⟨hs.tickets, fun hrunning => ?_⟩, ⟨s.accepted, hs.accepted, hs.answered,
    hs.persisted, hs.stored, ?_⟩, fun hrunning hfresh => ?_⟩
  · rcases hserial with ⟨⟨d, hdrain⟩, -⟩ | ⟨hdrains, -, -⟩
    · rw [hdrain]
      exact Nat.le_refl 1
    · rw [hdrains]
      exact Nat.zero_le 1
  · obtain ⟨hdrains, hpending⟩ := hidle hrunning
    have htickets := hs.tickets
    unfold tickets at htickets
    rw [hdrains, hpending, List.flatMap_nil, List.flatMap_nil, List.append_nil,
      List.append_nil] at htickets
    exact htickets
  · intro ticket error hrejected m hm hticket
    have hnodup : (s.settled.map Prod.fst).Nodup := by
      have hall : s.tickets.Nodup := hs.tickets ▸ List.nodup_range
      exact (List.nodup_append.mp (List.nodup_append.mp hall).1).1
    have hmem : ticket ∈ s.accepted.flatMap PendingMutation.waiters :=
      List.mem_flatMap.mpr ⟨m, hm, hticket⟩
    rw [hs.answered] at hmem
    obtain ⟨⟨other, outcome⟩, hkept, rfl⟩ := List.mem_map.mp hmem
    obtain ⟨hsettled, houtcome⟩ := List.mem_filter.mp hkept
    have hsame := List.inj_on_of_nodup_map hnodup hsettled hrejected rfl
    rw [(Prod.mk.inj hsame).2] at houtcome
    cases houtcome
  · obtain ⟨hdrains, hpending⟩ := hidle hrunning
    have hahead : s.ahead = [] := by
      refine hs.kept hfresh hpending fun d hd => ?_
      rw [hdrains] at hd
      cases hd
    have hcurrent := hs.current
    rw [hahead] at hcurrent
    exact hcurrent

/-- Two updates that wait for a command are made to what it stored, in one write. -/
theorem queue_lossless_coalesced :
    ∃ es s, (mutations id).Along Rebased (new (0, 0)) es ∧
      (mutations id).run (new (0, 0)) es = some s ∧ s.settled.map Prod.fst = [0, 1, 2] ∧
      s.persisted = [(0, 9), (3, 9)] ∧ s.current = s.stored := by
  have halong : (mutations id).Along Rebased (new (0, 0)) [.task (fun v => (v.1, 9)) none,
      .update ⟨fun v : ℕ × ℕ => (2, v.2), fun _ => rfl⟩, .update ⟨fun v => (3, v.2), fun _ => rfl⟩,
      .finish 0 none, .finish 0 none] := by
    refine ⟨trivial, fun t ht => ?_⟩
    cases ht
    refine ⟨.inl rfl, fun t ht => ?_⟩
    cases ht
    exact ⟨.inl rfl, fun t _ => ⟨trivial, fun t _ => ⟨trivial, fun t _ => trivial⟩⟩⟩
  have hlossless := queue_lossless halong rfl
  exact ⟨_, _, halong, rfl, hlossless.2.1.2 rfl, rfl, hlossless.2.2.2 rfl rfl⟩

/-- The first update is rejected, and the recovery read fails as well: the second is made to the
optimistic value and stores the first with it. -/
theorem queue_persists_rejected :
    ∃ s, (mutations id).run (new (0, 0)) [
        .update ⟨fun v : ℕ × ℕ => (1, v.2), fun _ => rfl⟩, .finish 0 (some "disk full"),
        .read 0 true, .reject 0, .update ⟨fun v => (v.1, 1), fun _ => rfl⟩, .finish 0 none] =
        some s ∧
      s.settled = [(0, .rejected "disk full"), (1, .updated)] ∧ s.persisted = [(1, 1)] ∧
      PendingMutation.replay id (0, 0)
        [.update [⟨1, ⟨fun v => (v.1, 1), fun _ => rfl⟩⟩]] = [(0, 1)] :=
  ⟨_, rfl, rfl, rfl, rfl⟩

end MutationQueue
end Soloist.Ui
