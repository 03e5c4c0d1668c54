import Soloist.Mailbox.Accounting
import Soloist.Mailbox.Outcomes
import Soloist.Mailbox.Presence

/-! What is left of a process or a project in the mailbox once its removal has been answered. The
reactor is told by an event that a full bus drops, and a send under way does not ask again whether
its recipient is still there. -/
open List

namespace Soloist

/-! ### A recipient of whom nothing is held -/

/-- Nothing waits, nothing is owed and nothing is in flight. -/
structure Letterbox.Bare (b : Letterbox) : Prop where
  inbox : b.inbox = []
  onboarding : b.onboarding = none
  wake : b.wake = none
  latch : b.inFlight = false

def LetterboxAct.Fills : LetterboxAct → Prop
  | .deliver .. | .brief .. => True
  | _ => False

theorem Letterbox.Bare.step {b b' : Letterbox} {act : LetterboxAct} (hb : b.Bare)
    (h : b.step act = some b') (hact : ¬ act.Fills) : b'.Bare := by
  obtain ⟨hinbox, honboarding, hwake, hlatch⟩ := hb
  cases act with
  | deliver | brief => exact absurd trivial hact
  | claim w =>
    simp [Letterbox.step, Letterbox.waiting, hinbox, honboarding] at h
  | mark w =>
    obtain ⟨c, -, rfl⟩ := Option.map_eq_some_iff.mp h
    exact ⟨by simp [hinbox], rfl, rfl, hlatch⟩
  | release w =>
    obtain ⟨c, -, rfl⟩ := Option.map_eq_some_iff.mp h
    exact ⟨hinbox, honboarding, hwake, rfl⟩
  | refuse =>
    cases h
    exact ⟨hinbox, honboarding, by simp [hwake], hlatch⟩
  | nonIdle now =>
    simp [Letterbox.step, hlatch] at h
  | acknowledge now id =>
    simp [Letterbox.step, hinbox] at h
  | remove =>
    cases h
    exact ⟨rfl, rfl, rfl, rfl⟩

/-! ### Removals -/

inductive Removable
  | process (id : ProcessId)
  | project (id : ProjectId)
  deriving DecidableEq, Repr

namespace MailboxOp

def fills (m : Mailroom) (op : MailboxOp) : List Removable :=
  (op.posted m).map (fun d => .process d.message.recipient) ++
    match op with
    | .queueOnboarding _ process _ => [.process process]
    | .recordCompletionNotice reporter _ notice => [.process reporter, .process notice.recipient]
    | .record _ d => [.project d.message.project]
    | _ => []

theorem mem_fills_of_posted {m : Mailroom} {op : MailboxOp} {d : AgentMessageDelivery}
    (hd : d ∈ op.posted m) : .process d.message.recipient ∈ op.fills m :=
  mem_append_left _ (mem_map.mpr ⟨d, hd, rfl⟩)

end MailboxOp

namespace Mailroom
variable {m m' : Mailroom} {op : MailboxOp} {p : ProcessId}

/-- The mailbox holds nothing of the process. -/
structure Cleared (m : Mailroom) (p : ProcessId) : Prop where
  inbox : m.state.inbox p = []
  onboarding : m.state.onboardingOf p = none
  wake : m.state.pendingWake p = none
  latch : p ∉ m.state.wakeInFlight
  receipts : ∀ x ∈ m.state.taskReceipts, x.recipient ≠ p
  notices : ∀ x ∈ m.state.completionNotices, x.reporter ≠ p ∧ x.recipient ≠ p

theorem bare_iff : (m.letterbox p).Bare ↔ m.state.inbox p = [] ∧ m.state.onboardingOf p = none ∧
    m.state.pendingWake p = none ∧ p ∉ m.state.wakeInFlight := by
  constructor
  · rintro ⟨hinbox, honboarding, hwake, hlatch⟩
    exact ⟨hinbox, honboarding, hwake, of_decide_eq_false hlatch⟩
  · rintro ⟨hinbox, honboarding, hwake, hlatch⟩
    exact ⟨hinbox, honboarding, hwake, decide_eq_false hlatch⟩

theorem bare_step (hb : (m.letterbox p).Bare) (h : m.step op = some m') (hop : .process p ∉ op.fills m) :
    (m'.letterbox p).Bare := by
  rcases letterbox_step p h with hsame | ⟨act, hacts, -, hact⟩
  · rw [hsame]
    exact hb
  · refine hb.step hact fun hfills => hop ?_
    have hdelivers : ∀ {now : UInt64} {message : AgentMessage},
        (m.letterbox p).step (.deliver now message) = some (m'.letterbox p) →
        .process p ∈ op.fills m := by
      intro now message hdeliver
      have hmem : (⟨message, .queued⟩ : Pending) ∈ m'.state.inbox p := by
        have hinbox : m'.state.inbox p = m.state.inbox p ++ [⟨message, .queued⟩] :=
          Letterbox.inbox_step hdeliver
        rw [hinbox]
        exact mem_append_right _ (mem_singleton_self _)
      rcases inbox_source h hmem with ⟨q, hq, -⟩ | ⟨d, hd, hr, -⟩
      · rw [show m.state.inbox p = [] from hb.inbox] at hq
        cases hq
      · exact hr ▸ MailboxOp.mem_fills_of_posted hd
    cases hacts with
    | enqueue | enqueueMany | enqueueReserved => exact hdelivers hact
    | queueOnboarding => exact mem_append_right _ (mem_singleton_self _)
    | _ => exact absurd hfills id

theorem Cleared.step (hc : m.Cleared p) (hplaced : Facade.Placed m.state)
    (h : m.step op = some m') (hop : .process p ∉ op.fills m) : m'.Cleared p := by
  have hbare := bare_step (bare_iff.mpr ⟨hc.inbox, hc.onboarding, hc.wake, hc.latch⟩) h hop
  obtain ⟨hinbox, honboarding, hwake, hlatch⟩ := bare_iff.mp hbare
  refine ⟨hinbox, honboarding, hwake, hlatch, fun x hx hxp => ?_, fun x hx => ?_⟩
  · rcases receipts_source h hx with hx | ⟨r, q, hq, hxq⟩
    · exact hc.receipts x hx hxp
    · have hr : r = p := by
        rw [← hplaced r q hq, ← hxp, hxq]
        rfl
      rw [hr, hc.inbox] at hq
      cases hq
  · rw [completionNotices_step h] at hx
    cases op with
    | recordCompletionNotice reporter task notice =>
      rcases MailboxState.mem_pushRing hx with hx | hx
      · exact hc.notices x hx
      · have hnot : p ≠ reporter ∧ p ≠ notice.recipient := by
          simpa [MailboxOp.fills, MailboxOp.posted] using hop
        rw [hx]
        exact ⟨hnot.1.symm, hnot.2.symm⟩
    | removeProcess process => exact hc.notices x (mem_filter.mp hx).1
    | _ => exact hc.notices x hx

theorem cleared_of_removed (h : m.step (.removeProcess p) = some m') : m'.Cleared p := by
  have hbox : some (m'.letterbox p) = (m.letterbox p).step .remove := by
    have hbox := m.state.letterbox_removeProcess (claimsOf m.submissions p) p p
    rw [if_pos rfl] at hbox
    cases h
    exact hbox
  have hbare : (m'.letterbox p).Bare := by
    rw [show m'.letterbox p = { m.letterbox p with
      inbox := [], onboarding := none, wake := none, inFlight := false } from Option.some.inj hbox]
    exact ⟨rfl, rfl, rfl, rfl⟩
  obtain ⟨hinbox, honboarding, hwake, hlatch⟩ := bare_iff.mp hbare
  have hnotices := completionNotices_step h
  obtain ⟨count, bytes, counts, hframe⟩ := m.state.removeProcess_frame p
  refine ⟨hinbox, honboarding, hwake, hlatch, fun x hx => ?_, fun x hx => ?_⟩
  · cases h
    rw [hframe] at hx
    exact of_decide_eq_true (mem_filter.mp hx).2
  · rw [hnotices] at hx
    exact of_decide_eq_true (mem_filter.mp hx).2

end Mailroom

namespace Removable

def event : Removable → MailEvent
  | process id => .processRemoved id
  | project id => .projectRemoved id

theorem isRemoval_event (x : Removable) : x.event.isRemoval = true := by
  cases x <;> rfl

def Closed (s : Facade) : Removable → Prop
  | process id => s.Gone id
  | project id => id ≤ s.board.projects.seq ∧ s.board.projects.contains id = false

instance (s : Facade) : ∀ x : Removable, Decidable (x.Closed s)
  | .process id => inferInstanceAs (Decidable (s.Gone id))
  | .project id =>
    inferInstanceAs (Decidable (id ≤ s.board.projects.seq ∧ s.board.projects.contains id = false))

def Forgotten (m : Mailroom) : Removable → Prop
  | process id => m.Cleared id
  | project id => m.state.transcript.queue id = []

variable {m m' : Mailroom} {op : MailboxOp} {x : Removable}

theorem Forgotten.step (hx : x.Forgotten m) (hplaced : Facade.Placed m.state)
    (hfiled : m.state.FiledOnce) (h : m.step op = some m') (hop : x ∉ op.fills m) :
    x.Forgotten m' := by
  cases x with
  | process id => exact Mailroom.Cleared.step hx hplaced h hop
  | project id =>
    have hnone : op.filed id = [] := by
      cases op with
      | record now d => exact if_neg fun hid => hop (mem_singleton.mpr (congrArg project hid))
      | _ => rfl
    have hsub := Mailroom.transcript_step hfiled h id
    rw [show m.state.transcript.queue id = [] from hx, hnone] at hsub
    exact sublist_nil.mp hsub

theorem forgotten_of_answer (hop : Facade.answer x.event = some op) (h : m.step op = some m') :
    x.Forgotten m' := by
  cases x with
  | process id =>
    cases hop
    exact Mailroom.cleared_of_removed h
  | project id =>
    cases hop
    cases h
    exact (m.state.queue_forgetProject id id).trans (if_pos rfl)

end Removable

def MailCall.write (c : Nat) (env : Surroundings) : MailCall → Option MailboxOp
  | .rostered draft members =>
    match draft.addressee with
    | .one recipient =>
      if recipient ∈ members then
        some (.enqueue env.now draft.project draft.sender recipient draft.kind draft.body
          draft.todoId)
      else none
    | .group =>
      some (.enqueueMany env.now draft.project draft.sender (members.filter (· ≠ draft.sender))
        draft.kind draft.body draft.todoId)
  | .dispatching d => if d.stage = .settled then some (.record env.now d.head) else none
  | .noticing r d => some (.recordCompletionNotice r.reporter r.task d.message)
  | .briefing spawn worker label =>
    some (.queueOnboarding env.now worker (orchestrationGuide worker spawn.project label))
  | .placing _ worker => some (.enqueueReserved env.now c worker)
  | .recording _ d => some (.record env.now d)
  | .deciding project process body =>
    some (.enqueue env.now project process process .trustDecision body none)
  | _ => none

namespace Facade
variable {s t : Facade} {c : Nat} {env : Surroundings} {call call' : MailCall} {x : Removable}

def written (s : Facade) : FacadeEvent → List Removable
  | .proceed c env =>
    (((s.calls c).bind (MailCall.write c env)).map (MailboxOp.fills s.room)).getD []
  | _ => []

/-- No removal is dropped unread while something of what was removed is held, and nothing is put in
for what was removed once its removal has been answered. -/
def Tidy (s : Facade) (e : FacadeEvent) : Prop :=
  ∀ x : Removable, (s.dropped e = some x.event → x.Forgotten s.room) ∧
    (x ∈ s.written e → x.Closed s → s.Owed x.event)

variable {op : MailboxOp}

theorem written_of_write (hcall : s.calls c = some call) (hop : call.write c env = some op) :
    op.fills s.room ⊆ s.written (.proceed c env) := by
  simp [written, hcall, hop]

theorem Performs.written (hcall : s.calls c = some call) (h : Performs s c env call op call') :
    op.fills s.room ⊆ s.written (.proceed c env) := by
  cases h with
  | recorded d now hstage =>
    have hwritten : _ ⊆ s.written (.proceed c env) := written_of_write hcall (if_pos hstage)
    exact hwritten
  | noticed | briefed | placed | placeRefused | taskRecorded | decided =>
    have hwritten : _ ⊆ s.written (.proceed c env) := written_of_write hcall rfl
    exact hwritten
  | _ => exact nil_subset _

/-- The mailbox is left as it is, or moved by an operation that puts in what the step writes. -/
def Wrote (s : Facade) (e : FacadeEvent) (t : Facade) : Prop :=
  t.room = s.room ∨ ∃ op, s.room.step op = some t.room ∧ op.fills s.room ⊆ s.written e

theorem Turn.wrote (hcall : s.calls c = some call) (h : Turn s c env call t) :
    Wrote s (.proceed c env) t := by
  cases h with
  | performs hroom hop => exact .inr ⟨_, hroom, hop.written hcall⟩
  | queued draft members recipient d room haddressee hmember hok hroom =>
    refine .inr ⟨_, hroom, written_of_write hcall ?_⟩
    simp only [MailCall.write, haddressee, if_pos hmember]
  | queuedAll draft members ds room call' haddressee hok hroom hcall' =>
    refine .inr ⟨_, hroom, written_of_write hcall ?_⟩
    simp only [MailCall.write, haddressee]
  | acknowledged recipient id now d room hok hroom => exact .inr ⟨_, hroom, nil_subset _⟩
  | _ => exact .inl rfl

variable {e : FacadeEvent}

theorem ErrandTurn.wrote {action : Errand} {rest : List Errand}
    (h : ErrandTurn s env rest action t) : Wrote s e t := by
  cases h with
  | performs new he hnew hop hroom =>
    refine .inr ⟨_, hroom, ?_⟩
    cases hop <;> exact nil_subset _
  | removes id hroom | forgets id hroom => exact .inr ⟨_, hroom, nil_subset _⟩
  | _ => exact .inl rfl

theorem Step.wrote (h : Step s e t) : Wrote s e t := by
  cases h with
  | proceeds hcall hturn => exact hturn.wrote hcall
  | errands hnext hturn => exact hturn.wrote
  | _ => exact .inl rfl

theorem Step.projects (h : Step s e t) :
    KeepsProjects s.board t.board ∨
      ∃ q, t.board = s.board.removeProject q ∧ t.Owed (.projectRemoved q) := by
  cases h with
  | stores hboard => exact .inl hboard
  | @proceeds c env call t hcall hturn =>
    cases hturn with
    | arranges harranges =>
      cases harranges with
      | completed r outcome board call' hprojects => exact .inl (.inl hprojects)
      | flagged r d board hprojects => exact .inl (.inl hprojects)
      | deleted q => exact .inr ⟨q, rfl, .inl ⟨c, _, Slots.put_self, rfl⟩⟩
      | _ => exact .inl (.inl rfl)
    | _ => exact .inl (.inl rfl)
  | errands hnext hturn => cases hturn <;> exact .inl (.inl rfl)
  | _ => exact .inl (.inl rfl)

theorem Step.closed_source (h : Step s e t) (hx : x.Closed t) : x.Closed s ∨ t.Owed x.event := by
  cases x with
  | process id => exact h.registryEffect.gone_source hx
  | project q =>
    obtain ⟨hle, hnone⟩ := hx
    rcases h.projects with (hsame | hadd) | ⟨p, hremove, howed⟩
    · rw [hsame] at hle hnone
      exact .inl ⟨hle, hnone⟩
    · rw [hadd] at hle hnone
      have hnot : ¬ (q = s.board.projects.seq + 1 ∨ s.board.projects.contains q = true) :=
        fun hq => by
          rw [Board.contains_addProject.mpr hq] at hnone
          cases hnone
      obtain ⟨hnew, hold⟩ := not_or.mp hnot
      exact .inl ⟨Nat.le_of_lt_succ (Nat.lt_of_le_of_ne hle hnew), Bool.eq_false_iff.mpr hold⟩
    · by_cases hq : q = p
      · rw [hq]
        exact .inr howed
      · rw [hremove] at hle hnone
        refine .inl ⟨hle, Bool.eq_false_iff.mpr fun hold => ?_⟩
        rw [Board.contains_removeProject.mpr ⟨hold, hq⟩] at hnone
        cases hnone

theorem dropped_of_written (h : x ∈ s.written e) : s.dropped e = none := by
  refine if_neg fun hfull => ?_
  have hpublishes := hfull.1
  cases e with
  | proceed c env =>
    cases hcall : s.calls c with
    | none => simp [written, hcall] at h
    | some call =>
      cases call with
      | dispatching d =>
        simp only [publishes, hcall, decide_eq_true_eq] at hpublishes
        simp [written, hcall, MailCall.write, hpublishes] at h
      | announcing | announcingTodo | announcingTask | closing | removing =>
        simp [written, hcall, MailCall.write] at h
      | _ => simp [publishes, hcall] at hpublishes
  | _ => cases h

/-- Nothing is left of what was removed, unless its removal is still to be answered. -/
def Tidied (s : Facade) : Prop :=
  ∀ x : Removable, x.Closed s → s.Owed x.event ∨ x.Forgotten s.room

theorem Tidied.step (hs : Tidied s) (hcorr : Corresponds s) (htidy : s.Tidy e) (h : Step s e t) :
    Tidied t := by
  intro x hx
  rcases h.closed_source hx with hclosed | howed
  · have hkept : s.Owed x.event → s.dropped e ≠ some x.event →
        t.Owed x.event ∨ x.Forgotten t.room := by
      intro howed hdropped
      rcases howed.step hcorr.fresh x.isRemoval_event hdropped h with howed | ⟨op, hop, hroom⟩
      · exact .inl howed
      · exact .inr (Removable.forgotten_of_answer hop hroom)
    by_cases hwritten : x ∈ s.written e
    · refine hkept ((htidy x).2 hwritten hclosed) ?_
      rw [dropped_of_written hwritten]
      exact fun h => by cases h
    · have hstill : x.Forgotten s.room → x.Forgotten t.room := by
        intro hforgotten
        rcases h.wrote with hroom | ⟨op, hroom, hfills⟩
        · rw [hroom]
          exact hforgotten
        · exact hforgotten.step hcorr.placed hcorr.filed hroom fun hx => hwritten (hfills hx)
      rcases hs x hclosed with howed | hforgotten
      · by_cases hdropped : s.dropped e = some x.event
        · exact .inr (hstill ((htidy x).1 hdropped))
        · exact hkept howed hdropped
      · exact .inr (hstill hforgotten)
  · exact .inl howed

theorem tidied_init : Tidied .init := by
  intro x hx
  refine .inr ?_
  cases x with
  | process p => exact ⟨rfl, rfl, rfl, Finset.notMem_empty p, by simp [init, Mailroom.empty,
      MailboxState.empty], by simp [init, Mailroom.empty, MailboxState.empty]⟩
  | project q => rfl

theorem Settled.not_owed (h : s.Settled) (hfresh : s.Fresh) (e : MailEvent) : ¬ s.Owed e := by
  obtain ⟨hcalls, herrands, hbus⟩ := h
  rintro (⟨c, call, hcall, howes⟩ | hqueue | herrand)
  · have hlt : c < s.nextCall := by
      by_contra hle
      rw [hfresh c (Nat.not_lt.mp hle)] at hcall
      cases hcall
    have hreturned := hcalls c hlt
    rw [hcall] at hreturned
    cases call with
    | returned reply => cases howes
    | _ => cases hreturned
  · rw [hbus] at hqueue
    cases hqueue
  · rw [herrands] at herrand
    cases herrand

/-- Nothing is left of what was removed, and the counters charge messages of others only. -/
structure Clean (s : Facade) : Prop where
  processes : ∀ p, s.Gone p → s.room.Cleared p ∧ ∀ msg ∈ s.room.pendingMessages, msg.recipient ≠ p
  projects : ∀ q, q ≤ s.board.projects.seq → s.board.projects.contains q = false →
    s.room.state.transcript.queue q = []
  counted : s.room.Accounted

theorem clean_of_settled (hs : facadeMachine.ReachableUnder Tidy s) (hsettled : s.Settled) :
    s.Clean := by
  have hinv : Corresponds s ∧ Tidied s ∧ s.room.Balanced := by
    refine hs.invariant (P := fun s => Corresponds s ∧ Tidied s ∧ s.room.Balanced) ?_ ?_
    · intro u hu
      rw [hu]
      exact ⟨corresponds_init, tidied_init, Mailroom.balanced_empty⟩
    · rintro u e v htidy ⟨hcorr, htidied, hbalanced⟩ hstep
      refine ⟨hcorr.step hstep, htidied.step hcorr htidy (step_cases hstep), ?_⟩
      rcases (step_cases hstep).wrote with hroom | ⟨op, hroom, -⟩
      · rw [hroom]
        exact hbalanced
      · exact hbalanced.step hroom
  obtain ⟨hcorr, htidied, hbalanced⟩ := hinv
  have hforgotten : ∀ x : Removable, x.Closed s → x.Forgotten s.room := fun x hx =>
    (htidied x hx).resolve_left (hsettled.not_owed hcorr.fresh x.event)
  constructor
  · intro p hp
    have hcleared : s.room.Cleared p := hforgotten (.process p) hp
    refine ⟨hcleared, fun msg hmsg hrecipient => ?_⟩
    obtain ⟨pending, hpending, rfl⟩ := List.mem_map.mp hmsg
    obtain ⟨r, hr⟩ := Queues.mem_contents.mp hpending
    have hbox : pending ∈ s.room.state.inbox r := hr
    rw [← hcorr.placed r pending hbox, hrecipient, hcleared.inbox] at hbox
    cases hbox
  · exact fun q hle hnone => hforgotten (.project q) ⟨hle, hnone⟩
  · exact hbalanced.accounted

/-! ### Runs -/

/-- Nothing is dropped, and nothing is put in for what is already removed. -/
def Orderly (s : Facade) (e : FacadeEvent) : Prop :=
  s.dropped e = none ∧ ∀ x ∈ s.written e, ¬ x.Closed s

instance (s : Facade) (e : FacadeEvent) : Decidable (Orderly s e) :=
  inferInstanceAs (Decidable (s.dropped e = none ∧ ∀ x ∈ s.written e, ¬ x.Closed s))

theorem Orderly.tidy (h : Orderly s e) : s.Tidy e := by
  intro x
  refine ⟨fun hdropped => ?_, fun hwritten hclosed => absurd hclosed (h.2 x hwritten)⟩
  rw [h.1] at hdropped
  cases hdropped

/-- The worker is closed with its task unread, and the project is removed with the task on record. -/
theorem clean_of_settled_removed :
    ∃ s : Facade, s.Gone 2 ∧ s.board.projects.contains 1 = false ∧ s.Clean := by
  obtain ⟨s, hs, hsettled, hgone, hproject⟩ :=
    facadeMachine.exists_reachableUnder_of_run (G := Orderly) rfl
      (spawned ++ [.close 2] ++ proceeds 2 1 ++ [.removeProject 1] ++
        proceeds 3 1 { order := [1] } ++ proceeds 3 5 ++ drains 4) (by decide)
      (fun s => s.Settled ∧ s.Gone 2 ∧
        s.board.projects.contains 1 = false) (by decide)
  exact ⟨s, hgone, hproject, clean_of_settled (hs.mono fun u e h => h.tidy) hsettled⟩

/-- The worker's removal is answered between the roster of a send and its enqueue: the message stays
in the inbox of a process that is gone. -/
theorem settled_unclean : ∃ s, facadeMachine.Reachable s ∧ s.Settled ∧
    s.Gone 2 ∧ s.room.state.inbox 2 ≠ [] ∧
      s.room.state.pendingCount = 1 :=
  facadeMachine.exists_reachable_of_run rfl
    (spawned ++ [.send lead 2 "hi" none] ++ proceeds 2 1 { project := some 1 } ++
      proceeds 2 1 { order := [2, 1] } ++ proceeds 2 4 ++ [.close 2] ++ proceeds 3 1 ++ drains 2 ++
      proceeds 2 4 ++ drains 1) _ (by decide)

end Facade

end Soloist
