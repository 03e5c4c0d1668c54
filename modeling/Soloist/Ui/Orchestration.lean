import Soloist.Ids
import Soloist.Machine
import Soloist.Slots

/-! The orchestration board: a snapshot of the selected project, read again whenever an event says
that something on it changed. Reads overlap, and whichever answer comes last is shown; the board
ends up fresh as long as no answer overtakes that of a later read, or comes for a project that was
left. -/
open Slots

namespace Soloist.Ui

/-- The hook's subscription to domain events. It reads once the listener is attached. -/
inductive Listener
  | detached
  | attaching
  | attached
  | failed
  deriving DecidableEq, Repr

/-- What is left of a project that is no longer selected: a listener that was still attaching then
goes on until it is released, and does not look whether it was cancelled. -/
structure Lingering where
  project : ProjectId
  listening : Bool
  frame : Bool
  resync : Bool
  deriving DecidableEq, Repr

abbrev RequestSeq := Nat

/-- A read on its way: what it was answered, once the backend has. -/
structure BoardRequest (Snapshot : Type*) where
  project : ProjectId
  /-- How many changes there had been when it began. -/
  begun : ℕ
  answer : Option (Except String Snapshot)

/-- The last answer taken over. -/
structure Shown (Snapshot : Type*) where
  seq : RequestSeq
  forProject : ProjectId
  begun : ℕ
  snapshot : Snapshot

structure Board (State Snapshot : Type*) where
  backend : State
  /-- The changes so far, each with its event. -/
  changes : ℕ
  project : Option ProjectId
  listener : Listener
  /-- The events that the webview has not handled yet. -/
  deltas : ℕ
  /-- A read is scheduled for the next frame. -/
  frame : Bool
  lingering : List Lingering
  flight : Slots RequestSeq (BoardRequest Snapshot)
  next : RequestSeq
  shown : Option (Shown Snapshot)
  error : Option String

inductive BoardEvent (State : Type*)
  /-- Something the board renders changes, and its event is emitted. A listener that is attaching
  has heard it, or not. -/
  | change (backend : State) (heard : Bool)
  | deliver
  | frame
  | attach
  | attachFails (reason : String)
  /-- The window gains focus, or the backend signals a resync. -/
  | reconcile
  /-- Another project is selected, before the listener for resyncs of the last one was attached
  (`resync`) or after. -/
  | select (project : Option ProjectId) (resync : Bool)
  | overhear (left : ℕ)
  | strayFrame (left : ℕ)
  | release (left : ℕ) (fault : Option String)
  | strayResync (left : ℕ)
  | releaseResync (left : ℕ)
  | serve (seq : RequestSeq) (fault : Option String)
  | respond (seq : RequestSeq)

namespace Board
variable {State Snapshot : Type*}

def new (backend : State) : Board State Snapshot where
  backend
  changes := 0
  project := none
  listener := .detached
  deltas := 0
  frame := false
  lingering := []
  flight := .empty
  next := 0
  shown := none
  error := none

def read (s : Board State Snapshot) (project : ProjectId) : Board State Snapshot :=
  { s with flight := s.flight.put s.next ⟨project, s.changes, none⟩, next := s.next + 1 }

def refresh (s : Board State Snapshot) : Board State Snapshot :=
  match s.project with
  | none => s
  | some project => s.read project

/-- Coalesces a burst of events into one read on the next frame. -/
def scheduleRefresh (s : Board State Snapshot) : Board State Snapshot := { s with frame := true }

def settle (s : Board State Snapshot) (seq : RequestSeq) (request : BoardRequest Snapshot) :
    Except String Snapshot → Board State Snapshot
  | .ok snapshot => { s with shown := some ⟨seq, request.project, request.begun, snapshot⟩ }
  | .error reason => { s with error := some reason }

/-- The effects of the selected project are cleaned up. -/
def leave (s : Board State Snapshot) (resync : Bool) : List Lingering :=
  match s.project with
  | none => s.lingering
  | some project => s.lingering ++ [⟨project, s.listener = .attaching, false, resync⟩]

def relinger (s : Board State Snapshot) (left : ℕ) (f : Lingering → Lingering) :
    Board State Snapshot :=
  { s with lingering := s.lingering.modify left f }

def view (s : Board State Snapshot) : Option Snapshot :=
  (s.shown.filter fun shown => some shown.forProject = s.project).map Shown.snapshot

def step (snapshot : ProjectId → State → Snapshot) (s : Board State Snapshot) :
    BoardEvent State → Option (Board State Snapshot)
  | .change backend heard =>
    let hears := s.listener = .attached ∨ s.listener = .attaching ∧ heard
    some { s with
      backend
      changes := s.changes + 1
      deltas := if hears then s.deltas + 1 else s.deltas }
  | .deliver =>
    if s.deltas = 0 then none else some { s with deltas := s.deltas - 1 }.scheduleRefresh
  | .frame => if s.frame then some { s with frame := false }.refresh else none
  | .attach =>
    if s.listener = .attaching then some { s with listener := .attached }.refresh else none
  | .attachFails reason =>
    if s.listener = .attaching then some { s with listener := .failed, error := some reason }
    else none
  | .reconcile => some s.refresh
  | .select project resync =>
    if project = s.project then none
    else
      -- an attached listener and its frame are cancelled, and a new one begins
      let listener := if project = none then .detached else .attaching
      some { s with
        project, listener, deltas := 0, frame := false, lingering := s.leave resync }
  | .overhear left =>
    match s.lingering[left]? with
    | some ⟨_, true, _, _⟩ => some (s.relinger left fun l => { l with frame := true })
    | _ => none
  | .strayFrame left =>
    match s.lingering[left]? with
    | some ⟨project, _, true, _⟩ =>
      some ((s.relinger left fun l => { l with frame := false }).read project)
    | _ => none
  | .release left fault =>
    match s.lingering[left]? with
    | some ⟨_, true, _, _⟩ =>
      some { s.relinger left fun l => { l with listening := false } with
        error := fault.or s.error }
    | _ => none
  | .strayResync left =>
    match s.lingering[left]? with
    | some ⟨project, _, _, true⟩ => some (s.read project)
    | _ => none
  | .releaseResync left => some (s.relinger left fun l => { l with resync := false })
  | .serve seq fault =>
    match s.flight seq with
    | some ⟨project, begun, none⟩ =>
      let answer := match fault with
        | some reason => .error reason
        | none => .ok (snapshot project s.backend)
      some { s with flight := s.flight.put seq ⟨project, begun, some answer⟩ }
    | some ⟨_, _, some _⟩ | none => none
  | .respond seq =>
    match s.flight seq with
    | some ⟨project, begun, some answer⟩ =>
      some ({ s with flight := s.flight.erase seq }.settle seq ⟨project, begun, some answer⟩ answer)
    | some ⟨_, _, none⟩ | none => none

/-- No event, frame, subscription or request is under way. -/
structure Settled (s : Board State Snapshot) : Prop where
  deltas : s.deltas = 0
  frame : s.frame = false
  listener : s.listener ≠ .attaching
  lingering : ∀ l ∈ s.lingering, l.frame = false
  flight : ∀ seq < s.next, s.flight seq = none

/-- Another read is still to come, or there is nothing to read. -/
def Rereads (s : Board State Snapshot) : Prop :=
  s.project = none ∨ s.listener = .attaching ∨ s.deltas ≠ 0 ∨ s.frame = true

/-- A read of the selected project that began after the last change. -/
def IsCurrent (s : Board State Snapshot) (project : ProjectId) (begun : ℕ) : Prop :=
  some project = s.project ∧ begun = s.changes

instance (s : Board State Snapshot) (project : ProjectId) (begun : ℕ) :
    Decidable (s.IsCurrent project begun) :=
  inferInstanceAs (Decidable (_ ∧ _))

/-- A current read is taken over or on its way, and so is any later one of the selected project. -/
def Covered (s : Board State Snapshot) : Prop :=
  ∃ last < s.next,
    ((∃ shown ∈ s.shown, shown.seq = last ∧ s.IsCurrent shown.forProject shown.begun) ∨
      ∃ request ∈ s.flight last, s.IsCurrent request.project request.begun) ∧
    ∀ seq < s.next, last < seq → ∀ request ∈ s.flight seq,
      some request.project = s.project → request.begun = s.changes

/-- A snapshot comes before that of any later read, and one of another project or an error only if
a current read is left, or another still to come. -/
def Timely (s : Board State Snapshot) (seq : RequestSeq) (project : ProjectId) :
    Except String Snapshot → Prop
  | .ok _ => (∀ shown ∈ s.shown, shown.seq < seq) ∧
      (some project = s.project ∨ s.Rereads ∨
        Covered { s with flight := s.flight.erase seq, shown := none })
  | .error _ => s.Rereads ∨ Covered { s with flight := s.flight.erase seq }

/-- A step in which answers come in time, and the subscription fails, or something changes after it
did, only if a read is left that shows it. -/
def InOrder (s : Board State Snapshot) : BoardEvent State → Prop
  | .respond seq =>
    ∀ request ∈ s.flight seq, ∀ answer ∈ request.answer, s.Timely seq request.project answer
  | .attachFails _ => s.deltas ≠ 0 ∨ s.frame = true ∨ s.Covered
  | .change _ _ => s.listener = .failed → s.deltas ≠ 0 ∨ s.frame = true
  | _ => True

/-- What was read since the last change is what there is. -/
structure Recorded (snapshot : ProjectId → State → Snapshot) (s : Board State Snapshot) :
    Prop where
  issued : ∀ seq request, s.flight seq = some request → seq < s.next
  taken : ∀ shown, s.shown = some shown → shown.seq < s.next
  listening : s.project = none ↔ s.listener = .detached
  answered : ∀ seq request, s.flight seq = some request → request.begun ≤ s.changes ∧
    (request.begun = s.changes → ∀ shown, request.answer = some (.ok shown) →
      shown = snapshot request.project s.backend)
  held : ∀ shown, s.shown = some shown → shown.begun ≤ s.changes ∧
    (shown.begun = s.changes → shown.snapshot = snapshot shown.forProject s.backend)

/-- The invariant of the board: unless another read is to come the selected project is covered. -/
structure Tracking (snapshot : ProjectId → State → Snapshot) (s : Board State Snapshot) :
    Prop extends Recorded snapshot s where
  covered : s.Rereads ∨ s.Covered

instance (s : Board State Snapshot) : Decidable s.Rereads :=
  inferInstanceAs (Decidable (_ ∨ _ ∨ _ ∨ _))

instance (s : Board State Snapshot) : Decidable s.Covered :=
  inferInstanceAs (Decidable (∃ last < s.next,
    ((∃ shown ∈ s.shown, shown.seq = last ∧ s.IsCurrent shown.forProject shown.begun) ∨
      ∃ request ∈ s.flight last, s.IsCurrent request.project request.begun) ∧
    ∀ seq < s.next, last < seq → ∀ request ∈ s.flight seq,
      some request.project = s.project → request.begun = s.changes))

instance (s : Board State Snapshot) (seq : RequestSeq) (project : ProjectId) :
    ∀ answer, Decidable (s.Timely seq project answer)
  | .ok _ => inferInstanceAs (Decidable ((∀ shown ∈ s.shown, shown.seq < seq) ∧ (_ ∨ _ ∨ _)))
  | .error _ => inferInstanceAs (Decidable (s.Rereads ∨ _))

instance (s : Board State Snapshot) : ∀ e, Decidable (s.InOrder e)
  | .respond seq => inferInstanceAs (Decidable (∀ request ∈ s.flight seq,
      ∀ answer ∈ request.answer, s.Timely seq request.project answer))
  | .attachFails _ => inferInstanceAs (Decidable (_ ∨ _ ∨ s.Covered))
  | .change _ _ => inferInstanceAs (Decidable (_ → _ ∨ _))
  | .deliver | .frame | .attach | .reconcile | .select _ _ | .overhear _ | .strayFrame _
  | .release _ _ | .strayResync _ | .releaseResync _ | .serve _ _ => isTrue trivial

instance (s : Board State Snapshot) : Decidable s.Settled :=
  decidable_of_iff (s.deltas = 0 ∧ s.frame = false ∧ s.listener ≠ .attaching ∧
      (∀ l ∈ s.lingering, l.frame = false) ∧ ∀ seq < s.next, s.flight seq = none)
    ⟨fun ⟨hdeltas, hframe, hlistener, hleft, hflight⟩ =>
        ⟨hdeltas, hframe, hlistener, hleft, hflight⟩,
      fun h => ⟨h.deltas, h.frame, h.listener, h.lingering, h.flight⟩⟩

variable {snapshot : ProjectId → State → Snapshot} {s t : Board State Snapshot}
  {e : BoardEvent State}

theorem tracking_new (backend : State) : Tracking snapshot (new backend) where
  issued seq request h := by cases h
  taken shown h := by cases h
  listening := ⟨fun _ => rfl, fun _ => rfl⟩
  answered seq request h := by cases h
  held shown h := by cases h
  covered := .inl (.inl rfl)

variable {project : ProjectId}

theorem refresh_none (hproject : s.project = none) : s.refresh = s := by
  unfold refresh
  rw [hproject]

theorem refresh_some (hproject : s.project = some project) : s.refresh = s.read project := by
  unfold refresh
  rw [hproject]

/-- A read that begins is current, of whichever project it is. -/
theorem covered_read (hs : s.Covered) : (s.read project).Covered := by
  obtain ⟨last, hlast, hfound, hlater⟩ := hs
  refine ⟨last, Nat.lt_succ_of_lt hlast, ?_, fun seq hseq hlt request h hselected => ?_⟩
  · rcases hfound with hshown | ⟨request, hflight, hcurrent⟩
    · exact .inl hshown
    · exact .inr ⟨request, (put_of_ne (Nat.ne_of_lt hlast)).trans hflight, hcurrent⟩
  · rcases put_eq_some.mp h with ⟨-, rfl⟩ | ⟨hne, h⟩
    · rfl
    · have hseq : seq < s.next := Nat.lt_of_le_of_ne (Nat.le_of_lt_succ hseq) hne
      exact hlater seq hseq hlt request h hselected

theorem covered_read_selected (hproject : s.project = some project) :
    (s.read project).Covered := by
  refine ⟨s.next, Nat.lt_succ_self _, .inr ⟨_, put_self, hproject.symm, rfl⟩, ?_⟩
  intro seq hseq hlast
  exact absurd hlast (Nat.not_lt_of_le (Nat.le_of_lt_succ hseq))

theorem tracking_read (hs : Recorded snapshot s)
    (covered : s.Rereads ∨ (s.read project).Covered) : Tracking snapshot (s.read project) := by
  refine ⟨⟨fun seq request h => ?_, fun shown h => ?_, hs.listening, fun seq request h => ?_,
    hs.held⟩, covered⟩
  · rcases put_eq_some.mp h with ⟨rfl, -⟩ | ⟨-, h⟩
    · exact Nat.lt_succ_self _
    · exact Nat.lt_succ_of_lt (hs.issued seq request h)
  · exact Nat.lt_succ_of_lt (hs.taken shown h)
  · rcases put_eq_some.mp h with ⟨-, rfl⟩ | ⟨-, h⟩
    · refine ⟨Nat.le_refl _, fun _ shown hshown => ?_⟩
      cases hshown
    · exact hs.answered seq request h

theorem tracking_refresh (hs : Recorded snapshot s) : Tracking snapshot s.refresh := by
  cases hproject : s.project with
  | none =>
    rw [refresh_none hproject]
    exact ⟨hs, .inl (.inl hproject)⟩
  | some project =>
    rw [refresh_some hproject]
    exact tracking_read hs (.inr (covered_read_selected hproject))

theorem tracking_stray (hs : Tracking snapshot s) (lingering : List Lingering) :
    Tracking snapshot ({ s with lingering }.read project) :=
  tracking_read { hs.toRecorded with }
    (hs.covered.imp id fun hcovered => covered_read (s := { s with lingering }) hcovered)

theorem tracking_change (hs : Tracking snapshot s) {backend : State} {heard : Bool}
    (horder : s.InOrder (.change backend heard))
    (h : s.step snapshot (.change backend heard) = some t) : Tracking snapshot t := by
  cases h
  refine ⟨⟨hs.issued, hs.taken, hs.listening, fun seq request hrequest => ?_,
    fun shown hshown => ?_⟩, .inl ?_⟩
  · have hbegun := (hs.answered seq request hrequest).1
    refine ⟨Nat.le_succ_of_le hbegun, fun hnow => ?_⟩
    have hnow : request.begun = s.changes + 1 := hnow
    omega
  · have hbegun := (hs.held shown hshown).1
    refine ⟨Nat.le_succ_of_le hbegun, fun hnow => ?_⟩
    have hnow : shown.begun = s.changes + 1 := hnow
    omega
  · cases hlistener : s.listener with
    | detached => exact .inl (hs.listening.mpr hlistener)
    | attaching => exact .inr (.inl rfl)
    | attached =>
      refine .inr (.inr (.inl ?_))
      simp
    | failed =>
      rcases horder hlistener with hdeltas | hframe
      · refine .inr (.inr (.inl ?_))
        simpa [hlistener] using hdeltas
      · exact .inr (.inr (.inr hframe))

variable {seq : RequestSeq}

variable {begun : ℕ}

/-- An answer changes neither the project of a read nor when it began. -/
theorem covered_serve {before after : Option (Except String Snapshot)}
    (hrequest : s.flight seq = some ⟨project, begun, before⟩) (hs : s.Covered) :
    Covered { s with flight := s.flight.put seq ⟨project, begun, after⟩ } := by
  obtain ⟨last, hlast, hfound, hlater⟩ := hs
  refine ⟨last, hlast, ?_, fun other hother hlt request h => ?_⟩
  · rcases hfound with hshown | ⟨request, hflight, hcurrent⟩
    · exact .inl hshown
    · right
      by_cases hsame : last = seq
      · subst hsame
        obtain rfl := Option.some.inj (hrequest.symm.trans hflight)
        exact ⟨_, put_self, hcurrent⟩
      · exact ⟨request, (put_of_ne hsame).trans hflight, hcurrent⟩
  · rcases put_eq_some.mp h with ⟨rfl, rfl⟩ | ⟨-, h⟩
    · have hcurrent := hlater other hother hlt _ hrequest
      exact hcurrent
    · exact hlater other hother hlt request h

theorem tracking_serve (hs : Tracking snapshot s) {fault : Option String}
    (h : s.step snapshot (.serve seq fault) = some t) : Tracking snapshot t := by
  simp only [step] at h
  split at h
  · rename_i project begun hrequest
    cases h
    refine ⟨⟨fun other request hother => ?_, hs.taken, hs.listening,
      fun other request hother => ?_, hs.held⟩, hs.covered.imp id (covered_serve hrequest)⟩
    · rcases put_eq_some.mp hother with ⟨rfl, -⟩ | ⟨-, hother⟩
      · exact hs.issued other _ hrequest
      · exact hs.issued other request hother
    · rcases put_eq_some.mp hother with ⟨-, rfl⟩ | ⟨-, hother⟩
      · refine ⟨(hs.answered seq _ hrequest).1, fun _ shown hshown => ?_⟩
        cases fault with
        | none => exact (Except.ok.inj (Option.some.inj hshown)).symm
        | some reason => cases hshown
      · exact hs.answered other request hother
  all_goals cases h

/-- A snapshot that comes in order leaves the board covered, by itself if it is the latest. -/
theorem covered_respond {snapshot : Snapshot} {answer : Option (Except String Snapshot)}
    (hrequest : s.flight seq = some ⟨project, begun, answer⟩) (hseq : seq < s.next)
    (horder : ∀ shown ∈ s.shown, shown.seq < seq) (hselected : some project = s.project)
    (hs : s.Covered) :
    Covered { s with
      flight := s.flight.erase seq
      shown := some ⟨seq, project, begun, snapshot⟩ } := by
  obtain ⟨last, hlast, hfound, hlater⟩ := hs
  have hrest : ∀ other < s.next, last < other → ∀ request ∈ s.flight.erase seq other,
      some request.project = s.project → request.begun = s.changes := by
    intro other hother hlt request h
    exact hlater other hother hlt request (erase_eq_some.mp h).2
  rcases Nat.lt_trichotomy last seq with hlt | rfl | hgt
  · have hcurrent := hlater seq hseq hlt _ hrequest hselected
    refine ⟨seq, hseq, .inl ⟨_, rfl, rfl, hselected, hcurrent⟩, ?_⟩
    exact fun other hother hafter => hrest other hother (Nat.lt_trans hlt hafter)
  · rcases hfound with ⟨shown, hshown, hsame, -⟩ | ⟨request, hflight, hcurrent⟩
    · have hlt := horder shown hshown
      rw [hsame] at hlt
      exact absurd hlt (Nat.lt_irrefl _)
    · obtain rfl := Option.some.inj (hrequest.symm.trans hflight)
      exact ⟨last, hseq, .inl ⟨_, rfl, rfl, hcurrent⟩, hrest⟩
  · rcases hfound with ⟨shown, hshown, hsame, -⟩ | ⟨request, hflight, hcurrent⟩
    · have hlt := horder shown hshown
      rw [hsame] at hlt
      exact absurd (Nat.lt_trans hlt hgt) (Nat.lt_irrefl _)
    · refine ⟨last, hlast, .inr ⟨request, ?_, hcurrent⟩, hrest⟩
      exact erase_eq_some.mpr ⟨Nat.ne_of_gt hgt, hflight⟩

/-- A snapshot of another project leaves the board to a read on its way. -/
theorem covered_foreign {shown : Option (Shown Snapshot)}
    (hs : Covered { s with flight := s.flight.erase seq, shown := none }) :
    Covered { s with flight := s.flight.erase seq, shown } := by
  obtain ⟨last, hlast, ⟨before, hbefore, -⟩ | hflight, hlater⟩ := hs
  · cases hbefore
  · exact ⟨last, hlast, .inr hflight, hlater⟩

theorem tracking_respond (hs : Tracking snapshot s) (horder : s.InOrder (.respond seq))
    (h : s.step snapshot (.respond seq) = some t) : Tracking snapshot t := by
  simp only [step] at h
  split at h
  · rename_i project begun answer hrequest
    cases h
    have hissued := hs.issued seq _ hrequest
    have hanswered := hs.answered seq _ hrequest
    have hin := horder _ hrequest answer rfl
    have hleft : ∀ other request, s.flight.erase seq other = some request →
        s.flight other = some request := fun other request h => (erase_eq_some.mp h).2
    have herased : Recorded snapshot { s with flight := s.flight.erase seq } :=
      { hs.toRecorded with
        issued := fun other request h => hs.issued other request (hleft other request h)
        answered := fun other request h => hs.answered other request (hleft other request h) }
    cases answer with
    | ok taken =>
      refine ⟨{ herased with taken := fun shown hshown => ?_, held := fun shown hshown => ?_ }, ?_⟩
      · cases hshown
        exact hissued
      · cases hshown
        exact ⟨hanswered.1, fun hnow => hanswered.2 hnow taken rfl⟩
      · obtain ⟨hlatest, hselected | hrereads | hcovered⟩ := hin
        · exact hs.covered.imp id (covered_respond hrequest hissued hlatest hselected)
        · exact .inl hrereads
        · exact .inr (covered_foreign hcovered)
    | error reason => exact ⟨{ herased with }, hin⟩
  all_goals cases h

theorem tracking_step (hs : Tracking snapshot s) (horder : s.InOrder e)
    (h : s.step snapshot e = some t) : Tracking snapshot t := by
  cases e with
  | change backend heard => exact tracking_change hs horder h
  | deliver =>
    simp only [step] at h
    split_ifs at h
    cases h
    exact ⟨{ hs.toRecorded with }, .inl (.inr (.inr (.inr rfl)))⟩
  | frame =>
    simp only [step] at h
    split_ifs at h
    cases h
    exact tracking_refresh { hs.toRecorded with }
  | attach =>
    simp only [step] at h
    split_ifs at h with hattaching
    cases h
    refine tracking_refresh { hs.toRecorded with
      listening := ⟨fun hnone => ?_, fun hdetached => ?_⟩ }
    · have hdetached := hs.listening.mp hnone
      rw [hattaching] at hdetached
      cases hdetached
    · cases hdetached
  | attachFails reason =>
    simp only [step] at h
    split_ifs at h with hattaching
    cases h
    refine ⟨{ hs.toRecorded with listening := ⟨fun hnone => ?_, fun hdetached => ?_⟩ }, ?_⟩
    · have hdetached := hs.listening.mp hnone
      rw [hattaching] at hdetached
      cases hdetached
    · cases hdetached
    · rcases horder with hdeltas | hframe | hcovered
      · exact .inl (.inr (.inr (.inl hdeltas)))
      · exact .inl (.inr (.inr (.inr hframe)))
      · exact .inr hcovered
  | reconcile =>
    cases h
    exact tracking_refresh { hs.toRecorded with }
  | select project resync =>
    simp only [step] at h
    split_ifs at h with hsame hnone
    · cases h
      exact ⟨{ hs.toRecorded with listening := ⟨fun _ => rfl, fun _ => hnone⟩ }, .inl (.inl hnone)⟩
    · cases h
      refine ⟨{ hs.toRecorded with
        listening := ⟨fun hproject => absurd hproject hnone, fun h => ?_⟩ }, .inl (.inr (.inl rfl))⟩
      cases h
  | strayFrame left | strayResync left =>
    simp only [step] at h
    split at h
    · cases h
      exact tracking_stray hs _
    · cases h
  | overhear left | release left fault =>
    simp only [step] at h
    split at h
    · cases h
      exact { hs with }
    · cases h
  | releaseResync left =>
    cases h
    exact { hs with }
  | serve seq fault => exact tracking_serve hs h
  | respond seq => exact tracking_respond hs horder h

end Board

def board {State Snapshot : Type*} (snapshot : ProjectId → State → Snapshot) :
    Machine (Board State Snapshot) (BoardEvent State) where
  init s := ∃ backend, s = .new backend
  step := Board.step snapshot

namespace Board
variable {State Snapshot : Type*} {snapshot : ProjectId → State → Snapshot}
  {s t : Board State Snapshot}

theorem shown_later {e : BoardEvent State} {before : Shown Snapshot} (horder : s.InOrder e)
    (h : s.step snapshot e = some t) (hbefore : s.shown = some before) :
    ∃ after, t.shown = some after ∧ before.seq ≤ after.seq := by
  have hrefresh : ∀ u : Board State Snapshot, u.refresh.shown = u.shown := by
    intro u
    unfold refresh
    split <;> rfl
  cases e with
  | change backend heard | releaseResync left =>
    cases h
    exact ⟨before, hbefore, Nat.le_refl _⟩
  | deliver | attachFails reason | select project resync =>
    simp only [step] at h
    split_ifs at h
    all_goals
      cases h
      exact ⟨before, hbefore, Nat.le_refl _⟩
  | frame | attach =>
    simp only [step] at h
    split_ifs at h
    cases h
    exact ⟨before, (hrefresh _).trans hbefore, Nat.le_refl _⟩
  | reconcile =>
    cases h
    exact ⟨before, (hrefresh _).trans hbefore, Nat.le_refl _⟩
  | overhear left | strayFrame left | release left fault | strayResync left | serve seq fault =>
    simp only [step] at h
    split at h
    · cases h
      exact ⟨before, hbefore, Nat.le_refl _⟩
    all_goals cases h
  | respond seq =>
    simp only [step] at h
    split at h
    · rename_i project begun answer hrequest
      cases h
      cases answer with
      | ok taken =>
        have hlatest : ∀ shown ∈ s.shown, shown.seq < seq := (horder _ hrequest _ rfl).1
        exact ⟨_, rfl, Nat.le_of_lt (hlatest before hbefore)⟩
      | error reason => exact ⟨before, hbefore, Nat.le_refl _⟩
    all_goals cases h

/-- The board converges in every run in which no answer is overtaken: once everything is settled it
renders the selected project as it is, from a read that began after the last change; and an older
answer never replaces a newer one. -/
theorem board_converges (hs : (board snapshot).ReachableUnder InOrder s) :
    (∀ project, s.project = some project → s.Settled →
      s.view = some (snapshot project s.backend) ∧
        ∃ shown ∈ s.shown, shown.forProject = project ∧ shown.begun = s.changes) ∧
    ∀ es t before, (board snapshot).Along InOrder s es → (board snapshot).run s es = some t →
      s.shown = some before → ∃ after, t.shown = some after ∧ before.seq ≤ after.seq := by
  constructor
  · intro project hproject hsettled
    have htracking : Tracking snapshot s := by
      refine hs.invariant ?_ ?_
      · rintro _ ⟨backend, rfl⟩
        exact tracking_new backend
      · intro s e t horder hs hstep
        exact tracking_step hs horder hstep
    have hcovered : s.Covered := by
      rcases htracking.covered with (hnone | hlistener | hpending | hscheduled) | hcovered
      · exact absurd (hnone.symm.trans hproject) (by simp)
      · exact absurd hlistener hsettled.listener
      · exact absurd hsettled.deltas hpending
      · exact absurd (hscheduled.symm.trans hsettled.frame) (by decide)
      · exact hcovered
    obtain ⟨last, hlast, hfound, -⟩ := hcovered
    rcases hfound with ⟨shown, hshown, -, hselected, hnow⟩ | ⟨request, hflight, -⟩
    · have hsame : shown.forProject = project := Option.some.inj (hselected.trans hproject)
      have hsnapshot := (htracking.held shown hshown).2 hnow
      rw [hsame] at hsnapshot
      refine ⟨?_, shown, hshown, hsame, hnow⟩
      have hshown : s.shown = some shown := hshown
      unfold view
      rw [hshown, Option.filter_some, decide_eq_true hselected]
      exact congrArg some hsnapshot
    · rw [hsettled.flight last hlast] at hflight
      cases hflight
  · intro es t before halong hrun hbefore
    have hfirst : ∃ after, s.shown = some after ∧ before.seq ≤ after.seq :=
      ⟨before, hbefore, Nat.le_refl _⟩
    refine Machine.invariant_along (P := fun t : Board State Snapshot =>
      ∃ after, t.shown = some after ∧ before.seq ≤ after.seq) ?_ hfirst halong hrun
    rintro s e t horder ⟨middle, hmiddle, hle⟩ hstep
    obtain ⟨after, hafter, hle'⟩ := shown_later horder hstep hmiddle
    exact ⟨after, hafter, Nat.le_trans hle hle'⟩

/-- A change while the board is read, and both reads answered in order. -/
theorem board_converges_in_order :
    ∃ s, (board fun project n : ℕ => (project, n)).ReachableUnder InOrder s ∧ s.backend = 5 ∧
      s.view = some (1, 5) := by
  have hinit : (board fun project n : ℕ => (project, n)).init (new 0) := ⟨0, rfl⟩
  obtain ⟨s, hs, hproject, hbackend, hsettled⟩ := Machine.exists_reachableUnder_of_run
    (G := InOrder) hinit
    [.select (some 1) false, .attach, .serve 0 none, .change 5 false, .deliver, .frame, .respond 0,
      .serve 1 none, .respond 1]
    (by decide) (fun s => s.project = some 1 ∧ s.backend = 5 ∧ s.Settled) (by decide)
  have hview := ((board_converges hs).1 1 hproject hsettled).1
  rw [hbackend] at hview
  exact ⟨s, hs, hbackend, hview⟩

/-- The first read was answered before the change, and its answer comes after that of the second:
the board settles on what there no longer is. -/
theorem board_overtaken :
    ∃ s, (board fun project n : ℕ => (project, n)).Reachable s ∧ s.project = some 1 ∧ s.Settled ∧
      s.backend = 5 ∧ s.view = some (1, 0) := by
  have hinit : (board fun project n : ℕ => (project, n)).init (new 0) := ⟨0, rfl⟩
  exact Machine.exists_reachable_of_run hinit
    [.select (some 1) false, .attach, .serve 0 none, .change 5 false, .deliver, .frame,
      .serve 1 none, .respond 1, .respond 0]
    (fun s => s.project = some 1 ∧ s.Settled ∧ s.backend = 5 ∧ s.view = some (1, 0)) (by decide)

end Board
end Soloist.Ui
