import Soloist.Facade.Calls

/-! What a step of the session calls may change: a row keeps its identity and its project for as
long as it is registered, an id is registered once, and only a session's own call moves that call
and what the session has bound or selected. -/
open Option Slots

namespace Soloist.Facade

namespace Core
variable {c d e : Core} {process id : ProcessId} {session : SessionId} {f : Entry → Entry}

/-- Ids are assigned once: every row of the later core is a row of the earlier one, or newly
registered. -/
structure Follows (c d : Core) : Prop where
  next : c.nextProcess ≤ d.nextProcess
  nextSession : c.nextSession ≤ d.nextSession
  rows : ∀ id entry, d.processes.lookup id = some entry →
    (∃ before, c.processes.lookup id = some before ∧ entry.view.id = before.view.id ∧
      entry.view.project = before.view.project) ∨
    (c.nextProcess ≤ id ∧ id < d.nextProcess ∧ entry.view.id = id)

def Filed (c : Core) : Prop :=
  ∀ id entry, c.processes.lookup id = some entry → entry.view.id = id ∧ id < c.nextProcess

def KeepsGroups (c d : Core) : Prop :=
  ∀ id entry pgid, d.processes.lookup id = some entry → entry.pgid = some pgid →
    ∃ before, c.processes.lookup id = some before ∧ before.pgid = some pgid

/-- An assigned id that names no process outside the project, now or later. -/
def Stays (c : Core) (id : ProcessId) (project : ProjectId) : Prop :=
  id < c.nextProcess ∧ ∀ row, c.processView id = some row → row.project = project

variable {row : ProcessView}

theorem processView_eq_some :
    c.processView id = some row ↔ ∃ entry, c.processes.lookup id = some entry ∧ entry.view = row :=
  map_eq_some_iff

theorem lookup_amend (id : ProcessId) :
    (c.amend process f).processes.lookup id =
      if id = process then (c.processes.lookup process).map f else c.processes.lookup id := by
  unfold amend
  cases hentry : c.processes.lookup process with
  | some entry => exact Dict.lookup_insert c.processes process id (f entry)
  | none =>
    dsimp only
    split_ifs with hid
    · rw [hid, hentry]
      rfl
    · rfl

@[simp] theorem amend_sessions : (c.amend process f).sessions = c.sessions := by
  unfold amend
  split <;> rfl

@[simp] theorem amend_nextSession : (c.amend process f).nextSession = c.nextSession := by
  unfold amend
  split <;> rfl

@[simp] theorem amend_nextProcess : (c.amend process f).nextProcess = c.nextProcess := by
  unfold amend
  split <;> rfl

theorem lookup_register (c : Core) (project : ProjectId) (kind : ProcessKind) (label : String)
    (requiresTrust resumable : Bool) (id : ProcessId) :
    (c.register project kind label requiresTrust resumable).processes.lookup id =
      if id = c.nextProcess then
        some ⟨⟨c.nextProcess, project, kind, label, .stopped, none, requiresTrust, resumable, [],
          .ungated⟩, none⟩
      else c.processes.lookup id := Dict.lookup_insert c.processes c.nextProcess id _

theorem lookup_removeProcess (id : ProcessId) :
    (c.removeProcess process).processes.lookup id =
      if id = process then none else c.processes.lookup id :=
  Dict.lookup_erase c.processes process id

theorem Follows.of_eq (hprocesses : d.processes = c.processes)
    (hnext : d.nextProcess = c.nextProcess) (hsession : c.nextSession ≤ d.nextSession) :
    c.Follows d := by
  refine ⟨hnext.ge, hsession, fun id entry hentry => .inl ⟨entry, ?_, rfl, rfl⟩⟩
  rw [← hprocesses]
  exact hentry

theorem Follows.refl (c : Core) : c.Follows c := .of_eq rfl rfl le_rfl

theorem Follows.amend (hid : ∀ entry, (f entry).view.id = entry.view.id)
    (hproject : ∀ entry, (f entry).view.project = entry.view.project) :
    c.Follows (c.amend process f) := by
  refine ⟨amend_nextProcess.ge, amend_nextSession.ge, fun id entry hentry => .inl ?_⟩
  rw [lookup_amend] at hentry
  split_ifs at hentry with h
  · obtain ⟨before, hbefore, rfl⟩ := map_eq_some_iff.mp hentry
    exact ⟨before, h ▸ hbefore, hid before, hproject before⟩
  · exact ⟨entry, hentry, rfl, rfl⟩

variable {project : ProjectId} {label : String}

variable {kind : ProcessKind} {requiresTrust resumable : Bool}

theorem Follows.register : c.Follows (c.register project kind label requiresTrust resumable) := by
  refine ⟨Nat.le_succ _, le_rfl, fun id entry hentry => ?_⟩
  rw [lookup_register] at hentry
  split_ifs at hentry with h
  · cases hentry
    exact .inr ⟨h.ge, h ▸ Nat.lt_succ_self _, h.symm⟩
  · exact .inl ⟨entry, hentry, rfl, rfl⟩

theorem Follows.removeProcess : c.Follows (c.removeProcess process) := by
  refine ⟨le_rfl, le_rfl, fun id entry hentry => .inl ⟨entry, ?_, rfl, rfl⟩⟩
  rw [lookup_removeProcess] at hentry
  split_ifs at hentry
  exact hentry

@[simp] theorem setPgid_sessions {pgid : Option Pgid} :
    (c.setPgid process pgid).sessions = c.sessions := by
  cases pgid with
  | none => exact amend_sessions
  | some pgid => exact amend_sessions

theorem KeepsGroups.of_eq (h : d.processes = c.processes) : c.KeepsGroups d := by
  intro id entry pgid hentry hpgid
  exact ⟨entry, h ▸ hentry, hpgid⟩

theorem KeepsGroups.amend
    (hpgid : ∀ entry pgid, (f entry).pgid = some pgid → entry.pgid = some pgid) :
    c.KeepsGroups (c.amend process f) := by
  intro id entry pgid hentry hgroup
  rw [lookup_amend] at hentry
  split_ifs at hentry with h
  · obtain ⟨before, hbefore, rfl⟩ := map_eq_some_iff.mp hentry
    exact ⟨before, h ▸ hbefore, hpgid before pgid hgroup⟩
  · exact ⟨entry, hentry, hgroup⟩

theorem KeepsGroups.register :
    c.KeepsGroups (c.register project kind label requiresTrust resumable) := by
  intro id entry pgid hentry hgroup
  rw [lookup_register] at hentry
  split_ifs at hentry
  · cases hentry
    cases hgroup
  · exact ⟨entry, hentry, hgroup⟩

theorem KeepsGroups.removeProcess : c.KeepsGroups (c.removeProcess process) := by
  intro id entry pgid hentry hgroup
  rw [lookup_removeProcess] at hentry
  split_ifs at hentry
  exact ⟨entry, hentry, hgroup⟩

theorem Follows.setPgid (c : Core) (process : ProcessId) (pgid : Option Pgid) :
    c.Follows (c.setPgid process pgid) := by
  cases pgid with
  | none => exact .amend (fun _ => rfl) fun _ => rfl
  | some pgid => exact .amend (fun _ => rfl) fun _ => rfl

theorem Follows.setLabel : c.Follows (c.setLabel process label) :=
  .amend (fun _ => rfl) fun _ => rfl

theorem Follows.refresh : c.Follows (c.refresh row) :=
  .amend (fun _ => rfl) fun _ => rfl

theorem Filed.follows (hc : c.Filed) (h : c.Follows d) : d.Filed := by
  intro id entry hentry
  rcases h.rows id entry hentry with ⟨before, hbefore, hid, -⟩ | ⟨-, hlt, hid⟩
  · obtain ⟨hfiled, hlt⟩ := hc id before hbefore
    exact ⟨hid.trans hfiled, Nat.lt_of_lt_of_le hlt h.next⟩
  · exact ⟨hid, hlt⟩

theorem Stays.follows (hc : c.Stays id project) (h : c.Follows d) : d.Stays id project := by
  refine ⟨Nat.lt_of_lt_of_le hc.1 h.next, fun row hrow => ?_⟩
  obtain ⟨entry, hentry, rfl⟩ := processView_eq_some.mp hrow
  rcases h.rows id entry hentry with ⟨before, hbefore, -, hproject⟩ | ⟨hle, -, -⟩
  · rw [hproject]
    exact hc.2 before.view (processView_eq_some.mpr ⟨before, hbefore, rfl⟩)
  · exact absurd hc.1 (Nat.not_lt.mpr hle)

theorem Filed.stays (hc : c.Filed) (h : c.processView id = some row) :
    c.Stays row.id row.project := by
  obtain ⟨entry, hentry, rfl⟩ := processView_eq_some.mp h
  obtain ⟨hid, hlt⟩ := hc id entry hentry
  rw [hid]
  refine ⟨hlt, fun other hother => ?_⟩
  rw [h] at hother
  rw [← some.inj hother]

theorem Filed.view_id (hc : c.Filed) (h : c.processView id = some row) : row.id = id := by
  obtain ⟨entry, hentry, rfl⟩ := processView_eq_some.mp h
  exact (hc id entry hentry).1

theorem homeProcess_entry (hc : c.Filed) (h : c.homeProcess session = some process) :
    ∃ pgid entry, c.peerPgid session = some pgid ∧ c.processes.lookup process = some entry ∧
      entry.pgid = some pgid := by
  obtain ⟨pgid, hpgid, hfound⟩ := bind_eq_some_iff.mp h
  obtain ⟨⟨id, entry⟩, hfind, hprocess⟩ := map_eq_some_iff.mp hfound
  have hlookup : c.processes.lookup id = some entry :=
    AList.mem_lookup_iff.mpr (List.mem_of_find?_eq_some hfind)
  have hgroup := List.find?_some hfind
  obtain ⟨hid, -⟩ := hc id entry hlookup
  have hsame : id = process := hid.symm.trans hprocess
  exact ⟨pgid, entry, hpgid, hsame ▸ hlookup, of_decide_eq_true hgroup⟩

end Core

def Point.write : Point → Session → Session
  | .binding process => fun x => { x with origin := .process process }
  | .naming label => fun x => { x with origin := .external label }
  | .selecting project => fun x => { x with selectedProject := some project }
  | .resolving _ _ | .acting _ _ | .actingAll _ _ | .gateHome _ _ | .gateOrigin _ _ _
  | .judging _ _ _ | .rooting _ _ | .registering _ _ | .starting _ _ | .recording _ _
  | .bindHome _ | .selectHome _ | .selectView _ _ | .selectDirectory _ | .returned _ => id

def Event.mover : Event → Option SessionId
  | .ask session _ _ | .proceed session _ => some session
  | .openSession _ | .closeSession _ | .register _ _ _ _ _ | .refresh _ | .remove _ | .start _
  | .spawnChild _ _ | .recordGroup _ | .reap _ | .addProject _ | .removeProject _ | .reorder _
  | .observe | .prune => none

def Event.Asks (session : SessionId) : Event → Prop
  | .ask asking _ _ => asking = session
  | _ => False

/-- The next access of a call at the point reads, and changes nothing but where the call is. -/
def Point.OnlyReads : Point → Prop
  | .resolving _ _ | .gateHome _ _ | .gateOrigin _ _ _ | .judging _ _ _ | .rooting _ _
  | .bindHome _ | .selectHome _ | .selectView _ _ | .selectDirectory _ => True
  | .acting _ _ | .actingAll _ _ | .registering _ _ | .starting _ _ | .recording _ _
  | .binding _ | .naming _ | .selecting _ | .returned _ => False

namespace System
variable {s t : System} {session other : SessionId} {point next : Point}
  {fault : Option StoreError} {process : ProcessId}

def Launches (s t : System) : Prop :=
  ∀ process, t.actors process = s.actors process ∨
    s.actors process = none ∧ t.actors process = some .launching ∧
      s.core.processView process ≠ none

/-- What the next access of a session's call leaves alone: of the sessions, it updates its own. -/
structure Frame (session : SessionId) (update : Session → Session) (s t : System) : Prop where
  core : s.core.Follows t.core
  pgids : s.core.KeepsGroups t.core
  sessions : t.core.sessions = s.core.sessions.modify session update
  nextSession : t.core.nextSession = s.core.nextSession
  calls : ∀ other ≠ session, t.calls other = s.calls other
  groups : t.groups = s.groups
  live : t.live = s.live
  actors : s.Launches t

variable {write : Session → Session}

theorem Frame.goTo (h : Frame session write s t) (point : Point) :
    Frame session write s (t.goTo session point) where
  core := h.core
  pgids := h.pgids
  sessions := h.sessions
  nextSession := h.nextSession
  calls other hother := (put_of_ne hother).trans (h.calls other hother)
  groups := h.groups
  live := h.live
  actors := h.actors

theorem Frame.of_core (hcore : s.core.Follows t.core) (hpgids : s.core.KeepsGroups t.core)
    (hactors : s.Launches t) (hsessions : t.core.sessions = s.core.sessions)
    (hnext : t.core.nextSession = s.core.nextSession) (hcalls : t.calls = s.calls)
    (hgroups : t.groups = s.groups) (hlive : t.live = s.live) : Frame session id s t where
  core := hcore
  pgids := hpgids
  sessions := hsessions.trans modify_id.symm
  nextSession := hnext
  calls other _ := congrFun hcalls other
  groups := hgroups
  live := hlive
  actors := hactors

theorem Frame.refl (session : SessionId) (s : System) : Frame session id s s :=
  .of_core (.refl _) (.of_eq rfl) (fun _ => .inl rfl) rfl rfl rfl rfl rfl

theorem Frame.update : Frame session write s
    { s with core := s.core.updateSession session write } :=
  ⟨.of_eq rfl rfl le_rfl, .of_eq rfl, rfl, rfl, fun _ _ => rfl, rfl, rfl,
    fun _ => .inl rfl⟩

theorem Frame.session_of_ne (h : Frame session write s t) (hother : other ≠ session) :
    t.core.sessions other = s.core.sessions other :=
  (congrFun h.sessions other).trans (modify_of_ne hother)

theorem Frame.session_self (h : Frame session write s t) :
    t.core.sessions session = (s.core.sessions session).map write :=
  (congrFun h.sessions session).trans (if_pos rfl)

theorem write_peer (point : Point) (x : Session) : (point.write x).peer = x.peer := by
  cases point <;> rfl

variable {project : ProjectId}

theorem Frame.selectedProject (h : Frame session point.write s t)
    (hproject : t.core.selectedProject session = some project) :
    point = .selecting project ∨ s.core.selectedProject session = some project := by
  unfold Core.selectedProject at hproject ⊢
  rw [h.session_self] at hproject
  cases hsession : s.core.sessions session with
  | none =>
    rw [hsession] at hproject
    cases hproject
  | some x =>
    rw [hsession] at hproject
    cases point with
    | selecting selected => exact .inl (congrArg _ (some.inj hproject))
    | _ => exact .inr hproject

theorem Frame.bound (h : Frame session point.write s t)
    (hprocess : (t.core.origin session).bound = some process) :
    point = .binding process ∨ (s.core.origin session).bound = some process := by
  unfold Core.origin at hprocess ⊢
  rw [h.session_self] at hprocess
  cases hsession : s.core.sessions session with
  | none =>
    rw [hsession] at hprocess
    cases hprocess
  | some x =>
    rw [hsession] at hprocess
    cases point with
    | binding bound => exact .inl (congrArg _ (some.inj hprocess))
    | naming label => cases hprocess
    | _ => exact .inr hprocess

theorem Frame.peerPgid (h : Frame session write s t) (hwrite : ∀ x, (write x).peer = x.peer)
    (other : SessionId) : t.core.peerPgid other = s.core.peerPgid other := by
  unfold Core.peerPgid
  by_cases hother : other = session
  · rw [hother, h.session_self]
    cases s.core.sessions session with
    | none => rfl
    | some x => exact congrArg PeerCredentials.pgid (hwrite x)
  · rw [h.session_of_ne hother]

theorem frame_launch (session : SessionId) (h : s.core.processView process ≠ none) :
    Frame session id s (s.launch process) := by
  unfold launch
  split_ifs with hactor
  · refine .of_core (.refl _) (.of_eq rfl) (fun other => ?_) rfl rfl rfl rfl rfl
    by_cases hother : other = process
    · subst hother
      exact .inr ⟨hactor, put_self, h⟩
    · exact .inl (put_of_ne hother)
  · exact .refl _ _

theorem frame_perform {action : Action} (h : s.perform process fault action = .ok t) :
    Frame session id s t := by
  cases action with
  | start =>
    simp only [perform] at h
    split_ifs at h with hview
    cases h
    exact frame_launch session hview
  | restart =>
    simp only [perform] at h
    split_ifs at h with hview
    cases h
    exact frame_launch session hview
  | stop =>
    cases h
    exact .refl _ _
  | rename label =>
    simp only [perform] at h
    split_ifs at h
    cases h
    exact .of_core .setLabel (.amend fun _ _ h => h) (fun _ => .inl rfl) Core.amend_sessions
      Core.amend_nextSession rfl rfl rfl
  | close =>
    simp only [perform] at h
    split_ifs at h
    cases h
    exact .of_core .removeProcess .removeProcess (fun _ => .inl rfl) rfl rfl rfl rfl rfl
  | sendInput =>
    simp only [perform] at h
    split_ifs at h
    cases h
    exact .refl _ _

theorem performAll_actors (action : BulkAction) : s.Launches (s.performAll project action) := by
  intro other
  have hlaunch : ∀ launched : Prop, [Decidable launched] → (launched → s.actors other = none ∧
      s.core.isCommandIn project other = true) →
        (if launched then some Actor.launching else s.actors other) = s.actors other ∨
        s.actors other = none ∧
          (if launched then some Actor.launching else s.actors other) = some .launching ∧
          s.core.processView other ≠ none := by
    intro launched _ hlaunched
    split_ifs with h
    · obtain ⟨hactor, hcommand⟩ := hlaunched h
      refine .inr ⟨hactor, rfl, fun hnone => ?_⟩
      rw [Core.isCommandIn, hnone] at hcommand
      cases hcommand
    · exact .inl rfl
  cases action with
  | startAll => exact hlaunch _ fun h => ⟨h.1, h.2.1⟩
  | restartAll => exact hlaunch _ fun h => ⟨h.1, h.2.1⟩
  | stopAll => exact .inl rfl

theorem frame_performAll {action : BulkAction} :
    Frame session id s (s.performAll project action) := by
  have hactors : s.Launches (s.performAll project action) := performAll_actors action
  cases action with
  | startAll => exact .of_core (.refl _) (.of_eq rfl) hactors rfl rfl rfl rfl rfl
  | restartAll => exact .of_core (.refl _) (.of_eq rfl) hactors rfl rfl rfl rfl rfl
  | stopAll => exact .refl _ _

theorem proceed_reads (h : s.proceed session fault point = some t) (hreads : point.OnlyReads) :
    ∃ next, t = s.goTo session next := by
  cases point with
  | resolving look purpose =>
    simp only [proceed] at h
    split at h
    all_goals exact ⟨_, (some.inj h).symm⟩
  | gateHome spawning project => exact ⟨_, (some.inj h).symm⟩
  | gateOrigin spawning project home => exact ⟨_, (some.inj h).symm⟩
  | judging spawning project callers =>
    cases callers with
    | nil => exact ⟨_, (some.inj h).symm⟩
    | cons caller rest =>
      simp only [proceed] at h
      split_ifs at h
      all_goals exact ⟨_, (some.inj h).symm⟩
  | rooting spawning project =>
    simp only [proceed] at h
    split_ifs at h
    all_goals exact ⟨_, (some.inj h).symm⟩
  | bindHome process =>
    simp only [proceed] at h
    split_ifs at h
    all_goals exact ⟨_, (some.inj h).symm⟩
  | selectHome project =>
    simp only [proceed] at h
    split at h
    all_goals exact ⟨_, (some.inj h).symm⟩
  | selectView project home =>
    simp only [proceed] at h
    split at h
    · split_ifs at h
      all_goals exact ⟨_, (some.inj h).symm⟩
    · exact ⟨_, (some.inj h).symm⟩
  | selectDirectory project =>
    simp only [proceed] at h
    split_ifs at h
    all_goals exact ⟨_, (some.inj h).symm⟩
  | _ => exact hreads.elim

/-- The next access of a call leaves everything else alone. -/
theorem proceed_frame (h : s.proceed session fault point = some t) :
    Frame session point.write s t := by
  have hstays : ∀ point, Frame session id s (s.goTo session point) := (Frame.refl session s).goTo
  cases point with
  | returned outcome => cases h
  | acting action view =>
    simp only [proceed] at h
    split at h
    · rename_i u hu
      cases h
      exact (frame_perform hu).goTo _
    · cases h
      exact hstays _
  | actingAll action project =>
    simp only [proceed] at h
    split_ifs at h
    all_goals cases h
    · exact hstays _
    · exact frame_performAll.goTo _
  | registering spawning project =>
    simp only [proceed] at h
    split_ifs at h
    all_goals cases h
    · exact hstays _
    all_goals
      apply Frame.goTo
      exact .of_core .register .register (fun _ => .inl rfl) rfl rfl rfl rfl rfl
  | starting worker project =>
    simp only [proceed] at h
    split_ifs at h with hrefused
    all_goals cases h
    · apply Frame.goTo
      exact .of_core (.refl _) (.of_eq rfl) (fun _ => .inl rfl) rfl rfl rfl rfl rfl
    · exact (frame_launch session fun hnone => hrefused (.inl hnone)).goTo _
  | recording worker project =>
    simp only [proceed] at h
    split at h
    all_goals cases h
    · apply Frame.goTo
      exact .of_core (.refl _) (.of_eq rfl) (fun _ => .inl rfl) rfl rfl rfl rfl rfl
    · exact hstays _
  | binding process =>
    cases h
    apply Frame.goTo
    exact Frame.update
  | naming label =>
    cases h
    apply Frame.goTo
    exact Frame.update
  | selecting project =>
    cases h
    apply Frame.goTo
    exact Frame.update
  | _ =>
    obtain ⟨next, rfl⟩ := proceed_reads h trivial
    exact hstays _

/-- What a step may do to a session whose call it does not move. -/
inductive Bystander (session : SessionId) (s t : System) : Prop
  | same (sessions : t.core.sessions session = s.core.sessions session)
      (calls : t.calls session = s.calls session)
  | opened (peer : PeerCredentials) (fresh : session = s.core.nextSession)
      (next : t.core.nextSession = s.core.nextSession + 1)
      (sessions : t.core.sessions session = some (.new peer))
      (calls : t.calls session = s.calls session)
  | closed (idle : s.idle session = true) (sessions : t.core.sessions session = none)
      (calls : t.calls session = none)

theorem Frame.bystander (h : Frame session id s t) (hcalls : t.calls = s.calls)
    (other : SessionId) : Bystander other s t :=
  .same (by rw [h.sessions, modify_id]) (congrFun hcalls other)

variable {e : Event}

theorem step_changes (h : s.step e = some t) :
    s.core.Follows t.core ∧ ∀ other, e.mover ≠ some other → Bystander other s t := by
  cases e with
  | ask session request fault =>
    simp only [step] at h
    split_ifs at h
    cases h
    refine ⟨.refl _, fun other hother => .same rfl (put_of_ne ?_)⟩
    exact fun hsame => hother (congrArg some hsame.symm)
  | proceed session fault =>
    obtain ⟨point, -, ht⟩ := bind_eq_some_iff.mp h
    have hframe := proceed_frame ht
    refine ⟨hframe.core, fun other hother => ?_⟩
    have hne : other ≠ session := fun hsame => hother (congrArg some hsame.symm)
    exact .same (hframe.session_of_ne hne) (hframe.calls other hne)
  | openSession peer =>
    cases h
    refine ⟨.of_eq rfl rfl (Nat.le_succ _), fun other _ => ?_⟩
    by_cases hother : other = s.core.nextSession
    · exact .opened peer hother rfl (hother ▸ put_self) rfl
    · exact .same (put_of_ne hother) rfl
  | closeSession session =>
    simp only [step] at h
    split_ifs at h with hidle
    cases h
    refine ⟨.of_eq rfl rfl le_rfl, fun other _ => ?_⟩
    by_cases hother : other = session
    · exact .closed (hother ▸ hidle) (if_pos hother) (if_pos hother)
    · exact .same (if_neg hother) (if_neg hother)
  | register project kind label requiresTrust resumable =>
    cases h
    exact ⟨.register, fun _ _ => .same rfl rfl⟩
  | refresh row =>
    cases h
    exact ⟨.refresh, fun other _ => .same (congrFun Core.amend_sessions other) rfl⟩
  | remove process =>
    cases h
    exact ⟨.removeProcess, fun _ _ => .same rfl rfl⟩
  | start process =>
    simp only [step] at h
    split_ifs at h with hview
    cases h
    have hlaunch := frame_launch 0 hview
    refine ⟨hlaunch.core, fun other _ => hlaunch.bystander ?_ other⟩
    unfold launch
    split_ifs <;> rfl
  | spawnChild process pgid =>
    simp only [step] at h
    split_ifs at h
    cases h
    exact ⟨.refl _, fun _ _ => .same rfl rfl⟩
  | recordGroup process =>
    simp only [step] at h
    split at h
    · rename_i pgid hactor
      cases h
      refine ⟨.setPgid s.core process (some pgid), fun other _ => ?_⟩
      exact .same (congrFun Core.setPgid_sessions other) rfl
    all_goals cases h
  | reap process =>
    simp only [step] at h
    split_ifs at h
    cases h
    refine ⟨.setPgid s.core process none, fun other _ => ?_⟩
    exact .same (congrFun Core.setPgid_sessions other) rfl
  | addProject root =>
    cases h
    exact ⟨.of_eq rfl rfl le_rfl, fun _ _ => .same rfl rfl⟩
  | removeProject project =>
    cases h
    exact ⟨.of_eq rfl rfl le_rfl, fun _ _ => .same rfl rfl⟩
  | reorder projects =>
    simp only [step] at h
    split_ifs at h
    cases h
    exact ⟨.of_eq rfl rfl le_rfl, fun _ _ => .same rfl rfl⟩
  | observe =>
    cases h
    exact ⟨.refl _, fun _ _ => .same rfl rfl⟩
  | prune =>
    obtain ⟨live, -, rfl⟩ := map_eq_some_iff.mp h
    exact ⟨.refl _, fun _ _ => .same rfl rfl⟩

theorem mover_eq_some (h : e.mover = some session) :
    (∃ request fault, e = .ask session request fault) ∨ ∃ fault, e = .proceed session fault := by
  cases e with
  | ask asking request fault =>
    cases h
    exact .inl ⟨request, fault, rfl⟩
  | proceed proceeding fault =>
    cases h
    exact .inr ⟨fault, rfl⟩
  | _ => cases h

theorem not_asks (h : e.mover ≠ some session) : ¬e.Asks session := by
  cases e with
  | ask asking request fault => exact fun hasks => h (congrArg some hasks)
  | _ => exact fun hasks => hasks

theorem step_ask {request : Request} (h : s.step (.ask session request fault) = some t) :
    s.core.sessions session ≠ none ∧ s.idle session = true ∧
      t = s.goTo session (s.asked fault request) := by
  simp only [step] at h
  split_ifs at h with hguard
  cases h
  rw [not_or, Bool.not_eq_false] at hguard
  exact ⟨hguard.1, hguard.2, rfl⟩

end System
end Soloist.Facade
