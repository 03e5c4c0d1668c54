import Soloist.Facade.Turns

/-! The effective project of a session is one its peer was found to run in, or the only one there
is; and a scoped action acts on a process of the project that its own resolution gave. -/
open Option Slots

namespace Soloist.Facade

/-- The session's peer runs in the project: a managed process of it owns the peer's group, or its
root contains the peer's directory. -/
def Core.RunsIn (c : Core) (session : SessionId) (project : ProjectId) : Prop :=
  (∃ home row, c.homeProcess session = some home ∧ c.processView home = some row ∧
    row.project = project) ∨
  c.projectAtPeerCwd session none = some project

def Was (es : List Event) (Q : Core → Prop) : Prop := system.Earlier (fun u => Q u.core) .new es

/-- At some time since the session's call was made. -/
def Saw (es : List Event) (session : SessionId) (Q : Core → Prop) : Prop :=
  system.Since (fun e => ¬e.Asks session) (fun u => Q u.core) .new es

/-- Why a call may act on a project: the session has selected it; the process it has bound was
registered in the project; no managed process owned its peer's group, and the project contained its
peer's directory; or no other project was loaded. -/
inductive Grounds (es : List Event) (c : Core) (session : SessionId) (project : ProjectId) : Prop
  | selected (h : c.selectedProject session = some project)
  | bound (process : ProcessId) (h : (c.origin session).bound = some process)
      (saw : Saw es session fun c =>
        ∃ row, c.processView process = some row ∧ row.project = project)
  | directory (home : Saw es session fun c => c.homeProcess session = none)
      (saw : Saw es session fun c => c.projectAtPeerCwd session none = some project)
  | sole (saw : Saw es session fun c => ∃ record, c.projects = [record] ∧ record.id = project)

/-- The processes that the next access of a call acts on. -/
def Point.ActsOn (c : Core) : Point → ProcessId → Prop
  | .acting _ view, id => id = view.id
  | .actingAll _ project, id => c.isCommandIn project id = true
  | .starting worker _, id => id = worker
  | _, _ => False

/-- A process is registered otherwise, or its actor stands elsewhere. -/
def System.Touched (s t : System) (id : ProcessId) : Prop :=
  t.core.processes.lookup id ≠ s.core.processes.lookup id ∨ t.actors id ≠ s.actors id

/-- Why a session's effective project is its own: it selected the project, or bound a process of it,
after its peer was found to run there; its peer's directory lies in the project and no managed
process owns its group; or no other project is loaded. -/
inductive Authentic (es : List Event) (c : Core) (session : SessionId) (project : ProjectId) : Prop
  | selected (h : c.selectedProject session = some project)
      (was : Was es fun c => c.RunsIn session project)
  | bound (process : ProcessId) (row : ProcessView) (h : (c.origin session).bound = some process)
      (hrow : c.processView process = some row) (hproject : row.project = project)
      (was : Was es fun c => c.homeProcess session = some process)
  | directory (home : c.homeProcess session = none)
      (h : c.projectAtPeerCwd session none = some project)
  | sole (record : ProjectRecord) (h : c.projects = [record]) (hid : record.id = project)

/-- What a call that stands at a look has found out already. -/
def Look.Backed (es : List Event) (c : Core) (session : SessionId) : Look → Prop
  | .bound process => (c.origin session).bound = some process
  | .directory => Saw es session fun c => c.homeProcess session = none
  | .selected | .origin | .home | .sole => True

def Purpose.Backed (c : Core) : Purpose → Prop
  | .act _ view => c.Stays view.id view.project
  | .actAll _ | .spawn _ => True

/-- What a call that stands at a point has found out already. -/
def Point.Backed (es : List Event) (c : Core) (session : SessionId) : Point → Prop
  | .resolving look purpose => look.Backed es c session ∧ purpose.Backed c
  | .acting _ view => c.Stays view.id view.project ∧ Grounds es c session view.project
  | .actingAll _ project | .gateHome _ project | .gateOrigin _ project _ | .judging _ project _
  | .rooting _ project | .registering _ project => Grounds es c session project
  | .starting worker project | .recording worker project =>
    c.Stays worker project ∧ Grounds es c session project
  | .binding process => Was es fun c => c.homeProcess session = some process
  | .selectView _ home => ∃ project, c.Stays home project ∧ Was es fun c =>
      c.homeProcess session = some home ∧ ∃ row, c.processView home = some row ∧
        row.project = project
  | .selecting project => Was es fun c => c.RunsIn session project
  | .bindHome _ | .naming _ | .selectHome _ | .selectDirectory _ | .returned _ => True

section
variable {es : List Event} {c d : Core} {session : SessionId} {project : ProjectId} {e : Event}
  {Q R : Core → Prop} {point : Point}

theorem Was.snoc (h : Was es Q) (e : Event) : Was (es ++ [e]) Q := Machine.Earlier.snoc h e

theorem Was.mono (h : Was es Q) (hQR : ∀ c, Q c → R c) : Was es R :=
  Machine.Since.mono h (fun _ hany => hany) fun u hu => hQR u.core hu

theorem Saw.snoc (h : Saw es session Q) (he : ¬e.Asks session) : Saw (es ++ [e]) session Q :=
  Machine.Since.snoc h he

variable {s : System}

theorem was_now (hrun : system.run .new es = some s) (hQ : Q s.core) : Was es Q :=
  Machine.since_now hrun hQ

theorem saw_now (hrun : system.run .new es = some s) (hQ : Q s.core) :
    Saw es session Q := Machine.since_now hrun hQ

theorem selectedProject_congr (h : d.sessions session = c.sessions session) :
    d.selectedProject session = c.selectedProject session := by
  unfold Core.selectedProject
  rw [h]

theorem origin_congr (h : d.sessions session = c.sessions session) :
    d.origin session = c.origin session := by
  unfold Core.origin
  rw [h]

/-- What gave a call its project is not taken back while the session makes no other. -/
theorem Grounds.snoc (h : Grounds es c session project) (he : ¬e.Asks session)
    (hsessions : d.sessions session = c.sessions session) :
    Grounds (es ++ [e]) d session project := by
  cases h with
  | selected h => exact .selected ((selectedProject_congr hsessions).trans h)
  | bound process h saw => exact .bound process (by rw [origin_congr hsessions, h]) (saw.snoc he)
  | directory home saw => exact .directory (home.snoc he) (saw.snoc he)
  | sole saw => exact .sole (saw.snoc he)

variable {look : Look}

theorem Look.Backed.snoc (h : look.Backed es c session) (he : ¬e.Asks session)
    (hsessions : d.sessions session = c.sessions session) : look.Backed (es ++ [e]) d session := by
  cases look with
  | bound process =>
    unfold Look.Backed
    rw [origin_congr hsessions]
    exact h
  | directory => exact Saw.snoc (Q := fun c => c.homeProcess session = none) h he
  | selected | origin | home | sole => trivial

variable {purpose : Purpose}

theorem Purpose.Backed.follows (h : purpose.Backed c) (hcd : c.Follows d) : purpose.Backed d := by
  cases purpose with
  | act action view => exact Core.Stays.follows h hcd
  | actAll action | spawn spawning => trivial

/-- What a call has found out is kept by whatever others do. -/
theorem Point.Backed.snoc (h : point.Backed es c session) (he : ¬e.Asks session)
    (hcd : c.Follows d) (hsessions : d.sessions session = c.sessions session) :
    point.Backed (es ++ [e]) d session := by
  cases point with
  | resolving look purpose => exact ⟨h.1.snoc he hsessions, h.2.follows hcd⟩
  | acting action view => exact ⟨h.1.follows hcd, h.2.snoc he hsessions⟩
  | actingAll | gateHome | gateOrigin | judging | rooting | registering =>
    exact Grounds.snoc h he hsessions
  | starting | recording => exact ⟨h.1.follows hcd, h.2.snoc he hsessions⟩
  | binding process => exact Was.snoc (Q := fun c => c.homeProcess session = some process) h e
  | selectView project home =>
    obtain ⟨owner, hstays, hwas⟩ := h
    exact ⟨owner, hstays.follows hcd, hwas.snoc e⟩
  | selecting project => exact Was.snoc (Q := fun c => c.RunsIn session project) h e
  | bindHome | naming | selectHome | selectDirectory | returned => trivial

theorem look_backed (hrun : system.run .new es = some s) (fault : Option StoreError)
    (hlook : look.Backed es s.core session) :
    (∀ next, s.core.look session fault look = .inl next → next.Backed es s.core session) ∧
      ∀ project, s.core.look session fault look = .inr (some project) →
        Grounds es s.core session project := by
  cases look with
  | selected =>
    simp only [Core.look]
    split
    · rename_i project hproject
      refine ⟨fun next h => (nomatch h), fun other h => ?_⟩
      obtain rfl := some.inj (Sum.inr.inj h)
      exact .selected hproject
    · exact ⟨fun next h => Sum.inl.inj h ▸ trivial, fun other h => (nomatch h)⟩
  | origin =>
    simp only [Core.look]
    split
    · rename_i process hprocess
      exact ⟨fun next h => Sum.inl.inj h ▸ hprocess, fun other h => (nomatch h)⟩
    · exact ⟨fun next h => Sum.inl.inj h ▸ trivial, fun other h => (nomatch h)⟩
  | bound process =>
    simp only [Core.look]
    split
    · rename_i view hview
      refine ⟨fun next h => (nomatch h), fun other h => ?_⟩
      obtain rfl := some.inj (Sum.inr.inj h)
      exact .bound process hlook (saw_now hrun ⟨view, hview, rfl⟩)
    · exact ⟨fun next h => Sum.inl.inj h ▸ trivial, fun other h => (nomatch h)⟩
  | home =>
    simp only [Core.look]
    refine ⟨fun next h => ?_, fun other h => (nomatch h)⟩
    obtain rfl := Sum.inl.inj h
    split_ifs with hhome
    · exact saw_now (Q := fun c => c.homeProcess session = none) hrun hhome
    · trivial
  | directory =>
    simp only [Core.look]
    split
    · rename_i project hproject
      refine ⟨fun next h => (nomatch h), fun other h => ?_⟩
      obtain rfl := some.inj (Sum.inr.inj h)
      exact .directory hlook (saw_now hrun (Core.projectAtPeerCwd_of_fault hproject))
    · exact ⟨fun next h => Sum.inl.inj h ▸ trivial, fun other h => (nomatch h)⟩
  | sole =>
    simp only [Core.look]
    refine ⟨fun next h => (nomatch h), fun other h => ?_⟩
    exact .sole (saw_now hrun (Core.soleProject_eq_some (Sum.inr.inj h)))

theorem settle_backed {scope : Option ProjectId} (hpurpose : purpose.Backed c)
    (hscope : ∀ project, scope = some project → Grounds es c session project) :
    (purpose.settle scope).Backed es c session := by
  cases scope with
  | none => cases purpose <;> trivial
  | some project =>
    have hgrounds := hscope project rfl
    cases purpose with
    | act action view =>
      simp only [Purpose.settle]
      split_ifs with hproject
      · subst hproject
        exact ⟨hpurpose, hgrounds⟩
      · trivial
    | actAll action => exact hgrounds
    | spawn spawning => exact hgrounds

end

/-- The invariant of the scopes, over the events that led to a state. -/
structure Sound (es : List Event) (s : System) : Prop where
  filed : s.core.Filed
  assigned : ∀ session x, s.core.sessions session = some x → session < s.core.nextSession
  calling : ∀ session point, s.calls session = some point → s.core.sessions session ≠ none
  selected : ∀ session project, s.core.selectedProject session = some project →
    Was es fun c => c.RunsIn session project
  bound : ∀ session process, (s.core.origin session).bound = some process →
    Was es fun c => c.homeProcess session = some process
  backed : ∀ session point, s.calls session = some point → point.Backed es s.core session

section
variable {es : List Event} {s t : System} {session : SessionId} {point : Point}
  {fault : Option StoreError} {e : Event}

theorem sound_new : Sound [] .new where
  filed id entry h := by cases h
  assigned session x h := by cases h
  calling session point h := by cases h
  selected session project h := by cases h
  bound session process h := by cases h
  backed session point h := by cases h

theorem proceed_backed (hrun : system.run .new es = some s) (hs : Sound es s)
    (hpoint : s.calls session = some point) (h : s.proceed session fault point = some t) :
    ∃ next, t.calls session = some next ∧
      next.Backed (es ++ [.proceed session fault]) t.core session := by
  have hbacked := hs.backed session point hpoint
  have hmoved : ∀ next : Point, next.Backed es s.core session →
      ∃ after, (s.goTo session next).calls session = some after ∧
        after.Backed (es ++ [.proceed session fault]) (s.goTo session next).core session := by
    intro next hnext
    exact ⟨next, put_self, hnext.snoc (fun h => h) (.refl _) rfl⟩
  have hended : ∀ (u : System) (outcome : Outcome),
      ∃ after, (u.goTo session (.returned outcome)).calls session = some after ∧
        after.Backed (es ++ [.proceed session fault])
          (u.goTo session (.returned outcome)).core session := by
    intro u outcome
    exact ⟨.returned outcome, put_self, trivial⟩
  cases point with
  | returned outcome => cases h
  | resolving look purpose =>
    obtain ⟨hnext, hscope⟩ := look_backed hrun fault hbacked.1
    simp only [System.proceed] at h
    split at h
    · rename_i next hlook
      cases h
      exact hmoved _ ⟨hnext next hlook, hbacked.2⟩
    · rename_i scope hlook
      cases h
      refine hmoved _ (settle_backed hbacked.2 fun project hproject => ?_)
      exact hscope project (hlook.trans (congrArg Sum.inr hproject))
  | acting action view =>
    simp only [System.proceed] at h
    split at h
    all_goals
      cases h
      exact hended _ _
  | actingAll action project =>
    simp only [System.proceed] at h
    split_ifs at h
    all_goals
      cases h
      exact hended _ _
  | gateHome spawning project =>
    cases h
    exact hmoved _ hbacked
  | gateOrigin spawning project home =>
    cases h
    exact hmoved _ hbacked
  | judging spawning project callers =>
    cases callers with
    | nil =>
      cases h
      exact hmoved _ hbacked
    | cons caller rest =>
      simp only [System.proceed] at h
      split_ifs at h
      · cases h
        exact hmoved _ hbacked
      · cases h
        exact hended _ _
  | rooting spawning project =>
    simp only [System.proceed] at h
    split_ifs at h
    · cases h
      exact hended _ _
    · cases h
      exact hmoved _ hbacked
    · cases h
      exact hended _ _
  | registering spawning project =>
    simp only [System.proceed] at h
    by_cases hfault : fault = none
    · rw [if_neg (not_not.mpr hfault)] at h
      cases h
      refine ⟨.starting s.core.nextProcess project, put_self, ⟨Nat.lt_succ_self _, ?_⟩, ?_⟩
      · intro row hrow
        obtain ⟨entry, hentry, rfl⟩ := Core.processView_eq_some.mp hrow
        have hnew := (Core.lookup_register s.core project spawning.kind spawning.label false
          spawning.resumable s.core.nextProcess).symm.trans hentry
        rw [if_pos rfl] at hnew
        rw [← some.inj hnew]
      · exact Grounds.snoc hbacked (fun h => h) rfl
    · rw [if_pos hfault] at h
      cases h
      exact hended _ _
  | starting worker project =>
    simp only [System.proceed] at h
    split_ifs at h with hrefused
    · cases h
      exact hended _ _
    · cases h
      have hlaunch := System.frame_launch session fun hnone => hrefused (.inl hnone)
      refine ⟨.recording worker project, put_self, ?_⟩
      have hafter : (Point.recording worker project).Backed es s.core session := hbacked
      exact hafter.snoc (fun h => h) hlaunch.core
        (by rw [System.goTo, hlaunch.sessions, modify_id])
  | recording worker project =>
    simp only [System.proceed] at h
    split at h
    all_goals
      cases h
      exact hended _ _
  | bindHome process =>
    simp only [System.proceed] at h
    split_ifs at h with hhome
    · cases h
      exact hmoved _ (was_now (Q := fun c => c.homeProcess session = some process) hrun hhome)
    · cases h
      exact hended _ _
  | binding process =>
    cases h
    exact hended _ _
  | naming label =>
    cases h
    exact hended _ _
  | selectHome project =>
    simp only [System.proceed] at h
    split at h
    · rename_i home hhome
      cases h
      obtain ⟨pgid, entry, -, hentry, -⟩ := Core.homeProcess_entry hs.filed hhome
      have hview := Core.processView_eq_some.mpr ⟨entry, hentry, rfl⟩
      have hstays := hs.filed.stays hview
      rw [hs.filed.view_id hview] at hstays
      refine hmoved _ ⟨entry.view.project, hstays, ?_⟩
      exact was_now hrun ⟨hhome, entry.view, hview, rfl⟩
    · cases h
      exact hmoved _ trivial
  | selectView project home =>
    obtain ⟨owner, hstays, hwas⟩ := hbacked
    simp only [System.proceed] at h
    split at h
    · rename_i view hview
      split_ifs at h with hproject
      · cases h
        refine hmoved _ (Was.mono (R := fun c => c.RunsIn session project) hwas ?_)
        intro c hc
        obtain ⟨hhome, row, hrow, howner⟩ := hc
        have hsame : row.project = project := by
          rw [howner, ← hstays.2 view hview, hproject]
        exact .inl ⟨home, row, hhome, hrow, hsame⟩
      · cases h
        exact hended _ _
    · cases h
      exact hmoved _ trivial
  | selectDirectory project =>
    simp only [System.proceed] at h
    split_ifs at h with hproject
    · cases h
      refine hmoved _ (was_now (Q := fun c => c.RunsIn session project) hrun ?_)
      exact .inr (Core.projectAtPeerCwd_of_fault hproject)
    · cases h
      exact hended _ _
  | selecting project =>
    cases h
    exact hended _ _

theorem asked_backed (hs : s.core.Filed) (request : Request) :
    (s.asked fault request).Backed es s.core session := by
  cases request with
  | act action process =>
    simp only [System.asked]
    split
    · rename_i view hview
      exact ⟨trivial, hs.stays hview⟩
    · trivial
  | actAll action => exact ⟨trivial, trivial⟩
  | spawn spawning => exact ⟨trivial, trivial⟩
  | bindSessionProcess process =>
    simp only [System.asked]
    split_ifs <;> trivial
  | registerAgent label => trivial
  | selectProject project =>
    simp only [System.asked]
    split_ifs <;> trivial

theorem sound_ask {request : Request} (hs : Sound es s)
    (h : s.step (.ask session request fault) = some t) :
    Sound (es ++ [.ask session request fault]) t := by
  obtain ⟨hopen, -, rfl⟩ := System.step_ask h
  refine ⟨hs.filed, hs.assigned, ?_, ?_, ?_, ?_⟩
  · intro other point hpoint
    rcases put_eq_some.mp hpoint with ⟨rfl, -⟩ | ⟨-, hpoint⟩
    · exact hopen
    · exact hs.calling other point hpoint
  · intro other project hproject
    exact (hs.selected other project hproject).snoc _
  · intro other process hprocess
    exact (hs.bound other process hprocess).snoc _
  · intro other point hpoint
    rcases put_eq_some.mp hpoint with ⟨rfl, rfl⟩ | ⟨hother, hpoint⟩
    · exact asked_backed hs.filed request
    · exact (hs.backed other point hpoint).snoc (fun hasks => hother hasks.symm) (.refl _) rfl

theorem sound_proceed (hrun : system.run .new es = some s) (hs : Sound es s)
    (h : s.step (.proceed session fault) = some t) :
    Sound (es ++ [.proceed session fault]) t := by
  obtain ⟨point, hpoint, ht⟩ := bind_eq_some_iff.mp h
  have hframe := System.proceed_frame ht
  obtain ⟨next, hnext, hbacked⟩ := proceed_backed hrun hs hpoint ht
  have hsession : ∀ other, t.core.sessions other = none ↔ s.core.sessions other = none := by
    intro other
    by_cases hother : other = session
    · rw [hother, hframe.session_self, map_eq_none_iff]
    · rw [hframe.session_of_ne hother]
  refine ⟨hs.filed.follows hframe.core, ?_, ?_, ?_, ?_, ?_⟩
  · intro other x hx
    rw [hframe.nextSession]
    cases hbefore : s.core.sessions other with
    | none => rw [(hsession other).mpr hbefore] at hx; cases hx
    | some y => exact hs.assigned other y hbefore
  · intro other after hafter
    rw [Ne, hsession]
    by_cases hother : other = session
    · rw [hother]
      exact hs.calling session point hpoint
    · rw [hframe.calls other hother] at hafter
      exact hs.calling other after hafter
  · intro other project hproject
    by_cases hother : other = session
    · subst hother
      rcases hframe.selectedProject hproject with rfl | hbefore
      · exact Was.snoc (Q := fun c => c.RunsIn other project) (hs.backed other _ hpoint) _
      · exact (hs.selected other project hbefore).snoc _
    · rw [selectedProject_congr (hframe.session_of_ne hother)] at hproject
      exact (hs.selected other project hproject).snoc _
  · intro other process hprocess
    by_cases hother : other = session
    · subst hother
      rcases hframe.bound hprocess with rfl | hbefore
      · exact Was.snoc (Q := fun c => c.homeProcess other = some process)
          (hs.backed other _ hpoint) _
      · exact (hs.bound other process hbefore).snoc _
    · rw [origin_congr (hframe.session_of_ne hother)] at hprocess
      exact (hs.bound other process hprocess).snoc _
  · intro other after hafter
    by_cases hother : other = session
    · subst hother
      obtain rfl := some.inj (hnext.symm.trans hafter)
      exact hbacked
    · rw [hframe.calls other hother] at hafter
      exact (hs.backed other after hafter).snoc (fun h => h) hframe.core
        (hframe.session_of_ne hother)

theorem sound_other (hs : Sound es s) (hmover : e.mover = none) (h : s.step e = some t) :
    Sound (es ++ [e]) t := by
  obtain ⟨hcore, hothers⟩ := System.step_changes h
  have hmove : ∀ other, e.mover ≠ some other := by
    intro other hother
    rw [hmover] at hother
    cases hother
  refine ⟨hs.filed.follows hcore, ?_, ?_, ?_, ?_, ?_⟩
  · intro other x hx
    rcases hothers other (hmove other) with ⟨hsessions, -⟩ | ⟨peer, hfresh, hnext, -, -⟩ |
      ⟨-, hsessions, -⟩
    · rw [hsessions] at hx
      exact Nat.lt_of_lt_of_le (hs.assigned other x hx) hcore.nextSession
    · rw [hnext, hfresh]
      exact Nat.lt_succ_self _
    · rw [hsessions] at hx
      cases hx
  · intro other point hpoint
    rcases hothers other (hmove other) with ⟨hsessions, hcalls⟩ | ⟨peer, -, -, hsessions, -⟩ |
      ⟨-, -, hcalls⟩
    · rw [hsessions]
      exact hs.calling other point (hcalls ▸ hpoint)
    · rw [hsessions]
      exact some_ne_none _
    · rw [hcalls] at hpoint
      cases hpoint
  · intro other project hproject
    rcases hothers other (hmove other) with ⟨hsessions, -⟩ | ⟨peer, -, -, hsessions, -⟩ |
      ⟨-, hsessions, -⟩
    · rw [selectedProject_congr hsessions] at hproject
      exact (hs.selected other project hproject).snoc e
    all_goals
      unfold Core.selectedProject at hproject
      rw [hsessions] at hproject
      cases hproject
  · intro other process hprocess
    rcases hothers other (hmove other) with ⟨hsessions, -⟩ | ⟨peer, -, -, hsessions, -⟩ |
      ⟨-, hsessions, -⟩
    · rw [origin_congr hsessions] at hprocess
      exact (hs.bound other process hprocess).snoc e
    all_goals
      unfold Core.origin at hprocess
      rw [hsessions] at hprocess
      cases hprocess
  · intro other point hpoint
    rcases hothers other (hmove other) with ⟨hsessions, hcalls⟩ | ⟨peer, hfresh, -, -, hcalls⟩ |
      ⟨-, -, hcalls⟩
    · rw [hcalls] at hpoint
      exact (hs.backed other point hpoint).snoc (System.not_asks (hmove other)) hcore hsessions
    · -- a session that is opened now has not called yet
      rw [hcalls] at hpoint
      obtain ⟨x, hx⟩ := ne_none_iff_exists'.mp (hs.calling other point hpoint)
      exact absurd (hs.assigned other x hx) (hfresh ▸ Nat.lt_irrefl _)
    · rw [hcalls] at hpoint
      cases hpoint

theorem sound_run (hrun : system.run .new es = some s) : Sound es s := by
  refine Machine.invariant_history sound_new ?_ hrun
  intro es s e t hrun hs hstep
  cases hmover : e.mover with
  | none => exact sound_other hs hmover hstep
  | some session =>
    rcases System.mover_eq_some hmover with ⟨request, fault, rfl⟩ | ⟨fault, rfl⟩
    · exact sound_ask hs hstep
    · exact sound_proceed hrun hs hstep

variable {project : ProjectId}

theorem effectiveProject_authentic {cwdFault listFault : Option StoreError} (hs : Sound es s)
    (h : s.core.effectiveProject session cwdFault listFault = some project) :
    Authentic es s.core session project := by
  unfold Core.effectiveProject at h
  split at h
  · rename_i selected hselected
    obtain rfl := some.inj h
    exact .selected hselected (hs.selected session selected hselected)
  · split at h
    · rename_i row hview
      obtain rfl := some.inj h
      obtain ⟨process, hprocess, hrow⟩ := bind_eq_some_iff.mp hview
      exact .bound process row hprocess hrow rfl (hs.bound session process hprocess)
    · split at h
      · rename_i directory hdirectory
        obtain rfl := some.inj h
        split_ifs at hdirectory with hhome
        exact .directory hhome (Core.projectAtPeerCwd_of_fault hdirectory)
      · obtain ⟨record, hrecords, hid⟩ := Core.soleProject_eq_some h
        exact .sole record hrecords hid

variable {id : ProcessId}

theorem acts_grounded {row : ProcessView} (hs : Sound es s) (hpoint : s.calls session = some point)
    (hacts : point.ActsOn s.core id) (hrow : s.core.processView id = some row) :
    Grounds es s.core session row.project := by
  have hbacked := hs.backed session point hpoint
  cases point with
  | acting action view =>
    obtain rfl : id = view.id := hacts
    rw [hbacked.1.2 row hrow]
    exact hbacked.2
  | actingAll action project =>
    have hcommand : s.core.isCommandIn project id = true := hacts
    simp only [Core.isCommandIn, hrow, any_some, decide_eq_true_eq] at hcommand
    rw [hcommand.2]
    exact hbacked
  | starting worker project =>
    obtain rfl : id = worker := hacts
    rw [hbacked.1.2 row hrow]
    exact hbacked.2
  | _ => exact hacts.elim

variable {process : ProcessId}

theorem touched_launch (h : s.Touched (s.launch process) id) : id = process := by
  unfold System.launch at h
  by_contra hne
  split_ifs at h
  · rcases h with h | h
    · exact h rfl
    · exact h (put_of_ne hne)
  · rcases h with h | h <;> exact h rfl

theorem touched_perform {action : Action} (h : s.perform process fault action = .ok t)
    (htouched : s.Touched t id) : id = process := by
  cases action with
  | start =>
    simp only [System.perform] at h
    split_ifs at h
    cases h
    exact touched_launch htouched
  | restart =>
    simp only [System.perform] at h
    split_ifs at h
    cases h
    exact touched_launch htouched
  | stop =>
    cases h
    rcases htouched with htouched | htouched <;> exact absurd rfl htouched
  | rename label =>
    simp only [System.perform] at h
    split_ifs at h
    cases h
    rcases htouched with htouched | htouched
    · by_contra hne
      exact htouched ((Core.lookup_amend id).trans (if_neg hne))
    · exact absurd rfl htouched
  | close =>
    simp only [System.perform] at h
    split_ifs at h
    cases h
    rcases htouched with htouched | htouched
    · by_contra hne
      exact htouched ((Core.lookup_removeProcess id).trans (if_neg hne))
    · exact absurd rfl htouched
  | sendInput =>
    simp only [System.perform] at h
    split_ifs at h
    cases h
    rcases htouched with htouched | htouched <;> exact absurd rfl htouched

theorem touched_performAll (action : BulkAction) (h : s.Touched (s.performAll project action) id) :
    s.core.isCommandIn project id = true := by
  by_contra hcommand
  have hsame : (s.performAll project action).actors id = s.actors id := by
    cases action with
    | startAll => exact if_neg fun h => hcommand h.2.1
    | restartAll => exact if_neg fun h => hcommand h.2.1
    | stopAll => rfl
  rcases h with h | h
  · cases action <;> exact h rfl
  · exact h hsame

theorem proceed_touched (hs : Sound es s) (hpoint : s.calls session = some point)
    (h : s.proceed session fault point = some t) (htouched : s.Touched t id) :
    point.ActsOn s.core id ∨ s.core.processView id = none ∧
      ∃ row, t.core.processView id = some row ∧ Grounds es s.core session row.project := by
  have hmoved : ∀ (u : System) (next : Point), u.Touched (u.goTo session next) id → False := by
    intro u next hnext
    rcases hnext with hnext | hnext <;> exact hnext rfl
  have hbacked := hs.backed session point hpoint
  cases point with
  | acting action view =>
    simp only [System.proceed] at h
    split at h
    · rename_i u hu
      cases h
      exact .inl (touched_perform hu htouched)
    · cases h
      exact (hmoved _ _ htouched).elim
  | actingAll action project =>
    simp only [System.proceed] at h
    split_ifs at h
    all_goals cases h
    · exact (hmoved _ _ htouched).elim
    · exact .inl (touched_performAll action htouched)
  | registering spawning project =>
    simp only [System.proceed] at h
    by_cases hfault : fault = none
    · rw [if_neg (not_not.mpr hfault)] at h
      cases h
      have hlookup := Core.lookup_register s.core project spawning.kind spawning.label false
        spawning.resumable id
      by_cases hid : id = s.core.nextProcess
      · rw [if_pos hid] at hlookup
        have hnew : s.core.processView id = none := by
          cases hview : s.core.processView id with
          | none => rfl
          | some row =>
            obtain ⟨entry, hentry, -⟩ := Core.processView_eq_some.mp hview
            exact absurd (hs.filed id entry hentry).2 (hid ▸ Nat.lt_irrefl _)
        exact .inr ⟨hnew, _, Core.processView_eq_some.mpr ⟨_, hlookup, rfl⟩, hbacked⟩
      · rw [if_neg hid] at hlookup
        rcases htouched with htouched | htouched
        · exact absurd hlookup htouched
        · exact absurd rfl htouched
    · rw [if_pos hfault] at h
      cases h
      exact (hmoved _ _ htouched).elim
  | starting worker project =>
    simp only [System.proceed] at h
    split_ifs at h
    all_goals cases h
    · rcases htouched with htouched | htouched <;> exact absurd rfl htouched
    · exact .inl (touched_launch htouched)
  | returned outcome => cases h
  | recording worker project =>
    simp only [System.proceed] at h
    split at h
    all_goals
      cases h
      rcases htouched with htouched | htouched <;> exact absurd rfl htouched
  | binding process =>
    cases h
    rcases htouched with htouched | htouched <;> exact absurd rfl htouched
  | naming label =>
    cases h
    rcases htouched with htouched | htouched <;> exact absurd rfl htouched
  | selecting project =>
    cases h
    rcases htouched with htouched | htouched <;> exact absurd rfl htouched
  | _ =>
    obtain ⟨next, rfl⟩ := System.proceed_reads h trivial
    exact (hmoved _ _ htouched).elim

end

/-- Scope is sound and hides the rest: a call acts only on processes of the project that its own
resolution gave; every effective project is authentic; and what the cores hold about the processes
outside it does not show in the scoped listings. -/
theorem scope_sound {es : List Event} {s : System} (hrun : system.run .new es = some s) :
    (∀ session point id row, s.calls session = some point → point.ActsOn s.core id →
      s.core.processView id = some row → Grounds es s.core session row.project) ∧
    (∀ session fault t id, s.step (.proceed session fault) = some t → s.Touched t id →
      (∃ point, s.calls session = some point ∧ point.ActsOn s.core id) ∨
        s.core.processView id = none ∧
          ∃ row, t.core.processView id = some row ∧ Grounds es s.core session row.project) ∧
    (∀ session cwdFault listFault project,
      s.core.effectiveProject session cwdFault listFault = some project →
        Authentic es s.core session project) ∧
    ∀ (c d : Core) session cwdFault listFault,
      c.Agrees (c.effectiveProject session cwdFault listFault) d →
        d.snapshotScoped session cwdFault listFault =
          c.snapshotScoped session cwdFault listFault ∧
        ∀ project, d.projectProcessesScoped session project cwdFault listFault =
          c.projectProcessesScoped session project cwdFault listFault := by
  have hs := sound_run hrun
  refine ⟨?_, ?_, ?_, ?_⟩
  · intro session point id row hpoint hacts hrow
    exact acts_grounded hs hpoint hacts hrow
  · intro session fault t id hstep htouched
    obtain ⟨point, hpoint, ht⟩ := Option.bind_eq_some_iff.mp hstep
    rcases proceed_touched hs hpoint ht htouched with hacts | hnew
    · exact .inl ⟨point, hpoint, hacts⟩
    · exact .inr hnew
  · intro session cwdFault listFault project hproject
    exact effectiveProject_authentic hs hproject
  · intro c d session cwdFault listFault hagrees
    exact Core.listings_agree hagrees

/-- A client without credentials stops a command of the only project. -/
def stopInSoleProject : List Event :=
  [.addProject [.rootDir, .normal "a"], .register 1 .command "web" false false,
    .openSession ⟨none, none⟩, .ask 1 (.act .stop 1) none, .proceed 1 none, .proceed 1 none,
    .proceed 1 none, .proceed 1 none, .proceed 1 none]

def System.ActsOutside (s : System) (session : SessionId) : Bool :=
  match s.calls session with
  | some (.acting action view) =>
    (s.step (.proceed session none)).any (fun t =>
      t.calls session = some (.returned (.acted action view))) &&
    decide (s.core.effectiveProject session none none ≠ some view.project)
  | _ => false

theorem scope_sound_sole : ∃ es s, system.run .new es = some s ∧
    ∀ point id row, s.calls 1 = some point → point.ActsOn s.core id →
      s.core.processView id = some row → Grounds es s.core 1 row.project := by
  obtain ⟨s, hs, -⟩ := (Option.any_eq_true _ _).mp
    (show (system.run .new stopInSoleProject).any (fun _ => true) = true by decide)
  refine ⟨stopInSoleProject, s, hs, ?_⟩
  intro point id row hpoint hacts hrow
  exact (scope_sound hs).1 1 point id row hpoint hacts hrow

/-- Another project is added between the scope guard of a stop and the stop itself. -/
theorem acts_outside_effectiveProject :
    ∃ s, system.Reachable s ∧ s.ActsOutside 1 = true :=
  Machine.exists_reachable_of_run rfl
    (stopInSoleProject ++ [.addProject [.rootDir, .normal "b"]]) _ (by decide)

end Soloist.Facade
