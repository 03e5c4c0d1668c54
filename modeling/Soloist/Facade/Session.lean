import Soloist.Dict
import Soloist.Process.Spec
import Soloist.Slots

/-! Identity sessions and the project they act on, over the process registry and the loaded
projects. A session's scope is its selection, the project of its bound process, the project of the
directory its peer runs in, or the only project there is. -/
open List

namespace Soloist.Facade

abbrev SessionId := Nat

abbrev Pgid := Int

/-- Who a session's caller is. -/
inductive Origin
  | unbound
  | process (id : ProcessId)
  | external (label : String)
  deriving DecidableEq, Repr

def Origin.bound : Origin → Option ProcessId
  | .process id => some id
  | .unbound | .external _ => none

/-- What the transport reads from the kernel about a connection's peer. -/
structure PeerCredentials where
  pgid : Option Pgid
  cwd : Option PathBuf
  deriving DecidableEq, Repr

structure Session where
  origin : Origin
  selectedProject : Option ProjectId
  peer : PeerCredentials
  deriving DecidableEq, Repr

def Session.new (peer : PeerCredentials) : Session := ⟨.unbound, none, peer⟩

inductive Readiness
  | ungated
  | waiting
  | ready
  deriving DecidableEq, Repr

structure ProcessView where
  id : ProcessId
  project : ProjectId
  kind : ProcessKind
  label : String
  status : ProcStatus
  exitCode : Option Int
  requiresTrust : Bool
  resumable : Bool
  ports : List ℕ
  ready : Readiness
  deriving DecidableEq, Repr

def ProcessView.redactedIdentity (v : ProcessView) : ProcessView where
  id := v.id
  project := v.project
  kind := v.kind
  label := v.label
  status := v.status
  exitCode := none
  requiresTrust := false
  resumable := false
  ports := []
  ready := .ungated

/-- A registered process, with the group of its running child. -/
structure Entry where
  view : ProcessView
  pgid : Option Pgid
  deriving DecidableEq, Repr

structure ProjectRecord where
  id : ProjectId
  root : PathBuf
  deriving DecidableEq, Repr

/-- What the scope of a session is resolved from. -/
structure Core where
  sessions : Slots SessionId Session
  nextSession : SessionId
  processes : Dict ProcessId Entry
  nextProcess : ProcessId
  /-- The loaded projects in their display order. -/
  projects : List ProjectRecord
  nextProject : ProjectId

namespace Core

def new : Core := ⟨.empty, 1, ∅, 1, [], 1⟩

def processAtPgid (s : Core) (pgid : Pgid) : Option ProcessId :=
  (s.processes.entries.find? fun e => e.2.pgid = some pgid).map fun e => e.2.view.id

def processView (s : Core) (id : ProcessId) : Option ProcessView :=
  (s.processes.lookup id).map Entry.view

def snapshot (s : Core) : List ProcessView := s.processes.entries.map fun e => e.2.view

def list (s : Core) : Option StoreError → Except StoreError (List ProjectRecord)
  | none => .ok s.projects
  | some e => .error e

def deepest (records : List ProjectRecord) : Option ProjectRecord :=
  records.foldl (fun best record =>
    match best with
    | none => some record
    | some r => if r.root.length ≤ record.root.length then some record else some r) none

def projectAtPath (s : Core) (path : PathBuf) (fault : Option StoreError) :
    Except StoreError (Option ProjectId) :=
  (s.list fault).map fun records =>
    (deepest (records.filter fun r => r.root.isPrefixOf path)).map ProjectRecord.id

def origin (s : Core) (session : SessionId) : Origin :=
  ((s.sessions session).map Session.origin).getD .unbound

def selectedProject (s : Core) (session : SessionId) : Option ProjectId :=
  (s.sessions session).bind Session.selectedProject

def peerPgid (s : Core) (session : SessionId) : Option Pgid :=
  (s.sessions session).bind fun x => x.peer.pgid

def peerCwd (s : Core) (session : SessionId) : Option PathBuf :=
  (s.sessions session).bind fun x => x.peer.cwd

def homeProcess (s : Core) (session : SessionId) : Option ProcessId :=
  (s.peerPgid session).bind s.processAtPgid

def projectAtPeerCwd (s : Core) (session : SessionId) (fault : Option StoreError) :
    Option ProjectId :=
  (s.peerCwd session).bind fun cwd => (s.projectAtPath cwd fault).toOption.join

def soleProject (s : Core) (fault : Option StoreError) : Option ProjectId :=
  match s.list fault with
  | .ok [record] => some record.id
  | .ok [] | .ok (_ :: _ :: _) | .error _ => none

/-- The project a session's scoped tools act on. The two reads of the project list may fail, each by
itself. -/
def effectiveProject (s : Core) (session : SessionId) (cwdFault listFault : Option StoreError) :
    Option ProjectId :=
  match s.selectedProject session with
  | some project => some project
  | none =>
    match (s.origin session).bound.bind s.processView with
    | some view => some view.project
    | none =>
      match if s.homeProcess session = none then s.projectAtPeerCwd session cwdFault else none with
      | some project => some project
      | none => s.soleProject listFault

/-- Every process, with the rows outside the scope reduced to their identity. -/
def snapshotScoped (s : Core) (session : SessionId) (cwdFault listFault : Option StoreError) :
    List ProcessView :=
  let scope := s.effectiveProject session cwdFault listFault
  s.snapshot.map fun view => if some view.project = scope then view else view.redactedIdentity

def projectProcessesScoped (s : Core) (session : SessionId) (project : ProjectId)
    (cwdFault listFault : Option StoreError) : List ProcessView :=
  let scope := s.effectiveProject session cwdFault listFault
  (s.snapshot.filter fun view => view.project = project).map fun view =>
    if some view.project = scope then view else view.redactedIdentity

end Core

/-- Two rows that agree on all but the exit code, the trust flag, the ports and the readiness. -/
structure ProcessView.AlikeOutside (v w : ProcessView) : Prop where
  id : w.id = v.id
  project : w.project = v.project
  kind : w.kind = v.kind
  label : w.label = v.label
  status : w.status = v.status
  resumable : w.resumable = v.resumable

/-- Two entries that differ at most in what a foreign scope may not see. -/
structure Entry.Agrees (scope : Option ProjectId) (e f : Entry) : Prop where
  pgid : f.pgid = e.pgid
  alike : e.view.AlikeOutside f.view
  inside : some e.view.project = scope → f.view = e.view

/-- Two cores that differ at most in the exit codes, trust flags, ports and readiness of processes
outside a scope. -/
structure Core.Agrees (scope : Option ProjectId) (s t : Core) : Prop where
  sessions : t.sessions = s.sessions
  projects : t.projects = s.projects
  processes : List.Forall₂ (fun e f => f.1 = e.1 ∧ e.2.Agrees scope f.2) s.processes.entries
    t.processes.entries

namespace Core
variable {s t : Core} {session : SessionId} {scope : Option ProjectId} {id : ProcessId}
  {cwdFault listFault : Option StoreError}

variable {fault : Option StoreError} {project : ProjectId}

/-- A project the directory resolves to is one that the loaded projects give. -/
theorem projectAtPeerCwd_of_fault (h : s.projectAtPeerCwd session fault = some project) :
    s.projectAtPeerCwd session none = some project := by
  cases fault with
  | none => exact h
  | some e =>
    obtain ⟨cwd, -, hnone⟩ := Option.bind_eq_some_iff.mp h
    cases hnone

theorem soleProject_eq_some (h : s.soleProject fault = some project) :
    ∃ record, s.projects = [record] ∧ record.id = project := by
  unfold soleProject at h
  split at h
  · rename_i record hlist
    cases fault with
    | none => exact ⟨record, Except.ok.inj hlist, Option.some.inj h⟩
    | some e => cases hlist
  all_goals cases h

variable {v w : ProcessView}

theorem redactedIdentity_eq (h : v.AlikeOutside w) : w.redactedIdentity = v.redactedIdentity := by
  simp only [ProcessView.redactedIdentity, h.id, h.project, h.kind, h.label, h.status]

theorem processAtPgid_agrees (h : s.Agrees scope t) (pgid : Pgid) :
    t.processAtPgid pgid = s.processAtPgid pgid := by
  have hfound : ∀ {es fs : List (Sigma fun _ : ProcessId => Entry)},
      List.Forall₂ (fun e f => f.1 = e.1 ∧ e.2.Agrees scope f.2) es fs →
        (fs.find? fun e => e.2.pgid = some pgid).map (fun e => e.2.view.id) =
          (es.find? fun e => e.2.pgid = some pgid).map fun e => e.2.view.id := by
    intro es fs hes
    induction hes with
    | nil => rfl
    | @cons e f es fs hef _ ih =>
      rw [find?_cons, find?_cons, hef.2.pgid]
      by_cases hpgid : e.2.pgid = some pgid
      · simp only [hpgid, decide_true, Option.map_some, hef.2.alike.id]
      · simp only [hpgid, decide_false]
        exact ih
  exact hfound h.processes

theorem lookup_agrees (h : s.Agrees scope t) (id : ProcessId) :
    (t.processView id).map ProcessView.project = (s.processView id).map ProcessView.project := by
  have hfound : ∀ {es fs : List (Sigma fun _ : ProcessId => Entry)},
      List.Forall₂ (fun e f => f.1 = e.1 ∧ e.2.Agrees scope f.2) es fs →
        ((fs.dlookup id).map Entry.view).map ProcessView.project =
          ((es.dlookup id).map Entry.view).map ProcessView.project := by
    intro es fs hes
    induction hes with
    | nil => rfl
    | @cons e f es fs hef _ ih =>
      obtain ⟨i, x⟩ := e
      obtain ⟨j, y⟩ := f
      obtain ⟨hid, hagrees⟩ := hef
      obtain rfl : j = i := hid
      by_cases hi : id = j
      · subst hi
        rw [dlookup_cons_eq, dlookup_cons_eq]
        exact congrArg some hagrees.alike.project
      · rw [dlookup_cons_ne _ _ hi, dlookup_cons_ne _ _ hi]
        exact ih
  exact hfound h.processes

/-- What a foreign scope may not see has no part in the scope itself. -/
theorem effectiveProject_agrees (h : s.Agrees scope t) :
    t.effectiveProject session cwdFault listFault =
      s.effectiveProject session cwdFault listFault := by
  have hselected : t.selectedProject session = s.selectedProject session := by
    simp only [selectedProject, h.sessions]
  have horigin : t.origin session = s.origin session := by
    simp only [origin, h.sessions]
  have hhome : t.homeProcess session = s.homeProcess session := by
    simp only [homeProcess, peerPgid, h.sessions]
    exact congrArg _ (funext (processAtPgid_agrees h))
  have hlist : t.list = s.list := by
    funext fault
    cases fault with
    | none => exact congrArg Except.ok h.projects
    | some e => rfl
  have hcwd : t.projectAtPeerCwd session cwdFault = s.projectAtPeerCwd session cwdFault := by
    simp only [projectAtPeerCwd, peerCwd, projectAtPath, h.sessions, hlist]
  have hsole : t.soleProject listFault = s.soleProject listFault := by
    simp only [soleProject, hlist]
  have hbound : ((s.origin session).bound.bind t.processView).map ProcessView.project =
      ((s.origin session).bound.bind s.processView).map ProcessView.project := by
    cases (s.origin session).bound with
    | none => rfl
    | some id => exact lookup_agrees h id
  unfold effectiveProject
  rw [hselected, horigin, hhome, hcwd, hsole]
  cases s.selectedProject session with
  | some project => rfl
  | none =>
    cases hview : (s.origin session).bound.bind s.processView with
    | none =>
      rw [hview] at hbound
      rw [Option.map_eq_none_iff.mp hbound]
    | some v =>
      rw [hview] at hbound
      obtain ⟨w, hw, hproject⟩ := Option.map_eq_some_iff.mp hbound
      rw [hw]
      exact congrArg some hproject

theorem shown_agrees (halike : v.AlikeOutside w) (hinside : some v.project = scope → w = v) :
    (if some w.project = scope then w else w.redactedIdentity) =
      if some v.project = scope then v else v.redactedIdentity := by
  rw [halike.project]
  split_ifs with hscope
  · exact hinside hscope
  · exact redactedIdentity_eq halike

/-- Two cores that a scope may not tell apart list the same rows. -/
theorem listings_agree (h : s.Agrees (s.effectiveProject session cwdFault listFault) t) :
    t.snapshotScoped session cwdFault listFault = s.snapshotScoped session cwdFault listFault ∧
      ∀ project, t.projectProcessesScoped session project cwdFault listFault =
        s.projectProcessesScoped session project cwdFault listFault := by
  unfold snapshotScoped projectProcessesScoped snapshot
  rw [effectiveProject_agrees h]
  dsimp only
  have hentries := h.processes
  generalize s.effectiveProject session cwdFault listFault = scope at hentries
  generalize s.processes.entries = es at hentries
  generalize t.processes.entries = fs at hentries
  induction hentries with
  | nil => exact ⟨rfl, fun _ => rfl⟩
  | @cons e f es fs hef _ ih =>
    have hshown := shown_agrees hef.2.alike hef.2.inside
    refine ⟨?_, fun project => ?_⟩
    · simp only [map_cons, hshown]
      rw [ih.1]
    · have hrest := ih.2 project
      simp only [map_cons, filter_cons, hef.2.alike.project]
      split_ifs
      · simp only [map_cons, hshown]
        rw [hrest]
      · exact hrest

end Core
end Soloist.Facade
