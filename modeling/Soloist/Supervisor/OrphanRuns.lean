import Soloist.Machine
import Soloist.Slots
import Soloist.Supervisor.Orphans

/-! Leftover groups over whole runs: reconciliations, the user's kills and the actors of adopted
groups, one access at a time, while the operating system ends groups and reuses their ids. -/
open List Option

namespace Soloist

/-- A reconciliation, as what it holds before its next access. -/
inductive Reconcile
  | classifying (pending : List OrphanRecord) (fates : List OrphanFate)
  /-- The record is alive; its match is still to be looked up. -/
  | matching (record : OrphanRecord) (pending : List OrphanRecord) (fates : List OrphanFate)
  | settling (fates : List OrphanFate) (report : OrphanReport)

/-- A kill of a leftover group, as what it holds before its next access. -/
inductive KillOrphan
  | found (record : OrphanRecord)
  /-- The record is alive; its group is about to be signalled. -/
  | signalling (record : OrphanRecord)
  | forgetting (pgid : Pgid)
  | returned (error : Option String)
  deriving DecidableEq

/-- What ends the run of an adopted group. -/
inductive Ending
  | exited
  | stop
  | restart
  deriving DecidableEq, Repr

/-- Where a process stands once its adopted group is gone. -/
def Ending.status : Ending → ProcStatus
  | .exited => .crashed
  | .stop => .stopped
  | .restart => .starting

/-- Where the actor of an adopted group stands. -/
inductive AdoptedPc
  | stamping
  | recording (identity : Option ProcessIdentity)
  | running
  | terminate (ending : Ending)
  /-- The record was alive; the group is about to be asked to terminate. -/
  | terminating (ending : Ending)
  | grace (ending : Ending)
  | kill (ending : Ending)
  /-- The record was alive; the group is about to be killed. -/
  | killing (ending : Ending)
  | reaping (ending : Ending)
  | forgetting (ending : Ending)
  deriving DecidableEq, Repr

structure AdoptedActor where
  process : ProcessId
  record : OrphanRecord
  /-- What it records itself, with the identity it finds then. -/
  stamp : OrphanRecord
  pc : AdoptedPc
  deriving DecidableEq

def AdoptedActor.adopt (e : RegisteredProcess) (record : OrphanRecord) : AdoptedActor where
  process := e.id
  record := record
  stamp := ⟨e.projectRoot, e.label, e.command, record.pgid, none⟩
  pc := .stamping

structure OrphanSystem where
  os : OrphanControl
  registry : OrphanRegistry
  runtime : RuntimeState
  reconciles : Slots ℕ Reconcile
  kills : Slots ℕ KillOrphan
  actors : Slots ℕ AdoptedActor

inductive OrphanEvent
  /-- A group ends, or its id names another group from now on. -/
  | reassign (pgid : Pgid) (identity : Option ProcessIdentity)
  /-- Any other caller registers, removes or changes a process. -/
  | register (entry : RegisteredProcess)
  | deregister (id : ProcessId)
  | setStatus (id : ProcessId) (status : ProcStatus)
  | rename (id : ProcessId) (label : String)
  | updateCommand (id : ProcessId) (command : String)
  /-- The actor of any other process records or forgets its group. -/
  | record (record : OrphanRecord) (fault : Bool)
  | forget (pgid : Pgid) (fault : Bool)
  /-- The application ends in any way and starts again. -/
  | relaunch
  | reconcile (n : ℕ) (fault : Bool)
  /-- The next access of a reconciliation; an adoption starts the actor `actor`. -/
  | reconcileNext (n actor : ℕ) (fault : Bool)
  | killOrphan (n : ℕ) (pgid : Pgid) (fault : Bool)
  | killNext (n : ℕ) (fault : Option String)
  /-- The next access of an adopted group's actor. -/
  | actorNext (n : ℕ) (fault : Bool)
  /-- The liveness poll of an adopted group's actor. -/
  | poll (n : ℕ)
  /-- A message to stop or to restart. -/
  | message (n : ℕ) (restart : Bool)
  /-- The grace window of a stop ends. -/
  | graceElapsed (n : ℕ)

namespace OrphanSystem

def setActor (s : OrphanSystem) (n : ℕ) (x : AdoptedActor) : OrphanSystem :=
  { s with actors := s.actors.put n x }

def setStatusOf (s : OrphanSystem) (id : ProcessId) (status : ProcStatus) : OrphanSystem :=
  { s with registry := s.registry.setStatus id status }

def reconcileNext (s : OrphanSystem) (n actor : ℕ) (fault : Bool) : Option OrphanSystem :=
  match s.reconciles n with
  | none => none
  | some (.classifying [] fates) =>
    some { s with reconciles := s.reconciles.put n (.settling fates .empty) }
  | some (.classifying (record :: pending) fates) =>
    if s.os.isRecordedAlive record then
      some { s with reconciles := s.reconciles.put n (.matching record pending fates) }
    else
      some { s with
        reconciles := s.reconciles.put n (.classifying pending (fates ++ [.prune record])) }
  | some (.matching record pending fates) =>
    some { s with
      reconciles := s.reconciles.put n (.classifying pending
        (fates ++ [classifyOne (fun _ => true) s.registry.findRestingMatch record])) }
  | some (.settling [] _) => some { s with reconciles := s.reconciles.erase n }
  | some (.settling (fate :: rest) report) =>
    let (registry, runtime, report') := settle s.registry s.runtime report fault fate
    let t := { s with
      registry, runtime
      reconciles := s.reconciles.put n (.settling rest report') }
    match fate with
    | .adopt record target =>
      match s.registry.get target, s.registry.adoptOrphan target with
      | some e, some _ =>
        if (s.actors actor).isSome then none else some (t.setActor actor (.adopt e record))
      | _, _ => some t
    | .surface _ | .prune _ => some t

def killNext (s : OrphanSystem) (n : ℕ) (fault : Option String) : Option OrphanSystem :=
  match s.kills n with
  | none | some (.returned _) => none
  | some (.found record) =>
    if s.os.isRecordedAlive record then
      some { s with kills := s.kills.put n (.signalling record) }
    else some { s with kills := s.kills.put n (.forgetting record.pgid) }
  | some (.signalling record) =>
    match fault with
    | some error => some { s with kills := s.kills.put n (.returned (some error)) }
    | none => some { s with kills := s.kills.put n (.forgetting record.pgid) }
  | some (.forgetting pgid) =>
    some { s with
      runtime := s.runtime.forget pgid fault.isSome
      kills := s.kills.put n (.returned none) }

def actorNext (s : OrphanSystem) (n : ℕ) (fault : Bool) : Option OrphanSystem :=
  match s.actors n with
  | none => none
  | some x =>
    match x.pc with
    | .stamping => some (s.setActor n { x with pc := .recording (s.os x.record.pgid) })
    | .recording identity =>
      some (({ s with
        runtime := s.runtime.record { x.stamp with identity } fault }.setActor n
          { x with pc := .running }).setStatusOf x.process .running)
    | .running | .grace _ | .reaping _ => none
    | .terminate ending =>
      if s.os.isRecordedAlive x.record then some (s.setActor n { x with pc := .terminating ending })
      else some (s.setActor n { x with pc := .grace ending })
    | .terminating ending => some (s.setActor n { x with pc := .grace ending })
    | .kill ending =>
      if s.os.isRecordedAlive x.record then some (s.setActor n { x with pc := .killing ending })
      else some (s.setActor n { x with pc := .reaping ending })
    | .killing ending => some (s.setActor n { x with pc := .reaping ending })
    | .forgetting ending =>
      some ({ s with
        runtime := s.runtime.forget x.record.pgid fault
        actors := s.actors.erase n }.setStatusOf x.process ending.status)

/-- The poll that watches an adopted group while its actor waits. -/
def poll (s : OrphanSystem) (n : ℕ) : Option OrphanSystem :=
  match s.actors n with
  | none => none
  | some x =>
    let seen := fun ending =>
      if s.os.isRecordedAlive x.record then some s
      else some (s.setActor n { x with pc := .forgetting ending })
    match x.pc with
    | .running => seen .exited
    | .grace ending | .reaping ending => seen ending
    | _ => none

def step (s : OrphanSystem) : OrphanEvent → Option OrphanSystem
  | .reassign pgid identity =>
    some { s with os := fun other => if other = pgid then identity else s.os other }
  | .register entry =>
    if h : ∀ e ∈ s.registry.rows, e.id ≠ entry.id then
      some { s with registry := s.registry.insert entry h }
    else none
  | .deregister id => some { s with registry := s.registry.delete fun e => e.id = id }
  | .setStatus id status => some (s.setStatusOf id status)
  | .rename id label =>
    some { s with
      registry := s.registry.update (fun e => e.id = id) (fun e => { e with label }) fun _ => rfl }
  | .updateCommand id command =>
    some { s with
      registry :=
        s.registry.update (fun e => e.id = id) (fun e => { e with command }) fun _ => rfl }
  | .record record fault => some { s with runtime := s.runtime.record record fault }
  | .forget pgid fault => some { s with runtime := s.runtime.forget pgid fault }
  | .relaunch =>
    some { s with
      registry := Table.empty
      runtime := s.runtime.reopened
      reconciles := Slots.empty
      kills := Slots.empty
      actors := Slots.empty }
  | .reconcile n fault =>
    if (s.reconciles n).isSome then none
    else
      some { s with
        reconciles := s.reconciles.put n
          (.classifying (if fault then [] else s.runtime.state.rows) []) }
  | .reconcileNext n actor fault => s.reconcileNext n actor fault
  | .killOrphan n pgid fault =>
    if (s.kills n).isSome then none
    else
      let record := if fault then none else s.runtime.state.get pgid
      some { s with
        kills := s.kills.put n (record.elim (.forgetting pgid) KillOrphan.found) }
  | .killNext n fault => s.killNext n fault
  | .actorNext n fault => s.actorNext n fault
  | .poll n => s.poll n
  | .message n restart =>
    match s.actors n with
    | none => none
    | some x =>
      if x.pc = .running then
        some ((s.setActor n { x with pc := .terminate (if restart then .restart else .stop) }
          ).setStatusOf x.process (if restart then .restarting else .stopping))
      else none
  | .graceElapsed n =>
    match s.actors n with
    | none => none
    | some x =>
      match x.pc with
      | .grace ending => some (s.setActor n { x with pc := .kill ending })
      | _ => none

def touches (s : OrphanSystem) : OrphanEvent → List OrphanRecord
  | .reconcileNext n _ _ =>
    match s.reconciles n with
    | some (.settling [] report) => report.surfaced
    | some (.settling (.adopt record target :: _) _) =>
      if (s.registry.adoptOrphan target).isSome then [record] else []
    | _ => []
  | .killNext n _ =>
    match s.kills n with
    | some (.signalling record) => [record]
    | _ => []
  | .actorNext n _ =>
    match s.actors n with
    | some ⟨_, record, _, .terminating _⟩ | some ⟨_, record, _, .killing _⟩ => [record]
    | _ => []
  | _ => []

end OrphanSystem

def OrphanFate.kept : OrphanFate → Option OrphanRecord
  | .adopt record _ | .surface record => some record
  | .prune _ => none

def Reconcile.vouched : Reconcile → List OrphanRecord
  | .classifying _ fates => fates.filterMap OrphanFate.kept
  | .matching record _ fates => record :: fates.filterMap OrphanFate.kept
  | .settling fates report => fates.filterMap OrphanFate.kept ++ report.surfaced

def KillOrphan.vouched : KillOrphan → List OrphanRecord
  | .signalling record => [record]
  | .found _ | .forgetting _ | .returned _ => []

def AdoptedActor.vouched (x : AdoptedActor) : List OrphanRecord :=
  match x.pc with
  | .terminating _ | .killing _ => [x.record]
  | _ => []

namespace OrphanSystem

/-- Some operation has seen the record alive and may still act on its group. -/
def Vouched (s : OrphanSystem) (record : OrphanRecord) : Prop :=
  (∃ n r, s.reconciles n = some r ∧ record ∈ r.vouched) ∨
    (∃ n k, s.kills n = some k ∧ record ∈ k.vouched) ∨
      ∃ n x, s.actors n = some x ∧ record ∈ x.vouched

variable {s : OrphanSystem} {e : OrphanEvent} {record : OrphanRecord}

theorem vouched_of_touches (h : record ∈ s.touches e) : s.Vouched record := by
  unfold touches at h
  split at h
  · next n actor fault =>
    split at h
    · next report hr =>
      exact .inl ⟨n, _, hr, mem_append_right _ h⟩
    · next record' target rest report hr =>
      split_ifs at h
      · rw [mem_singleton.mp h]
        exact .inl ⟨n, _, hr, by simp [Reconcile.vouched, OrphanFate.kept]⟩
      · cases h
    · cases h
  · next n fault =>
    split at h
    · next record' hk =>
      exact .inr (.inl ⟨n, _, hk, h⟩)
    · cases h
  · next n fault =>
    split at h
    · next hx => exact .inr (.inr ⟨n, _, hx, h⟩)
    · next hx => exact .inr (.inr ⟨n, _, hx, h⟩)
    · cases h
  · cases h

variable {t : OrphanSystem} {n : ℕ}

theorem vouched_put_reconcile (s : OrphanSystem) {r : Reconcile} (h : t.Vouched record)
    (hr : t.reconciles = s.reconciles.put n r) (hk : t.kills = s.kills) (hx : t.actors = s.actors) :
    s.Vouched record ∨ record ∈ r.vouched := by
  obtain ⟨m, r', hm, hmem⟩ | h | h := h
  · rw [hr, Slots.put_eq_some] at hm
    obtain ⟨rfl, rfl⟩ | ⟨-, hm⟩ := hm
    · exact .inr hmem
    · exact .inl (.inl ⟨m, r', hm, hmem⟩)
  · rw [hk] at h
    exact .inl (.inr (.inl h))
  · rw [hx] at h
    exact .inl (.inr (.inr h))

theorem vouched_put_kill (s : OrphanSystem) {k : KillOrphan} (h : t.Vouched record)
    (hk : t.kills = s.kills.put n k) (hr : t.reconciles = s.reconciles) (hx : t.actors = s.actors) :
    s.Vouched record ∨ record ∈ k.vouched := by
  obtain h | ⟨m, k', hm, hmem⟩ | h := h
  · rw [hr] at h
    exact .inl (.inl h)
  · rw [hk, Slots.put_eq_some] at hm
    obtain ⟨rfl, rfl⟩ | ⟨-, hm⟩ := hm
    · exact .inr hmem
    · exact .inl (.inr (.inl ⟨m, k', hm, hmem⟩))
  · rw [hx] at h
    exact .inl (.inr (.inr h))

variable {x : AdoptedActor}

theorem vouched_put_actor (s : OrphanSystem) (h : t.Vouched record)
    (hx : t.actors = s.actors.put n x) (hr : t.reconciles = s.reconciles) (hk : t.kills = s.kills) :
    s.Vouched record ∨ record ∈ x.vouched := by
  obtain h | h | ⟨m, x', hm, hmem⟩ := h
  · rw [hr] at h
    exact .inl (.inl h)
  · rw [hk] at h
    exact .inl (.inr (.inl h))
  · rw [hx, Slots.put_eq_some] at hm
    obtain ⟨rfl, rfl⟩ | ⟨-, hm⟩ := hm
    · exact .inr hmem
    · exact .inl (.inr (.inr ⟨m, x', hm, hmem⟩))

/-- What an actor's move leaves, where its next place vouches for nothing. -/
theorem vouched_quiet (s : OrphanSystem) {u : OrphanSystem} (h : u.Vouched record)
    (hx : u.actors = s.actors.put n x) (hr : u.reconciles = s.reconciles) (hk : u.kills = s.kills)
    (hnone : x.vouched = []) : s.Vouched record := by
  obtain h | hmem := vouched_put_actor s h hx hr hk
  · exact h
  · rw [hnone] at hmem
    cases hmem

theorem Vouched.congr (hr : t.reconciles = s.reconciles) (hk : t.kills = s.kills)
    (hx : t.actors = s.actors) (h : t.Vouched record) : s.Vouched record := by
  unfold Vouched at h ⊢
  rwa [hr, hk, hx] at h

variable {fault : Bool}

theorem vouched_settle {g : OrphanRegistry} {runtime : RuntimeState} {report : OrphanReport}
    {fate : OrphanFate} {rest : List OrphanFate}
    (h : record ∈ (Reconcile.settling rest (settle g runtime report fault fate).2.2).vouched) :
    record ∈ (Reconcile.settling (fate :: rest) report).vouched := by
  simp only [Reconcile.vouched, mem_append] at h ⊢
  obtain h | h := h
  · refine .inl ?_
    rw [filterMap_cons]
    split
    · exact h
    · exact .tail _ h
  · have hsurfaced : record ∈ report.surfaced ∨ fate.kept = some record := by
      cases fate with
      | adopt r target =>
        simp only [settle] at h
        split at h
        · exact .inl h
        · obtain h | h := mem_append.mp h
          · exact .inl h
          · exact .inr (congrArg some (mem_singleton.mp h).symm)
      | surface r =>
        obtain h | h := mem_append.mp h
        · exact .inl h
        · exact .inr (congrArg some (mem_singleton.mp h).symm)
      | prune r => exact .inl h
    obtain h | h := hsurfaced
    · exact .inr h
    · exact .inl (mem_filterMap.mpr ⟨fate, (.head _), h⟩)

variable {actor : ℕ}

theorem vouched_reconcileNext (h : s.reconcileNext n actor fault = some t) (hv : t.Vouched record) :
    s.Vouched record ∨ s.os.isRecordedAlive record = true := by
  unfold reconcileNext at h
  split at h
  · cases h
  · next fates hr =>
    cases h
    obtain hv | hmem := vouched_put_reconcile s hv rfl rfl rfl
    · exact .inl hv
    · simp only [Reconcile.vouched, OrphanReport.empty, append_nil] at hmem
      exact .inl (.inl ⟨n, _, hr, hmem⟩)
  · next r pending fates hr =>
    split_ifs at h with halive
    · cases h
      obtain hv | hmem := vouched_put_reconcile s hv rfl rfl rfl
      · exact .inl hv
      · obtain rfl | hmem := mem_cons.mp hmem
        · exact .inr halive
        · exact .inl (.inl ⟨n, _, hr, hmem⟩)
    · cases h
      obtain hv | hmem := vouched_put_reconcile s hv rfl rfl rfl
      · exact .inl hv
      · simp only [Reconcile.vouched, filterMap_append, mem_append] at hmem
        obtain hmem | hmem := hmem
        · exact .inl (.inl ⟨n, _, hr, hmem⟩)
        · simp [OrphanFate.kept] at hmem
  · next r pending fates hr =>
    cases h
    obtain hv | hmem := vouched_put_reconcile s hv rfl rfl rfl
    · exact .inl hv
    · simp only [Reconcile.vouched, filterMap_append, mem_append] at hmem
      obtain hmem | hmem := hmem
      · exact .inl (.inl ⟨n, _, hr, .tail _ hmem⟩)
      · have hrecord : record = r := by
          unfold classifyOne at hmem
          simp only [Bool.true_eq_false, if_false] at hmem
          split at hmem
          · simpa [OrphanFate.kept] using hmem
          · simpa [OrphanFate.kept] using hmem
        exact .inl (.inl ⟨n, _, hr, hrecord ▸ (.head _)⟩)
  · cases h
    obtain ⟨m, r', hm, hmem⟩ | hv | hv := hv
    · exact .inl (.inl ⟨m, r', (Slots.erase_eq_some.mp hm).2, hmem⟩)
    · exact .inl (.inr (.inl hv))
    · exact .inl (.inr (.inr hv))
  · next fate rest report hr =>
    have hsettled : ∀ u : OrphanSystem, u.Vouched record →
        u.reconciles = s.reconciles.put n
          (.settling rest (settle s.registry s.runtime report fault fate).2.2) →
        u.kills = s.kills → u.actors = s.actors → s.Vouched record := by
      intro u hu hr' hk hx
      obtain hu | hmem := vouched_put_reconcile s hu hr' hk hx
      · exact hu
      · exact .inl ⟨n, _, hr, vouched_settle hmem⟩
    simp only at h
    split at h
    · split at h
      · split_ifs at h
        cases h
        have hmid := vouched_quiet { s with
          registry := (settle s.registry s.runtime report fault (.adopt _ _)).1
          runtime := (settle s.registry s.runtime report fault (.adopt _ _)).2.1
          reconciles := s.reconciles.put n
            (.settling rest (settle s.registry s.runtime report fault (.adopt _ _)).2.2) } hv rfl
              rfl rfl rfl
        exact .inl (hsettled _ hmid rfl rfl rfl)
      · cases h
        exact .inl (hsettled _ hv rfl rfl rfl)
    · cases h
      exact .inl (hsettled _ hv rfl rfl rfl)
    · cases h
      exact .inl (hsettled _ hv rfl rfl rfl)

theorem vouched_killNext {fault : Option String} (h : s.killNext n fault = some t)
    (hv : t.Vouched record) : s.Vouched record ∨ s.os.isRecordedAlive record = true := by
  have hquiet : ∀ (u : OrphanSystem) (k : KillOrphan), u.Vouched record →
      u.kills = s.kills.put n k → u.reconciles = s.reconciles → u.actors = s.actors →
      k.vouched = [] → s.Vouched record := by
    intro u k hu hk hr hx hnone
    obtain hu | hmem := vouched_put_kill s hu hk hr hx
    · exact hu
    · rw [hnone] at hmem
      cases hmem
  unfold killNext at h
  split at h
  · cases h
  · cases h
  · next r hk =>
    split_ifs at h with halive
    · cases h
      obtain hv | hmem := vouched_put_kill s hv rfl rfl rfl
      · exact .inl hv
      · rw [mem_singleton.mp hmem]
        exact .inr halive
    · cases h
      exact .inl (hquiet _ _ hv rfl rfl rfl rfl)
  · split at h
    · cases h
      exact .inl (hquiet _ _ hv rfl rfl rfl rfl)
    · cases h
      exact .inl (hquiet _ _ hv rfl rfl rfl rfl)
  · cases h
    exact .inl (hquiet _ _ hv rfl rfl rfl rfl)

theorem vouched_actorNext (h : s.actorNext n fault = some t) (hv : t.Vouched record) :
    s.Vouched record ∨ s.os.isRecordedAlive record = true := by
  unfold actorNext at h
  split at h
  · cases h
  · next x hx =>
    have hsignal : ∀ pc, ({ x with pc } : AdoptedActor).vouched = [x.record] →
        s.os.isRecordedAlive x.record = true → t = s.setActor n { x with pc } →
        s.Vouched record ∨ s.os.isRecordedAlive record = true := by
      rintro pc hone halive rfl
      obtain hv | hmem := vouched_put_actor s hv rfl rfl rfl
      · exact .inl hv
      · rw [hone] at hmem
        rw [mem_singleton.mp hmem]
        exact .inr halive
    split at h
    · cases h
      exact .inl (vouched_quiet s hv rfl rfl rfl rfl)
    · cases h
      exact .inl (vouched_quiet s hv rfl rfl rfl rfl)
    · cases h
    · cases h
    · cases h
    · split_ifs at h with halive
      · exact hsignal _ rfl halive (some.inj h).symm
      · cases h
        exact .inl (vouched_quiet s hv rfl rfl rfl rfl)
    · cases h
      exact .inl (vouched_quiet s hv rfl rfl rfl rfl)
    · split_ifs at h with halive
      · exact hsignal _ rfl halive (some.inj h).symm
      · cases h
        exact .inl (vouched_quiet s hv rfl rfl rfl rfl)
    · cases h
      exact .inl (vouched_quiet s hv rfl rfl rfl rfl)
    · cases h
      obtain hv | hv | ⟨m, y, hm, hmem⟩ := hv
      · exact .inl (.inl hv)
      · exact .inl (.inr (.inl hv))
      · exact .inl (.inr (.inr ⟨m, y, (Slots.erase_eq_some.mp hm).2, hmem⟩))

/-- A poll that finds the group gone moves its actor. -/
theorem poll_eq_some (h : s.poll n = some t) :
    t = s ∨ ∃ x, x.vouched = [] ∧ t = s.setActor n x := by
  unfold poll at h
  split at h
  · cases h
  · next x hx =>
    have hseen : ∀ ending, (if s.os.isRecordedAlive x.record then some s
        else some (s.setActor n { x with pc := .forgetting ending })) = some t →
        t = s ∨ ∃ x, x.vouched = [] ∧ t = s.setActor n x := by
      intro ending h
      split_ifs at h
      · exact .inl (some.inj h).symm
      · exact .inr ⟨_, rfl, (some.inj h).symm⟩
    simp only at h
    split at h
    · exact hseen _ h
    · exact hseen _ h
    · exact hseen _ h
    · cases h

theorem vouched_poll (h : s.poll n = some t) (hv : t.Vouched record) : s.Vouched record := by
  obtain rfl | ⟨x, hx, rfl⟩ := poll_eq_some h
  · exact hv
  · exact vouched_quiet s hv rfl rfl rfl hx

theorem vouched_step (h : s.step e = some t) (hv : t.Vouched record) :
    s.Vouched record ∨ s.os.isRecordedAlive record = true := by
  cases e with
  | reconcileNext n actor fault => exact vouched_reconcileNext h hv
  | killNext n fault => exact vouched_killNext h hv
  | actorNext n fault => exact vouched_actorNext h hv
  | poll n => exact .inl (vouched_poll h hv)
  | reassign pgid identity =>
    cases h
    exact .inl (hv.congr rfl rfl rfl)
  | register entry =>
    simp only [step] at h
    split_ifs at h
    cases h
    exact .inl (hv.congr rfl rfl rfl)
  | deregister id =>
    cases h
    exact .inl (hv.congr rfl rfl rfl)
  | setStatus id status =>
    cases h
    exact .inl (hv.congr rfl rfl rfl)
  | rename id label =>
    cases h
    exact .inl (hv.congr rfl rfl rfl)
  | updateCommand id command =>
    cases h
    exact .inl (hv.congr rfl rfl rfl)
  | record r fault =>
    cases h
    exact .inl (hv.congr rfl rfl rfl)
  | forget pgid fault =>
    cases h
    exact .inl (hv.congr rfl rfl rfl)
  | relaunch =>
    cases h
    obtain ⟨n, r, hr, -⟩ | ⟨n, k, hk, -⟩ | ⟨n, x, hx, -⟩ := hv
    · cases hr
    · cases hk
    · cases hx
  | reconcile n fault =>
    simp only [step, ite_none_left_eq_some] at h
    obtain ⟨-, h⟩ := h
    cases h
    obtain hv | hmem := vouched_put_reconcile s hv rfl rfl rfl
    · exact .inl hv
    · cases hmem
  | killOrphan n pgid fault =>
    simp only [step, ite_none_left_eq_some] at h
    obtain ⟨-, h⟩ := h
    cases h
    obtain hv | hmem := vouched_put_kill s hv rfl rfl rfl
    · exact .inl hv
    · cases hfound : (if fault = true then none else s.runtime.state.get pgid) with
      | none => simp [hfound, KillOrphan.vouched] at hmem
      | some r => simp [hfound, KillOrphan.vouched] at hmem
  | message n restart =>
    simp only [step] at h
    split at h
    · cases h
    · split_ifs at h
      all_goals
        cases h
        exact .inl (vouched_quiet s hv rfl rfl rfl rfl)
  | graceElapsed n =>
    simp only [step] at h
    split at h
    · cases h
    · split at h
      · cases h
        exact .inl (vouched_quiet s hv rfl rfl rfl rfl)
      · cases h

theorem os_reconcileNext (h : s.reconcileNext n actor fault = some t) : t.os = s.os := by
  unfold reconcileNext at h
  split at h
  · cases h
  · cases h
    rfl
  · split_ifs at h
    all_goals
      cases h
      rfl
  · cases h
    rfl
  · cases h
    rfl
  · simp only at h
    split at h
    · split at h
      · split_ifs at h
        cases h
        rfl
      · cases h
        rfl
    · cases h
      rfl
    · cases h
      rfl

theorem os_killNext {fault : Option String} (h : s.killNext n fault = some t) : t.os = s.os := by
  unfold killNext at h
  split at h
  · cases h
  · cases h
  · split_ifs at h
    all_goals
      cases h
      rfl
  · split at h
    all_goals
      cases h
      rfl
  · cases h
    rfl

theorem os_actorNext (h : s.actorNext n fault = some t) : t.os = s.os := by
  unfold actorNext at h
  split at h
  · cases h
  · split at h
    case h_6 | h_8 =>
      split_ifs at h
      all_goals
        cases h
        rfl
    all_goals
      cases h
    all_goals rfl

theorem os_poll (h : s.poll n = some t) : t.os = s.os := by
  obtain rfl | ⟨x, -, rfl⟩ := poll_eq_some h
  · rfl
  · rfl

theorem os_step (h : s.step e = some t) (hkept : ∀ pgid identity, e ≠ .reassign pgid identity) :
    t.os = s.os := by
  cases e with
  | reassign pgid identity => exact absurd rfl (hkept pgid identity)
  | reconcileNext n actor fault => exact os_reconcileNext h
  | killNext n fault => exact os_killNext h
  | actorNext n fault => exact os_actorNext h
  | poll n => exact os_poll h
  | register entry =>
    simp only [step] at h
    split_ifs at h
    cases h
    rfl
  | deregister id =>
    cases h
    rfl
  | setStatus id status =>
    cases h
    rfl
  | rename id label =>
    cases h
    rfl
  | updateCommand id command =>
    cases h
    rfl
  | record r fault =>
    cases h
    rfl
  | forget pgid fault =>
    cases h
    rfl
  | relaunch =>
    cases h
    rfl
  | reconcile n fault =>
    simp only [step, ite_none_left_eq_some] at h
    obtain ⟨-, h⟩ := h
    cases h
    rfl
  | killOrphan n pgid fault =>
    simp only [step, ite_none_left_eq_some] at h
    obtain ⟨-, h⟩ := h
    cases h
    rfl
  | message n restart =>
    simp only [step] at h
    split at h
    · cases h
    · simp only [ite_none_right_eq_some] at h
      obtain ⟨-, h⟩ := h
      cases h
      rfl
  | graceElapsed n =>
    simp only [step] at h
    split at h
    · cases h
    · split at h
      · cases h
        rfl
      · cases h

/-- Nothing is registered or under way; the runtime-state file holds any records. -/
structure Fresh (s : OrphanSystem) : Prop where
  registry : s.registry = Table.empty
  runtime : s.runtime.state = s.runtime.file
  reconciles : s.reconciles = Slots.empty
  kills : s.kills = Slots.empty
  actors : s.actors = Slots.empty

/-- No group ends or is reassigned between the check of its record and what the check decides. -/
def Undisturbed (s : OrphanSystem) : OrphanEvent → Prop
  | .reassign pgid _ => ∀ record, s.Vouched record → record.pgid ≠ pgid
  | _ => True

theorem Fresh.not_vouched (hs : s.Fresh) : ¬s.Vouched record := by
  rintro (⟨n, r, hr, -⟩ | ⟨n, k, hk, -⟩ | ⟨n, x, hx, -⟩)
  · rw [hs.reconciles] at hr
    cases hr
  · rw [hs.kills] at hk
    cases hk
  · rw [hs.actors] at hx
    cases hx

def Current (s : OrphanSystem) : Prop :=
  ∀ record, s.Vouched record → s.os.isRecordedAlive record = true

theorem Current.step (hs : s.Current) (hguard : s.Undisturbed e) (h : s.step e = some t) :
    t.Current := by
  intro record hv
  have hbefore : s.os.isRecordedAlive record = true := by
    obtain hv | halive := vouched_step h hv
    · exact hs record hv
    · exact halive
  by_cases hreassign : ∃ pgid identity, e = .reassign pgid identity
  · obtain ⟨pgid, identity, rfl⟩ := hreassign
    cases h
    have hne : record.pgid ≠ pgid := hguard record (hv.congr rfl rfl rfl)
    rw [OrphanControl.isRecordedAlive_iff] at hbefore ⊢
    simpa only [if_neg hne] using hbefore
  · rw [os_step h fun pgid identity heq => hreassign ⟨pgid, identity, heq⟩]
    exact hbefore

end OrphanSystem

def orphanMachine : Machine OrphanSystem OrphanEvent where
  init := OrphanSystem.Fresh
  step := OrphanSystem.step

namespace OrphanSystem

variable {n : ℕ} {s : OrphanSystem}

/-- A check of the run found the record alive. -/
def Found (record : OrphanRecord) (s : OrphanSystem) (es : List OrphanEvent) : Prop :=
  ∃ first e next u v, es = first ++ e :: next ∧ orphanMachine.run s first = some u ∧
    u.step e = some v ∧ u.os.isRecordedAlive record = true ∧ ¬u.Vouched record ∧ v.Vouched record

/-- Reconciliation partitions the records. In any run a group is adopted, surfaced or signalled only
after a check found its record alive; where the group does not end or change hands in between, it is
still the recorded one. A kill that fails leaves the records alone. -/
theorem reconciliation_touches_the_recorded :
    (∀ (g : OrphanRegistry) (runtime : RuntimeState) (alive faults : OrphanRecord → Bool),
      (reconcileOrphans g runtime alive faults).2.2.records.Perm runtime.state.rows ∧
        (reconcileOrphans g runtime alive faults).2.2.records.Nodup ∧
        ((reconcileOrphans g runtime alive faults).2.2.adopted.map Prod.fst).Nodup ∧
        (∀ p record, (p, record) ∈ (reconcileOrphans g runtime alive faults).2.2.adopted →
          alive record = true ∧ ∃ e, g.get p = some e ∧ e.matches record) ∧
        (∀ record ∈ (reconcileOrphans g runtime alive faults).2.2.surfaced, alive record = true ∧
          record ∈ (reconcileOrphans g runtime alive faults).2.1.state.rows) ∧
        ∀ record ∈ (reconcileOrphans g runtime alive faults).2.2.pruned, alive record = false) ∧
    (∀ (s : OrphanSystem) es, s.Fresh → orphanMachine.Along Undisturbed s es →
      orphanMachine.Along (fun t e => ∀ record ∈ t.touches e, t.os.isRecordedAlive record = true)
        s es) ∧
    (∀ (s : OrphanSystem) es t e record, s.Fresh → orphanMachine.run s es = some t →
      record ∈ t.touches e → Found record s es) ∧
    ∀ (s : OrphanSystem) n record error t, s.kills n = some (.signalling record) →
      s.step (.killNext n (some error)) = some t →
      t.runtime = s.runtime ∧ t.kills n = some (.returned (some error)) ∧
        ∀ fault, t.step (.killNext n fault) = none := by
  refine ⟨fun _ _ _ _ => reconcileOrphans_spec rfl, fun s es hs halong => ?_,
    fun s es t e record hs hrun htouch => ?_, fun s n record error t hk hstep => ?_⟩
  · exact Machine.along_of_invariant (P := Current)
      (fun u e v hguard hu hstep => hu.step hguard hstep)
      (fun u e _ hu record htouch => hu record (vouched_of_touches htouch))
      (fun record hv => absurd hv hs.not_vouched) halong
  · have hall : ∀ record, t.Vouched record → Found record s es := by
      refine Machine.invariant_history (M := orphanMachine)
        (I := fun es t => ∀ record, t.Vouched record → Found record s es) ?_ ?_ hrun
      · exact fun record hv => absurd hv hs.not_vouched
      · intro es u e v hu hI hstep record hv
        by_cases hbefore : u.Vouched record
        · obtain ⟨first, f, next, x, y, hes, hfound⟩ := hI record hbefore
          refine ⟨first, f, next ++ [e], x, y, ?_, hfound⟩
          rw [hes, List.append_assoc, List.cons_append]
        · have halive := (vouched_step hstep hv).resolve_left hbefore
          exact ⟨es, e, [], u, v, rfl, hu, hstep, halive, hbefore, hv⟩
    exact hall record (vouched_of_touches htouch)
  · simp only [step, killNext, hk, Option.some.injEq] at hstep
    subst hstep
    refine ⟨rfl, Slots.put_self, fun fault => ?_⟩
    simp [step, killNext]

/-- A leftover of the command the project registers again. -/
def leftoverRecord : OrphanRecord := ⟨[.normal "p"], "Web", "npm run dev", 777, some ⟨"boot", 5⟩⟩

/-- The file still records the leftover, whose group is alive. -/
def leftover : OrphanSystem where
  os := fun pgid => if pgid = 777 then some ⟨"boot", 5⟩ else none
  registry := Table.empty
  runtime := ⟨⟨[leftoverRecord], List.nodup_singleton _⟩, ⟨[leftoverRecord], List.nodup_singleton _⟩⟩
  reconciles := Slots.empty
  kills := Slots.empty
  actors := Slots.empty

theorem leftover_fresh : leftover.Fresh := ⟨rfl, rfl, rfl, rfl, rfl⟩

/-- A reconciliation about to adopt the leftover, and a kill about to signal it. -/
def leftoverRun : List OrphanEvent :=
  [.register ⟨1, .stopped, [.normal "p"], "Web", "npm run dev"⟩, .reconcile 0 false,
    .reconcileNext 0 0 false, .reconcileNext 0 0 false, .reconcileNext 0 0 false,
    .killOrphan 0 777 false, .killNext 0 none]

theorem reconciliation_touches_the_recorded_leftover :
    ∃ t, orphanMachine.run leftover leftoverRun = some t ∧
      t.touches (.reconcileNext 0 0 false) = [leftoverRecord] ∧
      orphanMachine.Along
        (fun t e => ∀ record ∈ t.touches e, t.os.isRecordedAlive record = true)
        leftover (leftoverRun ++ [.reconcileNext 0 0 false]) ∧
      Found leftoverRecord leftover leftoverRun ∧
      ∃ u, t.step (.killNext 0 (some "refused")) = some u ∧ u.runtime = t.runtime := by
  obtain ⟨t, ht, hP⟩ := (Option.any_eq_true (fun t : OrphanSystem =>
    t.touches (.reconcileNext 0 0 false) = [leftoverRecord] ∧
      t.kills 0 = some (.signalling leftoverRecord)) (orphanMachine.run leftover leftoverRun)).mp
        (by decide)
  obtain ⟨htouch, hkill⟩ := of_decide_eq_true hP
  have hundisturbed : orphanMachine.Along Undisturbed leftover
      (leftoverRun ++ [.reconcileNext 0 0 false]) := by
    simp [leftoverRun, Machine.Along, Undisturbed]
  have hstep : t.step (.killNext 0 (some "refused")) =
      some { t with kills := t.kills.put 0 (.returned (some "refused")) } := by
    simp [step, killNext, hkill]
  have hmem : leftoverRecord ∈ t.touches (.reconcileNext 0 0 false) := by
    rw [htouch]
    exact List.mem_singleton_self _
  obtain ⟨-, hcurrent, hearlier, hfailed⟩ := reconciliation_touches_the_recorded
  exact ⟨t, ht, htouch, hcurrent _ _ leftover_fresh hundisturbed,
    hearlier _ _ t _ _ leftover_fresh ht hmem, _, hstep, (hfailed t 0 _ _ _ hkill hstep).1⟩

/-- A group that changes hands after the check of a kill is signalled all the same. -/
theorem reassigned_group_signalled :
    ∃ es t, orphanMachine.run leftover es = some t ∧
      t.touches (.killNext 0 none) = [leftoverRecord] ∧
      t.os leftoverRecord.pgid = some ⟨"boot", 9⟩ ∧
      t.os.isRecordedAlive leftoverRecord = false := by
  obtain ⟨t, ht, hP⟩ := (Option.any_eq_true (fun t : OrphanSystem =>
    t.touches (.killNext 0 none) = [leftoverRecord] ∧
      t.os leftoverRecord.pgid = some ⟨"boot", 9⟩ ∧
      t.os.isRecordedAlive leftoverRecord = false)
    (orphanMachine.run leftover
      [.killOrphan 0 777 false, .killNext 0 none, .reassign 777 (some ⟨"boot", 9⟩)])).mp (by decide)
  exact ⟨_, t, ht, of_decide_eq_true hP⟩

end OrphanSystem

end Soloist
