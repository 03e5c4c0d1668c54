import Soloist.Process.Spec

/-! Process groups a previous run left behind: their records, and what a reconciliation makes of
each, given what is registered and which recorded groups are alive. -/
open List

namespace Soloist

abbrev Pgid := Int32

/-- What pins the process behind a group: the boot and the start time of its leader. -/
structure ProcessIdentity where
  bootId : String
  startedAt : UInt64
  deriving DecidableEq, Repr

structure OrphanRecord where
  projectRoot : PathBuf
  name : String
  command : String
  pgid : Pgid
  /-- A legacy record has none. -/
  identity : Option ProcessIdentity
  deriving DecidableEq, Repr

/-- The current identity of each group's leader; `none` for a group that is gone. -/
abbrev OrphanControl := Pgid → Option ProcessIdentity

namespace OrphanControl

def isRecordedAlive (control : OrphanControl) (record : OrphanRecord) : Bool :=
  match record.identity, control record.pgid with
  | some recorded, some current => recorded = current
  | _, _ => false

theorem isRecordedAlive_iff {control : OrphanControl} {record : OrphanRecord} :
    control.isRecordedAlive record = true ↔
      ∃ identity, record.identity = some identity ∧ control record.pgid = some identity := by
  unfold isRecordedAlive
  cases record.identity with
  | none => simp
  | some recorded =>
    cases control record.pgid with
    | none => simp
    | some current => simp [eq_comm]

end OrphanControl

inductive OrphanFate
  | adopt (record : OrphanRecord) (target : ProcessId)
  | surface (record : OrphanRecord)
  | prune (record : OrphanRecord)
  deriving DecidableEq, Repr

def OrphanFate.record : OrphanFate → OrphanRecord
  | .adopt record _ | .surface record | .prune record => record

def classifyOne (alive : OrphanRecord → Bool) (matcher : OrphanRecord → Option ProcessId)
    (record : OrphanRecord) : OrphanFate :=
  if alive record = false then .prune record
  else
    match matcher record with
    | some target => .adopt record target
    | none => .surface record

def classify (records : List OrphanRecord) (alive : OrphanRecord → Bool)
    (matcher : OrphanRecord → Option ProcessId) : List OrphanFate :=
  records.map (classifyOne alive matcher)

@[simp] theorem record_classifyOne (alive : OrphanRecord → Bool)
    (matcher : OrphanRecord → Option ProcessId) (record : OrphanRecord) :
    (classifyOne alive matcher record).record = record := by
  unfold classifyOne
  split_ifs
  · rfl
  · cases matcher record with
    | none => rfl
    | some target => rfl

section
variable {alive : OrphanRecord → Bool} {matcher : OrphanRecord → Option ProcessId}
  {records : List OrphanRecord} {record : OrphanRecord}

@[simp] theorem records_classify :
    (classify records alive matcher).map OrphanFate.record = records := by
  simp [classify, Function.comp_def]

theorem mem_classify {fate : OrphanFate} :
    fate ∈ classify records alive matcher ↔
      fate.record ∈ records ∧ classifyOne alive matcher fate.record = fate := by
  rw [classify, mem_map]
  constructor
  · rintro ⟨r, hr, rfl⟩
    rw [record_classifyOne]
    exact ⟨hr, rfl⟩
  · rintro ⟨hr, hfate⟩
    exact ⟨_, hr, hfate⟩

theorem of_adopt_mem_classify {target : ProcessId}
    (h : .adopt record target ∈ classify records alive matcher) :
    record ∈ records ∧ alive record = true ∧ matcher record = some target := by
  obtain ⟨hr, hfate⟩ := mem_classify.mp h
  change classifyOne alive matcher record = .adopt record target at hfate
  unfold classifyOne at hfate
  split_ifs at hfate with halive
  cases hmatch : matcher record with
  | none => simp [hmatch] at hfate
  | some other =>
    simp only [hmatch, OrphanFate.adopt.injEq, true_and] at hfate
    exact ⟨hr, by simpa using halive, congrArg some hfate⟩

theorem of_surface_mem_classify (h : .surface record ∈ classify records alive matcher) :
    record ∈ records ∧ alive record = true := by
  obtain ⟨hr, hfate⟩ := mem_classify.mp h
  change classifyOne alive matcher record = .surface record at hfate
  unfold classifyOne at hfate
  split_ifs at hfate with halive
  exact ⟨hr, by simpa using halive⟩

theorem of_prune_mem_classify (h : .prune record ∈ classify records alive matcher) :
    record ∈ records ∧ alive record = false := by
  obtain ⟨hr, hfate⟩ := mem_classify.mp h
  change classifyOne alive matcher record = .prune record at hfate
  unfold classifyOne at hfate
  split_ifs at hfate with halive
  · exact ⟨hr, halive⟩
  · cases hmatch : matcher record with
    | none => simp [hmatch] at hfate
    | some other => simp [hmatch] at hfate

end

/-- What reconciliation reads of a registered process. -/
structure RegisteredProcess where
  id : ProcessId
  status : ProcStatus
  projectRoot : PathBuf
  label : String
  command : String
  deriving DecidableEq, Repr

abbrev OrphanRegistry := Table RegisteredProcess.id

/-- A registered process a record should be attached to again. -/
def RegisteredProcess.matches (e : RegisteredProcess) (record : OrphanRecord) : Prop :=
  e.status = .stopped ∧ e.projectRoot = record.projectRoot ∧ e.label = record.name ∧
    e.command = record.command

instance (e : RegisteredProcess) (record : OrphanRecord) : Decidable (e.matches record) :=
  inferInstanceAs (Decidable (_ ∧ _))

namespace OrphanRegistry

def findRestingMatch (g : OrphanRegistry) (record : OrphanRecord) : Option ProcessId :=
  (g.rows.find? fun e => e.matches record).map RegisteredProcess.id

def setStatus (g : OrphanRegistry) (id : ProcessId) (status : ProcStatus) : OrphanRegistry :=
  g.update (fun e => e.id = id) (fun e => { e with status }) fun _ => rfl

/-- Attaches a group to a process: its launch is claimed, unless it is gone or active. -/
def adoptOrphan (g : OrphanRegistry) (target : ProcessId) : Option OrphanRegistry :=
  match g.get target with
  | none => none
  | some e =>
    if e.status.isActive then none
    else
      match e.status.transition .starting with
      | .error _ => none
      | .ok next => some (g.setStatus target next)

theorem get_setStatus (g : OrphanRegistry) (id i : ProcessId) (status : ProcStatus) :
    (g.setStatus id status).get i =
      (g.get i).map fun e => if e.id = id then { e with status } else e := by
  rw [setStatus, Table.get_update]
  simp only [decide_eq_true_eq]

theorem findRestingMatch_eq_some {g : OrphanRegistry} {record : OrphanRecord} {id : ProcessId}
    (h : g.findRestingMatch record = some id) : ∃ e, g.get id = some e ∧ e.matches record := by
  obtain ⟨e, hfind, rfl⟩ := Option.map_eq_some_iff.mp h
  exact ⟨e, Table.get_of_mem (mem_of_find?_eq_some hfind),
    by simpa using find?_some hfind⟩

theorem adoptOrphan_eq_some {g g' : OrphanRegistry} {target : ProcessId}
    (h : g.adoptOrphan target = some g') :
    ∃ e, g.get target = some e ∧ e.status.isActive = false ∧ g' = g.setStatus target .starting := by
  unfold adoptOrphan at h
  cases hget : g.get target with
  | none => simp [hget] at h
  | some e =>
    simp only [hget] at h
    split_ifs at h with hactive
    split at h
    · cases h
    · next next hnext =>
      obtain ⟨-, rfl⟩ := ProcStatus.transition_eq_ok.mp hnext
      exact ⟨e, rfl, by simpa using hactive, (Option.some.inj h).symm⟩

end OrphanRegistry

/-- The record of process groups, kept in memory and written to a file with each change. -/
structure RuntimeState where
  state : Table OrphanRecord.pgid
  file : Table OrphanRecord.pgid

namespace RuntimeState

/-- Every change is made in memory; the file keeps its contents when it cannot be written. -/
def persist (r : RuntimeState) (state : Table OrphanRecord.pgid) (fault : Bool) : RuntimeState :=
  ⟨state, if fault then r.file else state⟩

def forget (r : RuntimeState) (pgid : Pgid) (fault : Bool) : RuntimeState :=
  r.persist (r.state.delete fun record => record.pgid = pgid) fault

def record (r : RuntimeState) (record : OrphanRecord) (fault : Bool) : RuntimeState :=
  r.persist ((r.state.delete fun other => other.pgid = record.pgid).insert record
    fun other h => by simpa using (Table.mem_delete.mp h).2) fault

/-- The records a new run starts with. -/
def reopened (r : RuntimeState) : RuntimeState := ⟨r.file, r.file⟩

@[simp] theorem mem_forget {r : RuntimeState} {pgid : Pgid} {fault : Bool} {record : OrphanRecord} :
    record ∈ (r.forget pgid fault).state.rows ↔ record ∈ r.state.rows ∧ record.pgid ≠ pgid := by
  simp [forget, persist]

end RuntimeState

structure OrphanReport where
  adopted : List (ProcessId × OrphanRecord)
  surfaced : List OrphanRecord
  pruned : List OrphanRecord
  deriving DecidableEq

namespace OrphanReport

def empty : OrphanReport := ⟨[], [], []⟩

def records (r : OrphanReport) : List OrphanRecord :=
  r.pruned ++ r.adopted.map Prod.snd ++ r.surfaced

end OrphanReport

def settle (g : OrphanRegistry) (runtime : RuntimeState) (report : OrphanReport) (fault : Bool) :
    OrphanFate → OrphanRegistry × RuntimeState × OrphanReport
  | .adopt record target =>
    match g.adoptOrphan target with
    | some g' => (g', runtime, { report with adopted := report.adopted ++ [(target, record)] })
    | none => (g, runtime, { report with surfaced := report.surfaced ++ [record] })
  | .surface record => (g, runtime, { report with surfaced := report.surfaced ++ [record] })
  | .prune record =>
    (g, runtime.forget record.pgid fault, { report with pruned := report.pruned ++ [record] })

/-- Carries out fates in order; `faults` tells for which the file cannot be written. -/
def settleAll (faults : OrphanRecord → Bool) :
    OrphanRegistry → RuntimeState → OrphanReport → List OrphanFate →
      OrphanRegistry × RuntimeState × OrphanReport
  | g, runtime, report, [] => (g, runtime, report)
  | g, runtime, report, fate :: rest =>
    let (g', runtime', report') := settle g runtime report (faults fate.record) fate
    settleAll faults g' runtime' report' rest

def reconcileOrphans (g : OrphanRegistry) (runtime : RuntimeState) (alive : OrphanRecord → Bool)
    (faults : OrphanRecord → Bool) : OrphanRegistry × RuntimeState × OrphanReport :=
  settleAll faults g runtime .empty (classify runtime.state.rows alive g.findRestingMatch)

section
variable {faults : OrphanRecord → Bool} {g : OrphanRegistry} {runtime : RuntimeState}
  {report : OrphanReport} {fates : List OrphanFate}

/-- What carrying out each fate preserves, carrying out all of them preserves. -/
theorem settleAll_induct {P : OrphanRegistry → RuntimeState → OrphanReport → Prop}
    (hstep : ∀ fate ∈ fates, ∀ g runtime report fault, P g runtime report →
      P (settle g runtime report fault fate).1 (settle g runtime report fault fate).2.1
        (settle g runtime report fault fate).2.2)
    (h : P g runtime report) :
    P (settleAll faults g runtime report fates).1 (settleAll faults g runtime report fates).2.1
      (settleAll faults g runtime report fates).2.2 := by
  induction fates generalizing g runtime report with
  | nil => exact h
  | cons fate rest ih =>
    apply ih
    · exact fun next hnext => hstep next (.tail _ hnext)
    · exact hstep fate (.head _) g runtime report (faults fate.record) h

theorem records_settle (g : OrphanRegistry) (runtime : RuntimeState) (report : OrphanReport)
    (fault : Bool) (fate : OrphanFate) :
    (settle g runtime report fault fate).2.2.records.Perm (report.records ++ [fate.record]) := by
  have hpruned : ∀ a b c r : List OrphanRecord, (a ++ r ++ b ++ c).Perm (a ++ b ++ c ++ r) := by
    intro a b c r
    simp only [append_assoc]
    refine Perm.append_left a ?_
    rw [← append_assoc b c r]
    exact perm_append_comm
  have hadopted : ∀ a b c r : List OrphanRecord, (a ++ (b ++ r) ++ c).Perm (a ++ b ++ c ++ r) := by
    intro a b c r
    simp only [append_assoc]
    exact Perm.append_left a (Perm.append_left b perm_append_comm)
  have hsurfaced : ∀ a b c r : List OrphanRecord, (a ++ b ++ (c ++ r)).Perm (a ++ b ++ c ++ r) := by
    intro a b c r
    simp only [append_assoc]
    exact List.Perm.refl _
  cases fate with
  | adopt record target =>
    simp only [settle]
    cases g.adoptOrphan target with
    | none => exact hsurfaced _ _ _ _
    | some g' =>
      simp only [OrphanReport.records, map_append]
      exact hadopted _ _ _ _
  | surface record => exact hsurfaced _ _ _ _
  | prune record => exact hpruned _ _ _ _

theorem records_settleAll (faults : OrphanRecord → Bool) (g : OrphanRegistry)
    (runtime : RuntimeState) (report : OrphanReport) (fates : List OrphanFate) : (settleAll faults g runtime report fates).2.2.records.Perm
    (report.records ++ fates.map OrphanFate.record) := by
  induction fates generalizing g runtime report with
  | nil => simp [settleAll]
  | cons fate rest ih =>
    refine (ih _ _ _).trans ?_
    have hone := (records_settle g runtime report (faults fate.record) fate).append_right
      (rest.map OrphanFate.record)
    rw [append_assoc, singleton_append] at hone
    exact hone

/-- What is in a report comes from the fates that say so. -/
structure OrphanReport.From (fates : List OrphanFate) (report : OrphanReport) : Prop where
  adopted : ∀ x ∈ report.adopted, .adopt x.2 x.1 ∈ fates
  surfaced : ∀ r ∈ report.surfaced, .surface r ∈ fates ∨ ∃ target, .adopt r target ∈ fates
  pruned : ∀ r ∈ report.pruned, .prune r ∈ fates

theorem from_settleAll (h : report.From fates) :
    (settleAll faults g runtime report fates).2.2.From fates := by
  refine settleAll_induct (P := fun _ _ report => report.From fates) ?_ h
  intro fate hfate g runtime report fault h
  cases fate with
  | adopt record target =>
    simp only [settle]
    cases g.adoptOrphan target with
    | none =>
      refine { h with surfaced := fun r hr => ?_ }
      obtain hr | hr := mem_append.mp hr
      · exact h.surfaced r hr
      · rw [mem_singleton.mp hr]
        exact .inr ⟨target, hfate⟩
    | some g' =>
      refine { h with adopted := fun x hx => ?_ }
      obtain hx | hx := mem_append.mp hx
      · exact h.adopted x hx
      · rw [mem_singleton.mp hx]
        exact hfate
  | surface record =>
    refine { h with surfaced := fun r hr => ?_ }
    obtain hr | hr := mem_append.mp hr
    · exact h.surfaced r hr
    · rw [mem_singleton.mp hr]
      exact .inl hfate
  | prune record =>
    refine { h with pruned := fun r hr => ?_ }
    obtain hr | hr := mem_append.mp hr
    · exact h.pruned r hr
    · rw [mem_singleton.mp hr]
      exact hfate

/-- The processes adopted into are active, and none is adopted into twice. -/
structure Claimed (g : OrphanRegistry) (report : OrphanReport) : Prop where
  nodup : (report.adopted.map Prod.fst).Nodup
  active : ∀ p ∈ report.adopted.map Prod.fst, ∃ e, g.get p = some e ∧ e.status.isActive = true

theorem Claimed.adopt {g g' : OrphanRegistry} {report : OrphanReport} (h : Claimed g report)
    {target : ProcessId} (record : OrphanRecord) (hadopt : g.adoptOrphan target = some g') :
    Claimed g' { report with adopted := report.adopted ++ [(target, record)] } := by
  obtain ⟨e, hget, hresting, rfl⟩ := OrphanRegistry.adoptOrphan_eq_some hadopt
  have hnew : target ∉ report.adopted.map Prod.fst := by
    intro hmem
    obtain ⟨e', hget', hactive⟩ := h.active target hmem
    rw [hget] at hget'
    cases hget'
    rw [hresting] at hactive
    cases hactive
  have hid : e.id = target := Table.get_key hget
  refine ⟨?_, fun p hp => ?_⟩
  · simp only [map_append, map_cons, map_nil]
    exact nodup_append.mpr ⟨h.nodup, nodup_singleton _, fun a ha b hb hab =>
      hnew (mem_singleton.mp hb ▸ hab ▸ ha)⟩
  · rw [OrphanRegistry.get_setStatus]
    simp only [map_append, map_cons, map_nil, mem_append,
      mem_singleton] at hp
    obtain hp | rfl := hp
    · obtain ⟨e', hget', hactive⟩ := h.active p hp
      refine ⟨_, by rw [hget', Option.map_some], ?_⟩
      split_ifs
      · rfl
      · exact hactive
    · exact ⟨_, by rw [hget, Option.map_some], by rw [if_pos hid]; rfl⟩

theorem claimed_settleAll (h : Claimed g report) :
    Claimed (settleAll faults g runtime report fates).1
      (settleAll faults g runtime report fates).2.2 := by
  refine settleAll_induct (P := fun g _ report => Claimed g report) ?_ h
  intro fate _ g runtime report fault h
  cases fate with
  | adopt record target =>
    simp only [settle]
    cases hadopt : g.adoptOrphan target with
    | none => exact ⟨h.nodup, h.active⟩
    | some g' => exact h.adopt record hadopt
  | surface record => exact ⟨h.nodup, h.active⟩
  | prune record => exact ⟨h.nodup, h.active⟩

theorem mem_settleAll {record : OrphanRecord} (h : record ∈ runtime.state.rows)
    (hkept : ∀ r, .prune r ∈ fates → record.pgid ≠ r.pgid) :
    record ∈ (settleAll faults g runtime report fates).2.1.state.rows := by
  refine settleAll_induct (P := fun _ runtime _ => record ∈ runtime.state.rows) ?_ h
  intro fate hfate g runtime report fault h
  cases fate with
  | adopt r target =>
    simp only [settle]
    cases g.adoptOrphan target with
    | none => exact h
    | some g' => exact h
  | surface r => exact h
  | prune r => exact RuntimeState.mem_forget.mpr ⟨h, hkept r hfate⟩

end

/-- Reconciliation puts each record in exactly one place, adopts at most one group for each process
and only into a resting one that matches, and keeps the record of what it surfaces. -/
theorem reconcileOrphans_spec {g : OrphanRegistry} {runtime : RuntimeState}
    {alive faults : OrphanRecord → Bool} {out : OrphanRegistry × RuntimeState × OrphanReport}
    (h : reconcileOrphans g runtime alive faults = out) :
    out.2.2.records.Perm runtime.state.rows ∧ out.2.2.records.Nodup ∧
      (out.2.2.adopted.map Prod.fst).Nodup ∧
      (∀ p record, (p, record) ∈ out.2.2.adopted →
        alive record = true ∧ ∃ e, g.get p = some e ∧ e.matches record) ∧
      (∀ record ∈ out.2.2.surfaced, alive record = true ∧ record ∈ out.2.1.state.rows) ∧
      ∀ record ∈ out.2.2.pruned, alive record = false := by
  have hfrom : out.2.2.From (classify runtime.state.rows alive g.findRestingMatch) := by
    rw [← h]
    exact from_settleAll ⟨by simp [OrphanReport.empty], by simp [OrphanReport.empty],
      by simp [OrphanReport.empty]⟩
  have hperm : out.2.2.records.Perm runtime.state.rows := by
    have hall := records_settleAll faults g runtime .empty
      (classify runtime.state.rows alive g.findRestingMatch)
    rw [records_classify] at hall
    rw [← h]
    exact hall
  have hclaimed : Claimed out.1 out.2.2 := by
    rw [← h]
    exact claimed_settleAll ⟨nodup_nil, by simp [OrphanReport.empty]⟩
  have hdead : ∀ r, .prune r ∈ classify runtime.state.rows alive g.findRestingMatch →
      r ∈ runtime.state.rows ∧ alive r = false := fun r hr => of_prune_mem_classify hr
  refine ⟨hperm, hperm.nodup_iff.mpr (Nodup.of_map _ runtime.state.nodup), hclaimed.nodup,
    fun p record hadopted => ?_, fun record hsurfaced => ?_, fun record hpruned => ?_⟩
  · obtain ⟨-, halive, hmatch⟩ := of_adopt_mem_classify (hfrom.adopted _ hadopted)
    exact ⟨halive, OrphanRegistry.findRestingMatch_eq_some hmatch⟩
  · have hrecord : record ∈ runtime.state.rows ∧ alive record = true := by
      obtain hfate | ⟨target, hfate⟩ := hfrom.surfaced record hsurfaced
      · exact of_surface_mem_classify hfate
      · have hof := of_adopt_mem_classify hfate
        exact ⟨hof.1, hof.2.1⟩
    rw [← h]
    refine ⟨hrecord.2, mem_settleAll hrecord.1 fun r hr hpgid => ?_⟩
    obtain ⟨hr, hgone⟩ := hdead r hr
    rw [Table.eq_of_key_eq hrecord.1 hr hpgid, hgone] at hrecord
    cases hrecord.2
  · exact (hdead record (hfrom.pruned record hpruned)).2

end Soloist
