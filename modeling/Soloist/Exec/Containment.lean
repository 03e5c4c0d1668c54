import Soloist.Machine

/-! A contained run: the child and what it starts, the pipes to and from it, the threads that serve
the pipes, and the caller that waits. Of the operating system it is assumed that a signal to the
group ends every process in it, and that a read ends when no process is left to write. -/
open List

namespace Soloist.Exec

inductive Pipe
  | stdin
  | stdout
  | stderr
  deriving DecidableEq, Repr

structure Run where
  input : Option ℕ
  stoppable : Bool
  outputLimit : ℕ
  diagnostics : Option ℕ
  watching : Bool

namespace Run

def collects (run : Run) : Option ℕ := run.diagnostics.filter fun _ => !run.watching

/-- Whether a standard stream is a pipe rather than nothing. -/
def pipes (run : Run) : Pipe → Bool
  | .stdin => run.input.isSome
  | .stdout => true
  | .stderr => run.diagnostics.isSome

end Run

structure Process where
  alive : Bool
  grouped : Bool
  holds : Pipe → Bool

/-- Reads the output, then waits for the child. -/
inductive Capture
  | reading
  | waiting
  | done
  deriving DecidableEq, Repr

inductive Outcome
  | finished
  | timedOut
  | stopped
  deriving DecidableEq, Repr

inductive Thread
  | capture
  | writing
  | reading
  deriving DecidableEq, Repr

inductive Caller
  | waiting
  /-- It has given up, and is about to signal the group. -/
  | stopping (outcome : Outcome)
  | joining (thread : Thread) (outcome : Outcome)
  | returned (outcome : Outcome)
  deriving DecidableEq, Repr

namespace Caller

/-- It waits for the threads only, and the group was signalled or has ended by itself. -/
def left : Caller → Bool
  | waiting | stopping _ => false
  | joining _ _ | returned _ => true

def joined : Caller → Bool
  | waiting | stopping _ | joining .capture _ => false
  | joining .writing _ | joining .reading _ | returned _ => true

end Caller

/-- A run under way. The first process is the child. -/
structure Contained where
  processes : List Process
  /-- How much each pipe holds. -/
  held : Pipe → ℕ
  capture : Capture
  captured : ℕ
  /-- How much input is still to be written. -/
  left : ℕ
  fed : Bool
  collected : ℕ
  read : Bool
  reaped : Bool
  /-- The time limit has passed. -/
  elapsed : Bool
  caller : Caller

inductive RunEvent
  | fork (parent : ℕ)
  /-- A process moves to a group or session of its own. -/
  | leave (process : ℕ)
  | close (process : ℕ) (pipe : Pipe)
  | exit (process : ℕ)
  | write (process : ℕ) (pipe : Pipe) (bytes : ℕ)
  | consume (process : ℕ) (bytes : ℕ)
  | capture (bytes : ℕ)
  | captured
  | captureFails
  | reap
  | feed (bytes : ℕ)
  | fed
  | collect (bytes : ℕ)
  | collected
  | elapse
  | finish
  | giveUp (outcome : Outcome)
  | kill
  | join

def RunEvent.isCaller : RunEvent → Bool
  | finish | giveUp _ | kill | join => true
  | _ => false

namespace Contained

def start (run : Run) : Contained where
  processes := [⟨true, true, run.pipes⟩]
  held _ := 0
  capture := .reading
  captured := 0
  left := run.input.getD 0
  fed := run.input.isNone
  collected := 0
  read := run.diagnostics.isNone
  reaped := false
  elapsed := false
  caller := .waiting

def Open (s : Contained) (pipe : Pipe) : Prop :=
  ∃ p ∈ s.processes, p.alive = true ∧ p.holds pipe = true

instance (s : Contained) (pipe : Pipe) : Decidable (s.Open pipe) :=
  inferInstanceAs (Decidable (∃ p ∈ s.processes, _))

def Emptied (s : Contained) : Prop := ∀ p ∈ s.processes, p.alive = true → p.grouped = false

instance (s : Contained) : Decidable s.Emptied :=
  inferInstanceAs (Decidable (∀ p ∈ s.processes, _ → _))

def modify (s : Contained) (process : ℕ) (f : Process → Process) : Contained :=
  { s with processes := s.processes.modify process f }

/-- `killpg`. -/
def killGroup (s : Contained) : Contained :=
  { s with processes := s.processes.map fun p => { p with alive := p.alive && !p.grouped } }

def fill (s : Contained) (pipe : Pipe) (held : ℕ) : Contained :=
  { s with held := fun other => if other = pipe then held else s.held other }

def step (run : Run) (capacity : ℕ) (s : Contained) : RunEvent → Option Contained
  | .fork parent =>
    match s.processes[parent]? with
    | some p => if p.alive then some { s with processes := s.processes ++ [p] } else none
    | none => none
  | .leave process =>
    -- the child leads its session, and cannot move to another
    if process = 0 then none else some (s.modify process fun p => { p with grouped := false })
  | .close process pipe => some (s.modify process fun p =>
    { p with holds := fun other => decide (other ≠ pipe) && p.holds other })
  | .exit process => some (s.modify process fun p => { p with alive := false })
  | .write process pipe bytes =>
    match s.processes[process]? with
    | some p =>
      if p.alive ∧ p.holds pipe ∧ pipe ≠ .stdin ∧ s.held pipe + bytes ≤ capacity then
        some (s.fill pipe (s.held pipe + bytes))
      else none
    | none => none
  | .consume process bytes =>
    match s.processes[process]? with
    | some p =>
      if p.alive ∧ p.holds .stdin ∧ bytes ≤ s.held .stdin then
        some (s.fill .stdin (s.held .stdin - bytes))
      else none
    | none => none
  | .capture bytes =>
    -- one byte past the ceiling is all it takes
    if s.capture = .reading ∧ bytes ≤ s.held .stdout ∧ s.captured + bytes ≤ run.outputLimit + 1 then
      some { s.fill .stdout (s.held .stdout - bytes) with captured := s.captured + bytes }
    else none
  | .captured =>
    if s.capture = .reading then
      if run.outputLimit < s.captured then some { s.killGroup with capture := .waiting }
      else if s.held .stdout = 0 ∧ ¬s.Open .stdout then some { s with capture := .waiting }
      else none
    else none
  | .captureFails =>
    if s.capture = .reading then some { s.killGroup with capture := .waiting } else none
  | .reap =>
    match s.processes[0]? with
    | some child =>
      if s.capture = .waiting ∧ child.alive = false then
        some { s with capture := .done, reaped := true }
      else none
    | none => none
  | .feed bytes =>
    if s.fed = false ∧ bytes ≤ s.left ∧ s.held .stdin + bytes ≤ capacity then
      some { s.fill .stdin (s.held .stdin + bytes) with left := s.left - bytes }
    else none
  | .fed =>
    if s.fed = false ∧ (s.left = 0 ∨ ¬s.Open .stdin) then some { s with fed := true } else none
  | .collect bytes =>
    if s.read = false ∧ bytes ≤ s.held .stderr ∧ (∀ limit ∈ run.collects, s.collected + bytes ≤ limit)
    then some { s.fill .stderr (s.held .stderr - bytes) with collected := s.collected + bytes }
    else none
  | .collected =>
    if s.read = false ∧
      ((∃ limit ∈ run.collects, limit ≤ s.collected) ∨ s.held .stderr = 0 ∧ ¬s.Open .stderr)
    then some { s with read := true } else none
  | .elapse => some { s with elapsed := true }
  | .finish =>
    if s.caller = .waiting ∧ s.capture = .done then
      some { s with caller := .joining .capture .finished }
    else none
  | .giveUp outcome =>
    if s.caller = .waiting ∧ (outcome = .timedOut ∧ s.elapsed = true ∨
        outcome = .stopped ∧ run.stoppable = true) then
      some { s with caller := .stopping outcome }
    else none
  | .kill =>
    match s.caller with
    | .stopping outcome => some { s.killGroup with caller := .joining .capture outcome }
    | .waiting | .joining _ _ | .returned _ => none
  | .join =>
    match s.caller with
    | .joining .capture outcome =>
      if s.capture = .done then some { s with caller := .joining .writing outcome } else none
    | .joining .writing outcome =>
      if s.fed = true then some { s with caller := .joining .reading outcome } else none
    | .joining .reading outcome =>
      if s.read = true then some { s with caller := .returned outcome } else none
    | .waiting | .stopping _ | .returned _ => none

def Blocked (run : Run) (capacity : ℕ) (s : Contained) : Thread → Prop
  | .capture =>
    s.capture = .reading ∧ s.captured ≤ run.outputLimit ∧ s.held .stdout = 0 ∧ s.Open .stdout ∨
      s.capture = .waiting ∧ ∃ child, s.processes[0]? = some child ∧ child.alive = true
  | .writing => s.fed = false ∧ 0 < s.left ∧ capacity ≤ s.held .stdin ∧ s.Open .stdin
  | .reading => s.read = false ∧ (∀ limit ∈ run.collects, s.collected < limit) ∧
      s.held .stderr = 0 ∧ s.Open .stderr

def Free (run : Run) (capacity : ℕ) (s : Contained) : Thread → Prop
  | .capture => s.capture = .reading →
      ¬s.Open .stdout ∨ run.outputLimit < s.captured + s.held .stdout
  | .writing => s.fed = false → ¬s.Open .stdin ∨ s.left + s.held .stdin ≤ capacity
  | .reading => s.read = false →
      ¬s.Open .stderr ∨ ∃ limit ∈ run.collects, limit ≤ s.collected + s.held .stderr

/-- The time limit has passed, or a stop was observed. -/
def Late (s : Contained) : Prop :=
  s.elapsed = true ∨ ∃ thread, s.caller = .joining thread .stopped

/-- Nothing of the run's group outlives the call, the child has been reaped, and past its time the
call waits for no process. -/
structure Clean (run : Run) (capacity : ℕ) (s : Contained) : Prop where
  survivors : ∀ outcome, s.caller = .returned outcome → s.Emptied ∧ s.reaped = true
  waits : ∀ thread outcome, s.caller = .joining thread outcome → s.Late →
    ¬s.Blocked run capacity thread

/-- A step that leaves nothing behind: a run that finishes by itself leaves no process in its group
and none that a thread waits for, and a run that is killed leaves none outside the group that a
thread waits for. -/
def Contains (run : Run) (capacity : ℕ) (s : Contained) : RunEvent → Prop
  | .finish => s.Emptied ∧ s.Free run capacity .writing ∧ s.Free run capacity .reading
  | .kill => s.killGroup.Free run capacity .capture ∧ s.killGroup.Free run capacity .writing ∧
      s.killGroup.Free run capacity .reading
  | _ => True

instance (run : Run) (capacity : ℕ) (s : Contained) :
    ∀ thread, Decidable (s.Free run capacity thread)
  | .capture => inferInstanceAs (Decidable (_ → _ ∨ _))
  | .writing => inferInstanceAs (Decidable (_ → _ ∨ _))
  | .reading => inferInstanceAs (Decidable (_ → _ ∨ ∃ limit ∈ run.collects, _))

instance (run : Run) (capacity : ℕ) (s : Contained) :
    ∀ e, Decidable (s.Contains run capacity e)
  | .finish => inferInstanceAs (Decidable (_ ∧ _ ∧ _))
  | .kill => inferInstanceAs (Decidable (_ ∧ _ ∧ _))
  | .fork _ | .leave _ | .close _ _ | .exit _ | .write _ _ _ | .consume _ _ | .capture _
  | .captured | .captureFails | .reap | .feed _ | .fed | .collect _ | .collected | .elapse
  | .giveUp _ | .join => isTrue trivial

/-- Every thread that is still to be joined will end by itself. -/
structure Leaving (run : Run) (capacity : ℕ) (s : Contained) : Prop where
  emptied : s.Emptied
  free : ∀ thread, s.Free run capacity thread

def Leads (s : Contained) : Prop := ∃ child, s.processes[0]? = some child ∧ child.grouped = true

structure Bounded (run : Run) (capacity : ℕ) (s : Contained) : Prop where
  leads : s.Leads
  reaped : s.capture = .done → s.reaped = true
  leaving : s.caller.left = true → s.Leaving run capacity
  joined : s.caller.joined = true → s.capture = .done

/-- What every step does to the processes and to what the threads have before them: no pipe gets a
new holder, and no thread falls back. -/
structure Fades (s t : Contained) : Prop where
  emptied : s.Emptied → t.Emptied
  holders : ∀ pipe, t.Open pipe → s.Open pipe
  capture : t.capture = .reading →
    s.capture = .reading ∧ s.captured + s.held .stdout ≤ t.captured + t.held .stdout
  writing : t.fed = false → s.fed = false ∧ t.left + t.held .stdin ≤ s.left + s.held .stdin
  reading : t.read = false →
    s.read = false ∧ s.collected + s.held .stderr ≤ t.collected + t.held .stderr
  leads : s.Leads → t.Leads
  done : s.capture = .done → t.capture = .done
  reaped : t.capture = .done → s.capture = .done ∧ t.reaped = s.reaped ∨ t.reaped = true

variable {run : Run} {capacity : ℕ} {s t : Contained} {e : RunEvent}

theorem Leaving.fades (hs : s.Leaving run capacity) (h : s.Fades t) : t.Leaving run capacity := by
  refine ⟨h.emptied hs.emptied, fun thread => ?_⟩
  cases thread with
  | capture =>
    intro hreading
    obtain ⟨hbefore, hle⟩ := h.capture hreading
    rcases hs.free .capture hbefore with hclosed | hover
    · exact .inl fun hopen => hclosed (h.holders _ hopen)
    · exact .inr (Nat.lt_of_lt_of_le hover hle)
  | writing =>
    intro hfeeding
    obtain ⟨hbefore, hle⟩ := h.writing hfeeding
    rcases hs.free .writing hbefore with hclosed | hfits
    · exact .inl fun hopen => hclosed (h.holders _ hopen)
    · exact .inr (Nat.le_trans hle hfits)
  | reading =>
    intro hreading
    obtain ⟨hbefore, hle⟩ := h.reading hreading
    rcases hs.free .reading hbefore with hclosed | ⟨limit, hlimit, hover⟩
    · exact .inl fun hopen => hclosed (h.holders _ hopen)
    · exact .inr ⟨limit, hlimit, Nat.le_trans hover hle⟩

variable {processes : List Process}

theorem fades_processes
    (h : ∀ q ∈ processes, q.alive = true → ∃ p ∈ s.processes, p.alive = true ∧
      (q.grouped = true → p.grouped = true) ∧ ∀ pipe, q.holds pipe = true → p.holds pipe = true)
    (hleads : s.Leads → Leads { s with processes }) : s.Fades { s with processes } := by
  refine ⟨fun hempty q hq halive => ?_, fun pipe hopen => ?_, fun h => ⟨h, Nat.le_refl _⟩,
    fun h => ⟨h, Nat.le_refl _⟩, fun h => ⟨h, Nat.le_refl _⟩, hleads, id,
    fun h => .inl ⟨h, rfl⟩⟩
  · obtain ⟨p, hp, hlive, hgrouped, -⟩ := h q hq halive
    have hout := hempty p hp hlive
    cases hgroup : q.grouped with
    | false => rfl
    | true =>
      rw [hgrouped hgroup] at hout
      cases hout
  · obtain ⟨q, hq, halive, hholds⟩ := hopen
    obtain ⟨p, hp, hlive, -, hkeeps⟩ := h q hq halive
    exact ⟨p, hp, hlive, hkeeps pipe hholds⟩

variable {f : Process → Process}

theorem mem_modify {i : ℕ} {q : Process} (h : q ∈ processes.modify i f) :
    q ∈ processes ∨ ∃ p ∈ processes, q = f p := by
  obtain ⟨j, hj⟩ := mem_iff_getElem?.mp h
  rw [getElem?_modify] at hj
  obtain ⟨p, hp, hq⟩ := Option.map_eq_some_iff.mp hj
  have hmem : p ∈ processes := mem_of_getElem? hp
  split_ifs at hq
  · exact .inr ⟨p, hmem, hq.symm⟩
  · exact .inl (hq ▸ hmem)

theorem fades_modify (i : ℕ)
    (hf : ∀ p : Process, ((f p).alive = true → p.alive = true) ∧
      ((f p).grouped = true → p.grouped = true) ∧
      ∀ pipe, (f p).holds pipe = true → p.holds pipe = true)
    (hchild : i = 0 → ∀ p, (f p).grouped = p.grouped) : s.Fades (s.modify i f) := by
  refine fades_processes (fun q hq halive => ?_) fun ⟨child, hzero, hgrouped⟩ => ?_
  · rcases mem_modify hq with hq | ⟨p, hp, rfl⟩
    · exact ⟨q, hq, halive, id, fun _ => id⟩
    · obtain ⟨hlive, hgrouped, hholds⟩ := hf p
      exact ⟨p, hp, hlive halive, hgrouped, hholds⟩
  · refine ⟨(if i = 0 then f else id) child, ?_, ?_⟩
    · simp only [getElem?_modify, hzero]
      split_ifs
      all_goals rfl
    · split_ifs with hi
      · exact (hchild hi child).trans hgrouped
      · exact hgrouped

theorem fades_killGroup : s.Fades s.killGroup := by
  refine fades_processes (fun q hq halive => ?_) fun ⟨child, hzero, hgrouped⟩ => ?_
  · obtain ⟨p, hp, rfl⟩ := mem_map.mp hq
    exact ⟨p, hp, (Bool.and_eq_true _ _ ▸ halive).1, id, fun _ => id⟩
  · refine ⟨{ child with alive := child.alive && !child.grouped }, ?_, hgrouped⟩
    simp only [getElem?_map, hzero, Option.map_some]

theorem emptied_killGroup : s.killGroup.Emptied := by
  intro q hq halive
  obtain ⟨p, -, rfl⟩ := mem_map.mp hq
  have hout : (!p.grouped) = true := (Bool.and_eq_true _ _ ▸ halive).2
  cases hgrouped : p.grouped with
  | false => rfl
  | true =>
    rw [hgrouped] at hout
    cases hout

theorem Fades.trans {u : Contained} (hst : s.Fades t) (htu : t.Fades u) : s.Fades u where
  emptied h := htu.emptied (hst.emptied h)
  holders pipe h := hst.holders pipe (htu.holders pipe h)
  capture h := by
    obtain ⟨hmiddle, hle⟩ := htu.capture h
    exact ⟨(hst.capture hmiddle).1, Nat.le_trans (hst.capture hmiddle).2 hle⟩
  writing h := by
    obtain ⟨hmiddle, hle⟩ := htu.writing h
    exact ⟨(hst.writing hmiddle).1, Nat.le_trans hle (hst.writing hmiddle).2⟩
  reading h := by
    obtain ⟨hmiddle, hle⟩ := htu.reading h
    exact ⟨(hst.reading hmiddle).1, Nat.le_trans (hst.reading hmiddle).2 hle⟩
  leads h := htu.leads (hst.leads h)
  done h := htu.done (hst.done h)
  reaped h := by
    rcases htu.reaped h with ⟨hmiddle, hsame⟩ | hreaped
    · rw [hsame]
      exact hst.reaped hmiddle
    · exact .inr hreaped

/-- A step that touches no process and lets no thread fall back. -/
theorem fades_of_threads (hprocesses : t.processes = s.processes)
    (hcapture : t.capture = .reading →
      s.capture = .reading ∧ s.captured + s.held .stdout ≤ t.captured + t.held .stdout)
    (hwriting : t.fed = false → s.fed = false ∧ t.left + t.held .stdin ≤ s.left + s.held .stdin)
    (hreading : t.read = false →
      s.read = false ∧ s.collected + s.held .stderr ≤ t.collected + t.held .stderr)
    (hdone : s.capture = .done → t.capture = .done)
    (hreaped : t.capture = .done → s.capture = .done ∧ t.reaped = s.reaped ∨ t.reaped = true) :
    s.Fades t := by
  refine ⟨fun h => ?_, fun pipe h => ?_, hcapture, hwriting, hreading, fun h => ?_, hdone,
    hreaped⟩
  · unfold Emptied at h ⊢
    rw [hprocesses]
    exact h
  · unfold Open at h ⊢
    rw [← hprocesses]
    exact h
  · unfold Leads at h ⊢
    rw [hprocesses]
    exact h

theorem fades_of_served (hprocesses : t.processes = s.processes)
    (hcapture : s.captured + s.held .stdout ≤ t.captured + t.held .stdout)
    (hwriting : t.fed = false → s.fed = false ∧ t.left + t.held .stdin ≤ s.left + s.held .stdin)
    (hreading : t.read = false →
      s.read = false ∧ s.collected + s.held .stderr ≤ t.collected + t.held .stderr)
    (hsame : t.capture = s.capture) (hreaped : t.reaped = s.reaped) : s.Fades t := by
  refine fades_of_threads hprocesses (fun h => ⟨hsame ▸ h, hcapture⟩) hwriting hreading
    (fun h => hsame.trans h) fun h => .inl ⟨hsame ▸ h, hreaped⟩

theorem fades_fill {pipe : Pipe} {held : ℕ} (hheld : s.held pipe ≤ held) (hpipe : pipe ≠ .stdin) :
    s.Fades (s.fill pipe held) := by
  refine fades_of_served rfl ?_ (fun h => ⟨h, ?_⟩) (fun h => ⟨h, ?_⟩) rfl rfl
  all_goals
    cases pipe
    all_goals first
      | exact absurd rfl hpipe
      | exact Nat.le_refl _
      | exact Nat.add_le_add_left hheld _

theorem fades_caller (elapsed : Bool) (caller : Caller) : s.Fades { s with elapsed, caller } :=
  fades_of_served rfl (Nat.le_refl _) (fun h => ⟨h, Nat.le_refl _⟩) (fun h => ⟨h, Nat.le_refl _⟩)
    rfl rfl

theorem fades_waiting (hreading : s.capture = .reading) :
    s.Fades { s with capture := .waiting } := by
  refine fades_of_threads rfl (fun h => ?_) (fun h => ⟨h, Nat.le_refl _⟩)
    (fun h => ⟨h, Nat.le_refl _⟩) (fun h => ?_) fun h => ?_
  · cases h
  · rw [hreading] at h
    cases h
  · cases h

theorem step_fades (h : s.step run capacity e = some t) :
    s.Fades t ∧ (e.isCaller = false → t.caller = s.caller) := by
  cases e with
  | fork parent =>
    simp only [step] at h
    split at h
    · rename_i p hp
      split_ifs at h with halive
      cases h
      refine ⟨fades_processes (fun q hq hlive => ?_) fun ⟨child, hzero, hgrouped⟩ => ?_,
        fun _ => rfl⟩
      · rcases mem_append.mp hq with hq | hq
        · exact ⟨q, hq, hlive, id, fun _ => id⟩
        · obtain rfl := mem_singleton.mp hq
          exact ⟨q, mem_of_getElem? hp, hlive, id, fun _ => id⟩
      · refine ⟨child, ?_, hgrouped⟩
        rw [getElem?_append_left (List.getElem?_eq_some_iff.mp hzero).1]
        exact hzero
    · cases h
  | leave process =>
    simp only [step] at h
    split_ifs at h with hchild
    cases h
    refine ⟨fades_modify _ (fun p => ⟨id, fun hgrouped => ?_, fun _ => id⟩) fun hzero => ?_,
      fun _ => rfl⟩
    · cases hgrouped
    · exact absurd hzero hchild
  | close process pipe =>
    cases h
    exact ⟨fades_modify _ (fun p => ⟨id, id, fun _ hholds => (Bool.and_eq_true _ _ ▸ hholds).2⟩)
      fun _ _ => rfl, fun _ => rfl⟩
  | exit process =>
    cases h
    refine ⟨fades_modify _ (fun p => ⟨fun halive => ?_, id, fun _ => id⟩) fun _ _ => rfl,
      fun _ => rfl⟩
    cases halive
  | write process pipe bytes =>
    simp only [step] at h
    split at h
    · split_ifs at h with hwrite
      cases h
      exact ⟨fades_fill (Nat.le_add_right _ _) hwrite.2.2.1, fun _ => rfl⟩
    · cases h
  | consume process bytes =>
    simp only [step] at h
    split at h
    · split_ifs at h with hread
      cases h
      refine ⟨fades_of_served rfl (Nat.le_refl _) (fun h => ⟨h, ?_⟩)
        (fun h => ⟨h, Nat.le_refl _⟩) rfl rfl, fun _ => rfl⟩
      exact Nat.add_le_add_left (Nat.sub_le _ _) _
    · cases h
  | capture bytes =>
    simp only [step] at h
    split_ifs at h with hread
    cases h
    refine ⟨fades_of_served rfl ?_ (fun h => ⟨h, Nat.le_refl _⟩) (fun h => ⟨h, Nat.le_refl _⟩) rfl
      rfl, fun _ => rfl⟩
    have hle : bytes ≤ s.held .stdout := hread.2.1
    change s.captured + s.held .stdout ≤ s.captured + bytes + (s.held .stdout - bytes)
    omega
  | captured =>
    simp only [step] at h
    split_ifs at h with hreading
    · cases h
      have hreading' : s.killGroup.capture = .reading := hreading
      exact ⟨fades_killGroup.trans (fades_waiting hreading'), fun _ => rfl⟩
    · cases h
      exact ⟨fades_waiting hreading, fun _ => rfl⟩
  | captureFails =>
    simp only [step] at h
    split_ifs at h with hreading
    cases h
    have hreading' : s.killGroup.capture = .reading := hreading
    exact ⟨fades_killGroup.trans (fades_waiting hreading'), fun _ => rfl⟩
  | reap =>
    simp only [step] at h
    split at h
    · split_ifs at h
      cases h
      refine ⟨fades_of_threads rfl (fun h => ?_) (fun h => ⟨h, Nat.le_refl _⟩)
        (fun h => ⟨h, Nat.le_refl _⟩) (fun _ => rfl) fun _ => .inr rfl, fun _ => rfl⟩
      cases h
    · cases h
  | feed bytes =>
    simp only [step] at h
    split_ifs at h with hfeed
    cases h
    refine ⟨fades_of_served rfl (Nat.le_refl _) (fun h => ⟨h, ?_⟩) (fun h => ⟨h, Nat.le_refl _⟩)
      rfl rfl, fun _ => rfl⟩
    have hle : bytes ≤ s.left := hfeed.2.1
    change s.left - bytes + (s.held .stdin + bytes) ≤ s.left + s.held .stdin
    omega
  | fed =>
    simp only [step] at h
    split_ifs at h
    cases h
    refine ⟨fades_of_served rfl (Nat.le_refl _) (fun h => ?_) (fun h => ⟨h, Nat.le_refl _⟩) rfl
      rfl, fun _ => rfl⟩
    cases h
  | collect bytes =>
    simp only [step] at h
    split_ifs at h with hread
    cases h
    refine ⟨fades_of_served rfl (Nat.le_refl _) (fun h => ⟨h, Nat.le_refl _⟩) (fun h => ⟨h, ?_⟩)
      rfl rfl, fun _ => rfl⟩
    have hle : bytes ≤ s.held .stderr := hread.2.1
    change s.collected + s.held .stderr ≤ s.collected + bytes + (s.held .stderr - bytes)
    omega
  | collected =>
    simp only [step] at h
    split_ifs at h
    cases h
    refine ⟨fades_of_served rfl (Nat.le_refl _) (fun h => ⟨h, Nat.le_refl _⟩) (fun h => ?_) rfl
      rfl, fun _ => rfl⟩
    cases h
  | elapse =>
    cases h
    exact ⟨fades_caller _ _, fun _ => rfl⟩
  | finish =>
    simp only [step] at h
    split_ifs at h
    cases h
    refine ⟨fades_caller _ _, fun h => ?_⟩
    cases h
  | giveUp outcome =>
    simp only [step] at h
    split_ifs at h
    cases h
    refine ⟨fades_caller _ _, fun h => ?_⟩
    cases h
  | kill =>
    simp only [step] at h
    split at h
    · cases h
      refine ⟨fades_killGroup.trans (fades_caller _ _), fun h => ?_⟩
      cases h
    all_goals cases h
  | join =>
    refine ⟨?_, fun h => ?_⟩
    · simp only [step] at h
      split at h
      all_goals first
        | cases h
        | (split_ifs at h
           cases h
           exact fades_caller _ _)
    · cases h

theorem Leaving.not_blocked (hs : s.Leaving run capacity) (hleads : s.Leads) (thread : Thread) :
    ¬s.Blocked run capacity thread := by
  cases thread with
  | capture =>
    rintro (⟨hreading, hunder, hnone, hopen⟩ | ⟨-, child, hzero, halive⟩)
    · rcases hs.free .capture hreading with hclosed | hover
      · exact hclosed hopen
      · omega
    · obtain ⟨leader, hleader, hgrouped⟩ := hleads
      obtain rfl := Option.some.inj (hzero.symm.trans hleader)
      have hout := hs.emptied child (mem_of_getElem? hzero) halive
      rw [hgrouped] at hout
      cases hout
  | writing =>
    rintro ⟨hfeeding, hleft, hfull, hopen⟩
    rcases hs.free .writing hfeeding with hclosed | hfits
    · exact hclosed hopen
    · omega
  | reading =>
    rintro ⟨hreading, hunder, hnone, hopen⟩
    rcases hs.free .reading hreading with hclosed | ⟨limit, hlimit, hover⟩
    · exact hclosed hopen
    · have hbelow := hunder limit hlimit
      omega

theorem bounded_step (hcontains : s.Contains run capacity e) (hs : s.Bounded run capacity)
    (h : s.step run capacity e = some t) : t.Bounded run capacity := by
  obtain ⟨hfades, hcaller⟩ := step_fades h
  have hleads := hfades.leads hs.leads
  have hreaped : t.capture = .done → t.reaped = true := by
    intro hdone
    rcases hfades.reaped hdone with ⟨hbefore, hsame⟩ | hreaped
    · rw [hsame]
      exact hs.reaped hbefore
    · exact hreaped
  cases hmoves : e.isCaller with
  | false =>
    have hsame := hcaller hmoves
    refine ⟨hleads, hreaped, fun hleft => ?_, fun hjoined => ?_⟩
    · rw [hsame] at hleft
      exact (hs.leaving hleft).fades hfades
    · rw [hsame] at hjoined
      exact hfades.done (hs.joined hjoined)
  | true =>
    cases e with
    | finish =>
      simp only [step] at h
      split_ifs at h with hdone
      cases h
      obtain ⟨hemptied, hwriting, hreading⟩ := hcontains
      refine ⟨hleads, hreaped, fun _ => ⟨hfades.emptied hemptied, fun thread => ?_⟩,
        fun _ => hdone.2⟩
      cases thread with
      | capture =>
        intro h
        exact absurd (hdone.2.symm.trans h) (by decide)
      | writing => exact hwriting
      | reading => exact hreading
    | giveUp outcome =>
      simp only [step] at h
      split_ifs at h
      cases h
      refine ⟨hleads, hreaped, fun hleft => ?_, fun hjoined => ?_⟩
      · cases hleft
      · cases hjoined
    | kill =>
      simp only [step] at h
      split at h
      · cases h
        obtain ⟨hcapture, hwriting, hreading⟩ := hcontains
        refine ⟨hleads, hreaped, fun _ => ⟨emptied_killGroup, fun thread => ?_⟩, fun hjoined => ?_⟩
        · cases thread with
          | capture => exact hcapture
          | writing => exact hwriting
          | reading => exact hreading
        · cases hjoined
      all_goals cases h
    | join =>
      simp only [step] at h
      split at h
      · rename_i outcome hjoining
        split_ifs at h with hdone
        cases h
        exact ⟨hleads, hreaped, fun _ => (hs.leaving (by rw [hjoining]; rfl)).fades hfades,
          fun _ => hdone⟩
      · rename_i outcome hjoining
        split_ifs at h
        cases h
        exact ⟨hleads, hreaped, fun _ => (hs.leaving (by rw [hjoining]; rfl)).fades hfades,
          fun _ => hs.joined (by rw [hjoining]; rfl)⟩
      · rename_i outcome hjoining
        split_ifs at h
        cases h
        exact ⟨hleads, hreaped, fun _ => (hs.leaving (by rw [hjoining]; rfl)).fades hfades,
          fun _ => hs.joined (by rw [hjoining]; rfl)⟩
      all_goals cases h
    | _ => cases hmoves

end Contained

/-- A contained run under any schedule of its processes, its threads and the caller. -/
def containedRun (run : Run) (capacity : ℕ) : Machine Contained RunEvent where
  init s := s = .start run
  step := Contained.step run capacity

namespace Contained
variable {run : Run} {capacity : ℕ} {s : Contained}

/-- A run leaves nothing running and cannot be held open if no process of its group is left when it
finishes by itself, and no process has a pipe that a thread serves when it finishes or, outside the
group, when it is killed. -/
theorem run_contained (hs : (containedRun run capacity).ReachableUnder (Contains run capacity) s) :
    s.Clean run capacity := by
  have hbounded : s.Bounded run capacity := by
    refine hs.invariant ?_ ?_
    · rintro _ rfl
      refine ⟨⟨_, rfl, rfl⟩, fun hdone => ?_, fun hleft => ?_, fun hjoined => ?_⟩
      · cases hdone
      · cases hleft
      · cases hjoined
    · intro s e t hcontains hs hstep
      exact bounded_step hcontains hs hstep
  refine ⟨fun outcome hreturned => ?_, fun thread outcome hjoining _ => ?_⟩
  · have hleaving := hbounded.leaving (by rw [hreturned]; rfl)
    exact ⟨hleaving.emptied, hbounded.reaped (hbounded.joined (by rw [hreturned]; rfl))⟩
  · exact (hbounded.leaving (by rw [hjoining]; rfl)).not_blocked hbounded.leads thread

/-- A run past its time limit, with a process in the background. -/
theorem run_contained_killed :
    ∃ s, (containedRun ⟨none, false, 100, none, false⟩ 64).ReachableUnder
        (Contains ⟨none, false, 100, none, false⟩ 64) s ∧
      s.caller = .returned .timedOut ∧ s.processes.length = 2 ∧ s.Emptied ∧ s.reaped = true := by
  obtain ⟨s, hs, hcaller, hlength⟩ := Machine.exists_reachableUnder_of_run
    (M := containedRun ⟨none, false, 100, none, false⟩ 64)
    (G := Contains ⟨none, false, 100, none, false⟩ 64) rfl
    [.fork 0, .write 1 .stdout 5, .capture 5, .elapse, .giveUp .timedOut, .kill, .captured, .reap,
      .join, .join, .join]
    (by decide)
    (fun s => s.caller = .returned .timedOut ∧ s.processes.length = 2) (by decide)
  exact ⟨s, hs, hcaller, hlength, (run_contained hs).survivors _ hcaller⟩

/-- A background process that closed the output outlives a run that finishes, and one that moved to
a session of its own with the output open holds up a run past its time limit. -/
theorem run_not_contained :
    (∃ s, (containedRun ⟨none, false, 100, none, false⟩ 64).Reachable s ∧
      s.caller = .returned .finished ∧ ¬s.Emptied) ∧
    ∃ s, (containedRun ⟨none, false, 100, none, false⟩ 64).Reachable s ∧
      s.elapsed = true ∧ s.caller = .joining .capture .timedOut ∧ s.Emptied ∧ s.Open .stdout ∧
      s.capture = .reading ∧ s.captured = 0 ∧ s.held .stdout = 0 := by
  constructor
  · exact Machine.exists_reachable_of_run
      (M := containedRun ⟨none, false, 100, none, false⟩ 64) rfl
      [.fork 0, .close 1 .stdout, .exit 0, .captured, .reap, .finish, .join, .join, .join]
      (fun s => s.caller = .returned .finished ∧ ¬s.Emptied) (by decide)
  · exact Machine.exists_reachable_of_run
      (M := containedRun ⟨none, false, 100, none, false⟩ 64) rfl
      [.fork 0, .leave 1, .exit 0, .elapse, .giveUp .timedOut, .kill]
      (fun s => s.elapsed = true ∧ s.caller = .joining .capture .timedOut ∧ s.Emptied ∧
        s.Open .stdout ∧ s.capture = .reading ∧ s.captured = 0 ∧ s.held .stdout = 0) (by decide)

end Contained
end Soloist.Exec
