import Soloist.Lease.Repo
import Soloist.Mailbox.Calls

/-! Coordination timers: what a timer waits for, when a watched process counts as idle, and what a
caller is told. Instants are Unix milliseconds in a `u64`. -/
namespace Soloist

abbrev TimerId := Nat

def maxTimerDelay : Duration := 24 * 60 * 60 * 10 ^ 9

def maxTimerBodyBytes : ℕ := 16 * 1024

def defaultIdleMaxWait : Duration := 60 * 60 * 10 ^ 9

def maxIdleMaxWait : Duration := 24 * 60 * 60 * 10 ^ 9

/-- Which idle quorum a fire-when-idle timer needs. -/
inductive IdleMode
  | any
  | all
  deriving DecidableEq, Repr

/-- What a timer waits for; the deadline is kept beside it. -/
inductive FireCond
  | atDeadline
  | whenIdleAny (watched : List ProcessId)
  | whenIdleAll (watched : List ProcessId)
  deriving DecidableEq, Repr

def FireCond.idleQuorum : FireCond → Option (IdleMode × List ProcessId)
  | .atDeadline => none
  | .whenIdleAny watched => some (.any, watched)
  | .whenIdleAll watched => some (.all, watched)

namespace IdleMode

/-- The quorum decision; an empty set meets neither quorum. -/
def met (mode : IdleMode) (watchedIsEmpty anyIdle allIdle : Bool) : Bool :=
  if watchedIsEmpty then false
  else
    match mode with
    | .any => anyIdle
    | .all => allIdle

def quorumMet (mode : IdleMode) (watched : List ProcessId) (isIdle : ProcessId → Bool) : Bool :=
  mode.met watched.isEmpty (watched.any isIdle) (watched.all isIdle)

/-- One turn of the report's loop: who is waited on, whether any is idle, whether all are. -/
def observeIdle (isIdle : ProcessId → Bool) (seen : List ProcessId × Bool × Bool)
    (process : ProcessId) : List ProcessId × Bool × Bool :=
  if isIdle process then (seen.1, true, seen.2.2) else (seen.1 ++ [process], seen.2.1, false)

def idleReport (mode : IdleMode) (watched : List ProcessId) (isIdle : ProcessId → Bool) :
    List ProcessId × Bool :=
  let (waitingOn, anyIdle, allIdle) := watched.foldl (observeIdle isIdle) ([], false, true)
  (waitingOn, mode.met watched.isEmpty anyIdle allIdle)

theorem foldl_observeIdle (isIdle : ProcessId → Bool) (watched : List ProcessId)
    (seen : List ProcessId × Bool × Bool) :
    watched.foldl (observeIdle isIdle) seen =
      (seen.1 ++ watched.filter fun p => !isIdle p, seen.2.1 || watched.any isIdle,
        seen.2.2 && watched.all isIdle) := by
  induction watched generalizing seen with
  | nil => simp
  | cons p rest ih =>
    rw [List.foldl_cons, ih, observeIdle]
    cases h : isIdle p with
    | false => simp [h]
    | true => simp [h]

/-- The report and the fire check take the quorum alike. -/
theorem idleReport_eq (mode : IdleMode) (watched : List ProcessId) (isIdle : ProcessId → Bool) :
    mode.idleReport watched isIdle =
      (watched.filter fun p => !isIdle p, mode.quorumMet watched isIdle) := by
  rw [idleReport, foldl_observeIdle]
  simp [quorumMet]

theorem quorumMet_congr {mode : IdleMode} {watched : List ProcessId} {f g : ProcessId → Bool}
    (h : ∀ p ∈ watched, f p = g p) : mode.quorumMet watched f = mode.quorumMet watched g := by
  have hany : watched.any f = watched.any g := by
    rw [Bool.eq_iff_iff, List.any_eq_true, List.any_eq_true]
    exact exists_congr fun p => and_congr_right fun hp => by rw [h p hp]
  have hall : watched.all f = watched.all g := by
    rw [Bool.eq_iff_iff, List.all_eq_true, List.all_eq_true]
    exact forall₂_congr fun p hp => by rw [h p hp]
  rw [quorumMet, quorumMet, hany, hall]

end IdleMode

/-- Whether a watched process counts as idle: its last-known activity decides, and one with none is
idle once it has left the registry. -/
def watchedIsIdle (activity : Option AgentActivity) (inRegistry : Bool) : Bool :=
  match activity with
  | some .idle => true
  | some _ => false
  | none => !inRegistry

@[simp] theorem watchedIsIdle_true (activity : Option AgentActivity) :
    watchedIsIdle activity true = true ↔ activity = some .idle := by
  rcases activity with _ | a
  · simp [watchedIsIdle]
  · cases a <;> simp [watchedIsIdle]

@[simp] theorem watchedIsIdle_false (activity : Option AgentActivity) :
    watchedIsIdle activity false = true ↔ ∀ a, activity = some a → a = .idle := by
  rcases activity with _ | a
  · simp [watchedIsIdle]
  · cases a <;> simp [watchedIsIdle]

inductive TimerStatus
  | armed
  | paused
  deriving DecidableEq, Repr

structure NewTimer where
  project : ProjectId
  owner : ProcessId
  body : String
  fire : FireCond
  deadlineUnixMillis : UInt64
  deriving DecidableEq, Repr

/-- A persisted timer as the port exchanges it. -/
structure StoredTimer where
  id : TimerId
  project : ProjectId
  owner : ProcessId
  body : String
  fire : FireCond
  deadlineUnixMillis : UInt64
  status : TimerStatus
  remainingOnPauseMillis : Option UInt64
  deriving DecidableEq, Repr

namespace Timers

/-- The timer a plain `set` arms; `now` is the clock reading of the call. -/
def scheduled (project : ProjectId) (owner : ProcessId) (body : String) (after : Option Duration)
    (now : UInt64) : NewTimer where
  project := project
  owner := owner
  body := body
  fire := .atDeadline
  deadlineUnixMillis :=
    saturatingAdd now (UInt64.ofNat (min (after.getD 0) maxTimerDelay / 10 ^ 6))

/-- The timer `set_when_idle` arms, its deadline the max-wait backstop. -/
def whenIdle (project : ProjectId) (owner : ProcessId) (body : String) (watched : List ProcessId)
    (mode : IdleMode) (maxWait : Option Duration) (now : UInt64) : NewTimer where
  project := project
  owner := owner
  body := body
  fire :=
    match mode with
    | .any => .whenIdleAny watched
    | .all => .whenIdleAll watched
  deadlineUnixMillis :=
    saturatingAdd now
      (UInt64.ofNat (min (maxWait.getD defaultIdleMaxWait) maxIdleMaxWait / 10 ^ 6))

end Timers

end Soloist

/-! The durable timer store: one row per timer under an id never reused, with instants kept in
signed 64-bit columns. Every statement is one indivisible step. -/
namespace Soloist

/-- What SQLite keeps in an INTEGER column: a result out of the signed 64-bit range is a REAL, and
every REAL here is a whole number. -/
inductive SqlNumber
  | integer (n : Int64)
  | real (n : ℤ)
  deriving DecidableEq, Repr

namespace SqlNumber

/-- The nearest number of 53 significant bits, the even one of two. -/
def roundToDouble (n : ℕ) : ℕ :=
  let ulp := 2 ^ (n.log2 - 52)
  if 2 * (n % ulp) < ulp ∨ 2 * (n % ulp) = ulp ∧ n / ulp % 2 = 0 then n / ulp * ulp
  else (n / ulp + 1) * ulp

def toDouble (n : ℤ) : ℤ := n.sign * roundToDouble n.natAbs

def value : SqlNumber → ℤ
  | integer n => n.toInt
  | real n => n

/-- `+` and `-`: exact on integers that fit, else on doubles. -/
def arith (op : ℤ → ℤ → ℤ) (a b : SqlNumber) : SqlNumber :=
  let double := real (toDouble (op (toDouble a.value) (toDouble b.value)))
  match a, b with
  | integer m, integer n =>
    if -2 ^ 63 ≤ op m.toInt n.toInt ∧ op m.toInt n.toInt < 2 ^ 63 then
      integer (Int64.ofInt (op m.toInt n.toInt))
    else double
  | _, _ => double

/-- `MAX(0, x)`. -/
def atLeastZero (x : SqlNumber) : SqlNumber := if 0 < x.value then x else integer 0

/-- The INTEGER affinity of a column. -/
def stored : SqlNumber → SqlNumber
  | integer n => integer n
  | real n => if -2 ^ 63 < n ∧ n < 2 ^ 63 then integer (Int64.ofInt n) else real n

/-- `row.get` as an `i64`, an error at a REAL. -/
def read : SqlNumber → Option Int64
  | integer n => some n
  | real _ => none

def readNullable : Option SqlNumber → Option (Option Int64)
  | none => some none
  | some x => x.read.map some

variable {op : ℤ → ℤ → ℤ} {m n : Int64} {x : ℤ}

theorem arith_integer (h : op m.toInt n.toInt = x) (hlow : -2 ^ 63 ≤ x) (hhigh : x < 2 ^ 63) :
    arith op (integer m) (integer n) = integer (Int64.ofInt x) := by
  subst h
  exact if_pos ⟨hlow, hhigh⟩

theorem atLeastZero_integer (hlow : -2 ^ 63 ≤ x) (hhigh : x < 2 ^ 63) :
    atLeastZero (integer (Int64.ofInt x)) = integer (Int64.ofInt (max 0 x)) := by
  have hvalue : (Int64.ofInt x).toInt = x := Int64.toInt_ofInt_of_le (by omega) (by omega)
  unfold atLeastZero
  rw [value, hvalue]
  split_ifs with h
  · rw [max_eq_right h.le]
  · rw [max_eq_left (not_lt.mp h)]
    rfl

end SqlNumber

/-- One row of the `timers` table. -/
structure TimerRow where
  id : TimerId
  project : ProjectId
  owner : ProcessId
  body : String
  fire : FireCond
  deadlineUnixMillis : SqlNumber
  paused : Bool
  remainingMillis : Option SqlNumber
  deriving DecidableEq, Repr

abbrev TimerTable := AutoTable TimerRow.id

/-- `row_to_timer`, none at a column error. -/
def TimerRow.toTimer (r : TimerRow) : Option StoredTimer := do
  let deadline ← r.deadlineUnixMillis.read
  let remaining ← SqlNumber.readNullable r.remainingMillis
  some {
    id := r.id
    project := r.project
    owner := r.owner
    body := r.body
    fire := r.fire
    deadlineUnixMillis := deadline.toUInt64
    status := if r.paused then .paused else .armed
    remainingOnPauseMillis := remaining.map Int64.toUInt64 }

theorem TimerRow.id_of_toTimer {r : TimerRow} {timer : StoredTimer} (h : r.toTimer = some timer) :
    timer.id = r.id := by
  simp only [toTimer, Option.bind_eq_bind, Option.bind_eq_some_iff, Option.some.injEq] at h
  obtain ⟨_, -, _, -, rfl⟩ := h
  rfl

def NewTimer.toRow (t : NewTimer) (id : TimerId) : TimerRow where
  id := id
  project := t.project
  owner := t.owner
  body := t.body
  fire := t.fire
  deadlineUnixMillis := .integer t.deadlineUnixMillis.toInt64
  paused := false
  remainingMillis := none

/-- The columns a pause sets: the time that remains, never negative. -/
def TimerRow.pause (now : UInt64) (r : TimerRow) : TimerRow :=
  { r with
    paused := true
    remainingMillis :=
      some (((r.deadlineUnixMillis.arith (· - ·) (.integer now.toInt64)).atLeastZero).stored) }

def TimerRow.resume (now : UInt64) (r : TimerRow) : TimerRow :=
  { r with
    paused := false
    deadlineUnixMillis :=
      ((SqlNumber.integer now.toInt64).arith (· + ·) (r.remainingMillis.getD (.integer 0))).stored
    remainingMillis := none }

namespace TimerTable

/-- The rows an owner may pause (`paused = false`) or resume (`paused = true`) under an id. -/
def held (id : TimerId) (owner : ProcessId) (paused : Bool) (r : TimerRow) : Bool :=
  r.id = id ∧ r.owner = owner ∧ r.paused = paused

def create (t : TimerTable) (timer : NewTimer) : TimerTable × TimerId :=
  (t.append (timer.toRow (t.seq + 1)) rfl, t.seq + 1)

/-- The armed timers, none of them when a row cannot be read. -/
def armed (t : TimerTable) : Option (List StoredTimer) :=
  (t.rows.filter fun r => !r.paused).mapM TimerRow.toTimer

/-- Claim an armed timer for firing: read and remove its row under one guard. A row that cannot be
read stays; its error is a miss to the one caller. -/
def takeIfArmed (t : TimerTable) (id : TimerId) : TimerTable × Option StoredTimer :=
  match ((t.get id).filter fun r => !r.paused).bind TimerRow.toTimer with
  | none => (t, none)
  | some timer => (t.delete fun r => r.id = id, some timer)

def cancel (t : TimerTable) (id : TimerId) (owner : ProcessId) : TimerTable × Bool :=
  let mine := fun r : TimerRow => r.id = id ∧ r.owner = owner
  (t.delete fun r => mine r, t.rows.any fun r => mine r)

def pause (t : TimerTable) (id : TimerId) (owner : ProcessId) (now : UInt64) : TimerTable × Bool :=
  (t.update (held id owner false) (TimerRow.pause now) fun _ => rfl,
    t.rows.any (held id owner false))

def resume (t : TimerTable) (id : TimerId) (owner : ProcessId) (now : UInt64) : TimerTable × Bool :=
  (t.update (held id owner true) (TimerRow.resume now) fun _ => rfl, t.rows.any (held id owner true))

def releaseOwner (t : TimerTable) (owner : ProcessId) : TimerTable × ℕ :=
  (t.delete fun r => r.owner = owner, t.rows.countP fun r => r.owner = owner)

/-- The foreign key's cascade when a project is removed. -/
def dropProject (t : TimerTable) (project : ProjectId) : TimerTable :=
  t.delete fun r => r.project = project

def clear (t : TimerTable) : TimerTable × ℕ := (t.delete fun _ => true, t.rows.length)

def ownedBy (t : TimerTable) (owner : ProcessId) : Prop := ∃ r ∈ t.rows, r.owner = owner

instance (t : TimerTable) (owner : ProcessId) : Decidable (t.ownedBy owner) :=
  inferInstanceAs (Decidable (∃ r ∈ t.rows, r.owner = owner))

variable {t : TimerTable} {p : ProcessId}

variable {q : TimerRow → Bool}

theorem ownedBy_of_delete (h : ownedBy (t.delete q) p) : t.ownedBy p := by
  obtain ⟨r, hr, ho⟩ := h
  exact ⟨r, (Table.mem_delete.mp hr).1, ho⟩

theorem ownedBy_of_update {f : TimerRow → TimerRow} {hf : ∀ r, (f r).id = r.id}
    (howner : ∀ r, (f r).owner = r.owner) (h : ownedBy (t.update q f hf) p) : t.ownedBy p := by
  obtain ⟨r, hr, ho⟩ := h
  obtain ⟨s, hs, rfl⟩ := (@Table.mem_update _ _ _ t.toTable r q f hf).mp hr
  refine ⟨s, hs, ?_⟩
  split_ifs at ho with hq
  · rwa [howner] at ho
  · exact ho

theorem ownedBy_create {timer : NewTimer} :
    ownedBy (t.create timer).1 p ↔ t.ownedBy p ∨ timer.owner = p := by
  have hrows : ∀ r, r ∈ (t.create timer).1.rows ↔ r ∈ t.rows ∨ r = timer.toRow (t.seq + 1) :=
    fun r => Table.mem_insert (t := t.toTable) (h := t.key_ne_of_next rfl)
  constructor
  · rintro ⟨r, hr, ho⟩
    obtain hr | rfl := (hrows r).mp hr
    · exact .inl ⟨r, hr, ho⟩
    · exact .inr ho
  · rintro (⟨r, hr, ho⟩ | ho)
    · exact ⟨r, (hrows r).mpr (.inl hr), ho⟩
    · exact ⟨timer.toRow (t.seq + 1), (hrows _).mpr (.inr rfl), ho⟩

theorem ownedBy_of_takeIfArmed {id : TimerId} (h : ownedBy (t.takeIfArmed id).1 p) :
    t.ownedBy p := by
  unfold takeIfArmed at h
  split at h
  · exact h
  · exact ownedBy_of_delete h

theorem ownedBy_releaseOwner {owner : ProcessId} :
    ownedBy (t.releaseOwner owner).1 p ↔ t.ownedBy p ∧ p ≠ owner := by
  constructor
  · rintro ⟨r, hr, rfl⟩
    obtain ⟨hr, hne⟩ := Table.mem_delete.mp hr
    exact ⟨⟨r, hr, rfl⟩, by simpa using hne⟩
  · rintro ⟨⟨r, hr, rfl⟩, hne⟩
    exact ⟨r, Table.mem_delete.mpr ⟨hr, by simpa using hne⟩, rfl⟩

end TimerTable

end Soloist
