import Soloist.Clock
import Soloist.Ids
import Soloist.Machine

/-! The coordination lease repository and the aggregate over it. Instants are Unix milliseconds in
a `u64`, written to and compared in signed 64-bit columns. -/
open Option

namespace Soloist

/-- A persisted lease as the port exchanges it. -/
structure StoredLease where
  project : ProjectId
  key : String
  owner : ProcessId
  acquiredUnixMillis : UInt64
  expiresUnixMillis : UInt64
  deriving DecidableEq, Repr

/-- One row of the `leases` table; its primary key is `(project_id, key)`. -/
structure LeaseRow where
  project : ProjectId
  key : String
  owner : ProcessId
  acquiredUnixMillis : Int64
  expiresUnixMillis : Int64
  deriving DecidableEq, Repr

def LeaseRow.slot (r : LeaseRow) : ProjectId × String := (r.project, r.key)

abbrev LeaseTable := Table LeaseRow.slot

def StoredLease.toRow (l : StoredLease) : LeaseRow where
  project := l.project
  key := l.key
  owner := l.owner
  acquiredUnixMillis := l.acquiredUnixMillis.toInt64
  expiresUnixMillis := l.expiresUnixMillis.toInt64

def LeaseRow.toLease (r : LeaseRow) : StoredLease where
  project := r.project
  key := r.key
  owner := r.owner
  acquiredUnixMillis := r.acquiredUnixMillis.toUInt64
  expiresUnixMillis := r.expiresUnixMillis.toUInt64

/-- The columns the upsert sets from the candidate. -/
def StoredLease.overwrite (l : StoredLease) (r : LeaseRow) : LeaseRow :=
  { r with
    owner := l.owner
    acquiredUnixMillis := l.acquiredUnixMillis.toInt64
    expiresUnixMillis := l.expiresUnixMillis.toInt64 }

theorem StoredLease.slot_overwrite (l : StoredLease) (r : LeaseRow) :
    (l.overwrite r).slot = r.slot := rfl

theorem StoredLease.overwrite_eq_toRow {l : StoredLease} {r : LeaseRow}
    (h : r.slot = (l.project, l.key)) : l.overwrite r = l.toRow := by
  obtain ⟨hp, hk⟩ : r.project = l.project ∧ r.key = l.key := by simpa [LeaseRow.slot] using h
  rw [overwrite, hp, hk]
  rfl

@[simp] theorem StoredLease.slot_toRow (l : StoredLease) : l.toRow.slot = (l.project, l.key) := rfl

namespace LeaseTable

def liveLocked (t : LeaseTable) (project : ProjectId) (key : String) (now : UInt64) :
    Option StoredLease :=
  ((t.get (project, key)).filter fun r => now.toInt64 < r.expiresUnixMillis).map LeaseRow.toLease

/-- The row the upsert overwrites: the conflicting one, if expired at `now` or already the
caller's. -/
def grants (candidate : StoredLease) (now : UInt64) (r : LeaseRow) : Bool :=
  r.slot = candidate.toRow.slot ∧
    (r.expiresUnixMillis ≤ now.toInt64 ∨ r.owner = candidate.owner)

/-- The conditional upsert: insert when free, overwrite when granted, and otherwise report the
live holder. -/
def acquire (t : LeaseTable) (candidate : StoredLease) (now : UInt64) :
    LeaseTable × Option StoredLease :=
  if h : ∀ s ∈ t.rows, s.slot ≠ candidate.toRow.slot then
    (t.insert candidate.toRow h, none)
  else if t.rows.any (grants candidate now) then
    (t.update (grants candidate now) candidate.overwrite candidate.slot_overwrite, none)
  else (t, liveLocked t candidate.project candidate.key now)

/-- Prune the row if it has expired, then read whatever live lease remains. -/
def live (t : LeaseTable) (project : ProjectId) (key : String) (now : UInt64) :
    LeaseTable × Option StoredLease :=
  let t' := t.delete fun r => r.slot = (project, key) ∧ r.expiresUnixMillis ≤ now.toInt64
  (t', liveLocked t' project key now)

def release (t : LeaseTable) (project : ProjectId) (key : String) (owner : ProcessId) :
    LeaseTable × Bool :=
  let held := fun r : LeaseRow => r.slot = (project, key) ∧ r.owner = owner
  (t.delete fun r => held r, t.rows.any fun r => held r)

def releaseOwner (t : LeaseTable) (owner : ProcessId) : LeaseTable × ℕ :=
  (t.delete fun r => r.owner = owner, t.rows.countP fun r => r.owner = owner)

end LeaseTable

abbrev Duration := ℕ

def defaultLeaseTtl : Duration := 5 * 60 * 10 ^ 9
def minLeaseTtl : Duration := 10 ^ 9
def maxLeaseTtl : Duration := 60 * 60 * 10 ^ 9

structure LeaseView where
  key : String
  owner : ProcessId
  expiresUnixMillis : UInt64
  deriving DecidableEq, Repr

def LeaseView.of (l : StoredLease) : LeaseView := ⟨l.key, l.owner, l.expiresUnixMillis⟩

inductive AcquireOutcome
  | acquired (lease : LeaseView)
  | held (holder : LeaseView)
  deriving DecidableEq, Repr

namespace Leases

def ttlMillis (ttl : Option Duration) : UInt64 :=
  UInt64.ofNat (max minLeaseTtl (min (ttl.getD defaultLeaseTtl) maxLeaseTtl) / 10 ^ 6)

def candidate (project : ProjectId) (key : String) (owner : ProcessId) (ttl : Option Duration)
    (now : UInt64) : StoredLease where
  project := project
  key := key
  owner := owner
  acquiredUnixMillis := now
  expiresUnixMillis := saturatingAdd now (ttlMillis ttl)

def acquire (t : LeaseTable) (project : ProjectId) (key : String) (owner : ProcessId)
    (ttl : Option Duration) (now : UInt64) : LeaseTable × AcquireOutcome :=
  let c := candidate project key owner ttl now
  match LeaseTable.acquire t c now with
  | (t', none) => (t', .acquired (.of c))
  | (t', some holder) => (t', .held (.of holder))

def status (t : LeaseTable) (project : ProjectId) (key : String) (now : UInt64) :
    LeaseTable × Option LeaseView :=
  let (t', lease) := LeaseTable.live t project key now
  (t', lease.map LeaseView.of)

end Leases

end Soloist

/-! Lease mutual exclusion over every interleaving of lease operations, each carrying its own
clock reading. -/
namespace Soloist

inductive LeaseOp
  | acquire (project : ProjectId) (key : String) (owner : ProcessId) (ttl : Option Duration)
      (now : UInt64)
  | status (project : ProjectId) (key : String) (now : UInt64)
  | list (project : ProjectId) (now : UInt64)
  | release (project : ProjectId) (key : String) (owner : ProcessId)
  | close (owner : ProcessId)

/-- The clock reading an operation decides expiry with, if it reads the clock. -/
def LeaseOp.reading : LeaseOp → Option UInt64
  | .acquire _ _ _ _ now | .status _ _ now | .list _ now => some now
  | .release .. | .close _ => none

def LeaseOp.apply (t : LeaseTable) : LeaseOp → LeaseTable
  | .acquire project key owner ttl now => (Leases.acquire t project key owner ttl now).1
  | .status project key now => (Leases.status t project key now).1
  | .list _ _ => t
  | .release project key owner => (LeaseTable.release t project key owner).1
  | .close owner => (LeaseTable.releaseOwner t owner).1

/-- Leases under any interleaving of its callers: each operation is one atomic step. -/
def leaseMachine : Machine LeaseTable LeaseOp where
  init t := t = Table.empty
  step t op := some (op.apply t)

namespace LeaseTable

variable {t : LeaseTable} {project : ProjectId} {key : String} {now : UInt64}

theorem liveLocked_eq_some {l : StoredLease} :
    liveLocked t project key now = some l ↔
      ∃ r, t.get (project, key) = some r ∧ now.toInt64 < r.expiresUnixMillis ∧ r.toLease = l := by
  unfold liveLocked
  rw [map_eq_some_iff]
  constructor
  · rintro ⟨r, hr, hl⟩
    obtain ⟨hget, hlive⟩ := filter_eq_some_iff.mp hr
    exact ⟨r, hget, by simpa using hlive, hl⟩
  · rintro ⟨r, hget, hlive, hl⟩
    exact ⟨r, filter_eq_some_iff.mpr ⟨hget, by simpa using hlive⟩, hl⟩

variable {r : LeaseRow}

theorem grants_iff {c : StoredLease} :
    grants c now r = true ↔
      r.slot = (c.project, c.key) ∧ (r.expiresUnixMillis ≤ now.toInt64 ∨ r.owner = c.owner) :=
  decide_eq_true_iff

/-- Either the candidate is stored and every other key is untouched, the key having been free,
expired or the caller's; or nothing changes and the live holder is another process. -/
theorem acquire_cases (t : LeaseTable) (c : StoredLease) (now : UInt64) :
    ((acquire t c now).2 = none ∧ (acquire t c now).1.get (c.project, c.key) = some c.toRow ∧
      (∀ k ≠ (c.project, c.key), (acquire t c now).1.get k = t.get k) ∧
      ∀ l, liveLocked t c.project c.key now = some l → l.owner = c.owner) ∨
    ∃ l, acquire t c now = (t, some l) ∧ liveLocked t c.project c.key now = some l ∧
      l.owner ≠ c.owner := by
  unfold acquire
  split_ifs with hfree hgrant
  · left
    refine ⟨rfl, ?_, ?_, ?_⟩
    · rw [Table.get_insert, if_pos (StoredLease.slot_toRow c)]
    · intro k hk
      rw [Table.get_insert, if_neg (fun h => hk h.symm)]
    · intro l hl
      obtain ⟨r, hr, -, -⟩ := liveLocked_eq_some.mp hl
      exact absurd (Table.get_key hr) (hfree r (Table.get_mem hr))
  · left
    obtain ⟨r, hr, hg⟩ := List.any_eq_true.mp hgrant
    obtain ⟨hslot, hyields⟩ := grants_iff.mp hg
    have hget : t.get (c.project, c.key) = some r := Table.get_eq_some.mpr ⟨hr, hslot⟩
    refine ⟨rfl, ?_, ?_, ?_⟩
    · dsimp only
      rw [Table.get_update, hget, map_some, if_pos hg,
        StoredLease.overwrite_eq_toRow hslot]
    · intro k hk
      dsimp only
      rw [Table.get_update]
      cases hs : t.get k with
      | none => rfl
      | some s =>
        have hne : grants c now s ≠ true :=
          fun h => hk ((Table.get_key hs).symm.trans (grants_iff.mp h).1)
        rw [map_some, if_neg hne]
    · intro l hl
      obtain ⟨s, hs, hlive, rfl⟩ := liveLocked_eq_some.mp hl
      obtain rfl : r = s := some.inj (hget.symm.trans hs)
      rcases hyields with hexp | hown
      · exact absurd hexp (Int64.not_le.mpr hlive)
      · exact hown
  · right
    push Not at hfree
    obtain ⟨r, hr, hslot⟩ := hfree
    have hget : t.get (c.project, c.key) = some r := Table.get_eq_some.mpr ⟨hr, hslot⟩
    have hdeny : ¬ (r.expiresUnixMillis ≤ now.toInt64 ∨ r.owner = c.owner) := by
      intro h
      exact hgrant (List.any_eq_true.mpr ⟨r, hr, grants_iff.mpr ⟨hslot, h⟩⟩)
    rw [not_or] at hdeny
    have hlive : liveLocked t c.project c.key now = some r.toLease :=
      liveLocked_eq_some.mpr ⟨r, hget, Int64.not_le.mp hdeny.1, rfl⟩
    exact ⟨r.toLease, by rw [hlive], hlive, hdeny.2⟩

/-- Pruning removes only expired rows, so the live lease it reads is the one there was. -/
theorem live_get_of_live (p : ProjectId) (k : String) (hr : t.get (p, k) = some r)
    (hlive : now.toInt64 < r.expiresUnixMillis) :
    (live t project key now).1.get (p, k) = some r := by
  unfold live
  dsimp only
  rw [Table.get_delete, hr, filter_some_pos]
  have hle : ¬ r.expiresUnixMillis ≤ now.toInt64 := Int64.not_le.mpr hlive
  simp [hle]

variable {owner : ProcessId}

theorem release_get_of_ne (p : ProjectId) (k : String) (hr : t.get (p, k) = some r)
    (hne : (p, k) ≠ (project, key) ∨ r.owner ≠ owner) :
    (release t project key owner).1.get (p, k) = some r := by
  unfold release
  dsimp only
  rw [Table.get_delete, hr, filter_some_pos]
  have hslot : r.slot = (p, k) := Table.get_key hr
  have hheld : ¬ (r.slot = (project, key) ∧ r.owner = owner) := by
    rintro ⟨hs, ho⟩
    rcases hne with hne | hne
    · exact hne (hslot.symm.trans hs)
    · exact hne ho
  simp [hheld]

theorem releaseOwner_get_of_ne (p : ProjectId) (k : String) (hr : t.get (p, k) = some r)
    (hne : r.owner ≠ owner) : (releaseOwner t owner).1.get (p, k) = some r := by
  unfold releaseOwner
  dsimp only
  rw [Table.get_delete, hr, filter_some_pos]
  simp [hne]

end LeaseTable

/-- A lease live at the reading of a step keeps its owner through the step, unless that owner
released it or closed. A step without a reading is held to this at every instant. -/
def LeaseOp.OwnerKept (t : LeaseTable) (op : LeaseOp) : Prop :=
  ∀ project key now l, (∀ n ∈ op.reading, n = now) →
    LeaseTable.liveLocked t project key now = some l →
    (∃ r, (op.apply t).get (project, key) = some r ∧ r.owner = l.owner) ∨
      op = .release project key l.owner ∨ op = .close l.owner

/-- An acquire answers `Acquired` exactly when the candidate is what is stored, and otherwise
changes nothing and reports the live holder. -/
def LeaseOp.Reported (t : LeaseTable) : LeaseOp → Prop
  | .acquire project key owner ttl now =>
    ((∃ v, (Leases.acquire t project key owner ttl now).2 = .acquired v) ↔
      (Leases.acquire t project key owner ttl now).1.get (project, key) =
        some (Leases.candidate project key owner ttl now).toRow) ∧
    ∀ v, (Leases.acquire t project key owner ttl now).2 = .held v →
      (Leases.acquire t project key owner ttl now).1 = t ∧
        ∃ l, LeaseTable.liveLocked t project key now = some l ∧ v = .of l
  | _ => True

section Acquire
variable {t : LeaseTable} {project : ProjectId} {key : String} {owner : ProcessId}
  {ttl : Option Duration} {now : UInt64}

theorem Leases.acquire_of_granted
    (h : (LeaseTable.acquire t (candidate project key owner ttl now) now).2 = none) :
    acquire t project key owner ttl now =
      ((LeaseTable.acquire t (candidate project key owner ttl now) now).1,
        .acquired (.of (candidate project key owner ttl now))) := by
  unfold acquire
  dsimp only
  split
  next heq => rw [heq]
  next heq => rw [heq] at h; exact absurd h (some_ne_none _)

theorem Leases.acquire_of_denied {l : StoredLease}
    (h : LeaseTable.acquire t (candidate project key owner ttl now) now = (t, some l)) :
    acquire t project key owner ttl now = (t, .held (.of l)) := by
  unfold acquire
  dsimp only
  rw [h]

end Acquire

theorem LeaseOp.ownerKept (t : LeaseTable) (op : LeaseOp) : op.OwnerKept t := by
  intro project key now l hnow hl
  obtain ⟨r, hr, hlive, rfl⟩ := LeaseTable.liveLocked_eq_some.mp hl
  cases op with
  | acquire project' key' owner ttl now' =>
    obtain rfl : now' = now := hnow now' rfl
    left
    show ∃ r', (Leases.acquire t project' key' owner ttl now').1.get (project, key) = some r' ∧ _
    rcases LeaseTable.acquire_cases t (Leases.candidate project' key' owner ttl now') now' with
      ⟨hgrant, hself, hother, hown⟩ | ⟨l, hdeny, -, -⟩
    · rw [Leases.acquire_of_granted hgrant]
      by_cases hk : (project, key) = (project', key')
      · obtain ⟨rfl, rfl⟩ : project = project' ∧ key = key' := by simpa using hk
        exact ⟨_, hself, (hown _ hl).symm⟩
      · exact ⟨r, (hother _ hk).trans hr, rfl⟩
    · rw [Leases.acquire_of_denied hdeny]
      exact ⟨r, hr, rfl⟩
  | status project' key' now' =>
    obtain rfl : now' = now := hnow now' rfl
    exact .inl ⟨r, LeaseTable.live_get_of_live project key hr hlive, rfl⟩
  | list project' now' => exact .inl ⟨r, hr, rfl⟩
  | release project' key' owner =>
    by_cases h : (project, key) = (project', key') ∧ r.owner = owner
    · obtain ⟨hk, rfl⟩ := h
      obtain ⟨rfl, rfl⟩ : project = project' ∧ key = key' := by simpa using hk
      exact .inr (.inl rfl)
    · exact .inl ⟨r, LeaseTable.release_get_of_ne project key hr (not_and_or.mp h), rfl⟩
  | close owner =>
    by_cases h : r.owner = owner
    · subst h
      exact .inr (.inr rfl)
    · exact .inl ⟨r, LeaseTable.releaseOwner_get_of_ne project key hr h, rfl⟩

theorem LeaseOp.reported (t : LeaseTable) (op : LeaseOp) : op.Reported t := by
  cases op with
  | acquire project key owner ttl now =>
    dsimp only [LeaseOp.Reported]
    rcases LeaseTable.acquire_cases t (Leases.candidate project key owner ttl now) now with
      ⟨hgrant, hself, -, -⟩ | ⟨l, hdeny, hl, hne⟩
    · rw [Leases.acquire_of_granted hgrant]
      refine ⟨⟨fun _ => hself, fun _ => ⟨_, rfl⟩⟩, ?_⟩
      intro v hv
      exact AcquireOutcome.noConfusion hv
    · obtain ⟨r, hr, -, rfl⟩ := LeaseTable.liveLocked_eq_some.mp hl
      rw [Leases.acquire_of_denied hdeny]
      refine ⟨⟨?_, ?_⟩, ?_⟩
      · rintro ⟨v, hv⟩
        exact AcquireOutcome.noConfusion hv
      · intro hstored
        have hrow := some.inj (hr.symm.trans hstored)
        exact absurd (congrArg LeaseRow.owner hrow) hne
      · intro v hv
        exact ⟨rfl, r.toLease, hl, (AcquireOutcome.held.inj hv).symm⟩
  | _ => trivial

/-- Mutual exclusion along every run, from any table and for any clock readings. -/
theorem leases_mutually_exclusive (t : LeaseTable) (ops : List LeaseOp) :
    leaseMachine.Along (fun t op => op.OwnerKept t ∧ op.Reported t) t ops :=
  Machine.along_of_forall (fun t op => ⟨op.ownerKept t, op.reported t⟩) t ops

end Soloist
