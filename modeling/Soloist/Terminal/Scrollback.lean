import Soloist.Dict
import Soloist.Machine
import Soloist.Text

/-! Raw scrollback under a shared budget: each buffer keeps the newest bytes of what it ingested, and
sheds more of its own when the sum over all of them is over the global cap. The buffers share one
atomic counter and nothing else. -/
open List

namespace Soloist

def rawScrollbackBytes : ℕ := 256 * 1024

structure ScrollbackBudget where
  total : ℕ
  cap : ℕ
  deriving DecidableEq, Repr

namespace ScrollbackBudget

def new (cap : ℕ) : ScrollbackBudget := ⟨0, max cap 1⟩

def add (b : ScrollbackBudget) (n : ℕ) : ScrollbackBudget := { b with total := b.total + n }

/-- `fetch_sub`, which wraps around below zero. -/
def sub (b : ScrollbackBudget) (n : ℕ) : ScrollbackBudget :=
  { b with total := if n ≤ b.total then b.total - n else b.total + 2 ^ 64 - n }

/-- How far the aggregate exceeds the global cap. -/
def overflow (b : ScrollbackBudget) : ℕ := b.total - b.cap

end ScrollbackBudget

structure RawScrollback where
  cap : ℕ
  bytes : Bytes
  deriving DecidableEq, Repr

namespace RawScrollback

def new (cap : ℕ) : RawScrollback := ⟨max cap 1, []⟩

def dropFront (r : RawScrollback) (n : ℕ) : RawScrollback := { r with bytes := r.bytes.drop n }

/-- How many bytes an `extend` drops for the buffer's own cap. -/
def excess (r : RawScrollback) (data : Bytes) : ℕ := r.bytes.length + data.length - r.cap

def append (r : RawScrollback) (data : Bytes) : RawScrollback :=
  { r with bytes := (r.bytes ++ data).drop (r.excess data) }

/-- How many bytes it drops for the global cap, when the aggregate is over by `overflow`. -/
def shed (r : RawScrollback) (overflow : ℕ) : ℕ := min overflow r.bytes.length

/-- `extend`, which reads the aggregate's overflow once its own share is in it. -/
def extend (r : RawScrollback) (data : Bytes) (overflow : ℕ) : RawScrollback :=
  let trimmed := r.append data
  trimmed.dropFront (trimmed.shed overflow)

def clear (r : RawScrollback) : RawScrollback := { r with bytes := [] }

end RawScrollback

/-- Where an `extend` stands between two accesses to the counter. The buffer is its writer's alone
until it is done. -/
inductive Extend
  | resting
  /-- Over its own cap; the dropped bytes are still to be subtracted. -/
  | trimmed (n : ℕ)
  /-- About to read the overflow. -/
  | measuring
  /-- Dropped for the global cap, and still to be subtracted. -/
  | shedding (n : ℕ)
  deriving DecidableEq, Repr

/-- What the counter still holds of the bytes already dropped. -/
def Extend.owed : Extend → ℕ
  | .trimmed n | .shedding n => n
  | .resting | .measuring => 0

/-- A live buffer, with everything it ingested since its last clear. -/
structure SharedBuffer where
  raw : RawScrollback
  stage : Extend
  ingested : Bytes
  deriving DecidableEq, Repr

structure Scrollbacks where
  budget : ScrollbackBudget
  buffers : Dict ℕ SharedBuffer

/-- One access to the shared counter, with the work its buffer does around it. -/
inductive ScrollbackEvent
  | create (buffer cap : ℕ)
  /-- `extend` appends its bytes, adds them and applies the buffer's own cap. -/
  | add (buffer : ℕ) (data : Bytes)
  /-- Subtracts what was dropped. -/
  | sub (buffer : ℕ)
  /-- Reads the overflow and drops that much. -/
  | read (buffer : ℕ)
  | clear (buffer : ℕ)
  | drop (buffer : ℕ)

namespace Scrollbacks

def new (cap : ℕ) : Scrollbacks := ⟨.new cap, ∅⟩

def put (s : Scrollbacks) (buffer : ℕ) (budget : ScrollbackBudget) (b : SharedBuffer) :
    Scrollbacks :=
  ⟨budget, AList.insert buffer b s.buffers⟩

def step (s : Scrollbacks) : ScrollbackEvent → Option Scrollbacks
  | .create buffer cap =>
    match s.buffers.lookup buffer with
    | none => some (s.put buffer s.budget ⟨.new cap, .resting, []⟩)
    | some _ => none
  | .add buffer data =>
    match s.buffers.lookup buffer with
    | some ⟨raw, .resting, ingested⟩ =>
      let stage := if 0 < raw.excess data then .trimmed (raw.excess data) else .measuring
      some (s.put buffer (s.budget.add data.length) ⟨raw.append data, stage, ingested ++ data⟩)
    | _ => none
  | .sub buffer =>
    match s.buffers.lookup buffer with
    | some ⟨raw, .trimmed n, ingested⟩ =>
      some (s.put buffer (s.budget.sub n) ⟨raw, .measuring, ingested⟩)
    | some ⟨raw, .shedding n, ingested⟩ =>
      some (s.put buffer (s.budget.sub n) ⟨raw, .resting, ingested⟩)
    | _ => none
  | .read buffer =>
    match s.buffers.lookup buffer with
    | some ⟨raw, .measuring, ingested⟩ =>
      let n := raw.shed s.budget.overflow
      let stage := if 0 < n then .shedding n else .resting
      some (s.put buffer s.budget ⟨raw.dropFront n, stage, ingested⟩)
    | _ => none
  | .clear buffer =>
    match s.buffers.lookup buffer with
    | some ⟨raw, .resting, _⟩ =>
      some (s.put buffer (s.budget.sub raw.bytes.length) ⟨raw.clear, .resting, []⟩)
    | _ => none
  | .drop buffer =>
    match s.buffers.lookup buffer with
    | some ⟨raw, .resting, _⟩ =>
      some ⟨s.budget.sub raw.bytes.length, AList.erase buffer s.buffers⟩
    | _ => none

def subtracts (s : Scrollbacks) : ScrollbackEvent → ℕ
  | .sub buffer => (s.buffers.lookup buffer).elim 0 fun b => b.stage.owed
  | .clear buffer | .drop buffer =>
    (s.buffers.lookup buffer).elim 0 fun b => b.raw.bytes.length
  | .create _ _ | .add _ _ | .read _ => 0

def retained (s : Scrollbacks) : ℕ := Dict.total (fun _ b => b.raw.bytes.length) s.buffers

def Quiet (s : Scrollbacks) : Prop := ∀ b ∈ s.buffers.entries, b.2.stage = .resting

instance : DecidablePred Quiet := fun s =>
  inferInstanceAs (Decidable (∀ b ∈ s.buffers.entries, b.2.stage = .resting))

end Scrollbacks

/-- Any number of buffers, ingesting, clearing and being dropped in any interleaving. -/
def scrollbackMachine (cap : ℕ) : Machine Scrollbacks ScrollbackEvent where
  init s := s = .new cap
  step := Scrollbacks.step

namespace RawScrollback
variable {r : RawScrollback} {data ingested : Bytes} {n : ℕ}

@[simp] theorem length_append :
    (r.append data).bytes.length = min (r.bytes.length + data.length) r.cap := by
  unfold append excess
  rw [length_drop, List.length_append]
  omega

@[simp] theorem length_dropFront : (r.dropFront n).bytes.length = r.bytes.length - n :=
  length_drop

theorem suffix_append (h : r.bytes <:+ ingested) : (r.append data).bytes <:+ ingested ++ data := by
  have hall : r.bytes ++ data <:+ ingested ++ data := by
    obtain ⟨before, rfl⟩ := h
    exact ⟨before, (append_assoc before r.bytes data).symm⟩
  exact (drop_suffix _ _).trans hall

theorem suffix_dropFront (h : r.bytes <:+ ingested) : (r.dropFront n).bytes <:+ ingested :=
  (drop_suffix _ _).trans h

theorem suffix_extend (h : r.bytes <:+ ingested) (overflow : ℕ) :
    (r.extend data overflow).bytes <:+ ingested ++ data :=
  suffix_dropFront (suffix_append h)

end RawScrollback

namespace SharedBuffer

def accounted (b : SharedBuffer) : ℕ := b.raw.bytes.length + b.stage.owed

/-- What a buffer keeps once it has read the overflow; one that has not may still shed it all. -/
def settled (b : SharedBuffer) : ℕ :=
  match b.stage with
  | .resting | .shedding _ => b.raw.bytes.length
  | .trimmed _ | .measuring => 0

theorem settled_le_accounted (b : SharedBuffer) : b.settled ≤ b.accounted := by
  unfold settled accounted
  split
  · exact Nat.le_add_right _ _
  · exact Nat.le_add_right _ _
  · exact Nat.zero_le _
  · exact Nat.zero_le _

/-- The newest of what was ingested, within the buffer's own cap. -/
structure Bounded (b : SharedBuffer) : Prop where
  suffix : b.raw.bytes <:+ b.ingested
  capped : b.raw.bytes.length ≤ b.raw.cap

end SharedBuffer

namespace Scrollbacks

/-- The counter is what the buffers have in it, and those that have read the overflow fit under the
cap. -/
structure Balanced (s : Scrollbacks) : Prop where
  total : s.budget.total = Dict.total (fun _ b => b.accounted) s.buffers
  settled : Dict.total (fun _ b => b.settled) s.buffers ≤ s.budget.cap
  bounded : ∀ buffer b, s.buffers.lookup buffer = some b → b.Bounded

variable {s t : Scrollbacks} {buffer cap : ℕ} {b b' : SharedBuffer} {budget : ScrollbackBudget}

theorem total_put (f : SharedBuffer → ℕ) (h : s.buffers.lookup buffer = some b) :
    Dict.total (fun _ b => f b) (s.put buffer budget b').buffers + f b =
      Dict.total (fun _ b => f b) s.buffers + f b' := by
  have htotal := Dict.total_insert (fun _ b => f b) s.buffers buffer b'
  rw [h] at htotal
  exact htotal

theorem lookup_put (buffer' : ℕ) :
    (s.put buffer budget b').buffers.lookup buffer' =
      if buffer' = buffer then some b' else s.buffers.lookup buffer' :=
  Dict.lookup_insert s.buffers buffer buffer' b'

/-- A buffer that goes on keeps the balance, when its share of the counter and of what is settled
moves as the counter does. -/
theorem Balanced.put (hs : s.Balanced) (h : s.buffers.lookup buffer = some b)
    (hcap : budget.cap = s.budget.cap)
    (htotal : budget.total + b.accounted = s.budget.total + b'.accounted)
    (hsettled : Dict.total (fun _ b => b.settled) s.buffers + b'.settled ≤
      s.budget.cap + b.settled)
    (hbounded : b'.Bounded) : (s.put buffer budget b').Balanced where
  total := by
    have hput := @total_put s buffer b b' budget SharedBuffer.accounted h
    have hbalance := hs.total
    show budget.total = _
    omega
  settled := by
    have hput := @total_put s buffer b b' budget SharedBuffer.settled h
    show _ ≤ budget.cap
    omega
  bounded := by
    intro buffer' b'' hb''
    rw [lookup_put] at hb''
    split_ifs at hb''
    · exact Option.some.inj hb'' ▸ hbounded
    · exact hs.bounded buffer' b'' hb''

theorem Balanced.accounted_le (hs : s.Balanced) (h : s.buffers.lookup buffer = some b) :
    b.accounted ≤ s.budget.total := by
  have hle := Dict.le_total (fun _ b => SharedBuffer.accounted b) h
  rw [← hs.total] at hle
  exact hle

theorem total_sub {n : ℕ} (h : n ≤ s.budget.total) : (s.budget.sub n).total = s.budget.total - n :=
  if_pos h

theorem Balanced.create (hs : s.Balanced) (h : s.buffers.lookup buffer = none) (rawCap : ℕ) :
    (s.put buffer s.budget ⟨.new rawCap, .resting, []⟩).Balanced where
  total := by
    have htotal := Dict.total_insert (fun _ b => SharedBuffer.accounted b) s.buffers buffer
      ⟨.new rawCap, .resting, []⟩
    rw [h] at htotal
    have hempty : (⟨.new rawCap, .resting, []⟩ : SharedBuffer).accounted = 0 := rfl
    have hbalance := hs.total
    show s.budget.total = Dict.total _ (AList.insert buffer _ s.buffers)
    simp only [Option.elim_none] at htotal
    omega
  settled := by
    have htotal := Dict.total_insert (fun _ b => SharedBuffer.settled b) s.buffers buffer
      ⟨.new rawCap, .resting, []⟩
    rw [h] at htotal
    have hempty : (⟨.new rawCap, .resting, []⟩ : SharedBuffer).settled = 0 := rfl
    have hsettled := hs.settled
    show Dict.total _ (AList.insert buffer _ s.buffers) ≤ s.budget.cap
    simp only [Option.elim_none] at htotal
    omega
  bounded := by
    intro buffer' b' hb'
    rw [lookup_put] at hb'
    split_ifs at hb'
    · cases hb'
      exact ⟨nil_suffix, Nat.zero_le _⟩
    · exact hs.bounded buffer' b' hb'

variable {raw : RawScrollback} {ingested : Bytes}

variable (hs : s.Balanced)
include hs

theorem Balanced.add {data : Bytes}
    (h : s.buffers.lookup buffer = some ⟨raw, .resting, ingested⟩) :
    (s.put buffer (s.budget.add data.length)
      ⟨raw.append data, if 0 < raw.excess data then .trimmed (raw.excess data) else .measuring,
        ingested ++ data⟩).Balanced := by
  have hold := hs.bounded buffer _ h
  apply hs.put h
  · rfl
  · show s.budget.total + data.length + (raw.bytes.length + 0) = s.budget.total + (_ + _)
    rw [RawScrollback.length_append]
    unfold RawScrollback.excess
    split_ifs with hover
    · simp only [Extend.owed]
      omega
    · simp only [Extend.owed]
      omega
  · have hle := hs.settled
    have hzero : ∀ stage, stage = Extend.measuring ∨ (∃ n, stage = .trimmed n) →
        (⟨raw.append data, stage, ingested ++ data⟩ : SharedBuffer).settled = 0 := by
      rintro stage (rfl | ⟨n, rfl⟩) <;> rfl
    rw [hzero]
    · omega
    · split_ifs
      · exact .inr ⟨_, rfl⟩
      · exact .inl rfl
  · constructor
    · exact RawScrollback.suffix_append hold.suffix
    · show (raw.append data).bytes.length ≤ raw.cap
      rw [RawScrollback.length_append]
      exact Nat.min_le_right _ _

/-- The last to read finds in the counter all that the others keep. -/
theorem Balanced.read
    (h : s.buffers.lookup buffer = some ⟨raw, .measuring, ingested⟩) :
    (s.put buffer s.budget
      ⟨raw.dropFront (raw.shed s.budget.overflow),
        if 0 < raw.shed s.budget.overflow then .shedding (raw.shed s.budget.overflow)
          else .resting, ingested⟩).Balanced := by
  have hold := hs.bounded buffer _ h
  have hshed : raw.shed s.budget.overflow ≤ raw.bytes.length := Nat.min_le_right _ _
  have howed : (if 0 < raw.shed s.budget.overflow then Extend.shedding (raw.shed s.budget.overflow)
      else .resting).owed = raw.shed s.budget.overflow := by
    split_ifs with hpos
    · rfl
    · exact (Nat.eq_zero_of_not_pos hpos).symm
  apply hs.put h rfl
  · show s.budget.total + (raw.bytes.length + 0) = s.budget.total + (_ + _)
    rw [howed, RawScrollback.length_dropFront]
    omega
  · have hkeeps : (⟨raw.dropFront (raw.shed s.budget.overflow),
        if 0 < raw.shed s.budget.overflow then .shedding (raw.shed s.budget.overflow)
          else .resting, ingested⟩ : SharedBuffer).settled =
        raw.bytes.length - raw.shed s.budget.overflow := by
      unfold SharedBuffer.settled
      rw [RawScrollback.length_dropFront]
      split_ifs <;> rfl
    rw [hkeeps]
    have hothers : Dict.total (fun _ b => b.settled) s.buffers + raw.bytes.length ≤
        s.budget.total := by
      have hrest := Dict.total_erase (fun _ b => SharedBuffer.settled b) s.buffers buffer
      have hacc := Dict.total_erase (fun _ b => SharedBuffer.accounted b) s.buffers buffer
      have hle : Dict.total (fun _ b => b.settled) (s.buffers.erase buffer) ≤
          Dict.total (fun _ b => b.accounted) (s.buffers.erase buffer) :=
        Dict.total_le_total (fun _ b => SharedBuffer.settled_le_accounted b) _
      have hnone : (⟨raw, .measuring, ingested⟩ : SharedBuffer).settled = 0 := rfl
      have hmine : (⟨raw, .measuring, ingested⟩ : SharedBuffer).accounted = raw.bytes.length := rfl
      simp only [h, Option.elim_some, hnone, hmine] at hrest hacc
      have hbalance := hs.total
      omega
    have hsettled := hs.settled
    have hunread : (⟨raw, .measuring, ingested⟩ : SharedBuffer).settled = 0 := rfl
    rw [hunread]
    unfold RawScrollback.shed ScrollbackBudget.overflow
    omega
  · constructor
    · exact RawScrollback.suffix_dropFront hold.suffix
    · have hcapped : raw.bytes.length ≤ raw.cap := hold.capped
      show (raw.dropFront _).bytes.length ≤ raw.cap
      rw [RawScrollback.length_dropFront]
      omega

theorem Balanced.sub {n : ℕ}
    {stage stage' : Extend} (h : s.buffers.lookup buffer = some ⟨raw, stage, ingested⟩)
    (howed : stage.owed = n) (hdone : stage'.owed = 0)
    (hsettled : (⟨raw, stage', ingested⟩ : SharedBuffer).settled =
      (⟨raw, stage, ingested⟩ : SharedBuffer).settled) :
    (s.put buffer (s.budget.sub n) ⟨raw, stage', ingested⟩).Balanced := by
  have hheld : raw.bytes.length + stage.owed ≤ s.budget.total := hs.accounted_le h
  have hold := hs.bounded buffer _ h
  apply hs.put h
  · rfl
  · show (s.budget.sub n).total + (raw.bytes.length + stage.owed) =
      s.budget.total + (raw.bytes.length + stage'.owed)
    rw [total_sub (by omega)]
    omega
  · have hle := hs.settled
    rw [hsettled]
    omega
  · exact ⟨hold.suffix, hold.capped⟩

theorem Balanced.clear
    (h : s.buffers.lookup buffer = some ⟨raw, .resting, ingested⟩) :
    (s.put buffer (s.budget.sub raw.bytes.length) ⟨raw.clear, .resting, []⟩).Balanced := by
  have hheld : raw.bytes.length ≤ s.budget.total := hs.accounted_le h
  apply hs.put h
  · rfl
  · show (s.budget.sub raw.bytes.length).total + (raw.bytes.length + 0) = s.budget.total + (0 + 0)
    rw [total_sub hheld]
    omega
  · have hle := hs.settled
    show _ + 0 ≤ s.budget.cap + raw.bytes.length
    omega
  · exact ⟨nil_suffix, Nat.zero_le _⟩

theorem Balanced.drop
    (h : s.buffers.lookup buffer = some ⟨raw, .resting, ingested⟩) :
    Balanced ⟨s.budget.sub raw.bytes.length, AList.erase buffer s.buffers⟩ where
  total := by
    have hheld : raw.bytes.length ≤ s.budget.total := hs.accounted_le h
    have hacc := Dict.total_erase (fun _ b => SharedBuffer.accounted b) s.buffers buffer
    have hmine : (⟨raw, .resting, ingested⟩ : SharedBuffer).accounted = raw.bytes.length := rfl
    simp only [h, Option.elim_some, hmine] at hacc
    have hbalance := hs.total
    show (s.budget.sub raw.bytes.length).total = Dict.total _ (AList.erase buffer s.buffers)
    rw [total_sub hheld]
    omega
  settled := by
    have hrest := Dict.total_erase (fun _ b => SharedBuffer.settled b) s.buffers buffer
    have hle := hs.settled
    show Dict.total _ (AList.erase buffer s.buffers) ≤ s.budget.cap
    omega
  bounded := by
    intro buffer' b' hb'
    rw [Dict.lookup_erase] at hb'
    split_ifs at hb'
    exact hs.bounded buffer' b' hb'

theorem Balanced.step (e : ScrollbackEvent) (ht : s.step e = some t) :
    t.Balanced := by
  cases e with
  | create buffer rawCap =>
    simp only [Scrollbacks.step] at ht
    split at ht
    next hnone =>
      cases ht
      exact hs.create hnone rawCap
    next => cases ht
  | add buffer data =>
    simp only [Scrollbacks.step] at ht
    split at ht
    next raw ingested hlookup =>
      cases ht
      exact hs.add hlookup
    next => cases ht
  | sub buffer =>
    simp only [Scrollbacks.step] at ht
    split at ht
    next raw n ingested hlookup =>
      cases ht
      exact hs.sub hlookup rfl rfl rfl
    next raw n ingested hlookup =>
      cases ht
      exact hs.sub hlookup rfl rfl rfl
    next => cases ht
  | read buffer =>
    simp only [Scrollbacks.step] at ht
    split at ht
    next raw ingested hlookup =>
      cases ht
      exact hs.read hlookup
    next => cases ht
  | clear buffer =>
    simp only [Scrollbacks.step] at ht
    split at ht
    next raw ingested hlookup =>
      cases ht
      exact hs.clear hlookup
    next => cases ht
  | drop buffer =>
    simp only [Scrollbacks.step] at ht
    split at ht
    next raw ingested hlookup =>
      cases ht
      exact hs.drop hlookup
    next => cases ht

omit hs

theorem balanced_new (cap : ℕ) : (new cap).Balanced where
  total := rfl
  settled := Nat.zero_le _
  bounded := by
    intro buffer b hb
    cases hb

theorem Balanced.subtracts_le (hs : s.Balanced) (e : ScrollbackEvent) :
    s.subtracts e ≤ s.budget.total := by
  have hbuffer : ∀ buffer, (s.buffers.lookup buffer).elim 0 SharedBuffer.accounted ≤
      s.budget.total := by
    intro buffer
    cases h : s.buffers.lookup buffer with
    | none => exact Nat.zero_le _
    | some b => exact hs.accounted_le h
  cases e with
  | create | add | read => exact Nat.zero_le _
  | sub buffer =>
    refine le_trans ?_ (hbuffer buffer)
    simp only [subtracts]
    cases s.buffers.lookup buffer with
    | none => exact Nat.zero_le _
    | some b => exact Nat.le_add_left b.stage.owed b.raw.bytes.length
  | clear buffer | drop buffer =>
    refine le_trans ?_ (hbuffer buffer)
    simp only [subtracts]
    cases s.buffers.lookup buffer with
    | none => exact Nat.zero_le _
    | some b => exact Nat.le_add_right b.raw.bytes.length b.stage.owed

theorem Quiet.totals (hquiet : s.Quiet) :
    Dict.total (fun _ b => b.accounted) s.buffers = s.retained ∧
      Dict.total (fun _ b => b.settled) s.buffers = s.retained := by
  have hsum : ∀ f : SharedBuffer → ℕ, (∀ b : SharedBuffer, b.stage = .resting →
      f b = b.raw.bytes.length) → Dict.total (fun _ b => f b) s.buffers = s.retained := by
    intro f hf
    unfold retained Dict.total
    exact congrArg List.sum (map_congr_left fun e he => hf e.2 (hquiet e he))
  constructor
  · apply hsum
    intro b hb
    simp [SharedBuffer.accounted, hb, Extend.owed]
  · apply hsum
    intro b hb
    simp [SharedBuffer.settled, hb]

theorem balanced_of_reachable (h : (scrollbackMachine cap).Reachable s) : s.Balanced := by
  refine h.invariant ?_ fun s e t hs ht => hs.step e ht
  rintro s rfl
  exact balanced_new cap

end Scrollbacks

/-- The counter never underflows; with no operation in progress it is the sum of what the buffers
retain, within the global cap; and every buffer holds the newest of what it ingested since its last
clear, within its own. -/
theorem scrollback_within_budget {cap : ℕ} {s : Scrollbacks}
    (h : (scrollbackMachine cap).Reachable s) :
    (∀ e, s.subtracts e ≤ s.budget.total) ∧
      (s.Quiet → s.budget.total = s.retained ∧ s.budget.total ≤ s.budget.cap) ∧
      ∀ buffer b, s.buffers.lookup buffer = some b →
        b.raw.bytes <:+ b.ingested ∧ b.raw.bytes.length ≤ b.raw.cap := by
  have hs := Scrollbacks.balanced_of_reachable h
  refine ⟨hs.subtracts_le, ?_, ?_⟩
  · intro hquiet
    obtain ⟨haccounted, hsettled⟩ := hquiet.totals
    have hbalance := hs.total
    have hcap := hs.settled
    constructor <;> omega
  · intro buffer b hb
    have hbounded := hs.bounded buffer b hb
    exact ⟨hbounded.suffix, hbounded.capped⟩

/-- Two buffers that fill the budget together, each reading the other's share. -/
def racingWriters : List ScrollbackEvent :=
  [.create 0 8, .create 1 8, .add 0 [1, 2, 3], .add 1 [4, 5, 6], .read 0, .read 1, .sub 1, .sub 0]

theorem scrollback_within_budget_racing :
    ∃ s, (scrollbackMachine 4).Reachable s ∧ s.Quiet ∧ s.retained = 2 ∧
      s.budget.total = s.retained ∧ s.budget.total ≤ s.budget.cap := by
  obtain ⟨s, hs, hquiet, hretained⟩ := Machine.exists_reachable_of_run (M := scrollbackMachine 4) rfl
    racingWriters (fun s => s.Quiet ∧ s.retained = 2) (by decide)
  exact ⟨s, hs, hquiet, hretained, (scrollback_within_budget hs).2.1 hquiet⟩

end Soloist

/-! One process's terminal buffers. The escape-sequence parser stays outside: what it makes of a
chunk comes with the chunk. -/
namespace Soloist

def restartBanner : Bytes :=
  "\r\n\x1b[2m──────────  restarted  ──────────\x1b[0m\r\n".toUTF8.toList

/-- A semantic event extracted from the output. -/
inductive TerminalSignal
  | title (title : String)
  | bell
  | notify (title : Option String) (body : String)
  deriving DecidableEq, Repr

def TerminalSignal.title? : TerminalSignal → Option String
  | .title text => some text
  | .bell | .notify _ _ => none

/-- A snapshot of a terminal's liveness signals. -/
structure TerminalActivity where
  outputSeq : ℕ
  title : Option String
  tail : List String
  deriving DecidableEq, Repr

structure TerminalBuffers where
  raw : RawScrollback
  /-- The bytes ever ingested, in a saturating `u64`. -/
  outputSeq : ℕ
  lastTitle : Option String
  deriving DecidableEq, Repr

namespace TerminalBuffers

def shared : TerminalBuffers := ⟨.new rawScrollbackBytes, 0, none⟩

/-- Feeds a chunk through the buffers, when the parser finds `signals` in it and the budget reads
`overflow`; the latest title stays readable. -/
def ingest (b : TerminalBuffers) (data : Bytes) (signals : List TerminalSignal) (overflow : ℕ) :
    TerminalBuffers where
  raw := b.raw.extend data overflow
  outputSeq := min (b.outputSeq + data.length) (2 ^ 64 - 1)
  lastTitle := (signals.reverse.findSome? TerminalSignal.title?).or b.lastTitle

def hasOutput (b : TerminalBuffers) : Bool := !b.raw.bytes.isEmpty

/-- Empties the views; the counter and the title are left. -/
def clear (b : TerminalBuffers) : TerminalBuffers := { b with raw := b.raw.clear }

/-- What the idle classifier samples, with the tail of the rendered view. -/
def activity (b : TerminalBuffers) (tail : List String) : TerminalActivity :=
  ⟨b.outputSeq, b.lastTitle, tail⟩

end TerminalBuffers

end Soloist
