import Mathlib.Algebra.Order.Group.Nat

/-! Wall-clock arithmetic on milliseconds, kept in signed 64-bit columns. -/
namespace Soloist

def saturatingAdd (a b : UInt64) : UInt64 :=
  if a.toNat + b.toNat < 2 ^ 64 then a + b else UInt64.ofNat (2 ^ 64 - 1)

variable {now : UInt64}

/-- The signed column holds an instant below `2 ^ 63` as it is. -/
theorem toInt_toInt64 (h : now.toNat < 2 ^ 63) : now.toInt64.toInt = now.toNat :=
  BitVec.toInt_eq_toNat_of_lt (show 2 * now.toNat < 2 ^ 64 by omega)

/-- An instant that is not negative in its column is read back as it is. -/
theorem toNat_toUInt64 {x : Int64} (h : 0 ≤ x.toInt) : (x.toUInt64.toNat : ℤ) = x.toInt := by
  have hcases : x.toInt =
      if 2 * x.toUInt64.toNat < 2 ^ 64 then (x.toUInt64.toNat : ℤ)
      else (x.toUInt64.toNat : ℤ) - (2 ^ 64 : ℕ) :=
    BitVec.toInt_eq_toNat_cond x.toBitVec
  have hlt := x.toUInt64.toNat_lt
  split_ifs at hcases with hx
  · omega
  · omega

theorem toInt_saturatingAdd {n : ℕ} (h : now.toNat + n < 2 ^ 63) :
    (saturatingAdd now (UInt64.ofNat n)).toInt64.toInt = now.toNat + n := by
  have hn : (UInt64.ofNat n).toNat = n :=
    UInt64.toNat_ofNat_of_lt' (show n < 2 ^ 64 by omega)
  have hadd : (now + UInt64.ofNat n).toNat = now.toNat + n := by
    rw [UInt64.toNat_add, hn]
    omega
  rw [saturatingAdd, if_pos (by omega), toInt_toInt64 (by omega), hadd, Int.natCast_add]

end Soloist

/-! Countdowns that can be halted and taken up again. What is left of one is what it was set to
less the time it has run, however often it was halted. -/

/-- A countdown of `total`: how long the stretches that are over ran, and when the one that is
running began. -/
structure Countdown where
  total : ℕ
  spent : ℕ
  since : Option ℕ
  deriving DecidableEq, Repr

namespace Countdown

def start (total now : ℕ) : Countdown := ⟨total, 0, some now⟩

def ran (c : Countdown) (now : ℕ) : ℕ := c.spent + c.since.elim 0 (now - ·)

def left (c : Countdown) (now : ℕ) : ℕ := c.total - c.ran now

def halt (c : Countdown) (now : ℕ) : Countdown := { c with spent := c.ran now, since := none }

def take (c : Countdown) (now : ℕ) : Countdown := { c with since := some now }

def running (c : Countdown) : Prop := c.since.isSome

instance (c : Countdown) : Decidable c.running := inferInstanceAs (Decidable (_ = true))

variable {c : Countdown} {t now : ℕ}

theorem left_halted (h : c.since = none) : c.left now = c.total - c.spent := by
  simp [left, ran, h]

theorem left_running (h : c.since = some t) : c.left now = c.total - c.spent - (now - t) := by
  simp only [left, ran, h, Option.elim_some]
  omega

end Countdown
