import TermGraph.Power

/-!
# Binary floating-point words

A binary float is kept as its bit pattern and as nothing else, so that
the sign of a zero and the payload of a NaN survive every operation and
two floats are the same value here exactly when their bits agree.

The bits below the sign, read as one number, are the **magnitude**. They
grow with the absolute value: through the subnormal and normal numbers,
to infinity, and on to the NaNs. Absolute values are measured in
**units**, the least positive value of the precision, in which every
finite float is a natural number; `units` is that number, and it
continues past infinity without a break, which is what lets rounding
treat overflow as an ordinary case.

The order of floats is that of `rank`: the magnitude of a positive float,
and counted down from `-1` for a negative one. It is total, it tells
apart floats that differ in any bit, and it follows the values.
-/

namespace TermGraph

open scoped Power

/-- The two widths of binary float. -/
inductive Precision where
  /-- 32 bits, of which 23 are the fraction. -/
  | single
  /-- 64 bits, of which 52 are the fraction. -/
  | double
deriving DecidableEq

namespace Precision

/-- The number of bits of the fraction. -/
def fractionBits : Precision → Nat
  | single => 23
  | double => 52

/-- The number of bits of the exponent field. -/
def exponentBits : Precision → Nat
  | single => 8
  | double => 11

/-- The number of bits below the sign. -/
def magnitudeBits (p : Precision) : Nat := p.exponentBits + p.fractionBits

/-- The number of bits. -/
def width (p : Precision) : Nat := p.magnitudeBits + 1

/-- The unit of the precision is `2` to the power of minus this. -/
def unitScale (p : Precision) : Nat :=
  2 ^ (p.exponentBits - 1) - 2 + p.fractionBits

/-- The magnitude of infinity: the exponent field full, the fraction
empty. The NaNs are the magnitudes above. -/
def infinity (p : Precision) : Nat :=
  (2 ^ p.exponentBits - 1) * 2 ^ p.fractionBits

/-- **The absolute value of a magnitude, in units.** An empty exponent
field leaves the fraction as it is; any other adds the leading bit and
shifts. -/
def units (p : Precision) (m : Nat) : Nat :=
  let exponent := m / 2 ^ p.fractionBits
  let fraction := m % 2 ^ p.fractionBits
  if exponent = 0 then fraction
  else (2 ^ p.fractionBits + fraction) * 2 ^ (exponent - 1)

/-- Units grow strictly with the magnitude. -/
theorem units_lt_units_succ (p : Precision) (m : Nat) :
    p.units m < p.units (m + 1) := by
  have hpos : 0 < 2 ^ p.fractionBits := Nat.two_pow_pos _
  simp only [units]
  generalize 2 ^ p.fractionBits = f at hpos
  have hdiv := Nat.div_add_mod m f
  have hmod := Nat.mod_lt m hpos
  -- Either the fraction is full and the exponent moves on, or it is not.
  by_cases hwrap : m % f + 1 = f
  · have hsucc : m + 1 = f * (m / f + 1) := by
      rw [Nat.mul_add, Nat.mul_one]; omega
    have hq : (m + 1) / f = m / f + 1 := by
      rw [hsucc, Nat.mul_div_cancel_left _ hpos]
    have hr : (m + 1) % f = 0 := by
      rw [hsucc, Nat.mul_mod_right]
    rw [hq, hr]
    by_cases hz : m / f = 0
    · simp [hz, hmod]
    · rw [if_neg hz, if_neg (Nat.succ_ne_zero _), Nat.add_sub_cancel]
      obtain ⟨e, he⟩ := Nat.exists_eq_succ_of_ne_zero hz
      rw [he, Nat.succ_sub_one, Nat.succ_eq_add_one, Nat.pow_succ,
        Nat.mul_comm (2 ^ e) 2, ← Nat.mul_assoc]
      exact Nat.mul_lt_mul_of_pos_right (by omega) (Nat.two_pow_pos _)
  · have hq : (m + 1) / f = m / f := by
      rw [Nat.div_eq_iff hpos, Nat.mul_comm]
      omega
    have hr : (m + 1) % f = m % f + 1 := by
      have h1 := Nat.div_add_mod (m + 1) f
      rw [hq] at h1
      omega
    rw [hq, hr]
    by_cases hz : m / f = 0
    · simp [hz]
    · rw [if_neg hz, if_neg hz]
      exact Nat.mul_lt_mul_of_pos_right (by omega) (Nat.two_pow_pos _)

end Precision

/-- **A binary float**, as its bits. -/
structure Binary (p : Precision) where
  /-- The sign, the exponent field and the fraction, high to low. -/
  bits : BitVec p.width
deriving DecidableEq

namespace Binary

variable {p : Precision}

/-- The float with the bits of `n`. -/
def ofNat (p : Precision) (n : Nat) : Binary p := ⟨BitVec.ofNat p.width n⟩

/-- The float with a given sign and magnitude. -/
def ofMagnitude (p : Precision) (negative : Bool) (m : Nat) : Binary p :=
  ofNat p (if negative then 2 ^ p.magnitudeBits + m else m)

/-- The bits as a number. -/
def toNat (x : Binary p) : Nat := x.bits.toNat

/-- Whether the sign bit is set. -/
def isNegative (x : Binary p) : Bool := 2 ^ p.magnitudeBits ≤ x.toNat

/-- The bits below the sign. -/
def magnitude (x : Binary p) : Nat := x.toNat % 2 ^ p.magnitudeBits

/-- Whether the float is no number. -/
def isNaN (x : Binary p) : Bool := p.infinity < x.magnitude

/-- Whether the float is a number below infinity. -/
def isFinite (x : Binary p) : Bool := x.magnitude < p.infinity

/-- Whether the float is a zero of either sign. -/
def isZero (x : Binary p) : Bool := x.magnitude = 0

/-- The absolute value in units. -/
def units (x : Binary p) : Nat := p.units x.magnitude

/-- **The place of a float in the total order.** -/
def rank (x : Binary p) : Int :=
  if x.isNegative then -1 - (x.magnitude : Int) else x.magnitude

/-- Floats are ordered by rank. -/
instance : Ord (Binary p) where
  compare x y := compare x.rank y.rank

theorem compare_def (x y : Binary p) :
    compare x y = compare x.rank y.rank := rfl

end Binary

end TermGraph
