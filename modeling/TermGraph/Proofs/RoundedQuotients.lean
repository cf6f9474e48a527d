import Mathlib.Algebra.Order.Field.Basic
import Mathlib.Data.Rat.Cast.Order
import Mathlib.Order.Monotone.Basic
import Mathlib.Tactic.Linarith
import Mathlib.Tactic.Ring
import TermGraph.Binary.Rounding
import TermGraph.Proofs.ScalarOrder

/-!
# What rounding a quotient gives

A quotient is rounded by way of the greatest magnitude not above it, which
is the one magnitude whose units do not exceed the quotient while those of
the next do (`Precision.floorMagnitude_eq`). All others are farther from the
quotient than one of these two, and so what is decided between them is
decided for all (`Precision.gap_decided_le`). `Binary.value` is the number a
float stands for, and `Binary.Rounds` says of a float that a number is
rounded to it, which is the case for integers divided by a power of two
(`Binary.rounds_ofScaledInt`).

Two facts are about quotients of which nothing is lost, or no more than
elsewhere. A quotient that is the value of a magnitude is rounded to it
(`Precision.nearest_of_units_eq`), and every number of no more places than a
fraction has, with the leading one, is such a value
(`Precision.exists_units_eq`).

And half a quotient is rounded to half of what the quotient is rounded to,
as long as neither comes near the ends of the range
(`Precision.nearest_double`): one place up in the exponent field doubles the
units, and it leaves the fraction alone, by which the even one of two
magnitudes is chosen.
-/

namespace TermGraph

open scoped Power

namespace Precision

variable {p : Precision} {num den m k n : ℕ}

/-- **Units grow strictly with the magnitude.** -/
theorem units_strictMono (p : Precision) : StrictMono p.units :=
  strictMono_nat_of_lt_succ p.units_lt_units_succ

theorem units_zero (p : Precision) : p.units 0 = 0 := by
  rw [units, Nat.zero_div, if_pos rfl, Nat.zero_mod]

theorem two_dvd_two_pow_fractionBits (p : Precision) :
    2 ∣ 2 ^ p.fractionBits := by
  cases p <;> exact dvd_pow_self 2 (by decide)

/-- Infinity is a magnitude. -/
theorem infinity_lt (p : Precision) : p.infinity < 2 ^ p.magnitudeBits := by
  cases p <;> decide

theorem infinity_pos (p : Precision) : 0 < p.infinity := by
  cases p <;> decide

/-- The units of a magnitude with exponent field `e + 1`. -/
theorem units_eq {e fraction : ℕ} (h : fraction < 2 ^ p.fractionBits) :
    p.units ((e + 1) * 2 ^ p.fractionBits + fraction)
      = (2 ^ p.fractionBits + fraction) * 2 ^ e := by
  have field : ((e + 1) * 2 ^ p.fractionBits + fraction)
      / 2 ^ p.fractionBits = e + 1 := by
    rw [Nat.add_comm, Nat.add_mul_div_right _ _ (Nat.two_pow_pos _),
      Nat.div_eq_of_lt h, Nat.zero_add]
  have rest : ((e + 1) * 2 ^ p.fractionBits + fraction)
      % 2 ^ p.fractionBits = fraction := by
    rw [Nat.add_comm, Nat.add_mul_mod_self_right, Nat.mod_eq_of_lt h]
  rw [units, field, rest]
  rfl

/-- **One place up in the exponent field doubles the units.** -/
theorem units_add (h : 2 ^ p.fractionBits ≤ m) :
    p.units (m + 2 ^ p.fractionBits) = 2 * p.units m := by
  have positive := Nat.div_pos h (Nat.two_pow_pos _)
  obtain ⟨e, field⟩ := Nat.exists_eq_succ_of_ne_zero positive.ne'
  have split := Nat.div_add_mod' m (2 ^ p.fractionBits)
  have small := Nat.mod_lt m (Nat.two_pow_pos p.fractionBits)
  rw [field, Nat.succ_eq_add_one] at split
  rw [← split, units_eq small, Nat.add_right_comm, ← Nat.succ_mul,
    Nat.succ_eq_add_one, units_eq small, Nat.pow_succ]
  ring

/-! ## The greatest magnitude not above a quotient -/

/-- It is not above the quotient. -/
theorem units_floorMagnitude_le (p : Precision) (num den : ℕ) :
    p.units (p.floorMagnitude num den) * den ≤ num * 2 ^ p.unitScale := by
  have zero : p.units 0 * den ≤ num * 2 ^ p.unitScale := by
    rw [units_zero, Nat.zero_mul]
    exact Nat.zero_le _
  exact of_decide_eq_true (apply_greatest
    (p := fun m => decide (p.units m * den ≤ num * 2 ^ p.unitScale))
    (decide_eq_true zero))

/-- No greater magnitude is not above the quotient. -/
theorem le_floorMagnitude (hm : m < 2 ^ p.magnitudeBits)
    (low : p.units m * den ≤ num * 2 ^ p.unitScale) :
    m ≤ p.floorMagnitude num den := by
  refine le_greatest (fun a b hab hb => ?_) hm (decide_eq_true low)
  refine decide_eq_true (le_trans ?_ (of_decide_eq_true hb))
  exact Nat.mul_le_mul_right den (p.units_strictMono.monotone hab)

/-- It is below every magnitude that is above the quotient. -/
theorem floorMagnitude_lt (high : num * 2 ^ p.unitScale < p.units m * den) :
    p.floorMagnitude num den < m := by
  have between := (p.units_floorMagnitude_le num den).trans_lt high
  exact p.units_strictMono.lt_iff_lt.mp (Nat.lt_of_mul_lt_mul_right between)

/-- **It is characterised** by its units and those of the next. -/
theorem floorMagnitude_eq (hm : m < 2 ^ p.magnitudeBits)
    (low : p.units m * den ≤ num * 2 ^ p.unitScale)
    (high : num * 2 ^ p.unitScale < p.units (m + 1) * den) :
    p.floorMagnitude num den = m :=
  le_antisymm (Nat.le_of_lt_succ (floorMagnitude_lt high))
    (le_floorMagnitude hm low)

/-- The magnitude after the decision between `m` and the next. -/
def decided (p : Precision) (num den m : ℕ) : ℕ :=
  match compare (2 * num * 2 ^ p.unitScale)
      ((p.units m + p.units (m + 1)) * den) with
  | .lt => m
  | .gt => m + 1
  | .eq => if m % 2 = 0 then m else m + 1

theorem nearest_eq (h : p.floorMagnitude num den = m) :
    p.nearest num den = min (p.decided num den m) p.infinity := by
  rw [nearest, h]
  rfl

theorem le_decided (p : Precision) (num den m : ℕ) :
    m ≤ p.decided num den m := by
  unfold decided
  split
  · exact Nat.le_refl m
  · exact Nat.le_succ m
  · split
    · exact Nat.le_refl m
    · exact Nat.le_succ m

theorem decided_le (p : Precision) (num den m : ℕ) :
    p.decided num den m ≤ m + 1 := by
  unfold decided
  split
  · exact Nat.le_succ m
  · exact Nat.le_refl _
  · split
    · exact Nat.le_succ m
    · exact Nat.le_refl _

/-! ## Values -/

/-- **What is a value already is rounded to itself.** -/
theorem nearest_of_units_eq (hden : 0 < den) (hm : m ≤ p.infinity)
    (exact : p.units m * den = num * 2 ^ p.unitScale) :
    p.nearest num den = m := by
  have step : p.units m * den < p.units (m + 1) * den :=
    Nat.mul_lt_mul_of_pos_right (p.units_lt_units_succ m) hden
  have floor := floorMagnitude_eq (hm.trans_lt p.infinity_lt) exact.le
    (exact ▸ step)
  have before : 2 * num * 2 ^ p.unitScale
      < (p.units m + p.units (m + 1)) * den := by
    rw [Nat.add_mul, Nat.mul_assoc, ← exact]
    omega
  rw [nearest_eq floor, decided, compare_lt_iff_lt.mpr before]
  exact Nat.min_eq_left hm

/-- **Numbers of few places are values**, whatever power of two they are
scaled by. -/
theorem exists_units_eq (hn : n < 2 ^ (p.fractionBits + 1))
    (hk : p.fractionBits ≤ k) :
    ∃ m, p.units m = n * 2 ^ k ∧ m < (k + 2) * 2 ^ p.fractionBits := by
  rcases Nat.eq_zero_or_pos n with rfl | positive
  · refine ⟨0, ?_, Nat.mul_pos (Nat.succ_pos _) (Nat.two_pow_pos _)⟩
    rw [units_zero, Nat.zero_mul]
  · -- The leading one is shifted to its place in front of the fraction.
    have hlog : n.log2 ≤ p.fractionBits :=
      Nat.le_of_lt_succ ((Nat.log2_lt positive.ne').mpr hn)
    obtain ⟨shift, hshift⟩ := Nat.exists_eq_add_of_le hlog
    have lower : 2 ^ p.fractionBits ≤ n * 2 ^ shift := by
      rw [hshift, Nat.pow_add]
      exact Nat.mul_le_mul_right _ (Nat.log2_self_le positive.ne')
    have upper : n * 2 ^ shift < 2 ^ p.fractionBits + 2 ^ p.fractionBits := by
      rw [← Nat.two_mul, Nat.mul_comm 2, ← Nat.pow_succ, hshift,
        Nat.succ_eq_add_one, Nat.add_right_comm, Nat.pow_add]
      exact Nat.mul_lt_mul_of_pos_right Nat.lt_log2_self (Nat.two_pow_pos _)
    obtain ⟨fraction, hfraction⟩ := Nat.exists_eq_add_of_le lower
    have small : fraction < 2 ^ p.fractionBits := by omega
    obtain ⟨e, he⟩ := Nat.exists_eq_add_of_le
      (show shift ≤ k from le_trans (by omega) hk)
    refine ⟨(e + 1) * 2 ^ p.fractionBits + fraction, ?_, ?_⟩
    · rw [units_eq small, ← hfraction, Nat.mul_assoc, ← Nat.pow_add, ← he]
    · have : (e + 1) * 2 ^ p.fractionBits + fraction
          < (e + 2) * 2 ^ p.fractionBits := by
        rw [Nat.succ_mul (e + 1)]
        exact Nat.add_lt_add_left small _
      exact this.trans_le (Nat.mul_le_mul_right _ (by omega))

/-! ## Halves -/

/-- The decision is the same one place up in the exponent field, for twice
the quotient. -/
theorem decided_add (hm : 2 ^ p.fractionBits ≤ m) :
    p.decided num den (m + 2 ^ p.fractionBits)
      = p.decided num (2 * den) m + 2 ^ p.fractionBits := by
  have midpoint : (p.units (m + 2 ^ p.fractionBits)
        + p.units (m + 2 ^ p.fractionBits + 1)) * den
      = (p.units m + p.units (m + 1)) * (2 * den) := by
    rw [Nat.add_right_comm, units_add hm, units_add (Nat.le_succ_of_le hm)]
    ring
  have even : (m + 2 ^ p.fractionBits) % 2 = m % 2 := by
    have := p.two_dvd_two_pow_fractionBits
    omega
  unfold decided
  rw [midpoint, even]
  split
  · rfl
  · exact Nat.add_right_comm m _ 1
  · split
    · rfl
    · exact Nat.add_right_comm m _ 1

/-- The magnitudes with a leading one are not below the first of them. -/
theorem two_mul_le_floorMagnitude
    (low : 2 ^ p.fractionBits * (2 * den) ≤ num * 2 ^ p.unitScale) :
    2 ^ p.fractionBits + 2 ^ p.fractionBits ≤ p.floorMagnitude num den := by
  have first : p.units (2 ^ p.fractionBits) = 2 ^ p.fractionBits := by
    have h := units_eq (e := 0) (Nat.two_pow_pos p.fractionBits)
    rwa [Nat.zero_add, Nat.one_mul, Nat.pow_zero, Nat.mul_one] at h
  refine le_floorMagnitude (by cases p <;> decide) ?_
  rw [units_add (Nat.le_refl _), first]
  exact (Nat.le_of_eq (by ring)).trans low

/-- **Half a quotient is rounded to half of what the quotient is rounded
to**, if it has a leading one and the quotient is not near infinity. -/
theorem nearest_double
    (low : 2 ^ p.fractionBits * (2 * den) ≤ num * 2 ^ p.unitScale)
    (high : num * 2 ^ p.unitScale < p.units (p.infinity - 1) * den) :
    p.units (p.nearest num den) = 2 * p.units (p.nearest num (2 * den))
      ∧ p.nearest num (2 * den) < p.infinity := by
  obtain ⟨m, hm⟩ := Nat.exists_eq_add_of_le
    (Nat.le_of_add_right_le (two_mul_le_floorMagnitude low))
  rw [Nat.add_comm] at hm
  have leading : 2 ^ p.fractionBits ≤ m :=
    Nat.le_of_add_le_add_right (hm ▸ two_mul_le_floorMagnitude low)
  have room : m + 2 ^ p.fractionBits < p.infinity - 1 :=
    hm ▸ floorMagnitude_lt high
  have inRange := p.infinity_lt
  have positive := Nat.two_pow_pos p.fractionBits
  have half : p.floorMagnitude num (2 * den) = m := by
    refine floorMagnitude_eq (by omega) ?_ (Nat.lt_of_not_le fun next => ?_)
    · have below := p.units_floorMagnitude_le num den
      rw [hm, units_add leading] at below
      exact (Nat.le_of_eq (by ring)).trans below
    · have above : p.units (m + 1 + 2 ^ p.fractionBits) * den
          ≤ num * 2 ^ p.unitScale := by
        rw [units_add (Nat.le_succ_of_le leading)]
        exact (Nat.le_of_eq (by ring)).trans next
      have beyond := le_floorMagnitude (by omega) above
      omega
  have near := p.decided_le num (2 * den) m
  have away := p.le_decided num (2 * den) m
  rw [nearest_eq hm, nearest_eq half, decided_add leading,
    Nat.min_eq_left (by omega), Nat.min_eq_left (by omega),
    units_add (by omega)]
  exact ⟨rfl, by omega⟩

/-- Rounding stays within the magnitudes up to infinity. -/
theorem nearest_le_infinity (p : Precision) (num den : ℕ) :
    p.nearest num den ≤ p.infinity := by
  rw [nearest_eq rfl]
  exact Nat.min_le_right _ _

/-! ## The nearest magnitude -/

/-- **How far a magnitude is from a quotient**, in the units of both. -/
def gap (p : Precision) (num den k : ℕ) : ℕ :=
  ((p.units k * den : ℕ) - (num * 2 ^ p.unitScale : ℕ) : ℤ).natAbs

/-- **The decision is for the nearer of the two**, which is nearer than all
others, or for the even one. -/
theorem gap_decided_le (hden : 0 < den)
    (low : p.units m * den ≤ num * 2 ^ p.unitScale)
    (high : num * 2 ^ p.unitScale < p.units (m + 1) * den) (k : ℕ) :
    p.gap num den (p.decided num den m) ≤ p.gap num den k
      ∧ (p.gap num den (p.decided num den m) = p.gap num den k →
        k ≠ p.decided num den m → p.decided num den m % 2 = 0) := by
  have grows : StrictMono fun j => p.units j * den :=
    p.units_strictMono.mul_const hden
  have twice : 2 * num * 2 ^ p.unitScale = 2 * (num * 2 ^ p.unitScale) :=
    Nat.mul_assoc _ _ _
  have middle : (p.units m + p.units (m + 1)) * den
      = p.units m * den + p.units (m + 1) * den := Nat.add_mul _ _ _
  have place : k < m ∧ p.units k * den < p.units m * den ∨ k = m ∨ k = m + 1
      ∨ m + 1 < k ∧ p.units (m + 1) * den < p.units k * den := by
    rcases lt_trichotomy k m with before | same | after
    · exact .inl ⟨before, grows before⟩
    · exact .inr (.inl same)
    · rcases Nat.eq_or_lt_of_le (Nat.succ_le_of_lt after) with next | beyond
      · exact .inr (.inr (.inl next.symm))
      · exact .inr (.inr (.inr ⟨beyond, grows beyond⟩))
  unfold gap decided
  rw [twice, middle]
  split
  · next lt =>
    rw [Nat.compare_eq_lt] at lt
    rcases place with ⟨_, _⟩ | rfl | rfl | ⟨_, _⟩ <;> omega
  · next gt =>
    rw [Nat.compare_eq_gt] at gt
    rcases place with ⟨_, _⟩ | rfl | rfl | ⟨_, _⟩ <;> omega
  · next eq =>
    rw [Nat.compare_eq_eq] at eq
    split
    · rcases place with ⟨_, _⟩ | rfl | rfl | ⟨_, _⟩ <;> omega
    · rcases place with ⟨_, _⟩ | rfl | rfl | ⟨_, _⟩ <;> omega

/-- **Rounding gives a magnitude than which none is nearer**, below infinity
if the quotient is not near it, and the even one of two. -/
theorem gap_nearest_le (hden : 0 < den)
    (high : num * 2 ^ p.unitScale < p.units (p.infinity - 1) * den) :
    p.nearest num den < p.infinity
      ∧ ∀ k, p.gap num den (p.nearest num den) ≤ p.gap num den k
        ∧ (p.gap num den (p.nearest num den) = p.gap num den k →
          k ≠ p.nearest num den → p.nearest num den % 2 = 0) := by
  generalize hm : p.floorMagnitude num den = m
  have room : m < p.infinity - 1 := hm ▸ floorMagnitude_lt high
  have inRange := p.infinity_lt
  have near := p.decided_le num den m
  have below : p.units m * den ≤ num * 2 ^ p.unitScale :=
    hm ▸ p.units_floorMagnitude_le num den
  have above : num * 2 ^ p.unitScale < p.units (m + 1) * den :=
    Nat.lt_of_not_le fun le => by
      have := le_floorMagnitude (by omega) le
      omega
  rw [nearest_eq hm, Nat.min_eq_left (by omega)]
  exact ⟨by omega, gap_decided_le hden below above⟩

/-- How far the number is that a magnitude stands for. -/
theorem abs_sub_eq_gap (p : Precision) (hden : 0 < den) (k : ℕ) :
    |(p.units k : ℚ) / 2 ^ p.unitScale - num / den|
      = p.gap num den k / (2 ^ p.unitScale * den) := by
  have scale : (0 : ℚ) < 2 ^ p.unitScale := pow_pos two_pos _
  have positive : (0 : ℚ) < den := Nat.cast_pos.mpr hden
  rw [div_sub_div _ _ scale.ne' positive.ne', abs_div,
    abs_of_pos (mul_pos scale positive), gap, Nat.cast_natAbs, Int.cast_abs]
  push_cast
  rw [mul_comm (2 ^ p.unitScale : ℚ) (num : ℚ)]

/-- The same said of the numbers that magnitudes stand for. -/
theorem abs_sub_nearest_le (hden : 0 < den)
    (high : num * 2 ^ p.unitScale < p.units (p.infinity - 1) * den) (k : ℕ) :
    |(p.units (p.nearest num den) : ℚ) / 2 ^ p.unitScale - num / den|
        ≤ |(p.units k : ℚ) / 2 ^ p.unitScale - num / den|
      ∧ (|(p.units (p.nearest num den) : ℚ) / 2 ^ p.unitScale - num / den|
          = |(p.units k : ℚ) / 2 ^ p.unitScale - num / den| →
        k ≠ p.nearest num den → p.nearest num den % 2 = 0) := by
  have scale : (0 : ℚ) < 2 ^ p.unitScale * den :=
    mul_pos (pow_pos two_pos _) (Nat.cast_pos.mpr hden)
  obtain ⟨le, even⟩ := (gap_nearest_le hden high).2 k
  rw [abs_sub_eq_gap p hden, abs_sub_eq_gap p hden]
  refine ⟨div_le_div_of_nonneg_right (Nat.cast_le.mpr le) scale.le,
    fun tie => even ?_⟩
  exact Nat.cast_inj.mp ((div_left_inj' scale.ne').mp tie)

end Precision

namespace Binary

variable {p : Precision} {m : ℕ}

/-- **The number a float stands for**, where it is one. Past infinity the
values go on. -/
def value (x : Binary p) : ℚ :=
  (if x.isNegative then -1 else 1) * x.units / 2 ^ p.unitScale

/-- **A float to which a number is rounded**: none is nearer, and where
another is as near, it is the even one. -/
structure Rounds (x : Binary p) (q : ℚ) : Prop where
  /-- It is a number below infinity. -/
  finite : x.isFinite = true
  /-- None is nearer. -/
  nearest : ∀ y : Binary p, |x.value - q| ≤ |y.value - q|
  /-- Of two that are as near, it is the even one. -/
  even : ∀ y : Binary p, |x.value - q| = |y.value - q| → y.value ≠ x.value →
    x.magnitude % 2 = 0

/-- A float is as far from a number as its absolute value is on the same side
of zero, or would be on the other. -/
theorem abs_value_sub (x : Binary p) (negative : Bool) (q : ℚ) :
    |x.value - (if negative then -1 else 1) * q|
      = if x.isNegative = negative then
          |(p.units x.magnitude : ℚ) / 2 ^ p.unitScale - q|
        else |(p.units x.magnitude : ℚ) / 2 ^ p.unitScale + q| := by
  rw [value, mul_div_assoc, units]
  generalize (p.units x.magnitude : ℚ) / 2 ^ p.unitScale = w
  cases x.isNegative <;> cases negative <;>
    simp only [Bool.false_eq_true, Bool.true_eq_false, if_true, if_false,
      one_mul, neg_one_mul, sub_neg_eq_add]
  · rw [← abs_neg, neg_sub, sub_neg_eq_add, add_comm]
  · rw [neg_add_eq_sub, abs_sub_comm]

theorem toNat_ofMagnitude (negative : Bool) (hm : m < 2 ^ p.magnitudeBits) :
    (ofMagnitude p negative m).toNat
      = if negative then 2 ^ p.magnitudeBits + m else m := by
  rw [ofMagnitude, ofNat, toNat, BitVec.toNat_ofNat, Precision.width,
    Nat.pow_succ]
  exact Nat.mod_eq_of_lt (by split <;> omega)

theorem isNegative_ofMagnitude (negative : Bool)
    (hm : m < 2 ^ p.magnitudeBits) :
    (ofMagnitude p negative m).isNegative = negative := by
  rw [isNegative, toNat_ofMagnitude negative hm]
  cases negative
  · exact decide_eq_false (Nat.not_le_of_lt hm)
  · exact decide_eq_true (Nat.le_add_right _ _)

theorem magnitude_ofMagnitude (negative : Bool)
    (hm : m < 2 ^ p.magnitudeBits) :
    (ofMagnitude p negative m).magnitude = m := by
  rw [magnitude, toNat_ofMagnitude negative hm]
  cases negative
  · exact Nat.mod_eq_of_lt hm
  · exact (Nat.add_mod_left _ _).trans (Nat.mod_eq_of_lt hm)

/-! ## Integers divided by a power of two -/

/-- An integer is its absolute value with its sign. -/
theorem cast_eq_sign_mul (v : ℤ) :
    (v : ℚ) = (if v < 0 then -1 else 1) * (v.natAbs : ℚ) := by
  rw [Nat.cast_natAbs, Int.cast_abs]
  split
  · next negative =>
    rw [abs_of_neg (Int.cast_lt_zero.mpr negative), neg_mul_neg, one_mul]
  · next positive =>
    rw [abs_of_nonneg (Int.cast_nonneg (not_lt.mp positive)), one_mul]

variable (p) (v : ℤ) (k : ℕ)

theorem isNegative_ofScaledInt :
    (ofScaledInt p v k).isNegative = decide (v < 0) :=
  isNegative_ofMagnitude _
    ((p.nearest_le_infinity _ _).trans_lt p.infinity_lt)

theorem magnitude_ofScaledInt :
    (ofScaledInt p v k).magnitude = p.nearest v.natAbs (2 ^ k) :=
  magnitude_ofMagnitude _
    ((p.nearest_le_infinity _ _).trans_lt p.infinity_lt)

theorem value_ofScaledInt :
    (ofScaledInt p v k).value = (if v < 0 then -1 else 1)
      * p.units (p.nearest v.natAbs (2 ^ k)) / 2 ^ p.unitScale := by
  rw [value, units, isNegative_ofScaledInt, magnitude_ofScaledInt]
  simp only [decide_eq_true_eq]

variable {p v k}

/-- **An integer divided by a power of two is rounded**, if it is not near
infinity. -/
theorem rounds_ofScaledInt (high : v.natAbs * 2 ^ p.unitScale
      < p.units (p.infinity - 1) * 2 ^ k) :
    (ofScaledInt p v k).Rounds (v / 2 ^ k) := by
  have positive : 0 < 2 ^ k := Nat.two_pow_pos k
  have finite := (Precision.gap_nearest_le positive high).1
  have nearest := Precision.abs_sub_nearest_le positive high
  have magnitude := magnitude_ofScaledInt p v k
  have sign := isNegative_ofScaledInt p v k
  rw [← magnitude] at nearest
  generalize hq : (v.natAbs : ℚ) / (2 ^ k : ℕ) = q at nearest
  have number : (v : ℚ) / 2 ^ k
      = (if decide (v < 0) = true then -1 else 1) * q := by
    rw [cast_eq_sign_mul, ← hq, mul_div_assoc, Nat.cast_pow, Nat.cast_two]
    simp only [decide_eq_true_eq]
  have q_nonneg : 0 ≤ q :=
    hq ▸ div_nonneg (Nat.cast_nonneg _) (Nat.cast_nonneg _)
  have absolute : ∀ j, 0 ≤ (p.units j : ℚ) / 2 ^ p.unitScale := fun j =>
    div_nonneg (Nat.cast_nonneg _) (pow_nonneg two_pos.le _)
  have zero : (p.units 0 : ℚ) / 2 ^ p.unitScale = 0 := by
    rw [Precision.units_zero, Nat.cast_zero, zero_div]
  refine ⟨decide_eq_true (magnitude.trans_lt finite), fun y => ?_,
    fun y tie other => ?_⟩
  · rw [number, abs_value_sub, if_pos sign, abs_value_sub]
    refine (nearest y.magnitude).1.trans ?_
    have := absolute y.magnitude
    split
    · exact le_rfl
    · rw [abs_of_nonneg (add_nonneg this q_nonneg)]
      exact abs_sub_le_iff.mpr ⟨by linarith, by linarith⟩
  · rw [number, abs_value_sub, if_pos sign, abs_value_sub] at tie
    split at tie
    · next same =>
      refine (nearest y.magnitude).2 tie fun h => other ?_
      rw [value, value, same, sign, units, units, h]
    · -- Across zero a float is as near only if it is zero.
      rw [abs_of_nonneg (add_nonneg (absolute y.magnitude) q_nonneg)] at tie
      obtain ⟨least, even⟩ := nearest 0
      rw [zero, zero_sub, abs_neg, abs_of_nonneg q_nonneg] at least even
      have none : (p.units y.magnitude : ℚ) / 2 ^ p.unitScale = 0 :=
        le_antisymm (by linarith) (absolute y.magnitude)
      refine even (by rw [tie, none, zero_add]) fun h => other ?_
      rw [value, value, mul_div_assoc, mul_div_assoc, units, units, none,
        ← h, zero, mul_zero, mul_zero]
/-- What is rounded to a value of its own is that value. -/
theorem value_ofScaledInt_of_exact
    (h : p.units (p.nearest v.natAbs (2 ^ k)) * 2 ^ k
      = v.natAbs * 2 ^ p.unitScale) :
    (ofScaledInt p v k).value = v / 2 ^ k := by
  have exact : (p.units (p.nearest v.natAbs (2 ^ k)) : ℚ) * 2 ^ k
      = v.natAbs * 2 ^ p.unitScale := by exact_mod_cast h
  rw [value_ofScaledInt, div_eq_div_iff (pow_ne_zero _ two_ne_zero)
    (pow_ne_zero _ two_ne_zero), mul_assoc, exact, ← mul_assoc,
    ← cast_eq_sign_mul]

/-- Where half a quotient is rounded to half, so is half an integer. -/
theorem value_ofScaledInt_of_half
    (h : p.units (p.nearest v.natAbs (2 ^ k))
      = 2 * p.units (p.nearest v.natAbs (2 ^ (k + 1)))) :
    (ofScaledInt p v (k + 1)).value = (ofScaledInt p v k).value / 2 := by
  rw [value_ofScaledInt, value_ofScaledInt, h, Nat.cast_mul, Nat.cast_two]
  ring

/-- **An integer of few places divided by a power of two is a value**, and is
not rounded. -/
theorem ofScaledInt_of_places (hv : v.natAbs < 2 ^ (p.fractionBits + 1))
    (hk : p.fractionBits + k ≤ p.unitScale)
    (room : (p.unitScale - k + 2) * 2 ^ p.fractionBits ≤ p.infinity) :
    (ofScaledInt p v k).isFinite = true
      ∧ (ofScaledInt p v k).value = v / 2 ^ k := by
  obtain ⟨m, hm, small⟩ := Precision.exists_units_eq hv
    (show p.fractionBits ≤ p.unitScale - k by omega)
  have finite : m < p.infinity := small.trans_le room
  have exact : p.units m * 2 ^ k = v.natAbs * 2 ^ p.unitScale := by
    rw [hm, Nat.mul_assoc, ← Nat.pow_add, Nat.sub_add_cancel (by omega)]
  have rounded := Precision.nearest_of_units_eq (Nat.two_pow_pos k) finite.le
    exact
  constructor
  · rw [isFinite, magnitude_ofScaledInt, rounded]
    exact decide_eq_true finite
  · exact value_ofScaledInt_of_exact (rounded.symm ▸ exact)

/-- **A quarter of an integer is a double** without being rounded. -/
theorem ofScaledInt_double (hv : v.natAbs ≤ 2 ^ 31) :
    (ofScaledInt .double v 2).isFinite = true
      ∧ (ofScaledInt .double v 2).value = v / 4 := by
  have places : v.natAbs < 2 ^ (Precision.double.fractionBits + 1) :=
    hv.trans_lt (by decide)
  obtain ⟨finite, value⟩ := ofScaledInt_of_places (k := 2) places (by decide)
    (by decide)
  refine ⟨finite, ?_⟩
  rw [value]
  norm_num

/-- **Half an integer as a single** is half of what the integer is rounded to
as a single. -/
theorem ofScaledInt_single (hv : v.natAbs ≤ 2 ^ 31) :
    (ofScaledInt .single v 0).Rounds v
      ∧ (ofScaledInt .single v 1).isFinite = true
      ∧ (ofScaledInt .single v 1).value
        = (ofScaledInt .single v 0).value / 2 := by
  have high : v.natAbs * 2 ^ Precision.single.unitScale
      < Precision.single.units (Precision.single.infinity - 1) * 2 ^ 0 :=
    (Nat.mul_le_mul_right _ hv).trans_lt (by decide)
  have rounded := rounds_ofScaledInt high
  rw [pow_zero, div_one] at rounded
  refine ⟨rounded, ?_⟩
  rcases Nat.eq_zero_or_pos v.natAbs with none | positive
  · cases Int.natAbs_eq_zero.mp none
    have zero : ∀ k, Precision.single.nearest (Int.natAbs 0) (2 ^ k) = 0 :=
      fun k => Precision.nearest_of_units_eq (Nat.two_pow_pos k)
        (Nat.zero_le _) (by rw [Precision.units_zero, Int.natAbs_zero,
          Nat.zero_mul, Nat.zero_mul])
    refine ⟨?_, value_ofScaledInt_of_half ?_⟩
    · rw [isFinite, magnitude_ofScaledInt, zero]
      rfl
    · rw [zero, zero, Precision.units_zero]
  · have low : 2 ^ Precision.single.fractionBits * (2 * 1)
        ≤ v.natAbs * 2 ^ Precision.single.unitScale :=
      le_trans (by decide) (Nat.le_mul_of_pos_left _ positive)
    obtain ⟨half, finite⟩ := Precision.nearest_double low high
    refine ⟨?_, value_ofScaledInt_of_half half⟩
    rw [isFinite, magnitude_ofScaledInt]
    exact decide_eq_true finite

end Binary

end TermGraph
