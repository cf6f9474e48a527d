import Mathlib.Algebra.Order.Field.Power
import TermGraph.Binary.Text
import TermGraph.Proofs.RoundedQuotients

/-!
# What a decimal is rounded to

A decimal that is read as a float is rounded to the nearest one, of two that
are as near to the even one, and to infinity beyond the greatest. This is
said without reference to how it is done. `Precision.IsNearest` asks for a
magnitude than which none is nearer, as if the range went on past infinity,
and `Precision.RoundsTo` puts infinity for whatever lies there.

Which magnitude is nearest to a number is a matter of the middles between
magnitudes: those on either side of it enclose the number, and where the
number is one of them the magnitude is even (`Precision.isNearest_iff`). As
the middles ascend, no number is rounded to two magnitudes
(`Precision.RoundsTo.eq`).

The search for a quotient finds what it is rounded to, also where the search
ends at the last magnitude there is (`Precision.roundsTo_nearest`). For a
decimal the search is not begun if its order says already that it is less
than half the least unit, or more than anything finite
(`Precision.roundsTo_ofDecimal`).
-/

namespace TermGraph

open scoped Power

/-- **The number a decimal stands for.** -/
def Decimal.value (d : Decimal) : ℚ := d.coefficient * (10 : ℚ) ^ d.exponent

namespace Precision

variable {p : Precision} {q : ℚ} {m k num den : ℕ}

/-- The number a magnitude stands for. Past infinity the numbers go on. -/
def quantity (p : Precision) (m : ℕ) : ℚ := p.units m / 2 ^ p.unitScale

/-- **A magnitude nearest to a number**, and of two that are as near the even
one. -/
structure IsNearest (p : Precision) (q : ℚ) (m : ℕ) : Prop where
  /-- None is nearer. -/
  nearest : ∀ k, |p.quantity m - q| ≤ |p.quantity k - q|
  /-- Where another is as near, it is even. -/
  even : ∀ k, |p.quantity m - q| = |p.quantity k - q| → k ≠ m → m % 2 = 0

/-- **Rounding to a magnitude**: to the nearest one, and to infinity beyond
the greatest number. -/
def RoundsTo (p : Precision) (q : ℚ) (m : ℕ) : Prop :=
  ∃ k, p.IsNearest q k ∧ m = min k p.infinity

/-- The middle between a magnitude and the next. -/
def middle (p : Precision) (m : ℕ) : ℚ :=
  (p.quantity m + p.quantity (m + 1)) / 2

theorem quantity_strictMono (p : Precision) : StrictMono p.quantity :=
  fun _ _ h => div_lt_div_of_pos_right
    (Nat.cast_lt.mpr (p.units_strictMono h)) (pow_pos two_pos _)

/-- **The middles ascend.** -/
theorem middle_strictMono (p : Precision) : StrictMono p.middle := by
  intro i j h
  have first := p.quantity_strictMono h
  have second := p.quantity_strictMono (Nat.succ_lt_succ h)
  unfold middle
  linarith

/-! ## Nearest magnitudes -/

/-- Of two numbers the lesser is no farther away up to the middle. -/
theorem abs_sub_le_abs_sub_iff {a b : ℚ} (h : a < b) :
    |a - q| ≤ |b - q| ↔ q ≤ (a + b) / 2 := by
  have factors : (b - q) ^ 2 - (a - q) ^ 2 = (b - a) * (a + b - 2 * q) := by ring
  rw [← sq_le_sq, ← sub_nonneg, factors,
    mul_nonneg_iff_of_pos_left (sub_pos.mpr h)]
  constructor <;> intro <;> linarith

theorem abs_sub_le_abs_sub_iff' {a b : ℚ} (h : a < b) :
    |b - q| ≤ |a - q| ↔ (a + b) / 2 ≤ q := by
  have factors : (a - q) ^ 2 - (b - q) ^ 2 = (b - a) * (2 * q - (a + b)) := by
    ring
  rw [← sq_le_sq, ← sub_nonneg, factors,
    mul_nonneg_iff_of_pos_left (sub_pos.mpr h)]
  constructor <;> intro <;> linarith

/-- The middle to a magnitude farther down is not above that to the one
before. -/
theorem half_add_le_middle (p : Precision) (h : k < m + 1) :
    (p.quantity k + p.quantity (m + 1)) / 2 ≤ p.middle m := by
  have := p.quantity_strictMono.monotone (Nat.le_of_lt_succ h)
  unfold middle
  linarith

/-- And the middle to one farther up is not below that to the next. -/
theorem middle_le_half_add (p : Precision) (h : m < k) :
    p.middle m ≤ (p.quantity m + p.quantity k) / 2 := by
  have := p.quantity_strictMono.monotone h
  unfold middle
  linarith

/-- A magnitude that is nearest has its number above the middle before it. -/
theorem IsNearest.middle_lt (h : p.IsNearest q (m + 1)) :
    p.middle m < q ∨ p.middle m = q ∧ (m + 1) % 2 = 0 := by
  have step := p.quantity_strictMono (Nat.lt_succ_self m)
  have le := h.nearest m
  rcases ((abs_sub_le_abs_sub_iff' step).mp le).lt_or_eq with lt | same
  · exact .inl lt
  · have back := (abs_sub_le_abs_sub_iff step).mpr same.ge
    exact .inr ⟨same, h.even m (le_antisymm le back) (Nat.succ_ne_self m).symm⟩

/-- And below the middle behind it. -/
theorem IsNearest.lt_middle (h : p.IsNearest q m) :
    q < p.middle m ∨ q = p.middle m ∧ m % 2 = 0 := by
  have step := p.quantity_strictMono (Nat.lt_succ_self m)
  have le := h.nearest (m + 1)
  rcases ((abs_sub_le_abs_sub_iff step).mp le).lt_or_eq with lt | same
  · exact .inl lt
  · have back := (abs_sub_le_abs_sub_iff' step).mpr same.ge
    exact .inr ⟨same, h.even _ (le_antisymm le back) (Nat.succ_ne_self m)⟩

/-- Nothing farther down is as near to a number that is not below a middle,
unless the number is the middle. -/
theorem abs_sub_le_of_middle_le (h : p.middle m ≤ q) (less : k < m + 1) :
    |p.quantity (m + 1) - q| ≤ |p.quantity k - q|
      ∧ (|p.quantity (m + 1) - q| = |p.quantity k - q| → p.middle m = q) := by
  have step := p.quantity_strictMono less
  have far := p.half_add_le_middle less
  refine ⟨(abs_sub_le_abs_sub_iff' step).mpr (far.trans h), fun tie => ?_⟩
  exact le_antisymm h (((abs_sub_le_abs_sub_iff step).mp tie.ge).trans far)

/-- Nor is anything farther up, if it is not above. -/
theorem abs_sub_le_of_le_middle (h : q ≤ p.middle m) (greater : m < k) :
    |p.quantity m - q| ≤ |p.quantity k - q|
      ∧ (|p.quantity m - q| = |p.quantity k - q| → q = p.middle m) := by
  have step := p.quantity_strictMono greater
  have far := p.middle_le_half_add greater
  refine ⟨(abs_sub_le_abs_sub_iff step).mpr (h.trans far), fun tie => ?_⟩
  exact le_antisymm h (far.trans ((abs_sub_le_abs_sub_iff' step).mp tie.ge))

/-- **A magnitude is nearest between the middles** on either side of it, and
at them if it is even. -/
theorem isNearest_iff :
    p.IsNearest q m
      ↔ (∀ k, k + 1 = m → p.middle k < q ∨ p.middle k = q ∧ m % 2 = 0)
        ∧ (q < p.middle m ∨ q = p.middle m ∧ m % 2 = 0) := by
  constructor
  · intro h
    refine ⟨?_, h.lt_middle⟩
    rintro k rfl
    exact h.middle_lt
  · rintro ⟨above, below⟩
    have both : ∀ k, |p.quantity m - q| ≤ |p.quantity k - q|
        ∧ (|p.quantity m - q| = |p.quantity k - q| → k ≠ m → m % 2 = 0) := by
      intro k
      rcases lt_trichotomy k m with less | rfl | greater
      · obtain ⟨j, rfl⟩ := Nat.exists_eq_succ_of_ne_zero (Nat.ne_zero_of_lt less)
        have side := above j rfl
        obtain ⟨near, tie⟩ := abs_sub_le_of_middle_le
          (side.elim le_of_lt fun same => same.1.le) less
        exact ⟨near, fun as_near _ =>
          (side.resolve_left (tie as_near).not_lt).2⟩
      · exact ⟨le_rfl, fun _ other => absurd rfl other⟩
      · obtain ⟨near, tie⟩ := abs_sub_le_of_le_middle
          (below.elim le_of_lt fun same => same.1.le) greater
        exact ⟨near, fun as_near _ =>
          (below.resolve_left (tie as_near).not_lt).2⟩
    exact ⟨fun k => (both k).1, fun k => (both k).2⟩

/-- **No other magnitude is nearest too.** -/
theorem IsNearest.eq (h : p.IsNearest q m) (h' : p.IsNearest q k) : m = k := by
  have apart : ∀ {m k}, p.IsNearest q m → p.IsNearest q k → ¬ m < k := by
    intro m k h h' less
    obtain ⟨j, rfl⟩ := Nat.exists_eq_succ_of_ne_zero (Nat.ne_zero_of_lt less)
    have middles : p.middle m ≤ p.middle j :=
      p.middle_strictMono.monotone (Nat.le_of_lt_succ less)
    -- The number can only be the middle between the two, which are next to
    -- each other, and so not both even.
    rcases (isNearest_iff.mp h).2 with below | ⟨rfl, even⟩ <;>
      rcases (isNearest_iff.mp h').1 j rfl with above | ⟨same, even'⟩
    · linarith
    · linarith
    · linarith
    · have next := p.middle_strictMono.injective same
      omega
  exact le_antisymm (not_lt.mp (apart h' h)) (not_lt.mp (apart h h'))

theorem RoundsTo.eq (h : p.RoundsTo q m) (h' : p.RoundsTo q k) : m = k := by
  obtain ⟨i, hi, rfl⟩ := h
  obtain ⟨j, hj, rfl⟩ := h'
  rw [hi.eq hj]

/-- Below infinity rounding gives what is nearest. -/
theorem roundsTo_iff (h : m < p.infinity) :
    p.RoundsTo q m ↔ p.IsNearest q m := by
  constructor
  · rintro ⟨k, hk, same⟩
    have : m = k := by omega
    exact this ▸ hk
  · exact fun nearest => ⟨m, nearest, by omega⟩

/-! ## Quotients -/

/-- What is decided between the magnitudes on either side of a quotient is
nearest. -/
theorem isNearest_decided (hden : 0 < den)
    (low : p.units m * den ≤ num * 2 ^ p.unitScale)
    (high : num * 2 ^ p.unitScale < p.units (m + 1) * den) :
    p.IsNearest (num / den) (p.decided num den m) := by
  have scale : (0 : ℚ) < 2 ^ p.unitScale * den :=
    mul_pos (pow_pos two_pos _) (Nat.cast_pos.mpr hden)
  refine ⟨fun k => ?_, fun k tie => ?_⟩
  · rw [quantity, quantity, abs_sub_eq_gap p hden, abs_sub_eq_gap p hden]
    exact div_le_div_of_nonneg_right
      (Nat.cast_le.mpr (gap_decided_le hden low high k).1) scale.le
  · rw [quantity, quantity, abs_sub_eq_gap p hden, abs_sub_eq_gap p hden,
      div_left_inj' scale.ne', Nat.cast_inj] at tie
    exact (gap_decided_le hden low high k).2 tie

/-- Some magnitude is the greatest not above a quotient, past infinity if
need be. -/
theorem exists_units_le (p : Precision) (hden : 0 < den) (n : ℕ) :
    ∃ m, p.units m * den ≤ n ∧ n < p.units (m + 1) * den := by
  by_contra none
  have all : ∀ m, p.units m * den ≤ n := by
    intro m
    induction m with
    | zero =>
      rw [units_zero, Nat.zero_mul]
      exact Nat.zero_le n
    | succ m ih =>
      exact not_lt.mp fun above => none ⟨m, ih, above⟩
  have grows : n + 1 ≤ p.units (n + 1) := p.units_strictMono.le_apply
  have := (Nat.le_mul_of_pos_right _ hden).trans (all (n + 1))
  omega

theorem nearest_eq_infinity
    (h : p.units p.infinity * den ≤ num * 2 ^ p.unitScale) :
    p.nearest num den = p.infinity := by
  rw [nearest_eq rfl]
  exact Nat.min_eq_right
    ((le_floorMagnitude p.infinity_lt h).trans (p.le_decided _ _ _))

/-- **The search rounds a quotient.** Where it ends at the last magnitude
there is, infinity is passed already. -/
theorem roundsTo_nearest (p : Precision) (num : ℕ) (hden : 0 < den) :
    p.RoundsTo (num / den) (p.nearest num den) := by
  obtain ⟨m, low, high⟩ := p.exists_units_le hden (num * 2 ^ p.unitScale)
  refine ⟨_, isNearest_decided hden low high, ?_⟩
  rcases Nat.lt_or_ge m p.infinity with below | beyond
  · exact nearest_eq (floorMagnitude_eq (below.trans p.infinity_lt) low high)
  · have passed : p.units p.infinity * den ≤ num * 2 ^ p.unitScale :=
      (Nat.mul_le_mul_right den (p.units_strictMono.monotone beyond)).trans low
    rw [nearest_eq_infinity passed,
      Nat.min_eq_right (beyond.trans (p.le_decided _ _ _))]

end Precision

/-! ## Decimals -/

namespace Decimal

variable (d : Decimal)

theorem value_of_ofNat {k : ℕ} (h : d.exponent = .ofNat k) :
    d.value = (d.coefficient * 10 ^ k : ℕ) / (1 : ℕ) := by
  rw [value, h, Int.ofNat_eq_natCast, zpow_natCast]
  push_cast
  rw [div_one]

theorem value_of_negSucc {k : ℕ} (h : d.exponent = .negSucc k) :
    d.value = d.coefficient / (10 ^ (k + 1) : ℕ) := by
  rw [value, h, zpow_negSucc]
  push_cast
  rw [div_eq_mul_inv]

/-- **A decimal is a quotient of numbers.** -/
theorem exists_quotient : ∃ num den : ℕ, 0 < den ∧ d.value = num / den := by
  cases h : d.exponent with
  | ofNat k => exact ⟨_, _, Nat.one_pos, d.value_of_ofNat h⟩
  | negSucc k => exact ⟨_, _, Nat.pow_pos (by decide), d.value_of_negSucc h⟩

/-- **A decimal lies below the power of ten of its order.** -/
theorem value_lt : d.value < (10 : ℚ) ^ d.order := by
  have below : d.coefficient < 10 ^ (Nat.toDigits 10 d.coefficient).length :=
    (Nat.length_toDigits_le_iff (by decide) Nat.length_toDigits_pos).mp le_rfl
  have ten : (0 : ℚ) < 10 ^ d.exponent := zpow_pos (by norm_num) _
  rw [order, zpow_add₀ (by norm_num), zpow_natCast, value]
  exact mul_lt_mul_of_pos_right (by exact_mod_cast below) ten

/-- And not below the one before, unless it is zero. -/
theorem le_value (h : d.coefficient ≠ 0) :
    (10 : ℚ) ^ (d.order - 1) ≤ d.value := by
  obtain ⟨l, hl⟩ := Nat.exists_eq_succ_of_ne_zero
    (Nat.length_toDigits_pos (b := 10) (n := d.coefficient)).ne'
  have above : 10 ^ l ≤ d.coefficient := by
    rcases Nat.eq_zero_or_pos l with rfl | positive
    · exact Nat.one_le_iff_ne_zero.mpr h
    · refine not_lt.mp fun less => ?_
      have := (Nat.length_toDigits_le_iff (by decide) positive).mpr less
      omega
  have ten : (0 : ℚ) < 10 ^ d.exponent := zpow_pos (by norm_num) _
  have place : d.order - 1 = (l : ℤ) + d.exponent := by
    rw [order, hl]
    omega
  rw [place, zpow_add₀ (by norm_num), zpow_natCast, value]
  exact mul_le_mul_of_nonneg_right (by exact_mod_cast above) ten.le

end Decimal

namespace Precision

/-- Zero is nearest to what is less than half the least unit. -/
theorem roundsTo_zero {p : Precision} {q : ℚ}
    (h : q * (2 * 2 ^ p.unitScale) < 1) : p.RoundsTo q 0 := by
  have one : p.units 1 = 1 := by cases p <;> rfl
  refine (roundsTo_iff p.infinity_pos).mpr (isNearest_iff.mpr ⟨?_, .inl ?_⟩)
  · exact fun k next => absurd next (Nat.succ_ne_zero k)
  · have scale : (0 : ℚ) < 2 * 2 ^ p.unitScale :=
      mul_pos two_pos (pow_pos two_pos _)
    rw [middle, quantity, quantity, units_zero, one, Nat.cast_zero, zero_div,
      zero_add, Nat.cast_one, div_div, mul_comm (2 ^ p.unitScale : ℚ),
      lt_div_iff₀ scale]
    exact h

/-- Powers of ten are finer than the unit. -/
theorem two_mul_two_pow_le (p : Precision) :
    (2 * 2 ^ p.unitScale : ℚ) ≤ 10 ^ p.unitScale := by
  have places : p.unitScale ≠ 0 := by cases p <;> decide
  have five : (2 : ℚ) ≤ 5 ^ p.unitScale :=
    le_trans (by norm_num) (le_self_pow₀ (by norm_num) places)
  calc (2 * 2 ^ p.unitScale : ℚ)
      ≤ 5 ^ p.unitScale * 2 ^ p.unitScale :=
        mul_le_mul_of_nonneg_right five (pow_nonneg two_pos.le _)
    _ = 10 ^ p.unitScale := by rw [← mul_pow]; norm_num

/-- And as coarse as the range goes. -/
theorem units_infinity_le (p : Precision) :
    p.units p.infinity ≤ 10 ^ p.unitScale * 2 ^ p.unitScale := by
  have exponent : p.fractionBits + (2 ^ p.exponentBits - 2)
      ≤ p.unitScale + p.unitScale := by cases p <;> decide
  have field : p.infinity
      = (2 ^ p.exponentBits - 2 + 1) * 2 ^ p.fractionBits + 0 := by
    cases p <;> decide
  calc p.units p.infinity
      = 2 ^ (p.fractionBits + (2 ^ p.exponentBits - 2)) := by
        rw [field, units_eq (Nat.two_pow_pos _), Nat.add_zero, Nat.pow_add]
    _ ≤ 2 ^ (p.unitScale + p.unitScale) :=
        Nat.pow_le_pow_right (by decide) exponent
    _ = 2 ^ p.unitScale * 2 ^ p.unitScale := Nat.pow_add _ _ _
    _ ≤ 10 ^ p.unitScale * 2 ^ p.unitScale :=
        Nat.mul_le_mul_right _ (Nat.pow_le_pow_left (by decide) _)

/-- Zero is what a decimal is rounded to if its order is low enough. -/
theorem roundsTo_zero_of_order_le {p : Precision} {d : Decimal}
    (low : d.order ≤ -p.unitScale) : p.RoundsTo d.value 0 := by
  have scale : (0 : ℚ) < 10 ^ p.unitScale := pow_pos (by norm_num) _
  have less : d.value < ((10 : ℚ) ^ p.unitScale)⁻¹ := by
    refine d.value_lt.trans_le ?_
    rw [← zpow_natCast, ← zpow_neg]
    exact zpow_le_zpow_right₀ (by norm_num) low
  refine roundsTo_zero ?_
  calc d.value * (2 * 2 ^ p.unitScale)
      < ((10 : ℚ) ^ p.unitScale)⁻¹ * (2 * 2 ^ p.unitScale) :=
        mul_lt_mul_of_pos_right less (mul_pos two_pos (pow_pos two_pos _))
    _ ≤ ((10 : ℚ) ^ p.unitScale)⁻¹ * 10 ^ p.unitScale :=
        mul_le_mul_of_nonneg_left p.two_mul_two_pow_le (inv_pos.mpr scale).le
    _ = 1 := inv_mul_cancel₀ scale.ne'

/-- And infinity if its order is high enough, unless it is zero. -/
theorem roundsTo_infinity_of_lt_order {p : Precision} {d : Decimal}
    (nonzero : d.coefficient ≠ 0) (high : (p.unitScale : ℤ) < d.order) :
    p.RoundsTo d.value p.infinity := by
  obtain ⟨num, den, hden, same⟩ := d.exists_quotient
  have far : (10 : ℚ) ^ p.unitScale ≤ d.value := by
    refine le_trans ?_ (d.le_value nonzero)
    rw [← zpow_natCast]
    exact zpow_le_zpow_right₀ (by norm_num) (by omega)
  have passed : 10 ^ p.unitScale * den ≤ num := by
    rw [same, le_div_iff₀ (Nat.cast_pos.mpr hden)] at far
    exact_mod_cast far
  have beyond : p.units p.infinity * den ≤ num * 2 ^ p.unitScale :=
    calc p.units p.infinity * den
        ≤ 10 ^ p.unitScale * 2 ^ p.unitScale * den :=
          Nat.mul_le_mul_right den p.units_infinity_le
      _ = 10 ^ p.unitScale * den * 2 ^ p.unitScale := Nat.mul_right_comm _ _ _
      _ ≤ num * 2 ^ p.unitScale := Nat.mul_le_mul_right _ passed
  rw [same, ← nearest_eq_infinity beyond]
  exact p.roundsTo_nearest num hden

/-- **A decimal is read as what it is rounded to.** -/
theorem roundsTo_ofDecimal (p : Precision) (d : Decimal) :
    p.RoundsTo d.value (p.ofDecimal d) := by
  unfold ofDecimal
  split
  · next small =>
    rcases small with none | low
    · refine roundsTo_zero ?_
      rw [Decimal.value, none, Nat.cast_zero, zero_mul, zero_mul]
      exact one_pos
    · exact roundsTo_zero_of_order_le low
  · next some =>
    obtain ⟨nonzero, -⟩ := not_or.mp some
    split
    · next high => exact roundsTo_infinity_of_lt_order nonzero high
    · cases h : d.exponent with
      | ofNat k =>
        rw [d.value_of_ofNat h]
        exact p.roundsTo_nearest _ Nat.one_pos
      | negSucc k =>
        rw [d.value_of_negSucc h]
        exact p.roundsTo_nearest _ (Nat.pow_pos (by decide))

end Precision

end TermGraph
