import Mathlib.Data.Nat.Digits.Lemmas
import Mathlib.Data.Nat.Factorization.Basic
import TermGraph.Proofs.FloatOrder
import TermGraph.Proofs.RoundedDecimals

/-!
# Why the shortest decimal is the shortest

The numbers that are rounded to a magnitude form an interval between two
middles, and in fine enough powers of ten the middles are whole numbers.
That is `Precision.window`, and `Precision.isNearest_iff_contains` says that
it is the right interval, with its ends where they belong to it.

In a window the digits are chosen by the number of zeros behind them. The
zeros are as many as a multiple of a power of ten in the window can have
(`Window.le_zeros`), so a number of the window with fewer digits than those
chosen lies below a power of ten, which then lies in the window too and has
more zeros than that (`Window.digits_lt_of_holds`). A decimal may also be
finer than the powers of ten in which the window is measured. Next to it
there is a whole number of the window that needs no more digits
(`Window.digits_lt_of_contains`).
-/

namespace TermGraph

open scoped Power

namespace Window

variable {w : Window} {a b c j x zeros L : ℕ}

/-! ## Numbers in a window -/

/-- **A number in the window**, measured as its ends are. -/
def Contains (w : Window) (q : ℚ) : Prop :=
  (w.low < q ∨ w.low = q ∧ w.closed = true)
    ∧ (q < w.high ∨ q = w.high ∧ w.closed = true)

theorem holds_iff :
    w.holds x = true ↔ if w.closed then w.low ≤ x ∧ x ≤ w.high
      else w.low < x ∧ x < w.high := by
  unfold holds
  split <;> simp

theorem contains_natCast : w.Contains x ↔ w.holds x = true := by
  rw [Contains, holds_iff, Nat.cast_lt, Nat.cast_lt, Nat.cast_inj, Nat.cast_inj]
  split
  · next closed => simp [closed, le_iff_lt_or_eq]
  · next opened => simp [opened]

/-- **What lies between two numbers of the window lies in it.** -/
theorem holds_of_between (ha : w.holds a = true) (hb : w.holds b = true)
    (hac : a ≤ c) (hcb : c ≤ b) : w.holds c = true := by
  rw [holds_iff] at ha hb ⊢
  split
  · next closed =>
    rw [if_pos closed] at ha hb
    omega
  · next opened =>
    rw [if_neg opened] at ha hb
    omega

/-! ## Zeros -/

theorem below_le (w : Window) (zeros : ℕ) : w.below zeros ≤ w.mid :=
  Nat.div_mul_le_self _ _

/-- The next multiple is above the number. -/
theorem lt_below_add (w : Window) (zeros : ℕ) :
    w.mid < w.below zeros + 10 ^ zeros :=
  Nat.lt_div_mul_add (Nat.pow_pos (by decide))

/-- **A multiple of a power of ten in the window** is found next to its
number. -/
theorem reaches_of_holds (h : w.holds (c * 10 ^ zeros) = true) :
    w.reaches zeros = true := by
  have ten : 0 < 10 ^ zeros := Nat.pow_pos (by decide)
  rw [reaches, Bool.or_eq_true]
  rcases Nat.lt_or_ge w.mid (c * 10 ^ zeros) with above | under
  · refine .inr (holds_of_between w.holds_mid h (w.lt_below_add zeros).le ?_)
    have next : w.mid / 10 ^ zeros + 1 ≤ c := (Nat.div_lt_iff_lt_mul ten).mpr above
    rw [below, ← Nat.succ_mul]
    exact Nat.mul_le_mul_right _ next
  · refine .inl (holds_of_between h w.holds_mid ?_ (w.below_le zeros))
    exact Nat.mul_le_mul_right _ ((Nat.le_div_iff_mul_le ten).mpr under)

theorem exists_holds (h : w.reaches zeros = true) :
    ∃ c, w.holds (c * 10 ^ zeros) = true := by
  rw [reaches, Bool.or_eq_true] at h
  rcases h with down | up
  · exact ⟨_, down⟩
  · rw [below, ← Nat.succ_mul] at up
    exact ⟨_, up⟩

/-- A multiple of a power of ten is one of every lower power. -/
theorem reaches_of_le (a b : ℕ) (hab : a ≤ b) (h : w.reaches b = true) :
    w.reaches a = true := by
  obtain ⟨c, hc⟩ := exists_holds h
  refine reaches_of_holds (c := c * 10 ^ (b - a)) ?_
  rwa [Nat.mul_assoc, ← Nat.pow_add, Nat.sub_add_cancel hab]

/-- **No number of the window has more zeros** than are looked for. A power
of ten with as many is not above the upper end. -/
theorem le_zeros (positive : 0 < w.low)
    (h : w.holds (c * 10 ^ zeros) = true) : zeros ≤ w.zeros := by
  have range : w.low ≤ c * 10 ^ zeros ∧ c * 10 ^ zeros ≤ w.high := by
    rw [holds_iff] at h
    split at h <;> omega
  have some : 0 < c := Nat.pos_of_ne_zero fun none => by
    rw [none, Nat.zero_mul] at range
    omega
  have power : 2 ^ zeros ≤ w.high :=
    calc 2 ^ zeros ≤ 10 ^ zeros := Nat.pow_le_pow_left (by decide) _
      _ ≤ c * 10 ^ zeros :=
        Nat.le_mul_of_pos_left _ some
      _ ≤ w.high := range.2
  have some_high : w.high ≠ 0 := (Nat.zero_lt_of_lt w.mid_lt_high).ne'
  have fewer : zeros ≤ w.high.log2 := (Nat.le_log2 some_high).mpr power
  exact le_greatest reaches_of_le (fewer.trans_lt Nat.lt_log2_self)
    (reaches_of_holds h)

/-! ## Digits -/

/-- **The digits with their zeros are a number of the window.** -/
theorem holds_digits (w : Window) :
    w.holds (w.digits * 10 ^ w.zeros) = true := by
  have reached : w.reaches w.zeros = true := apply_greatest w.reaches_zero
  rw [reaches, Bool.or_eq_true] at reached
  unfold digits
  dsimp only
  split
  · next down =>
    rw [Bool.and_eq_true] at down
    exact down.1
  · next up =>
    have chosen : w.holds (w.below w.zeros + 10 ^ w.zeros) = true := by
      rcases reached with down | up'
      · by_contra none
        exact up (by simp [down, none])
      · exact up'
    rw [Nat.succ_mul]
    exact chosen

/-- They do not end in a zero. -/
theorem digits_mod_ten (positive : 0 < w.low) : w.digits % 10 ≠ 0 := by
  intro ends
  have held := w.holds_digits
  rw [← Nat.div_mul_cancel (Nat.dvd_of_mod_eq_zero ends), Nat.mul_assoc,
    ← Nat.pow_succ'] at held
  exact absurd (le_zeros positive held) (Nat.not_succ_le_self _)

/-- **No number of the window has fewer digits** in front of its zeros. -/
theorem digits_lt_of_holds (positive : 0 < w.low)
    (h : w.holds (c * 10 ^ zeros) = true) (hc : c < 10 ^ L) :
    w.digits < 10 ^ L := by
  by_contra more
  have fewer := le_zeros positive h
  -- A power of ten lies between the number and that of the digits.
  have power : w.holds (1 * 10 ^ (L + w.zeros)) = true := by
    rw [Nat.one_mul, Nat.pow_add]
    refine holds_of_between h w.holds_digits ?_ ?_
    · exact Nat.mul_le_mul hc.le (Nat.pow_le_pow_right (by decide) fewer)
    · exact Nat.mul_le_mul_right _ (not_lt.mp more)
  have none : L = 0 := by
    have := le_zeros positive power
    omega
  rw [none, Nat.pow_zero, Nat.lt_one_iff] at hc
  rw [hc, Nat.zero_mul, holds_iff] at h
  split at h <;> omega

/-- A quotient by a power of ten is in the window if its numerator is between
the multiples of the ends. -/
theorem contains_div_iff :
    w.Contains (c / 10 ^ j)
      ↔ (w.low * 10 ^ j < c ∨ w.low * 10 ^ j = c ∧ w.closed = true)
        ∧ (c < w.high * 10 ^ j ∨ c = w.high * 10 ^ j ∧ w.closed = true) := by
  have ten : (0 : ℚ) < 10 ^ j := pow_pos (by norm_num) _
  rw [Contains, lt_div_iff₀ ten, eq_div_iff ten.ne', div_lt_iff₀ ten,
    div_eq_iff ten.ne']
  exact_mod_cast Iff.rfl

/-- **Nor has a finer decimal.** Next to it there is a whole number of the
window. -/
theorem digits_lt_of_contains (positive : 0 < w.low)
    (h : w.Contains (c / 10 ^ j)) (hc : c < 10 ^ L) : w.digits < 10 ^ L := by
  have ten : 0 < 10 ^ j := Nat.pow_pos (by decide)
  have whole : ∀ f, w.holds f = true → f ≤ c → w.digits < 10 ^ L := by
    intro f held few
    rw [← Nat.mul_one f, ← Nat.pow_zero 10] at held
    exact digits_lt_of_holds positive held (few.trans_lt hc)
  obtain ⟨lower, upper⟩ := contains_div_iff.mp h
  have floor : c / 10 ^ j * 10 ^ j ≤ c := Nat.div_mul_le_self c _
  have least : w.low ≤ c / 10 ^ j :=
    (Nat.le_div_iff_mul_le ten).mpr (lower.elim le_of_lt fun same => same.1.le)
  have few : c / 10 ^ j ≤ c := Nat.div_le_self c _
  cases closed : w.closed with
  | true =>
    refine whole _ (holds_iff.mpr ?_) few
    rw [if_pos closed]
    refine ⟨least, Nat.le_of_mul_le_mul_right (floor.trans ?_) ten⟩
    exact upper.elim le_of_lt fun same => same.1.le
  | false =>
    have opened : ¬ w.closed = true := by rw [closed]; exact Bool.false_ne_true
    have above := lower.resolve_right fun same => opened same.2
    have under := upper.resolve_right fun same => opened same.2
    have below := w.low_lt_mid
    have beyond := w.mid_lt_high
    rcases least.lt_or_eq with inside | same
    · refine whole _ (holds_iff.mpr ?_) few
      rw [if_neg opened]
      exact ⟨inside, Nat.lt_of_mul_lt_mul_right (floor.trans_lt under)⟩
    · -- The number below the decimal is the lower end, which is not held.
      refine whole (w.low + 1) (holds_iff.mpr ?_) ?_
      · rw [if_neg opened]
        omega
      · have := Nat.le_mul_of_pos_right w.low ten
        omega

end Window

/-! ## Significant digits -/

namespace Decimal

variable {a c j L : ℕ}

/-- **The significant digits of a number**: those in front of the zeros at its
end. -/
def significantDigits (c : ℕ) : ℕ :=
  ((Nat.digits 10 c).dropWhile (· == 0)).length

/-- **The significant digits of a decimal.** -/
def significant (d : Decimal) : ℕ := significantDigits d.coefficient

/-- Zeros at the end do not count. -/
theorem significantDigits_mul_pow (a j : ℕ) :
    significantDigits (a * 10 ^ j) = significantDigits a := by
  rcases Nat.eq_zero_or_pos a with rfl | positive
  · rw [Nat.zero_mul]
  · rw [significantDigits, Nat.mul_comm, Nat.digits_base_pow_mul (by decide) positive,
      List.dropWhile_append_of_pos, significantDigits]
    intro x hx
    rw [List.eq_of_mem_replicate hx]
    rfl

theorem significantDigits_le (h : a < 10 ^ L) : significantDigits a ≤ L :=
  (List.dropWhile_sublist _).length_le.trans
    ((Nat.digits_length_le_iff (by decide) a).mpr h)

/-- **A number is one of as many digits, with zeros behind it.** -/
theorem exists_eq_mul_pow (c : ℕ) :
    ∃ a j, c = a * 10 ^ j ∧ a < 10 ^ significantDigits c := by
  rcases Nat.eq_zero_or_pos c with rfl | positive
  · exact ⟨0, 0, rfl, Nat.pow_pos (by decide)⟩
  · obtain ⟨j, a, ends, rfl⟩ :=
      Nat.exists_eq_pow_mul_and_not_dvd positive.ne' 10 (by decide)
    refine ⟨a, j, Nat.mul_comm _ _, ?_⟩
    have some : a ≠ 0 := fun none => ends (none ▸ Nat.dvd_zero 10)
    have kept : (Nat.digits 10 a).dropWhile (· == 0) = Nat.digits 10 a := by
      rw [Nat.digits_eq_cons_digits_div (by decide) some]
      exact List.dropWhile_cons_of_neg (by
        rw [beq_iff_eq]
        exact fun zero => ends (Nat.dvd_of_mod_eq_zero zero))
    rw [Nat.mul_comm, significantDigits_mul_pow, significantDigits, kept]
    exact Nat.lt_base_pow_length_digits (by decide)

end Decimal

/-! ## The shortest decimal of a magnitude -/

namespace Precision

variable {p : Precision} {q : ℚ} {m : ℕ} {d : Decimal}

/-- A power of ten is finer than half a unit by as much as the same power of
five. -/
theorem ten_pow_tenScale (p : Precision) :
    (10 : ℚ) ^ p.tenScale = 2 * 2 ^ p.unitScale * 5 ^ p.tenScale := by
  have ten : (10 : ℚ) = 2 * 5 := by norm_num
  rw [ten, mul_pow, tenScale, pow_succ' (2 : ℚ)]

theorem middle_mul_ten_pow (p : Precision) (m : ℕ) :
    p.middle m * 10 ^ p.tenScale
      = ((p.units m + p.units (m + 1)) * 5 ^ p.tenScale : ℕ) := by
  have scale : (2 * 2 ^ p.unitScale : ℚ) ≠ 0 :=
    mul_ne_zero two_ne_zero (pow_ne_zero _ two_ne_zero)
  rw [middle, quantity, quantity, ten_pow_tenScale, ← add_div, div_div,
    mul_comm (2 ^ p.unitScale : ℚ), ← mul_assoc, div_mul_cancel₀ _ scale]
  push_cast
  rfl

/-- **The window of a magnitude has the numbers to which it is nearest.** -/
theorem isNearest_iff_contains :
    p.IsNearest q (m + 1) ↔ (p.window m).Contains (q * 10 ^ p.tenScale) := by
  have ten : (0 : ℚ) < 10 ^ p.tenScale := pow_pos (by norm_num) _
  have low : ((p.window m).low : ℚ) = p.middle m * 10 ^ p.tenScale :=
    (p.middle_mul_ten_pow m).symm
  have high : ((p.window m).high : ℚ) = p.middle (m + 1) * 10 ^ p.tenScale :=
    (p.middle_mul_ten_pow (m + 1)).symm
  have closed : (p.window m).closed = true ↔ (m + 1) % 2 = 0 :=
    decide_eq_true_iff
  rw [isNearest_iff, Window.Contains, low, high, closed,
    mul_lt_mul_iff_left₀ ten, mul_left_inj' ten.ne', mul_lt_mul_iff_left₀ ten,
    mul_left_inj' ten.ne']
  refine and_congr_left fun _ => ⟨fun h => h m rfl, ?_⟩
  rintro h k same
  cases same
  exact h

theorem low_window_pos (p : Precision) (m : ℕ) : 0 < (p.window m).low := by
  have := p.units_lt_units_succ m
  exact Nat.mul_pos (by omega) (Nat.pow_pos (by decide))

/-- **The shortest decimal is rounded to the magnitude** it was chosen for. -/
theorem isNearest_shortest (p : Precision) (m : ℕ) :
    p.IsNearest (p.shortest m).value m := by
  cases m with
  | zero =>
    refine (roundsTo_iff p.infinity_pos).mp (roundsTo_zero ?_)
    rw [shortest, Decimal.value, Nat.cast_zero, zero_mul, zero_mul]
    exact one_pos
  | succ m =>
    have ten : (10 : ℚ) ^ p.tenScale ≠ 0 := pow_ne_zero _ (by norm_num)
    have scaled : (p.shortest (m + 1)).value * 10 ^ p.tenScale
        = ((p.window m).digits * 10 ^ (p.window m).zeros : ℕ) := by
      rw [shortest, Decimal.value, zpow_sub₀ (by norm_num), zpow_natCast,
        zpow_natCast, mul_assoc, div_mul_cancel₀ _ ten]
      push_cast
      rfl
    rw [isNearest_iff_contains, scaled, Window.contains_natCast]
    exact (p.window m).holds_digits

/-- **No decimal that is rounded to a magnitude has fewer significant digits**
than the shortest. -/
theorem significant_shortest_le (h : p.IsNearest d.value m) :
    (p.shortest m).significant ≤ d.significant := by
  cases m with
  | zero => exact Nat.zero_le _
  | succ m =>
    obtain ⟨a, j, split, few⟩ := Decimal.exists_eq_mul_pow d.coefficient
    have positive := p.low_window_pos m
    rw [isNearest_iff_contains] at h
    have ten : (10 : ℚ) ≠ 0 := by norm_num
    have scaled : d.value * 10 ^ p.tenScale
        = a * (10 : ℚ) ^ (j + d.exponent + p.tenScale : ℤ) := by
      rw [Decimal.value, split, zpow_add₀ ten, zpow_add₀ ten, zpow_natCast,
        zpow_natCast]
      push_cast
      ring
    rw [scaled] at h
    refine Decimal.significantDigits_le ?_
    -- The decimal is a whole number of the powers of ten of the window, or a
    -- finer one.
    cases exponent : (j + d.exponent + p.tenScale : ℤ) with
    | ofNat k =>
      rw [exponent, Int.ofNat_eq_natCast, zpow_natCast] at h
      have held : (p.window m).holds (a * 10 ^ k) = true := by
        rw [← Window.contains_natCast]
        push_cast
        exact h
      exact Window.digits_lt_of_holds positive held few
    | negSucc k =>
      rw [exponent, zpow_negSucc, ← div_eq_mul_inv] at h
      exact Window.digits_lt_of_contains positive h few

end Precision

end TermGraph
