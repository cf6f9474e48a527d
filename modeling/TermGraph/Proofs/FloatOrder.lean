import Mathlib.Algebra.Order.Field.Power
import Mathlib.Order.WithBot
import TermGraph.Proofs.ArityDiscipline
import TermGraph.Proofs.RoundedQuotients
import TermGraph.Proofs.StructuralOrder

/-!
# Floats in the order of their values

The order of floats looks at bits. Those below the sign are one number, the
magnitude, which is turned around for negative floats, and nothing is asked
about where in it the exponent ends. The value of a float is read off its
fields (`Binary.fieldValue`). That the two go together is because the
fraction overflows into the exponent where the value doubles: units grow
strictly with the magnitude, through the subnormal numbers and from one
exponent to the next, and on past infinity.

Two floats that differ and have one value are the zeros, of which the
negative one is the lesser (`Binary.rank_lt_iff`). Infinity is the magnitude
behind that of the greatest number, so floats that are numbers or infinities
are in the order of their extended values (`Binary.extended_lt_iff`). The
NaNs are the magnitudes behind that, on either side.
-/

namespace TermGraph

open scoped Power

/-- The exponent field of a float with exponent zero. -/
def Precision.bias (p : Precision) : ℕ := 2 ^ (p.exponentBits - 1) - 1

/-- A boxed float of either precision. -/
def Scalar.float : {p : Precision} → Binary p → Scalar
  | .single, x => .float32 x
  | .double, x => .float64 x

namespace Binary

variable {p : Precision} {x y : Binary p}

/-! ## Values -/

/-- The exponent field. -/
def exponentField (x : Binary p) : ℕ := x.magnitude / 2 ^ p.fractionBits

/-- The fraction. -/
def fraction (x : Binary p) : ℕ := x.magnitude % 2 ^ p.fractionBits

/-- **The number in the fields of a float.** The fraction stands behind a
leading one; where the exponent field is empty it stands behind a zero, and
the exponent is that of the field above. -/
def fieldValue (x : Binary p) : ℚ :=
  (if x.isNegative then -1 else 1) *
    if x.exponentField = 0 then
      x.fraction / 2 ^ p.fractionBits * (2 : ℚ) ^ (1 - p.bias : ℤ)
    else
      (1 + x.fraction / 2 ^ p.fractionBits)
        * (2 : ℚ) ^ (x.exponentField - p.bias : ℤ)

/-- The unit is that of the last place of the fraction, with the least
exponent. -/
theorem unitScale_eq (p : Precision) :
    (p.unitScale : ℤ) = p.bias - 1 + p.fractionBits := by
  cases p <;> rfl

/-- **Counted in units it is the same number.** -/
theorem value_eq_fieldValue (x : Binary p) : x.value = x.fieldValue := by
  have scale : ((2 : ℚ) ^ p.unitScale)⁻¹
      = 2 ^ (1 - p.bias : ℤ) / 2 ^ p.fractionBits := by
    rw [← zpow_natCast, ← zpow_natCast, ← zpow_neg, ← zpow_sub₀ two_ne_zero,
      unitScale_eq]
    congr 1
    ring
  have places : (2 : ℚ) ^ p.fractionBits ≠ 0 := pow_ne_zero _ two_ne_zero
  rw [value, fieldValue, mul_div_assoc, div_eq_mul_inv, scale, units,
    Precision.units, exponentField, fraction]
  refine congrArg _ ?_
  generalize x.magnitude / 2 ^ p.fractionBits = e
  generalize x.magnitude % 2 ^ p.fractionBits = f
  cases e with
  | zero =>
    rw [if_pos rfl, if_pos rfl]
    ring
  | succ e =>
    have exponent : (2 : ℚ) ^ ((e + 1 : ℕ) - p.bias : ℤ)
        = 2 ^ e * 2 ^ (1 - p.bias : ℤ) := by
      rw [← zpow_natCast, ← zpow_add₀ two_ne_zero]
      congr 1
      push_cast
      ring
    rw [if_neg (Nat.succ_ne_zero e), if_neg (Nat.succ_ne_zero e), exponent,
      Nat.add_sub_cancel]
    have leading : (1 : ℚ) + f / 2 ^ p.fractionBits
        = (2 ^ p.fractionBits + f) / 2 ^ p.fractionBits := by
      rw [add_div, div_self places]
    rw [leading]
    push_cast
    ring

/-- The units of a float with its sign. -/
def signedUnits (x : Binary p) : ℤ := if x.isNegative then -x.units else x.units

theorem value_eq_signedUnits (x : Binary p) :
    x.value = x.signedUnits / 2 ^ p.unitScale := by
  rw [value, signedUnits]
  split <;> push_cast <;> ring

theorem value_lt_iff : x.value < y.value ↔ x.signedUnits < y.signedUnits := by
  rw [value_eq_signedUnits, value_eq_signedUnits,
    div_lt_div_iff_of_pos_right (pow_pos two_pos _), Int.cast_lt]

/-- A float is determined by its sign and its magnitude. -/
theorem eq_ofMagnitude (x : Binary p) :
    x = ofMagnitude p x.isNegative x.magnitude := by
  have below : x.magnitude < 2 ^ p.magnitudeBits :=
    Nat.mod_lt _ (Nat.two_pow_pos _)
  refine congrArg mk (BitVec.eq_of_toNat_eq ?_)
  refine Eq.trans ?_ (toNat_ofMagnitude x.isNegative below).symm
  rw [← toNat, toNat_eq]
  split <;> omega

/-! ## The order -/

/-- The zero of either sign. -/
def zero (p : Precision) (negative : Bool) : Binary p := ofMagnitude p negative 0

theorem eq_zero_iff (negative : Bool) :
    x = zero p negative ↔ x.isNegative = negative ∧ x.magnitude = 0 := by
  constructor
  · rintro rfl
    exact ⟨isNegative_ofMagnitude _ (Nat.two_pow_pos _),
      magnitude_ofMagnitude _ (Nat.two_pow_pos _)⟩
  · rintro ⟨sign, none⟩
    rw [x.eq_ofMagnitude, sign, none]
    rfl

/-- **The rank grows with the value**, and from the negative zero to the
positive. -/
theorem rank_lt_iff :
    x.rank < y.rank
      ↔ x.value < y.value ∨ x = zero p true ∧ y = zero p false := by
  have grows : p.units x.magnitude < p.units y.magnitude
      ↔ x.magnitude < y.magnitude := p.units_strictMono.lt_iff_lt
  have falls : p.units y.magnitude < p.units x.magnitude
      ↔ y.magnitude < x.magnitude := p.units_strictMono.lt_iff_lt
  have none (k : ℕ) : p.units k = 0 ↔ k = 0 :=
    p.units_strictMono.injective.eq_iff' p.units_zero
  have noneX := none x.magnitude
  have noneY := none y.magnitude
  rw [value_lt_iff, eq_zero_iff, eq_zero_iff, rank, rank, signedUnits,
    signedUnits, units, units]
  cases x.isNegative <;> cases y.isNegative <;>
    simp only [Bool.false_eq_true, Bool.true_eq_false, if_true, if_false,
      true_and, false_and, and_false, or_false] <;> omega

/-! ## Infinities -/

/-- **What a float stands for**, unless it is a NaN: a number or one of the
infinities. -/
def extended (x : Binary p) : WithBot (WithTop ℚ) :=
  if x.isFinite then ((x.fieldValue : WithTop ℚ) : WithBot (WithTop ℚ))
  else if x.isNegative then ⊥ else ⊤

/-- A float that is no NaN is a number, with fewer units than infinity on
either side, or has as many and is one of the infinities. -/
theorem extended_cases (h : x.isNaN = false) :
    (x.extended = ((x.value : WithTop ℚ) : WithBot (WithTop ℚ))
        ∧ -(p.units p.infinity : ℤ) < x.signedUnits
        ∧ x.signedUnits < p.units p.infinity)
      ∨ (x.extended = ⊥ ∧ x.signedUnits = -p.units p.infinity)
      ∨ (x.extended = ⊤ ∧ x.signedUnits = p.units p.infinity) := by
  rw [isNaN, decide_eq_false_iff_not, Nat.not_lt] at h
  rw [extended, ← value_eq_fieldValue, signedUnits, units]
  rcases h.lt_or_eq with below | same
  · have finite : x.isFinite = true := decide_eq_true below
    have fewer := p.units_strictMono below
    refine .inl ⟨if_pos finite, ?_⟩
    split <;> omega
  · have infinite : ¬ x.isFinite = true := by rw [isFinite, same]; simp
    rw [if_neg infinite, same]
    cases x.isNegative
    · exact .inr (.inr ⟨rfl, rfl⟩)
    · exact .inr (.inl ⟨rfl, rfl⟩)

/-- **Extended values are ordered as values** that go on past infinity. -/
theorem extended_lt_iff (hx : x.isNaN = false) (hy : y.isNaN = false) :
    x.extended < y.extended ↔ x.value < y.value := by
  have positive : 0 < p.units p.infinity :=
    (Nat.zero_le _).trans_lt (p.units_strictMono p.infinity_pos)
  have belowTop : ((x.value : WithTop ℚ) : WithBot (WithTop ℚ)) < ⊤ :=
    WithBot.coe_lt_coe.mpr (WithTop.coe_lt_top _)
  rcases extended_cases hx with ⟨ex, _, _⟩ | ⟨ex, _⟩ | ⟨ex, _⟩ <;>
    rcases extended_cases hy with ⟨ey, _, _⟩ | ⟨ey, _⟩ | ⟨ey, _⟩ <;>
    rw [ex, ey]
  · rw [WithBot.coe_lt_coe, WithTop.coe_lt_coe]
  -- One of the two is infinite, and its units say on which side.
  all_goals
    rw [value_lt_iff]
    simp only [belowTop, lt_irrefl, not_lt_bot, not_top_lt, WithBot.bot_lt_coe,
      bot_lt_top, true_iff, false_iff]
    omega

/-- **The NaNs lie beyond the infinities**, on the side of their sign. -/
theorem rank_of_isNaN (hx : x.isNaN = true) (hy : y.isNaN = false) :
    if x.isNegative then x.rank < y.rank else y.rank < x.rank := by
  rw [isNaN, decide_eq_true_iff] at hx
  rw [isNaN, decide_eq_false_iff_not, Nat.not_lt] at hy
  rw [rank, rank]
  split
  · split <;> omega
  · split <;> omega

end Binary

namespace Graph

variable {G : Graph} {p : Precision} {x y : Binary p} {m n : ℕ}

/-- **Floats are in the order of their values.** The walk over two boxed
floats of one precision ends with the order of the signed integers that
their bits become when those below the sign are flipped in negative floats.
If neither is a NaN, the one is the lesser if and only if its extended value
is, or if they are the negative and the positive zero. A NaN with the sign
set is below everything else, and one with the sign clear above. Floats
are equal if and only if all their bits are. -/
theorem floats_in_order_of_value (hx : Term.boxed m (.float x) ∈ G)
    (hy : Term.boxed n (.float y) ∈ G) :
    let a : Term := .boxed m (.float x)
    let b : Term := .boxed n (.float y)
    (∃ tally, a.compareTally? b = some (x.totalOrder y, tally))
      ∧ a.order b = x.totalOrder y
      ∧ (x.isNaN = false → y.isNaN = false →
          (a.order b = .lt ↔ x.extended < y.extended
            ∨ x = Binary.zero p true ∧ y = Binary.zero p false))
      ∧ (x.isNaN = true → y.isNaN = false →
          a.order b = if x.isNegative then .lt else .gt)
      ∧ (a.order b = .eq ↔ x.bits = y.bits) := by
  intro a b
  have wa : a.tree.WellTagged := Tree.all_boxed _
  have wb : b.tree.WellTagged := Tree.all_boxed _
  have verdict : a.order b = x.totalOrder y := by
    rw [order_eq hx hy wa wb]
    cases p <;> rfl
  have ranks : a.order b = compare x.rank y.rank :=
    verdict.trans (Binary.compare_eq_totalOrder x y).symm
  refine ⟨⟨_, verdict ▸ compareTally?_eq_order hx hy wa wb⟩, verdict,
    fun number number' => ?_, fun nan number => ?_, ?_⟩
  · rw [ranks, compare_lt_iff_lt, Binary.rank_lt_iff,
      Binary.extended_lt_iff number number']
  · have beyond := Binary.rank_of_isNaN nan number
    rw [ranks]
    split at beyond
    · next sign => rw [if_pos sign, compare_lt_iff_lt.mpr beyond]
    · next sign => rw [if_neg sign, compare_gt_iff_gt.mpr beyond]
  · rw [ranks, compare_eq_iff_eq]
    constructor
    · exact fun same => congrArg Binary.bits (Binary.rank_injective same)
    · exact fun same => congrArg Binary.rank (congrArg Binary.mk same)

/-- The greatest subnormal double and the least normal one, the two zeros,
and a NaN with the sign set before negative infinity. -/
theorem floats_in_order_of_value_ends :
    let box (n : ℕ) (bits : ℕ) : Term := .boxed n (.float (.ofNat .double bits))
    let a : Term := box 2 0x000fffffffffffff
    let b : Term := box 3 0x0010000000000000
    let c : Term := box 4 0x8000000000000000
    let d : Term := box 5 0x0000000000000000
    let e : Term := box 6 0xfff8000000000001
    let f : Term := box 7 0xfff0000000000000
    (∃ G : Graph, ∀ t ∈ [a, b, c, d, e, f], t ∈ G)
      ∧ a.order b = .lt ∧ c.order d = .lt ∧ e.order f = .lt := by
  intro box a b c d e f
  let boxed (bits : ℕ) : Operation :=
    .obtain (.scalar (.float (.ofNat .double bits)))
  obtain ⟨G, hG⟩ := Workspace.exists_graph_run ∅ [boxed 0x000fffffffffffff,
    boxed 0x0010000000000000, boxed 0x8000000000000000,
    boxed 0x0000000000000000, boxed 0xfff8000000000001,
    boxed 0xfff0000000000000]
  have held : ∀ t ∈ [a, b, c, d, e, f], t ∈ G := fun t ht => (hG t ht).1
  have mem (i : ℕ) {t : Term} (h : [a, b, c, d, e, f][i]? = some t) : t ∈ G :=
    held t (List.mem_of_getElem? h)
  obtain ⟨-, fields, -⟩ :=
    floats_in_order_of_value (mem 0 rfl : a ∈ G) (mem 1 rfl : b ∈ G)
  obtain ⟨-, -, zeros, -⟩ :=
    floats_in_order_of_value (mem 2 rfl : c ∈ G) (mem 3 rfl : d ∈ G)
  obtain ⟨-, -, -, nan, -⟩ :=
    floats_in_order_of_value (mem 4 rfl : e ∈ G) (mem 5 rfl : f ∈ G)
  refine ⟨⟨G, held⟩, fields.trans (by decide +kernel),
    (zeros (by decide +kernel) (by decide +kernel)).mpr (.inr ?_),
    nan (by decide +kernel) (by decide +kernel)⟩
  exact ⟨by decide +kernel, by decide +kernel⟩

end Graph

end TermGraph
