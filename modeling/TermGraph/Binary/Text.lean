import TermGraph.Binary.Rounding
import TermGraph.Decimal.Basic
import TermGraph.Decimal.Shortest

/-!
# Binary floats as decimal text

A finite float is written with the fewest digits that read back as the
same float of its own precision, nearest to its value among those,
positionally and without a superfluous point. The numbers that read back
as a float form an interval, from halfway to the float below to halfway
to the float above; the ends belong to it exactly when the magnitude is
even, since that is the side a tie falls on.

To find the shortest decimal of that interval with whole numbers, measure
in powers of ten fine enough for half a unit: half a unit of the
precision is `2` to the power of minus `unitScale + 1`, so it is a whole
number of the same negative powers of *ten*, namely `5 ^ (unitScale + 1)`
of them.
-/

namespace TermGraph

open scoped Power

namespace Precision

/-- The power of ten that divides half a unit evenly. -/
def tenScale (p : Precision) : Nat := p.unitScale + 1

/-- **The numbers that read back as the magnitude `m + 1`**, measured in
powers of ten. -/
def window (p : Precision) (m : Nat) : Window where
  low := (p.units m + p.units (m + 1)) * 5 ^ p.tenScale
  mid := 2 * p.units (m + 1) * 5 ^ p.tenScale
  high := (p.units (m + 1) + p.units (m + 2)) * 5 ^ p.tenScale
  closed := (m + 1) % 2 = 0
  low_lt_mid := by
    have := p.units_lt_units_succ m
    exact Nat.mul_lt_mul_of_pos_right (by omega) (Nat.pow_pos (by omega))
  mid_lt_high := by
    have : p.units (m + 1) < p.units (m + 2) := p.units_lt_units_succ (m + 1)
    exact Nat.mul_lt_mul_of_pos_right (by omega) (Nat.pow_pos (by omega))

/-- **The shortest decimal that reads back as a magnitude.** -/
def shortest (p : Precision) : Nat → Decimal
  | 0 => ⟨0, 0⟩
  | m + 1 =>
    let w := p.window m
    ⟨w.digits, (w.zeros : Int) - p.tenScale⟩

/-- **The magnitude nearest to a decimal.** Decimals whose order puts them
beyond the range on either side are settled by that alone, so the powers
of ten computed are bounded by the precision and not by the text. -/
def ofDecimal (p : Precision) (d : Decimal) : Nat :=
  if d.coefficient = 0 ∨ d.order ≤ -p.unitScale then 0
  else if p.unitScale < d.order then p.infinity
  else
    match d.exponent with
    | .ofNat k => p.nearest (d.coefficient * 10 ^ k) 1
    | .negSucc k => p.nearest d.coefficient (10 ^ (k + 1))

end Precision

namespace Binary

variable {p : Precision}

/-- **A float as text.** -/
def text (x : Binary p) : String :=
  if x.isNaN then "NaN"
  else
    let body :=
      if x.isFinite then String.ofList (p.shortest x.magnitude).positional
      else "inf"
    if x.isNegative then "-" ++ body else body

/-- A quiet NaN without further payload. -/
def nan (p : Precision) : Nat := p.infinity + 2 ^ (p.fractionBits - 1)

/-- Reads the magnitude of a float: one of the words for infinity and for
no number, in letters of either case, or a decimal. -/
def magnitude? (p : Precision) (cs : List Char) : Option Nat :=
  let word := String.ofList (cs.map Char.toLower)
  if word = "inf" ∨ word = "infinity" then some p.infinity
  else if word = "nan" then some (nan p)
  else (Decimal.ofChars? cs).map p.ofDecimal

/-- **Reads a float**, with an optional sign. -/
def ofText? (p : Precision) (s : String) : Option (Binary p) :=
  match s.toList with
  | '-' :: cs => (magnitude? p cs).map (ofMagnitude p true)
  | '+' :: cs => (magnitude? p cs).map (ofMagnitude p false)
  | cs => (magnitude? p cs).map (ofMagnitude p false)

end Binary

end TermGraph
