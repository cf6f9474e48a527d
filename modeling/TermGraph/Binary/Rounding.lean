import TermGraph.Binary.Basic
import TermGraph.Bisection

/-!
# Rounding to a binary float

A nonnegative quotient is rounded to the nearest magnitude, and of two
that are equally near to the even one. The rounding is a search: the
greatest magnitude not above the quotient, and then a look at whether
the next one is nearer. Because units continue past infinity as if the
range went on, a quotient too large for the precision needs no case of
its own; it lands on or beyond infinity and is brought back to it.
-/

namespace TermGraph

open scoped Power

namespace Precision

/-- The greatest magnitude whose value is at most `num / den`. -/
def floorMagnitude (p : Precision) (num den : Nat) : Nat :=
  greatest p.magnitudeBits fun m => p.units m * den ≤ num * 2 ^ p.unitScale

/-- **The magnitude nearest to `num / den`**, the even one of two. -/
def nearest (p : Precision) (num den : Nat) : Nat :=
  let m := p.floorMagnitude num den
  let midpoint := (p.units m + p.units (m + 1)) * den
  let twice := 2 * num * 2 ^ p.unitScale
  let rounded :=
    match compare twice midpoint with
    | .lt => m
    | .gt => m + 1
    | .eq => if m % 2 = 0 then m else m + 1
  min rounded p.infinity

end Precision

namespace Binary

/-- The float nearest to `v / 2 ^ k`. -/
def ofScaledInt (p : Precision) (v : Int) (k : Nat) : Binary p :=
  ofMagnitude p (v < 0) (p.nearest v.natAbs (2 ^ k))

end Binary

end TermGraph
