import TermGraph.Bisection

/-!
# The shortest decimal in an interval

Given a number and an interval around it, which number of the interval
takes the fewest digits to write? All numbers here are naturals, and the
fewest digits means the most trailing zeros: the answer is a multiple of
the greatest power of ten that has a multiple in the interval, and among
those multiples the one nearest to the number.

An interval that holds a multiple of a power of ten around its number
also holds one of the two multiples next to that number, so looking at
those two decides. Of two that are equally near, both in the interval,
the greater is taken.
-/

namespace TermGraph

open scoped Power

/-- **A number and the interval it may be written for.** -/
structure Window where
  /-- The lower end. -/
  low : Nat
  /-- The number. -/
  mid : Nat
  /-- The upper end. -/
  high : Nat
  /-- Whether the ends belong to the interval. -/
  closed : Bool
  /-- The number lies inside. -/
  low_lt_mid : low < mid
  /-- The number lies inside. -/
  mid_lt_high : mid < high

namespace Window

/-- Whether a number lies in the interval. -/
def holds (w : Window) (x : Nat) : Bool :=
  if w.closed then w.low ≤ x && x ≤ w.high else w.low < x && x < w.high

/-- The greatest multiple of `10 ^ zeros` that is not above the number. -/
def below (w : Window) (zeros : Nat) : Nat :=
  w.mid / 10 ^ zeros * 10 ^ zeros

/-- Whether the interval holds a multiple of `10 ^ zeros`. -/
def reaches (w : Window) (zeros : Nat) : Bool :=
  w.holds (w.below zeros) || w.holds (w.below zeros + 10 ^ zeros)

/-- **The most trailing zeros** a number of the interval has. No power of
ten above the upper end matters, and there are fewer of those below than
the upper end has binary places. -/
def zeros (w : Window) : Nat :=
  greatest (w.high.log2.log2 + 1) w.reaches

/-- **The digits of the shortest decimal**, to be followed by `w.zeros`
zeros. -/
def digits (w : Window) : Nat :=
  let down := w.below w.zeros
  let up := down + 10 ^ w.zeros
  let preferDown :=
    w.holds down && (!w.holds up || w.mid - down < up - w.mid)
  w.mid / 10 ^ w.zeros + if preferDown then 0 else 1

/-- A number always lies in its own interval. -/
@[simp] theorem holds_mid (w : Window) : w.holds w.mid = true := by
  have := w.low_lt_mid
  have := w.mid_lt_high
  unfold holds
  split <;> simp <;> omega

@[simp] theorem reaches_zero (w : Window) : w.reaches 0 = true := by
  simp [reaches, below]

end Window

end TermGraph
