import TermGraph.Binary.Basic
import TermGraph.Random.Keystream

/-!
# Random choices

What a sampler asks of its stream: a number below a bound, an integer
between two others, an event of a given probability. Each is a
computation that takes words from the stream, and how many it takes is
part of what it is, since everything drawn later depends on it.

A number below `n` is the high half of a product with `n`. The low half
tells when that number may be one too small, and only then is a second
word drawn to decide; `below_lt` says that the correction never leaves
the range.
-/

namespace TermGraph

open scoped Power

/-- A computation that takes words from a stream. -/
abbrev Draw := StateM Keystream

namespace Draw

/-- One word, as a number. -/
def word : Draw Nat := fun s =>
  let (w, s) := s.next
  (w.toNat, s)

/-- Two words, the first of which is the low half. -/
def doubleWord : Draw Nat := do
  let low ← word
  let high ← word
  return low + UInt32.size * high

/-- **A number below `n`**: the high half of a word times `n`, corrected
by the high half of a second such product when the low half of the first
lies within `n` of the end. -/
def below (n : Nat) : Draw Nat := do
  let product := (← word) * n
  let value := product / UInt32.size
  let low := product % UInt32.size
  if UInt32.size < low + n then
    let carry := (← word) * n / UInt32.size
    return if UInt32.size ≤ low + carry then value + 1 else value
  else
    return value

theorem word_lt (s : Keystream) : (word s).1 < UInt32.size :=
  s.next.1.toNat_lt

/-- **A number below `n` is below `n`.** -/
theorem below_lt {n : Nat} (hn : 0 < n) (s : Keystream) :
    (below n s).1 < n := by
  have hw := word_lt s
  generalize hd : word s = d at hw
  obtain ⟨w, s'⟩ := d
  have hdiv := Nat.div_add_mod (w * n) (UInt32.size)
  have hmod := Nat.mod_lt (w * n) (by decide : 0 < UInt32.size)
  have hle : w * n ≤ (UInt32.size - 1) * n := Nat.mul_le_mul_right n (by omega)
  rw [Nat.sub_mul, Nat.one_mul] at hle
  have hmul : n ≤ UInt32.size * n := Nat.le_mul_of_pos_left n (by decide : 0 < UInt32.size)
  have unfolded : below n s =
      if UInt32.size < w * n % UInt32.size + n then
        (if UInt32.size ≤ w * n % UInt32.size + (word s').1 * n / UInt32.size
          then w * n / UInt32.size + 1 else w * n / UInt32.size, (word s').2)
      else (w * n / UInt32.size, s') := by
    simp only [below, bind, StateT.bind, hd]
    split <;> rfl
  rw [unfolded]
  generalize w * n / UInt32.size = q at *
  generalize w * n % UInt32.size = r at *
  simp only [UInt32.size] at *
  split
  · dsimp only
    split <;> omega
  · dsimp only
    omega

/-- A position among `n`. -/
def index (n : Nat) (hn : 0 < n) : Draw (Fin n) := fun s =>
  (⟨(below n s).1, below_lt hn s⟩, (below n s).2)

/-- **An integer from `-n` to `n`.** -/
def around (n : Nat) : Draw Int := do
  return (← below (2 * n + 1)) - n

/-- **An event of probability `p`.** Nothing is drawn where nothing is
left to chance: a probability that is no number or not positive never
happens, one of at least `1` always does. -/
def chance (p : Binary .double) : Draw Bool :=
  if p.isNaN || p.isNegative || p.isZero then return false
  else if 2 ^ Precision.double.unitScale ≤ p.units then return true
  else do
    let threshold := p.units * UInt64.size / 2 ^ Precision.double.unitScale
    return (← doubleWord) < threshold

end Draw

end TermGraph
