import TermGraph.Power

/-!
# The greatest number with a property

A property of numbers that passes from a number to every smaller one is
settled by the greatest number that has it. `greatest bits p` finds that
number below `2 ^ bits` by deciding its binary places from the highest
down: a place is set when the number with that place set still has the
property. It asks `bits` questions, and the answer is characterised by
`apply_greatest` and `le_greatest`.
-/

namespace TermGraph

open scoped Power

/-- The search from `start`, with the places below `bits` undecided. -/
def bisect (p : Nat → Bool) : Nat → Nat → Nat
  | 0, start => start
  | bits + 1, start =>
    if p (start + 2 ^ bits) then bisect p bits (start + 2 ^ bits)
    else bisect p bits start

/-- **The greatest number below `2 ^ bits` with the property `p`**, for a
property that holds of `0` and passes to smaller numbers. -/
def greatest (bits : Nat) (p : Nat → Bool) : Nat :=
  bisect p bits 0

/-- The search ends at a number that has the property. -/
theorem apply_bisect {p : Nat → Bool} {bits start : Nat}
    (h : p start = true) : p (bisect p bits start) = true := by
  induction bits generalizing start with
  | zero => exact h
  | succ bits ih =>
    rw [bisect]
    split
    · next hp => exact ih hp
    · exact ih h

/-- Nothing in reach of the search lies above where it ends. -/
theorem le_bisect {p : Nat → Bool} (mono : ∀ a b, a ≤ b → p b = true → p a = true)
    {bits start k : Nat} (hk : k < start + 2 ^ bits) (h : p k = true) :
    k ≤ bisect p bits start := by
  induction bits generalizing start with
  | zero => simp only [bisect]; omega
  | succ bits ih =>
    rw [bisect]
    rw [Nat.pow_succ] at hk
    split
    · exact ih (by omega)
    · next hp =>
      refine ih (Nat.lt_of_not_le fun hle => ?_)
      exact hp (mono _ _ hle h)

/-- The number found has the property. -/
theorem apply_greatest {p : Nat → Bool} {bits : Nat} (h : p 0 = true) :
    p (greatest bits p) = true :=
  apply_bisect h

/-- No greater number in range has the property. -/
theorem le_greatest {p : Nat → Bool} {bits k : Nat}
    (mono : ∀ a b, a ≤ b → p b = true → p a = true)
    (hk : k < 2 ^ bits) (h : p k = true) : k ≤ greatest bits p :=
  le_bisect mono (by omega) h

end TermGraph
