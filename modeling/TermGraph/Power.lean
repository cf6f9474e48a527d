/-!
# Powers of numbers

A power of natural numbers can be read as the one numbers have by
themselves, or as that of an algebraic structure they are an instance of.
The two are equal, but not the same term, and which one is meant by
`m ^ n` depends on what else is in scope. The definitions of this library
mean the first, wherever they are read.
-/

namespace TermGraph.Power

/-- **The power of natural numbers**, before any other reading. -/
scoped instance (priority := high) natPow : Pow Nat Nat := instPowNat

end TermGraph.Power
