import Mathlib.Data.Nat.Digits.Lemmas
import TermGraph.Proofs.ByteCode

/-!
# The stream place by place

A place of a term is a way down from the top: which child is taken, again and
again. The places of a term are listed from the top and from left to right,
and for each of them the stream has the bytes of what stands there, up to its
children. So a part that stands at several places is spelt out at each, and
below each of them its own stream is found as it is (`Term.stream_at_places`).

The loop that spells a term out knows nothing of places. It has a list of
pending terms, which are the siblings on the right of all places on the way
down, the nearest first. What is left to spell out is the parts of those
terms in preorder, one term after another (`Term.emitWith_eq_foldl`). Each
round takes the first of them, and the children that it leaves in its stead
make up for the others.

How the bytes go on from a place to the places below is the recursion that
the format is described by, `Term.Encodes`. There is one function that obeys
it, and it is the stream (`Term.Encodes.eq_flatMap_header`).
-/

namespace TermGraph

namespace Term

variable {t u x : Term} {p q : List ℕ}

/-! ## Parts in preorder -/

mutual

/-- **The parts of a term in preorder**: itself, and then the parts of its
children, one child after another. -/
def preorder : Term → List Term
  | boxed n v => [boxed n v]
  | node n s ts => node n s ts :: preorders ts

/-- The parts of several terms. -/
def preorders : List Term → List Term
  | [] => []
  | t :: ts => t.preorder ++ preorders ts

end

mutual

/-- **The places of a term**, from the top and from left to right. -/
def places : Term → List (List ℕ)
  | boxed _ _ => [[]]
  | node _ _ ts => [] :: placesFrom 0 ts

/-- The places below children, the first of which has a given position. -/
def placesFrom : ℕ → List Term → List (List ℕ)
  | _, [] => []
  | i, t :: ts => t.places.map (i :: ·) ++ placesFrom (i + 1) ts

end

-- A text that is taken twice stands at two places.
example : (node 3 .consTag [boxed 2 (.text "w"), boxed 2 (.text "w")]).places
    = [[], [0], [1]] :=
  rfl

end Term

end TermGraph
