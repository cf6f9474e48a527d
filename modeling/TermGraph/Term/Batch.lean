import TermGraph.Fingerprint
import TermGraph.Term.Order
import TermGraph.Term.Stream

/-!
# Batches of terms

A batch is sorted stably by the order of terms: members the order does
not tell apart stay in the sequence they came in. From the sorted batch
the distinct terms are read off, the first member of each run of equal
ones standing for its class.

The number of classes can also be found without sorting, by a set that
looks at fingerprints before it compares. The two ways of counting agree
because equal terms have equal streams.

Members are addressed by a key, so that a batch of terms and a batch of
terms with their positions are sorted by one definition.
-/

namespace TermGraph

namespace Batch

variable {α : Type}

/-- **A batch in ascending order of its keys.** -/
def sortBy (key : α → Term) (l : List α) : List α :=
  l.mergeSort fun a b => (key a).order (key b) != .gt

/-- The members of a sorted batch that differ from the one before, after
`last`. -/
def dropRepeats (key : α → Term) : α → List α → List α
  | _, [] => []
  | last, a :: l =>
    if key last == key a then dropRepeats key last l
    else a :: dropRepeats key a l

/-- **The distinct members of a batch**, ascending, each class by its
first member. -/
def distinctBy (key : α → Term) (l : List α) : List α :=
  match sortBy key l with
  | [] => []
  | a :: sorted => a :: dropRepeats key a sorted

/-- The positions of the members in ascending order. -/
def positions (ts : List Term) : List Nat :=
  (sortBy Prod.fst ts.zipIdx).map Prod.snd

/-- The positions of the distinct members in ascending order. -/
def distinctPositions (ts : List Term) : List Nat :=
  (distinctBy Prod.fst ts.zipIdx).map Prod.snd

/-! ## Counting by fingerprint -/

/-- A term with the fingerprint of its stream. -/
structure Hashed where
  /-- The term. -/
  term : Term
  /-- The fingerprint it is filed under. -/
  hash : UInt64

/-- A term filed under its fingerprint. -/
def Hashed.ofTerm (t : Term) : Hashed := ⟨t, fingerprint t.stream⟩

/-- Adds a term to a set, unless the set holds an equal one. -/
def insertHashed (held : List Hashed) (t : Hashed) : List Hashed :=
  if held.any fun u => u.hash == t.hash && u.term == t.term then held
  else t :: held

/-- **The number of distinct terms**, by fingerprint and equality. -/
def countHashed (ts : List Term) : Nat :=
  ((ts.map Hashed.ofTerm).foldl insertHashed []).length

end Batch

end TermGraph
