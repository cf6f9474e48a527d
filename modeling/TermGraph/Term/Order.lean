import TermGraph.Term.Basic

/-!
# The order of terms

Terms are ordered by tag first. Two boxed scalars with one tag are
ordered by value, and two heads with one tag by number of children and
then child by child, the first difference deciding.

The order is decided by a walk over pending pairs of subterms. Depth is
no concern of it – the pairs wait in a list and not in pending calls –
and a pair that is one instance is passed over without a look inside,
however large the part is that the two terms share. What the walk costs
is part of its result: `Tally` counts the pairs it looked at and those it
passed over.

A boxed scalar and a node may carry one tag only if the node was built
without checks, and the order has no answer for them. The walk then ends
without a verdict.
-/

namespace TermGraph

/-- **What a comparison cost.** The counters are taken as unbounded. -/
structure Tally where
  /-- The pairs whose contents were looked at. -/
  inspected : Nat := 0
  /-- The pairs passed over as one instance. -/
  shared : Nat := 0
deriving DecidableEq

namespace Tally

/-- One more pair looked at. -/
def inspect (c : Tally) : Tally := { c with inspected := c.inspected + 1 }

/-- One more pair passed over. -/
def skip (c : Tally) : Tally := { c with shared := c.shared + 1 }

end Tally

namespace Term

/-- The places on the left of the pending pairs, which is what the walk
has yet to go through at most. -/
def pending (work : List (Term × Term)) : Nat :=
  sizes (work.map Prod.fst)

theorem pending_zip_append_lt (n : Nat) (s : Symbol) (ts us : List Term)
    (b : Term) (work : List (Term × Term)) :
    pending (ts.zip us ++ work) < pending ((node n s ts, b) :: work) := by
  have zip_le : ∀ ts us : List Term,
      sizes ((ts.zip us).map Prod.fst) ≤ sizes ts := by
    intro ts
    induction ts with
    | nil => simp
    | cons t ts ih =>
      intro us
      cases us with
      | nil => simp
      | cons u us => simpa using ih us
  have := zip_le ts us
  simp only [pending, List.map_append, List.map_cons, sizes_append,
    sizes_cons, size]
  omega

/-- **The walk.** The pending pairs are taken from the front; the
children of a pair come before whatever was pending behind it. -/
def walk : List (Term × Term) → Tally → Option (Ordering × Tally)
  | [], c => some (.eq, c)
  | (a, b) :: work, c =>
    if a.same b then walk work c.skip
    else
      match compare a.tag b.tag with
      | .lt => some (.lt, c.inspect)
      | .gt => some (.gt, c.inspect)
      | .eq =>
        match a, b with
        | boxed _ v, boxed _ w =>
          match compare v w with
          | .lt => some (.lt, c.inspect)
          | .gt => some (.gt, c.inspect)
          | .eq => walk work c.inspect
        | node _ _ ts, node _ _ us =>
          match compare ts.length us.length with
          | .lt => some (.lt, c.inspect)
          | .gt => some (.gt, c.inspect)
          | .eq => walk (ts.zip us ++ work) c.inspect
        | _, _ => none
termination_by work => pending work
decreasing_by
  · have := a.size_pos
    simp only [pending, List.map_cons, sizes_cons]
    omega
  · simp only [pending, List.map_cons, sizes_cons, size]
    omega
  · exact pending_zip_append_lt _ _ _ _ _ _

/-- **The comparison of two terms and its cost**; absent where a boxed
scalar meets a node with its tag. -/
def compareTally? (a b : Term) : Option (Ordering × Tally) :=
  walk [(a, b)] {}

/-- **The order of terms.** -/
def order (a b : Term) : Ordering :=
  match a.compareTally? b with
  | some (verdict, _) => verdict
  | none => .eq

instance : Ord Term := ⟨order⟩

/-- Terms are equal when the order does not tell them apart. -/
instance : BEq Term := ⟨fun a b => a.order b == .eq⟩

end Term

end TermGraph
