import Mathlib.Data.Set.Card
import TermGraph.Proofs.ByteCode

/-!
# The members of a graph as elements of sets

Sets of terms rely on three parts of what terms offer: those that order
their elements on the order, those that file them by hash on the bytes and
on equality. For any of them to hold one element of each kind, the order has
to be one – total and transitive – and terms it finds equal have to have one
stream.

Both are true of the members of a graph without misplaced tags, which
`Graph.Member` collects in a type. On that type the order is the order of
the keys of trees and equality is equality of trees, so it is ordered,
compared and hashed lawfully, and the sets of the standard library can be
filled with it. Whatever set is filled with a list of members, it holds one
member of each class of the list – `Graph.Member.Represents` – and so all
sets count the same.
-/

namespace TermGraph

/-- **A term of a graph that the order has an answer for**: none of its
nodes carries a tag of boxed scalars. -/
structure Graph.Member (G : Graph) where
  /-- The term. -/
  term : Term
  /-- It lives in the graph. -/
  mem : term ∈ G
  /-- Its tags are in their places. -/
  wellTagged : term.tree.WellTagged

namespace Graph.Member

variable {G : Graph} {t u : G.Member}

/-- The unfolding of a member. -/
def tree (t : G.Member) : Tree := t.term.tree

instance : Ord G.Member := ⟨fun t u => t.term.order u.term⟩

instance : BEq G.Member := ⟨fun t u => t.term == u.term⟩

/-- **Members are in the order of their keys.** -/
theorem compare_eq (t u : G.Member) :
    compare t u = compareOn (Tree.key ∘ tree) t u :=
  (order_eq t.mem u.mem t.wellTagged u.wellTagged).trans
    (Tree.order_eq_compare_key t.wellTagged u.wellTagged)

instance : Std.TransOrd G.Member := by
  rw [Std.TransOrd, funext₂ (compare_eq (G := G))]
  infer_instance

instance : Std.LawfulBEqOrd G.Member where
  compare_eq_iff_beq := beq_iff_eq.symm

/-- **Equal members are those with one unfolding.** -/
theorem beq_iff_tree_eq : t == u ↔ t.tree = u.tree :=
  Std.LawfulBEqOrd.compare_eq_iff_beq.symm.trans
    (order_eq_eq_iff t.mem u.mem t.wellTagged u.wellTagged)

/-- What is not above and not equal is below. -/
theorem compare_lt_of_isLE (le : (compare t u).isLE) (differ : ¬ t == u) :
    compare t u = .lt := by
  rw [← Std.LawfulBEqOrd.compare_eq_iff_beq] at differ
  exact (Ordering.isLE_iff_eq_lt_or_eq_eq.mp le).resolve_right differ

/-- A list has a member up to equality if it has its unfolding. -/
theorem contains_iff {ms : List G.Member} :
    ms.contains t ↔ t.tree ∈ ms.map tree := by
  rw [List.contains_iff_exists_mem_beq, List.mem_map]
  refine exists_congr fun u => and_congr_right fun _ => ?_
  rw [beq_iff_tree_eq, eq_comm]

/-- **Equal members have one stream.** -/
theorem stream_eq_of_beq (h : t == u) : t.term.stream = u.term.stream := by
  rw [← Array.toList_inj, Term.toList_stream, Term.toList_stream]
  exact congrArg Tree.bytes (beq_iff_tree_eq.mp h)

/-! ## One member of each class -/

/-- **A list holds one member of each class of a batch**, and nothing
else: what a set holds that was filled with the batch. -/
structure Represents (held ms : List G.Member) : Prop where
  /-- No two of the members held are equal. -/
  nodup : (held.map tree).Nodup
  /-- The classes held are those of the batch. -/
  mem_iff : ∀ x, x ∈ held.map tree ↔ x ∈ ms.map tree

namespace Represents

variable {held ms : List G.Member}

/-- The same, as a set says it. -/
theorem of_contains (apart : held.Pairwise fun t u => (t == u) = false)
    (covers : ∀ t, held.contains t = ms.contains t) : Represents held ms := by
  have agree : ∀ t : G.Member, t.tree ∈ held.map tree ↔ t.tree ∈ ms.map tree :=
    fun t => by rw [← contains_iff, ← contains_iff, covers]
  refine ⟨List.pairwise_map.mpr (apart.imp fun differ same => ?_), fun x => ?_⟩
  · rw [beq_iff_tree_eq.mpr same] at differ
    cases differ
  · constructor
    · intro hx
      obtain ⟨t, _, rfl⟩ := List.mem_map.mp hx
      exact (agree t).mp hx
    · intro hx
      obtain ⟨t, _, rfl⟩ := List.mem_map.mp hx
      exact (agree t).mpr hx

/-- **There are as many members held as there are classes.** -/
theorem length_eq (h : Represents held ms) :
    held.length = {x | x ∈ ms.map tree}.ncard := by
  classical
  have classes :
      {x | x ∈ ms.map tree} = ((held.map tree).toFinset : Set Tree) := by
    ext x
    rw [List.coe_toFinset]
    exact (h.mem_iff x).symm
  rw [classes, Set.ncard_coe_finset, List.toFinset_card_of_nodup h.nodup,
    List.length_map]

/-- What holds nothing represents the empty batch. -/
theorem nil : Represents ([] : List G.Member) [] := ⟨.nil, fun _ => .rfl⟩

/-- **A member is held unless an equal one is.** -/
theorem insert (h : Represents held ms) (t : G.Member) :
    Represents (held.insert t) (ms ++ [t]) := by
  by_cases ht : held.contains t
  · rw [List.insert, if_pos ht]
    refine ⟨h.nodup, fun x => ?_⟩
    rw [List.map_append, List.mem_append, ← h.mem_iff, List.map_singleton,
      List.mem_singleton]
    constructor
    · exact .inl
    · rintro (hx | rfl)
      · exact hx
      · exact contains_iff.mp ht
  · rw [List.insert, if_neg ht]
    refine ⟨List.nodup_cons.mpr ⟨mt contains_iff.mpr ht, h.nodup⟩, fun x => ?_⟩
    rw [List.map_cons, List.mem_cons, h.mem_iff, List.map_append,
      List.mem_append, List.map_singleton, List.mem_singleton, or_comm]

end Represents

/-! ## Filled sets -/

/-- A set that orders its elements. -/
theorem represents_treeSet (ms : List G.Member) :
    Represents (Std.TreeSet.ofList ms compare).toList ms := by
  refine .of_contains ?_ fun t => ?_
  · exact Std.TreeSet.distinct_toList.imp
      Std.LawfulBEqOrd.not_compare_eq_iff_beq_eq_false.mp
  · rw [Std.TreeSet.contains_toList, Std.TreeSet.contains_ofList]

/-- A set that files its elements by hash. -/
theorem represents_hashSet [Hashable G.Member] [LawfulHashable G.Member]
    (ms : List G.Member) : Represents (Std.HashSet.ofList ms).toList ms := by
  refine .of_contains Std.HashSet.distinct_toList fun t => ?_
  rw [Std.HashSet.contains_toList, Std.HashSet.contains_ofList]

/-- Members are hashed by what a function makes of their streams. -/
@[reducible] def hashedBy (hash : Array UInt8 → UInt64) : Hashable G.Member :=
  ⟨fun t => hash t.term.stream⟩

/-- **Whatever the function is, equal members have one hash.** -/
theorem lawfulHashable_hashedBy (hash : Array UInt8 → UInt64) :
    @LawfulHashable G.Member _ (hashedBy hash) :=
  let _ := hashedBy (G := G) hash
  ⟨fun _ _ h => congrArg hash (stream_eq_of_beq h)⟩

end Graph.Member

end TermGraph
