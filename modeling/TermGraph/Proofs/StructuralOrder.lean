import TermGraph.Proofs.Course
import TermGraph.Proofs.Graph
import TermGraph.Proofs.ScalarOrder

/-!
# The structural order

The order of terms is defined by a walk that takes short cuts: a pair
that is one instance is passed over unseen. `Tree.order` is the order the
walk is meant to decide, written down for unfolded terms and hence
without a word about instances. Tags come first, values of one type are
in their own order, heads with one tag go by number of children and then
child by child.

In a graph the short cut is sound, since one instance is one term and
every term is equal to itself (`Tree.order_self`). So the recursion on
terms has the verdict of the recursion on their unfoldings, by induction
on the term, and the walk has the verdict of either
(`Graph.compareTally?_eq`).
-/

namespace TermGraph

namespace Tree

mutual

/-- **The structural order.** -/
def order : Tree → Tree → Ordering
  | boxed v, boxed w => (compare v.tag w.tag).then (v.valueOrder w)
  | boxed v, node t _ => compare v.tag t
  | node s _, boxed w => compare s w.tag
  | node s ts, node t us =>
    (compare s t).then ((compare ts.length us.length).then (orders ts us))

/-- Several pairs of trees: the first difference decides. -/
def orders : List Tree → List Tree → Ordering
  | t :: ts, u :: us => (order t u).then (orders ts us)
  | _, _ => .eq

end

@[simp] theorem orders_nil (ts : List Tree) : orders ts [] = .eq := by
  cases ts <;> rfl

theorem orders_self {ts : List Tree} (h : ∀ t ∈ ts, t.order t = .eq) :
    orders ts ts = .eq := by
  induction ts with
  | nil => rfl
  | cons t ts ih =>
    obtain ⟨ht, hts⟩ := List.forall_mem_cons.mp h
    rw [orders, ht, ih hts]
    rfl

/-- Every tree is equal to itself. -/
theorem order_self (t : Tree) : t.order t = .eq := by
  induction t with
  | boxed v =>
    rw [order, Symbol.compare_eq_eq_iff.mpr rfl, v.valueOrder_self]
    rfl
  | node s ts ih =>
    rw [order, Symbol.compare_eq_eq_iff.mpr rfl, orders_self ih,
      Std.ReflOrd.compare_self]
    rfl

end Tree

namespace Term

/-- **The structural order begins with a look at the pair** and goes on
with the children. -/
theorem order_tree (a b : Term) :
    a.tree.order b.tree
      = (glance a b).then
          (Tree.orders (a.children.map tree) (b.children.map tree)) := by
  rcases a with ⟨m, v⟩ | ⟨m, s, ts⟩ <;> rcases b with ⟨n, w⟩ | ⟨n, t, us⟩
  · show (compare v.tag w.tag).then (v.valueOrder w)
      = ((compare v.tag w.tag).then (compare v w)).then .eq
    rw [Ordering.then_eq]
    refine then_congr fun htag => ?_
    exact (Scalar.compare_of_tag_eq (Symbol.compare_eq_eq_iff.mp htag)).symm
  · show compare v.tag t = ((compare v.tag t).then .eq).then .eq
    rw [Ordering.then_eq, Ordering.then_eq]
  · show compare s w.tag = ((compare s w.tag).then .eq).then
      (Tree.orders (ts.map tree) [])
    rw [Tree.orders_nil, Ordering.then_eq, Ordering.then_eq]
  · rw [tree_node, tree_node, Tree.order, glance, Ordering.then_assoc,
      List.length_map, List.length_map]
    rfl

theorem verdict_courses {ts us : List Term}
    (h : ∀ t ∈ ts, ∀ u ∈ us, (course t u).verdict = t.tree.order u.tree) :
    (courses ts us).verdict = Tree.orders (ts.map tree) (us.map tree) := by
  induction ts generalizing us with
  | nil => rfl
  | cons t ts ih =>
    cases us with
    | nil => rfl
    | cons u us =>
      rw [courses, Course.verdict_andThen, h t (.head _) u (.head _),
        ih fun t ht u hu => h t (.tail _ ht) u (.tail _ hu)]
      rfl

end Term

namespace Graph

variable {G : Graph} {a b : Term}

/-- **The recursion on terms has the verdict of the structural order**:
what it passes over is equal to itself. -/
theorem verdict_course (ha : a ∈ G) (hb : b ∈ G) :
    (a.course b).verdict = a.tree.order b.tree := by
  induction a generalizing b with
  | boxed n v =>
    by_cases hsame : (Term.boxed n v).same b
    · rw [Term.course_of_same hsame, eq_of_same ha hb hsame, Tree.order_self]
    · rw [Term.course_of_not_same (by simpa using hsame), Term.order_tree,
        Course.verdict_andThen]
      rfl
  | node n s ts ih =>
    -- Sharing is asked about here only: with one number it is one term.
    by_cases hsame : (Term.node n s ts).same b
    · rw [Term.course_of_same hsame, eq_of_same ha hb hsame, Tree.order_self]
    · rw [Term.course_of_not_same (by simpa using hsame), Term.order_tree,
        Course.verdict_andThen]
      refine congrArg _ (Term.verdict_courses fun t ht u hu => ?_)
      exact ih t ht (mem_of_mem_children ha ht) (mem_of_mem_children hb hu)

/-- **The walk decides the structural order.** -/
theorem compareTally?_eq (ha : a ∈ G) (hb : b ∈ G) (wa : a.tree.WellTagged)
    (wb : b.tree.WellTagged) :
    a.compareTally? b
      = some (a.tree.order b.tree, Tally.countAll {} (a.course b).pairs) := by
  rw [Term.compareTally?_eq_course wa wb, verdict_course ha hb]

/-- So does the order of terms. -/
theorem order_eq (ha : a ∈ G) (hb : b ∈ G) (wa : a.tree.WellTagged)
    (wb : b.tree.WellTagged) : a.order b = a.tree.order b.tree := by
  rw [Term.order, compareTally?_eq ha hb wa wb]

/-- The walk ends with the order of the two terms. -/
theorem compareTally?_eq_order (ha : a ∈ G) (hb : b ∈ G)
    (wa : a.tree.WellTagged) (wb : b.tree.WellTagged) :
    a.compareTally? b
      = some (a.order b, Tally.countAll {} (a.course b).pairs) := by
  rw [compareTally?_eq ha hb wa wb, order_eq ha hb wa wb]

/-- In the graph with a shared part, the shorter node is the lesser. -/
theorem onceOver_order_twiceOver : onceOver.order twiceOver = .lt := by
  rw [order_eq onceOver_mem_sharing twiceOver_mem_sharing
    wellTagged_onceOver wellTagged_twiceOver]
  rfl

/-- **The order of terms is the structural order, whatever is shared.**
The walk over two terms of a graph always ends with a verdict, the verdict
is that of the recursion on the unfolded terms, and terms of any other
graph that unfold to the same trees receive the same one. -/
theorem compare_eq_structural_order (ha : a ∈ G) (hb : b ∈ G)
    (wa : a.tree.WellTagged) (wb : b.tree.WellTagged) :
    (∃ tally, a.compareTally? b = some (a.tree.order b.tree, tally))
      ∧ a.order b = a.tree.order b.tree
      ∧ ∀ (H : Graph) (c d : Term), c ∈ H → d ∈ H →
          c.tree = a.tree → d.tree = b.tree →
          (∃ tally, c.compareTally? d = some (a.tree.order b.tree, tally))
            ∧ c.order d = a.order b := by
  refine ⟨⟨_, compareTally?_eq ha hb wa wb⟩, order_eq ha hb wa wb, ?_⟩
  intro H c d hc hd same₁ same₂
  have wc : c.tree.WellTagged := same₁ ▸ wa
  have wd : d.tree.WellTagged := same₂ ▸ wb
  refine ⟨⟨_, (compareTally?_eq hc hd wc wd).trans (by rw [same₁, same₂])⟩, ?_⟩
  rw [order_eq hc hd wc wd, order_eq ha hb wa wb, same₁, same₂]

/-- Two nodes over one text, the shorter of which is the lesser. -/
theorem compare_eq_structural_order_sharing :
    onceOver ∈ sharing ∧ twiceOver ∈ sharing
      ∧ onceOver.tree.WellTagged ∧ twiceOver.tree.WellTagged
      ∧ (∃ tally, onceOver.compareTally? twiceOver = some (.lt, tally))
      ∧ onceOver.order twiceOver = .lt := by
  obtain ⟨verdict, order, _⟩ := compare_eq_structural_order onceOver_mem_sharing
    twiceOver_mem_sharing wellTagged_onceOver wellTagged_twiceOver
  exact ⟨onceOver_mem_sharing, twiceOver_mem_sharing, wellTagged_onceOver,
    wellTagged_twiceOver, verdict, order⟩

end Graph

end TermGraph
