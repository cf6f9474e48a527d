import TermGraph.Proofs.ArityDiscipline
import TermGraph.Proofs.StructuralOrder

/-!
# Terms in contexts

A context is a term with a hole: from the top down, a head at every level,
what stands on the left of the way to the hole, and what stands on the
right. What a context says is all there is in a `Context`. Two terms that
stand in it may have the siblings in common, or have siblings that were
built for each of them and say the same (`Term.StandsIn`); and whatever is
found in a term stands in some context there
(`Term.occurs_iff_exists_standsIn`).

A context is not seen by the order. On the way to the hole the heads and the
numbers of children agree. The siblings on the left are equal, and those on
the right, which are equal as well, are never asked if the contents of the
hole decide. So it is a matter of one level (`Tree.order_fill_cons`), and
of induction on their number.
-/

namespace TermGraph

/-- **One level of a context**: a head, and what is on either side of the
hole. -/
structure Layer where
  /-- The head. -/
  head : Symbol
  /-- The siblings on the left. -/
  left : List Tree
  /-- The siblings on the right. -/
  right : List Tree

/-- **A context**: its levels, from the top to the hole. -/
abbrev Context := List Layer

namespace Context

/-- **A tree put into the hole.** -/
def fill : Context → Tree → Tree
  | [], t => t
  | l :: C, t => .node l.head (l.left ++ fill C t :: l.right)

end Context

namespace Tree

/-- Among siblings that are the same, the one place where the children
differ decides. -/
theorem orders_append_cons (ls rs : List Tree) (t u : Tree) :
    orders (ls ++ t :: rs) (ls ++ u :: rs) = t.order u := by
  induction ls with
  | nil =>
    rw [List.nil_append, List.nil_append, orders,
      orders_self fun r _ => r.order_self, Ordering.then_eq]
  | cons l ls ih =>
    rw [List.cons_append, List.cons_append, orders, order_self, ih]
    rfl

/-- **One level of a context is not seen.** -/
theorem order_fill_cons (l : Layer) (C : Context) (t u : Tree) :
    (Context.fill (l :: C) t).order (Context.fill (l :: C) u)
      = (C.fill t).order (C.fill u) := by
  have heads : compare l.head l.head = .eq := Symbol.compare_eq_eq_iff.mpr rfl
  have counts (x y : Tree) : compare (l.left ++ x :: l.right).length
      (l.left ++ y :: l.right).length = .eq := by
    rw [List.length_append, List.length_append]
    exact Nat.compare_eq_eq.mpr rfl
  rw [Context.fill, Context.fill, order, heads, counts, orders_append_cons]
  rfl

/-- **A context is not seen by the order**, however deep the hole is. -/
theorem order_fill (C : Context) (t u : Tree) :
    (C.fill t).order (C.fill u) = t.order u := by
  induction C with
  | nil => rfl
  | cons l C ih => rw [order_fill_cons, ih]

end Tree

/-! ## Terms that stand in a context -/

namespace Term

variable {C : Context} {a b c : Term}

/-- **A term stands in a context**, and another is what comes of it. The
siblings are any terms that say what the context says. -/
inductive StandsIn : Context → Term → Term → Prop
  /-- The hole alone. -/
  | hole (a : Term) : StandsIn [] a a
  /-- One more level. -/
  | level {C : Context} {a b : Term} (n : ℕ) (s : Symbol) (ls rs : List Term)
      (inner : StandsIn C a b) :
      StandsIn (⟨s, ls.map tree, rs.map tree⟩ :: C) a
        (node n s (ls ++ b :: rs))

/-- What a term in a context says. -/
theorem StandsIn.tree_eq (h : StandsIn C a c) : c.tree = C.fill a.tree := by
  induction h with
  | hole => rfl
  | level n s ls rs _ ih =>
    rw [tree_node, List.map_append, List.map_cons, ih, Context.fill]

/-- What stands in a context is found there. -/
theorem StandsIn.occurs (h : StandsIn C a c) : a.Occurs c := by
  induction h with
  | hole => exact .self _
  | level n s ls rs _ ih =>
    exact .under (List.mem_append_right _ (.head _)) ih

/-- **What is found in a term stands in a context there.** -/
theorem occurs_iff_exists_standsIn : a.Occurs c ↔ ∃ C, StandsIn C a c := by
  constructor
  · intro h
    induction h with
    | self => exact ⟨[], .hole a⟩
    | @under t u child _ ih =>
      obtain ⟨C, inner⟩ := ih
      cases t with
      | boxed n v => cases child
      | node n s ts =>
        obtain ⟨ls, rs, rfl⟩ := List.append_of_mem child
        exact ⟨_, .level n s ls rs inner⟩
  · rintro ⟨C, h⟩
    exact h.occurs

end Term

namespace Graph

variable {G : Graph} {C : Context} {a b c d : Term}

/-- **The order is kept by contexts.** Put two terms into one context, at
any depth and between any siblings, shared or not: the walk over the two
results ends with the verdict on the two terms. So the results are ordered
as the terms are, and equal if they are. -/
theorem order_kept_by_contexts (hc : c ∈ G) (hd : d ∈ G)
    (wc : c.tree.WellTagged) (wd : d.tree.WellTagged)
    (left : Term.StandsIn C a c) (right : Term.StandsIn C b d) :
    (∃ tally, a.compareTally? b = some (a.order b, tally))
      ∧ (∃ tally, c.compareTally? d = some (a.order b, tally))
      ∧ c.order d = a.order b := by
  have wa : a.tree.WellTagged := Term.all_tree_of_occurs wc left.occurs
  have wb : b.tree.WellTagged := Term.all_tree_of_occurs wd right.occurs
  have ha : a ∈ G := mem_of_occurs hc left.occurs
  have hb : b ∈ G := mem_of_occurs hd right.occurs
  have kept : c.order d = a.order b := by
    rw [order_eq hc hd wc wd, left.tree_eq, right.tree_eq, Tree.order_fill,
      order_eq ha hb wa wb]
  exact ⟨⟨_, compareTally?_eq_order ha hb wa wb⟩,
    ⟨_, kept ▸ compareTally?_eq_order hc hd wc wd⟩, kept⟩

/-- Two numbers in a list behind a text that both lists share, before an
end that each has for itself. -/
theorem order_kept_by_contexts_inList :
    let a : Term := .boxed 2 (.int32 1)
    let b : Term := .boxed 3 (.int32 2)
    let w : Term := .boxed 4 (.text "w")
    let c : Term := .node 9 .consTag
      [w, .node 7 .consTag [a, .node 5 .nilTag []]]
    let d : Term := .node 10 .consTag
      [w, .node 8 .consTag [b, .node 6 .nilTag []]]
    let C : Context := [⟨.consTag, [.boxed (.text "w")], []⟩,
      ⟨.consTag, [], [.node .nilTag []]⟩]
    (∃ G : Graph, c ∈ G ∧ d ∈ G)
      ∧ c.tree.WellTagged ∧ d.tree.WellTagged
      ∧ Term.StandsIn C a c ∧ Term.StandsIn C b d
      ∧ a.order b = .lt ∧ c.order d = .lt := by
  intro a b w c d C
  obtain ⟨G, hG⟩ := Workspace.exists_graph_run ∅ [.obtain (.scalar (.int32 1)),
    .obtain (.scalar (.int32 2)), .obtain (.scalar (.text "w")),
    .obtain (.constant .nil), .obtain (.constant .nil), .obtain (.cons 0 3),
    .obtain (.cons 1 4), .obtain (.cons 2 5), .obtain (.cons 2 6)]
  obtain ⟨hc, wc⟩ := hG c (List.mem_of_getElem? (i := 7) rfl)
  obtain ⟨hd, wd⟩ := hG d (List.mem_of_getElem? (i := 8) rfl)
  have left : Term.StandsIn C a c :=
    .level 9 .consTag [w] []
      (.level 7 .consTag [] [.node 5 .nilTag []] (.hole a))
  have right : Term.StandsIn C b d :=
    .level 10 .consTag [w] []
      (.level 8 .consTag [] [.node 6 .nilTag []] (.hole b))
  obtain ⟨-, -, kept⟩ := order_kept_by_contexts hc hd wc wd left right
  have lesser : a.order b = .lt := by
    rw [order_eq (mem_of_occurs hc left.occurs) (mem_of_occurs hd right.occurs)
      (Tree.all_boxed _) (Tree.all_boxed _)]
    rfl
  exact ⟨⟨G, hc, hd⟩, wc, wd, left, right, lesser, kept.trans lesser⟩

end Graph

end TermGraph
