import TermGraph.Term.Basic

/-!
# What a term says, and what it shares

A term carries serial numbers, and two terms that say the same may carry
different ones. `Tree` is what is left when the numbers are taken off:
the **unfolding** of a term, in which a part that stands at two places
is there twice. Every statement about the structure of terms is a
statement about their unfoldings.

What the numbers add is which parts of a term are one instance. That is
said with `Term.Occurs`, the terms found in a term at some depth: an
unfolding knows that two of its parts look alike, and an occurrence knows
which of them it is.

Conditions on the nodes of a term are conditions on heads and numbers of
children. `Tree.All` imposes one everywhere, and `Term.all_tree_iff` reads
it off the occurrences.
-/

namespace TermGraph

/-- **An unfolded term**: a boxed scalar, or a head over unfolded terms. -/
inductive Tree where
  /-- A boxed scalar. -/
  | boxed (value : Scalar)
  /-- A head applied to children. -/
  | node (head : Symbol) (children : List Tree)

/-- Induction over the nodes of an unfolded term. -/
@[elab_as_elim, induction_eliminator]
theorem Tree.induct {motive : Tree → Prop}
    (boxed : ∀ v, motive (.boxed v))
    (node : ∀ s ts, (∀ t ∈ ts, motive t) → motive (.node s ts)) :
    ∀ t, motive t
  | .boxed v => boxed v
  | .node s ts => node s ts fun t _ => Tree.induct boxed node t

/-- Induction over the nodes of a term. -/
@[elab_as_elim, induction_eliminator]
theorem Term.induct {motive : Term → Prop}
    (boxed : ∀ n v, motive (.boxed n v))
    (node : ∀ n s ts, (∀ t ∈ ts, motive t) → motive (.node n s ts)) :
    ∀ t, motive t
  | .boxed n v => boxed n v
  | .node n s ts => node n s ts fun t _ => Term.induct boxed node t

namespace Tree

/-- **A condition on every node**, put on its head and the number of its
children. -/
inductive All (p : Symbol → Nat → Prop) : Tree → Prop
  /-- A boxed scalar has no head. -/
  | boxed (v : Scalar) : All p (boxed v)
  /-- The condition holds here and below. -/
  | node {s : Symbol} {ts : List Tree} (here : p s ts.length)
      (below : ∀ t ∈ ts, All p t) : All p (node s ts)

variable {p : Symbol → Nat → Prop}

@[simp] theorem all_boxed (v : Scalar) : (Tree.boxed v).All p := .boxed v

@[simp] theorem all_node (s : Symbol) (ts : List Tree) :
    (node s ts).All p ↔ p s ts.length ∧ ∀ t ∈ ts, t.All p := by
  constructor
  · rintro ⟨⟩
    exact ⟨‹_›, ‹_›⟩
  · rintro ⟨here, below⟩
    exact .node here below

mutual

/-- **The number of places in an unfolded term.** -/
def size : Tree → Nat
  | boxed _ => 1
  | node _ ts => sizes ts + 1

/-- The number of places in several unfolded terms. -/
def sizes : List Tree → Nat
  | [] => 0
  | t :: ts => t.size + sizes ts

end

/-- **No node carries a tag of boxed scalars.** -/
def WellTagged (t : Tree) : Prop := t.All fun s _ => s.isBoxed = false

/-- **Every node has a number of children that fits 64 bits.** -/
def Narrow (t : Tree) : Prop := t.All fun _ k => k < UInt64.size

end Tree

namespace Term

mutual

/-- **The unfolding of a term.** -/
def tree : Term → Tree
  | boxed _ v => .boxed v
  | node _ s ts => .node s (trees ts)

/-- The unfoldings of several terms. -/
def trees : List Term → List Tree
  | [] => []
  | t :: ts => t.tree :: trees ts

end

theorem trees_eq_map (ts : List Term) : trees ts = ts.map tree := by
  induction ts with
  | nil => rfl
  | cons t ts ih => rw [trees, ih, List.map_cons]

@[simp] theorem tree_boxed (n : Nat) (v : Scalar) :
    (boxed n v).tree = .boxed v := rfl

@[simp] theorem tree_node (n : Nat) (s : Symbol) (ts : List Term) :
    (node n s ts).tree = .node s (ts.map tree) := by
  rw [tree, trees_eq_map]

theorem size_tree (t : Term) :
    t.tree.size = Tree.sizes (t.children.map tree) + 1 := by
  cases t with
  | boxed n v => rfl
  | node n s ts => rw [tree_node, Tree.size, children]

/-- **Induction from the children**, whatever the term is: a boxed scalar
has none. -/
@[elab_as_elim]
theorem childInduct {motive : Term → Prop}
    (step : ∀ t, (∀ u ∈ t.children, motive u) → motive t) (t : Term) :
    motive t := by
  induction t with
  | boxed n v => exact step _ (List.forall_mem_nil _)
  | node n s ts ih => exact step _ ih

/-! ## Occurrences -/

/-- **A term is found in a term**, at the top or below a child. -/
inductive Occurs : Term → Term → Prop
  /-- A term is found at its own top. -/
  | self (t : Term) : Occurs t t
  /-- What is found in a child is found in the term. -/
  | under {x t u : Term} (child : u ∈ t.children) (inside : Occurs x u) :
      Occurs x t

/-- In a boxed scalar nothing is found but itself. -/
theorem occurs_boxed_iff {x : Term} {n : Nat} {v : Scalar} :
    x.Occurs (boxed n v) ↔ x = boxed n v := by
  constructor
  · rintro (_ | ⟨child, _⟩)
    · rfl
    · cases child
  · rintro rfl
    exact .self _

/-- What is found in a node is the node, or is found in a child. -/
theorem occurs_node_iff {x : Term} {n : Nat} {s : Symbol} {ts : List Term} :
    x.Occurs (node n s ts) ↔ x = node n s ts ∨ ∃ t ∈ ts, x.Occurs t := by
  constructor
  · rintro (_ | ⟨child, inside⟩)
    · exact .inl rfl
    · exact .inr ⟨_, child, inside⟩
  · rintro (rfl | ⟨t, child, inside⟩)
    · exact .self _
    · exact .under child inside

/-- **A condition on every node is a condition on every occurrence.** -/
theorem all_tree_iff {p : Symbol → Nat → Prop} (t : Term) :
    t.tree.All p ↔
      ∀ n s ts, (node n s ts).Occurs t → p s ts.length := by
  induction t with
  | boxed m v =>
    refine iff_of_true (Tree.all_boxed v) ?_
    intro n s ts found
    cases occurs_boxed_iff.mp found
  | node m s' us ih =>
    simp only [tree_node, Tree.all_node, List.length_map,
      List.forall_mem_map]
    constructor
    · rintro ⟨here, below⟩ n s ts found
      rcases occurs_node_iff.mp found with same | ⟨u, child, inside⟩
      · cases same
        exact here
      · exact (ih u child).mp (below u child) n s ts inside
    · intro h
      refine ⟨h m s' us (.self _), fun u child => ?_⟩
      exact (ih u child).mpr fun n s ts inside =>
        h n s ts (.under child inside)

/-- A condition on every node is one on every node of a child. -/
theorem all_tree_of_mem_children {p : Symbol → Nat → Prop} {t u : Term}
    (h : t.tree.All p) (hu : u ∈ t.children) : u.tree.All p := by
  cases t with
  | boxed n v => cases hu
  | node n s ts =>
    rw [tree_node, Tree.all_node] at h
    exact h.2 _ (List.mem_map_of_mem hu)

/-- A condition on every node is one on every node of what is found. -/
theorem all_tree_of_occurs {p : Symbol → Nat → Prop} {t x : Term}
    (h : t.tree.All p) (hx : x.Occurs t) : x.tree.All p := by
  induction hx with
  | self => exact h
  | under child _ ih => exact ih (all_tree_of_mem_children h child)

end Term

end TermGraph
