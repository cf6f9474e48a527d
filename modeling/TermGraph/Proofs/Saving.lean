import Mathlib.Algebra.BigOperators.Group.List.Basic
import TermGraph.Proofs.ArityDiscipline
import TermGraph.Proofs.Cost
import TermGraph.Proofs.StructuralOrder

/-!
# What sharing saves

Two comparisons of terms that say the same may differ in cost, and only
because of what is one instance in the one and not in the other. The
measure of both is `Tree.looks`, the number of pairs the structural order
looks at, which is a matter of the unfoldings alone. A pair that is looked
at counts for one of them. A pair that is passed over counts for as many
as its term has places, since a term is equal to itself and all of it
would have been looked at (`Tree.looks_self`). So counted, the pairs of
any comparison in a graph make up the looks of its unfoldings –
`Graph.sum_worth_course` – however its terms are shared.

Terms without an instance in common are passed over nowhere, and their
comparison costs exactly that number. What another comparison of the same
unfoldings saves is therefore what it passes over, place by place.
-/

namespace TermGraph

namespace Tree

mutual

/-- **The pairs of places the structural order looks at**: the pair of
roots, and with one head and as many children those of the children. -/
def looks : Tree → Tree → ℕ
  | node s ts, node t us =>
    if s = t ∧ ts.length = us.length then 1 + looksAll ts us else 1
  | _, _ => 1

/-- Children are looked at from the left, up to the first difference. -/
def looksAll : List Tree → List Tree → ℕ
  | t :: ts, u :: us =>
    looks t u + if order t u = .eq then looksAll ts us else 0
  | _, _ => 0

end

theorem looksAll_self {ts : List Tree} (h : ∀ t ∈ ts, t.looks t = t.size) :
    looksAll ts ts = sizes ts := by
  induction ts with
  | nil => rfl
  | cons t ts ih =>
    obtain ⟨ht, hts⟩ := List.forall_mem_cons.mp h
    rw [looksAll, if_pos t.order_self, ht, ih hts, sizes]

@[simp] theorem looksAll_nil (ts : List Tree) : looksAll ts [] = 0 := by
  cases ts <;> rfl

/-- **All of a tree is looked at when it is compared with itself.** -/
theorem looks_self (t : Tree) : t.looks t = t.size := by
  induction t with
  | boxed v => rfl
  | node s ts ih =>
    rw [looks, if_pos ⟨rfl, rfl⟩, looksAll_self ih, size, Nat.add_comm]

end Tree

namespace Term

/-- What is looked at begins with a look at the pair. -/
theorem looks_tree (a b : Term) :
    a.tree.looks b.tree
      = 1 + if glance a b = .eq then
          Tree.looksAll (a.children.map tree) (b.children.map tree) else 0 := by
  rcases a with ⟨m, v⟩ | ⟨m, s, ts⟩ <;> rcases b with ⟨n, w⟩ | ⟨n, t, us⟩
  · exact (congrArg (1 + ·) (ite_self 0)).symm
  · exact (congrArg (1 + ·) (ite_self 0)).symm
  · show 1 = 1 + if glance (node m s ts) (boxed n w) = .eq then
      Tree.looksAll (ts.map tree) [] else 0
    rw [Tree.looksAll_nil, ite_self]
  · rw [tree_node, tree_node, Tree.looks, List.length_map, List.length_map]
    simp only [glance_node_eq_eq_iff, children]
    split <;> rfl

/-- **What a pair counts for**: the places of the term that is passed over,
or the one pair that is looked at. -/
def worth (p : Term × Term) : ℕ :=
  if p.1.same p.2 then p.1.tree.size else 1

/-- **The terms that are passed over** among several pairs. -/
def skipped (ps : List (Term × Term)) : List Term :=
  (ps.filter fun p => p.1.same p.2).map Prod.fst

/-- Pairs that are looked at count for one each, so the rest is the places
of what is passed over. -/
theorem sum_worth (ps : List (Term × Term)) :
    (ps.map worth).sum
      = (Tally.countAll {} ps).inspected
        + ((skipped ps).map fun t => t.tree.size).sum := by
  rw [Tally.countAll_eq]
  induction ps with
  | nil => rfl
  | cons p ps ih =>
    rw [List.map_cons, List.sum_cons, ih, worth, skipped, skipped]
    cases hsame : p.1.same p.2
    · simp [hsame, Nat.add_comm, Nat.add_left_comm]
    · simp [hsame, Nat.add_left_comm]

theorem length_skipped (ps : List (Term × Term)) :
    (skipped ps).length = (Tally.countAll {} ps).shared := by
  rw [Tally.countAll_eq, skipped, List.length_map,
    ← List.countP_eq_length_filter]
  exact (Nat.zero_add _).symm

theorem length_skipped_le (ps : List (Term × Term)) :
    (skipped ps).length ≤ ((skipped ps).map fun t => t.tree.size).sum := by
  have pos : ∀ n ∈ (skipped ps).map fun t => t.tree.size, 1 ≤ n :=
    List.forall_mem_map.mpr fun t _ => t.size_tree ▸ Nat.le_add_left 1 _
  simpa using List.length_le_sum_of_one_le _ pos

theorem sum_worth_andThen (f g : Course) :
    ((f.andThen g).pairs.map worth).sum
      = (f.pairs.map worth).sum
        + if f.verdict = .eq then (g.pairs.map worth).sum else 0 := by
  obtain ⟨o, ps⟩ := f
  cases o <;> simp [Course.andThen]

/-- **Two terms have no instance in common**, at any depth. -/
def Apart (a b : Term) : Prop :=
  ∀ x y : Term, x.Occurs a → y.Occurs b → x.same y = false

/-- **The comparison with a record of what it passes over**: each time it
passes over a pair, the term that both sides are. -/
def compareSkipped? (a b : Term) : Option (Ordering × List Term) :=
  walkWith (fun ts p => if p.1.same p.2 then ts ++ [p.1] else ts) [(a, b)] []

theorem foldl_skipped (ts : List Term) (ps : List (Term × Term)) :
    ps.foldl (fun ts p => if p.1.same p.2 then ts ++ [p.1] else ts) ts
      = ts ++ skipped ps := by
  induction ps generalizing ts with
  | nil => exact (List.append_nil ts).symm
  | cons p ps ih =>
    rw [List.foldl_cons, ih, skipped, skipped]
    cases hsame : p.1.same p.2 <;> simp [hsame]

theorem compareSkipped?_eq_course {a b : Term} (wa : a.tree.WellTagged)
    (wb : b.tree.WellTagged) :
    a.compareSkipped? b
      = some ((course a b).verdict, skipped (course a b).pairs) := by
  rw [compareSkipped?, walkWith_singleton_eq_course wa wb, foldl_skipped,
    List.nil_append]

end Term

namespace Graph

variable {G H : Graph} {a b c d : Term}

theorem sum_worth_courses {ts us : List Term}
    (h : ∀ t ∈ ts, ∀ u ∈ us,
      (t.course u).verdict = t.tree.order u.tree
        ∧ ((t.course u).pairs.map Term.worth).sum = t.tree.looks u.tree) :
    ((Term.courses ts us).pairs.map Term.worth).sum
      = Tree.looksAll (ts.map Term.tree) (us.map Term.tree) := by
  induction ts generalizing us with
  | nil => cases us <;> rfl
  | cons t ts ih =>
    cases us with
    | nil => rfl
    | cons u us =>
      obtain ⟨verdict, worth⟩ := h t (.head _) u (.head _)
      rw [Term.courses, Term.sum_worth_andThen, verdict, worth,
        ih fun t ht u hu => h t (.tail _ ht) u (.tail _ hu)]
      rfl

/-- **The pairs of a comparison count for the looks of the unfoldings**,
however the terms are shared. -/
theorem sum_worth_course (ha : a ∈ G) (hb : b ∈ G) :
    ((a.course b).pairs.map Term.worth).sum = a.tree.looks b.tree := by
  induction a using Term.childInduct generalizing b with
  | step a ih =>
    cases hsame : a.same b with
    | true =>
      -- What is passed over is one term, all of which would be looked at.
      obtain rfl := eq_of_same ha hb hsame
      rw [Term.course_of_same hsame, Tree.looks_self]
      exact (List.sum_singleton).trans (if_pos hsame)
    | false =>
      have one : Term.worth (a, b) = 1 := if_neg (by simp [hsame])
      rw [Term.course_of_not_same hsame, Term.sum_worth_andThen,
        Term.looks_tree, List.map_singleton, List.sum_singleton, one,
        sum_worth_courses]
      intro t ht u hu
      have ht' := mem_of_mem_children ha ht
      have hu' := mem_of_mem_children hb hu
      exact ⟨verdict_course ht' hu', ih t ht ht' hu'⟩

/-- Looked at and passed over, a comparison accounts for the looks of the
unfoldings. -/
theorem inspected_add_size_skipped (ha : a ∈ G) (hb : b ∈ G) :
    (Tally.countAll {} (a.course b).pairs).inspected
        + ((Term.skipped (a.course b).pairs).map fun t => t.tree.size).sum
      = a.tree.looks b.tree := by
  rw [← Term.sum_worth, sum_worth_course ha hb]

/-- Terms without an instance in common are passed over nowhere. -/
theorem skipped_of_apart (apart : c.Apart d) :
    Term.skipped (c.course d).pairs = [] := by
  rw [Term.skipped, List.filter_eq_nil_iff.mpr, List.map_nil]
  intro p hp
  obtain ⟨left, right⟩ := Term.occurs_of_mem_pairs hp
  rw [apart p.1 p.2 left right]
  exact Bool.false_ne_true

/-- **Terms without an instance in common are compared at the price of the
looks of their unfoldings.** -/
theorem compareTally?_of_apart (hc : c ∈ H) (hd : d ∈ H)
    (wc : c.tree.WellTagged) (wd : d.tree.WellTagged) (apart : c.Apart d) :
    c.compareTally? d
      = some (c.tree.order d.tree,
          { inspected := c.tree.looks d.tree, shared := 0 }) := by
  have inspected := inspected_add_size_skipped hc hd
  have shared := Term.length_skipped (c.course d).pairs
  rw [skipped_of_apart apart] at inspected shared
  rw [compareTally?_eq hc hd wc wd, ← inspected]
  exact congrArg (fun n => some (_, Tally.mk _ n)) shared.symm

/-- **What sharing saves.** Take two terms of a graph, and terms that
unfold to the same trees but have no instance in common. The comparison of
these ends with the same verdict and passes over nothing. It looks at as
many pairs as the comparison of those, and besides at as many as there are
places in what that comparison passed over; so it never comes to fewer
pairs. -/
theorem inspected_of_apart (ha : a ∈ G) (hb : b ∈ G) (wa : a.tree.WellTagged)
    (wb : b.tree.WellTagged) (hc : c ∈ H) (hd : d ∈ H)
    (hca : c.tree = a.tree) (hdb : d.tree = b.tree) (apart : c.Apart d) :
    ∃ verdict tally tally' skipped,
      a.compareTally? b = some (verdict, tally)
        ∧ a.compareSkipped? b = some (verdict, skipped)
        ∧ skipped.length = tally.shared
        ∧ c.compareTally? d = some (verdict, tally')
        ∧ tally'.shared = 0
        ∧ tally'.inspected
            = tally.inspected + (skipped.map fun t => t.tree.size).sum
        ∧ tally.inspected + tally.shared ≤ tally'.inspected := by
  have total := inspected_add_size_skipped ha hb
  have least := Term.length_skipped_le (a.course b).pairs
  refine ⟨a.tree.order b.tree, Tally.countAll {} (a.course b).pairs,
    { inspected := a.tree.looks b.tree }, Term.skipped (a.course b).pairs,
    compareTally?_eq ha hb wa wb, ?_, Term.length_skipped _, ?_, rfl,
    total.symm, ?_⟩
  · rw [Term.compareSkipped?_eq_course wa wb, verdict_course ha hb]
  · rw [compareTally?_of_apart hc hd (hca ▸ wa) (hdb ▸ wb) apart, hca, hdb]
  · rw [← Term.length_skipped, ← total]
    exact Nat.add_le_add_left least _

/-- Two cells that begin with one present value, and a third that says the
same as the second without sharing it with the first. The part that is one
instance has two places. -/
theorem inspected_of_apart_cells :
    let one := Term.boxed 2 (.int32 1)
    let present := Term.node 3 .someTag [one]
    let two := Term.boxed 5 (.int32 2)
    let a := Term.node 4 .consTag [present, one]
    let b := Term.node 6 .consTag [present, two]
    let d := Term.node 9 .consTag
      [.node 8 .someTag [.boxed 7 (.int32 1)], two]
    (∃ G : Graph, a ∈ G ∧ b ∈ G ∧ d ∈ G)
      ∧ a.tree.WellTagged ∧ b.tree.WellTagged ∧ d.tree = b.tree ∧ a.Apart d
      ∧ a.compareTally? b = some (.lt, { inspected := 2, shared := 1 })
      ∧ a.compareSkipped? b = some (.lt, [present])
      ∧ a.compareTally? d = some (.lt, { inspected := 4, shared := 0 }) := by
  intro one present two a b d
  obtain ⟨G, members⟩ := Workspace.exists_graph_run ∅
    [.obtain (.scalar (.int32 1)), .obtain (.present 0), .obtain (.cons 1 0),
      .obtain (.scalar (.int32 2)), .obtain (.cons 1 3), .obtain (.copy 0),
      .obtain (.present 5), .obtain (.cons 6 3)]
  obtain ⟨ha, wa⟩ := members a (List.mem_of_getElem? (i := 2) rfl)
  obtain ⟨hb, wb⟩ := members b (List.mem_of_getElem? (i := 4) rfl)
  obtain ⟨hd, -⟩ := members d (List.mem_of_getElem? (i := 7) rfl)
  have apart : a.Apart d := by
    intro x y hx hy
    simp only [a, d, present, one, two, Term.occurs_node_iff,
      Term.occurs_boxed_iff, List.mem_cons, List.not_mem_nil, or_false,
      exists_eq_or_imp, exists_eq_left] at hx hy
    rcases hx with rfl | (rfl | rfl) | rfl <;>
      rcases hy with rfl | (rfl | rfl) | rfl <;> rfl
  have shares : a.compareTally? b = some (.lt, { inspected := 2, shared := 1 }) :=
    (Term.compareTally?_eq_reckon wa wb).trans rfl
  have passes : a.compareSkipped? b = some (.lt, [present]) :=
    (Term.compareSkipped?_eq_course wa wb).trans rfl
  obtain ⟨_, _, ⟨_, _⟩, _, h₁, h₂, -, h₃, rfl, rfl, -⟩ :=
    inspected_of_apart ha hb wa wb ha hd rfl rfl apart
  cases h₁.symm.trans shares
  cases h₂.symm.trans passes
  exact ⟨⟨G, ha, hb, hd⟩, wa, wb, rfl, apart, shares, passes, h₃⟩

end Graph

end TermGraph
