import TermGraph.Proofs.Course
import TermGraph.Proofs.Graph
import TermGraph.Proofs.ScalarOrder

/-!
# What a comparison costs

A comparison reports how many pairs it looked at and how many it passed
over. The walk arrives at the two numbers by way of a list of pending
pairs; `Term.reckon` arrives at them by recursion, each pair adding its
own to what its children cost. Children are charged from the left, up to
the first pair that differs and with that pair included, and what is
behind it is never charged.

The course of the comparison stands between the two. Its pairs are what
the walk counts (`Term.compareTally?_eq_course`), and counted they are
what the recursion charges (`Term.outcome_course`). From the course one
also reads that it makes no difference which term is on the left: with the
terms exchanged each pair is met the other way round (`Term.course_swap`),
and whether it is one instance is the same question. Nor can there be more
pairs than places in a term, because each place of either term meets at
most one of the other.
-/

namespace TermGraph

namespace Tally

/-- Two costs together. -/
instance : Add Tally :=
  ⟨fun c d => ⟨c.inspected + d.inspected, c.shared + d.shared⟩⟩

theorem add_def (c d : Tally) :
    c + d = ⟨c.inspected + d.inspected, c.shared + d.shared⟩ := rfl

/-- Of several pairs, those of one instance are passed over and the others
looked at. -/
theorem countAll_eq (c : Tally) (ps : List (Term × Term)) :
    c.countAll ps
      = ⟨c.inspected + ps.countP fun p => !p.1.same p.2,
          c.shared + ps.countP fun p => p.1.same p.2⟩ := by
  induction ps generalizing c with
  | nil => rfl
  | cons p ps ih =>
    rw [countAll, List.foldl_cons, ← countAll, ih, count, List.countP_cons,
      List.countP_cons]
    cases p.1.same p.2
    · simp [inspect, Nat.add_assoc, Nat.add_comm]
    · simp [skip, Nat.add_assoc, Nat.add_comm]

theorem countAll_append (ps qs : List (Term × Term)) :
    countAll {} (ps ++ qs) = countAll {} ps + countAll {} qs := by
  simp [countAll_eq, add_def]

/-- Every pair is counted once. -/
theorem inspected_add_shared_countAll (ps : List (Term × Term)) :
    (countAll {} ps).inspected + (countAll {} ps).shared = ps.length := by
  rw [countAll_eq, ps.length_eq_countP_add_countP fun p => p.1.same p.2]
  simp [Nat.add_comm]

end Tally

/-! ## The recursion -/

namespace Term

mutual

/-- **The verdict on two terms and what it costs.** A pair of one instance
costs one pair passed over and nothing else. Any other pair costs one pair
looked at, to which two nodes with one head and as many children add what
their children cost. -/
def reckon (a b : Term) : Ordering × Tally :=
  if a.same b then (.eq, { shared := 1 })
  else
    match a, b with
    | node _ s ts, node _ t us =>
      if s = t ∧ ts.length = us.length then
        ((reckons ts us).1, { inspected := 1 } + (reckons ts us).2)
      else (glance a b, { inspected := 1 })
    | _, _ => (glance a b, { inspected := 1 })

/-- **The verdict on children and what it costs**, from the left up to the
first pair that differs. -/
def reckons : List Term → List Term → Ordering × Tally
  | t :: ts, u :: us =>
    match reckon t u with
    | (.eq, c) => ((reckons ts us).1, c + (reckons ts us).2)
    | (o, c) => (o, c)
  | _, _ => (.eq, {})

end

theorem reckon_of_same {a b : Term} (h : a.same b = true) :
    reckon a b = (.eq, { shared := 1 }) := by
  cases a <;> cases b <;> rw [reckon.eq_def, if_pos h]

/-- Two nodes are left open by a look at them exactly if they have one head
and as many children. -/
theorem glance_node_eq_eq_iff {m n : ℕ} {s t : Symbol} {ts us : List Term} :
    glance (node m s ts) (node n t us) = .eq
      ↔ s = t ∧ ts.length = us.length := by
  rw [glance, Ordering.then_eq_eq, Symbol.compare_eq_eq_iff, Nat.compare_eq_eq]
  rfl

theorem reckon_of_not_same {a b : Term} (h : a.same b = false) :
    reckon a b
      = match glance a b with
        | .eq => ((reckons a.children b.children).1,
            { inspected := 1 } + (reckons a.children b.children).2)
        | o => (o, { inspected := 1 }) := by
  rw [reckon.eq_def, h, if_neg Bool.false_ne_true]
  rcases a with ⟨m, v⟩ | ⟨m, s, ts⟩ <;> rcases b with ⟨n, w⟩ | ⟨n, t, us⟩
  · cases glance (boxed m v) (boxed n w) <;> rfl
  · cases glance (boxed m v) (node n t us) <;> rfl
  · cases glance (node m s ts) (boxed n w) <;> cases ts <;> rfl
  · dsimp only
    split
    · next agree =>
      rw [glance_node_eq_eq_iff.mpr agree]
      rfl
    · next differ =>
      cases hglance : glance (node m s ts) (node n t us) with
      | eq => exact absurd (glance_node_eq_eq_iff.mp hglance) differ
      | lt => rfl
      | gt => rfl

theorem same_comm (a b : Term) : a.same b = b.same a := by
  rw [same, same, Bool.beq_comm]

end Term

/-! ## What a course amounts to -/

namespace Course

/-- **What a course amounts to**: its verdict, and the count of its
pairs. -/
def outcome (f : Course) : Ordering × Tally :=
  (f.verdict, Tally.countAll {} f.pairs)

/-- The pairs behind a difference are not charged. -/
theorem outcome_andThen (f g : Course) :
    (f.andThen g).outcome
      = match f.outcome with
        | (.eq, c) => (g.outcome.1, c + g.outcome.2)
        | (o, c) => (o, c) := by
  obtain ⟨o, ps⟩ := f
  cases o with
  | eq => exact congrArg (Prod.mk g.verdict) (Tally.countAll_append ps g.pairs)
  | lt => rfl
  | gt => rfl

theorem length_pairs_andThen_le (f g : Course) :
    (f.andThen g).pairs.length ≤ f.pairs.length + g.pairs.length := by
  unfold andThen
  cases f.verdict with
  | eq => exact List.length_append.le
  | lt => exact Nat.le_add_right _ _
  | gt => exact Nat.le_add_right _ _

/-- **The course the other way round.** -/
def swap (f : Course) : Course := ⟨f.verdict.swap, f.pairs.map Prod.swap⟩

theorem swap_andThen (f g : Course) :
    (f.andThen g).swap = f.swap.andThen g.swap := by
  unfold andThen swap
  cases f.verdict <;> simp

/-- Which term is on the left does not show in the count. -/
theorem outcome_swap (f : Course) :
    f.swap.outcome = (f.outcome.1.swap, f.outcome.2) := by
  have comm : ∀ p : Term × Term, p.swap.1.same p.swap.2 = p.1.same p.2 :=
    fun p => Term.same_comm p.2 p.1
  rw [outcome, outcome, swap, Tally.countAll_eq, Tally.countAll_eq,
    List.countP_map, List.countP_map]
  simp only [Function.comp_def, comm]

end Course

namespace Term

theorem outcome_courses {ts us : List Term}
    (h : ∀ t ∈ ts, ∀ u, (course t u).outcome = reckon t u) :
    (courses ts us).outcome = reckons ts us := by
  induction ts generalizing us with
  | nil => cases us <;> rfl
  | cons t ts ih =>
    cases us with
    | nil => rfl
    | cons u us =>
      obtain ⟨ht, hts⟩ := List.forall_mem_cons.mp h
      rw [courses, reckons, Course.outcome_andThen, ht u, ih hts]

/-- **The course amounts to what the recursion reckons.** -/
theorem outcome_course (a b : Term) : (course a b).outcome = reckon a b := by
  induction a using childInduct generalizing b with
  | step a ih =>
    cases hsame : a.same b with
    | true =>
      rw [course_of_same hsame, reckon_of_same hsame, Course.outcome,
        Tally.countAll_eq]
      simp [hsame]
    | false =>
      have one : Tally.countAll {} [(a, b)] = { inspected := 1 } := by
        simp [Tally.countAll_eq, hsame]
      rw [course_of_not_same hsame, reckon_of_not_same hsame,
        Course.outcome_andThen, outcome_courses ih, Course.outcome, one]
      cases glance a b <;> rfl

/-! ## The other way round -/

/-- **A look at the pair the other way round** reverses what it tells. -/
theorem glance_swap (a b : Term) : glance b a = (glance a b).swap := by
  have tags : compare b.tag a.tag = (compare a.tag b.tag).swap := by
    rw [Symbol.compare_def, Symbol.compare_def, Nat.compare_swap]
  unfold glance
  rw [Ordering.swap_then, tags]
  refine then_congr fun same => ?_
  have htag : a.tag = b.tag :=
    Symbol.compare_eq_eq_iff.mp (Ordering.swap_eq_eq.mp same)
  rcases a with ⟨m, v⟩ | ⟨m, s, ts⟩ <;> rcases b with ⟨n, w⟩ | ⟨n, t, us⟩
  · dsimp only
    rw [Scalar.compare_of_tag_eq htag, Scalar.compare_of_tag_eq htag.symm,
      Scalar.valueOrder_swap htag]
  · rfl
  · rfl
  · exact (Nat.compare_swap _ _).symm

theorem courses_swap {ts us : List Term}
    (h : ∀ t ∈ ts, ∀ u, course u t = (course t u).swap) :
    courses us ts = (courses ts us).swap := by
  induction ts generalizing us with
  | nil => cases us <;> rfl
  | cons t ts ih =>
    cases us with
    | nil => rfl
    | cons u us =>
      obtain ⟨ht, hts⟩ := List.forall_mem_cons.mp h
      rw [courses, courses, ht u, ih hts, Course.swap_andThen]

/-- **With the terms exchanged the comparison takes the same course**, each
pair the other way round. -/
theorem course_swap (a b : Term) : course b a = (course a b).swap := by
  induction a using childInduct generalizing b with
  | step a ih =>
    cases hsame : a.same b with
    | true =>
      rw [course_of_same hsame, course_of_same (same_comm a b ▸ hsame)]
      rfl
    | false =>
      rw [course_of_not_same hsame, course_of_not_same (same_comm a b ▸ hsame),
        glance_swap, courses_swap ih, Course.swap_andThen]
      rfl

/-! ## No more pairs than places -/

theorem length_pairs_courses_le {ts us : List Term}
    (h : ∀ t ∈ ts, ∀ u, (course t u).pairs.length ≤ t.tree.size) :
    (courses ts us).pairs.length ≤ Tree.sizes (ts.map tree) := by
  induction ts generalizing us with
  | nil => cases us <;> exact Nat.le_refl 0
  | cons t ts ih =>
    cases us with
    | nil => exact Nat.zero_le _
    | cons u us =>
      obtain ⟨ht, hts⟩ := List.forall_mem_cons.mp h
      exact (Course.length_pairs_andThen_le _ _).trans
        (Nat.add_le_add (ht u) (ih hts))

/-- **A comparison comes to no more pairs than there are places** in the
term on the left. -/
theorem length_pairs_course_le (a b : Term) :
    (course a b).pairs.length ≤ a.tree.size := by
  induction a using childInduct generalizing b with
  | step a ih =>
    rw [size_tree]
    cases hsame : a.same b with
    | true =>
      rw [course_of_same hsame]
      exact Nat.le_add_left 1 _
    | false =>
      rw [course_of_not_same hsame, Nat.add_comm]
      exact (Course.length_pairs_andThen_le _ _).trans
        (Nat.add_le_add_left (length_pairs_courses_le ih) 1)

/-! ## The cost of a comparison -/

variable {a b : Term}

/-- The walk costs what the recursion reckons. -/
theorem compareTally?_eq_reckon (wa : a.tree.WellTagged)
    (wb : b.tree.WellTagged) : a.compareTally? b = some (a.reckon b) := by
  rw [compareTally?_eq_course wa wb, ← outcome_course]
  rfl

/-- With the terms exchanged the verdict is reversed and the cost is the
same. -/
theorem reckon_swap (a b : Term) :
    b.reckon a = ((a.reckon b).1.swap, (a.reckon b).2) := by
  rw [← outcome_course, ← outcome_course, course_swap, Course.outcome_swap]

theorem inspected_add_shared_reckon_le (a b : Term) :
    (a.reckon b).2.inspected + (a.reckon b).2.shared ≤ a.tree.size := by
  rw [← outcome_course, Course.outcome, Tally.inspected_add_shared_countAll]
  exact length_pairs_course_le a b

/-- **A comparison costs what the recursion from left to right charges**,
to the first difference and no further. The cost is the same with the
terms exchanged, when the verdict is reversed, and both counters together
do not exceed the number of places in either term. -/
theorem compareTally?_cost (wa : a.tree.WellTagged) (wb : b.tree.WellTagged) :
    a.compareTally? b = some (a.reckon b)
      ∧ b.compareTally? a = some ((a.reckon b).1.swap, (a.reckon b).2)
      ∧ (a.reckon b).2.inspected + (a.reckon b).2.shared
          ≤ min a.tree.size b.tree.size := by
  refine ⟨compareTally?_eq_reckon wa wb, ?_, ?_⟩
  · rw [compareTally?_eq_reckon wb wa, reckon_swap]
  · have left := inspected_add_shared_reckon_le a b
    have right := inspected_add_shared_reckon_le b a
    rw [reckon_swap] at right
    exact Nat.le_min.mpr ⟨left, right⟩

/-- Two nodes whose first children are one instance and whose second
differ. Their third children differ as well, and are not compared. -/
theorem compareTally?_cost_triples :
    let a := node 5 ⟨15⟩ [Graph.onceOver, Graph.sharedText, Graph.onceOver]
    let b := node 6 ⟨15⟩ [Graph.onceOver, Graph.twiceOver, Graph.sharedText]
    a.tree.WellTagged ∧ b.tree.WellTagged
      ∧ a.compareTally? b = some (.lt, { inspected := 2, shared := 1 })
      ∧ b.compareTally? a = some (.gt, { inspected := 2, shared := 1 })
      ∧ 2 + 1 ≤ min a.tree.size b.tree.size := by
  intro a b
  have wa : a.tree.WellTagged := by
    simp [a, Graph.onceOver, Graph.sharedText, Tree.WellTagged]
    decide
  have wb : b.tree.WellTagged := by
    simp [b, Graph.onceOver, Graph.twiceOver, Graph.sharedText, Tree.WellTagged]
    decide
  exact ⟨wa, wb, compareTally?_cost wa wb⟩

end Term

end TermGraph
