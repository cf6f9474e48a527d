import TermGraph.Proofs.Renaming
import TermGraph.Proofs.StructuralOrder

/-!
# Verdicts on terms of any tags

The order has no answer where a boxed scalar meets a node with its tag, and
only a node built without checks can have one. Whether the walk comes to such
a pair is not decided by the tags alone: a difference in front of it ends the
walk before, and a pair of one instance that would lead there is passed over.

`Tree.verdict?` is the verdict by recursion on unfolded terms, absent where a
pair without one is met. It takes no short cut, and it agrees with the walk all
the same. A pair of one instance is two times one tree, and a tree never meets
itself in another shape, so there is a verdict on it, and it decides nothing
(`Tree.verdict?_self`). So what is shared makes no difference to the verdict,
nor to whether there is one (`Graph.verdict_eq`).
-/

namespace TermGraph

/-- **One verdict and then another**, which counts if the first is there and
decides nothing. -/
def followedBy (first second : Option Ordering) : Option Ordering :=
  match first with
  | some .eq => second
  | found => found

theorem followedBy_assoc (f g h : Option Ordering) :
    followedBy (followedBy f g) h = followedBy f (followedBy g h) := by
  rcases f with _ | _ | _ | _ <;> rfl

namespace Tree

mutual

/-- **The verdict on two trees**, if there is one. -/
def verdict? : Tree → Tree → Option Ordering
  | boxed v, boxed w => some ((compare v.tag w.tag).then (compare v w))
  | boxed v, node t _ => if v.tag = t then none else some (compare v.tag t)
  | node s _, boxed w => if s = w.tag then none else some (compare s w.tag)
  | node s ts, node t us =>
    followedBy (some ((compare s t).then (compare ts.length us.length)))
      (verdicts? ts us)

/-- The verdict on several pairs, the first difference deciding. -/
def verdicts? : List Tree → List Tree → Option Ordering
  | t :: ts, u :: us => followedBy (verdict? t u) (verdicts? ts us)
  | _, _ => some .eq

end

theorem verdicts?_append {ts us ts' us' : List Tree}
    (length : ts.length = us.length) :
    verdicts? (ts ++ ts') (us ++ us')
      = followedBy (verdicts? ts us) (verdicts? ts' us') := by
  induction ts generalizing us with
  | nil =>
    cases List.length_eq_zero_iff.mp length.symm
    rfl
  | cons t ts ih =>
    cases us with
    | nil => cases length
    | cons u us =>
      rw [List.cons_append, List.cons_append, verdicts?, verdicts?,
        ih (Nat.succ.inj length), followedBy_assoc]

theorem verdicts?_self {ts : List Tree}
    (h : ∀ t ∈ ts, t.verdict? t = some .eq) : verdicts? ts ts = some .eq := by
  induction ts with
  | nil => rfl
  | cons t ts ih =>
    obtain ⟨ht, hts⟩ := List.forall_mem_cons.mp h
    rw [verdicts?, ht, ih hts]
    rfl

/-- **On a tree and itself there is a verdict**, and they are equal. -/
theorem verdict?_self (t : Tree) : t.verdict? t = some .eq := by
  induction t with
  | boxed v =>
    rw [verdict?, Symbol.compare_eq_eq_iff.mpr rfl, Scalar.compare_of_tag_eq rfl,
      v.valueOrder_self]
    rfl
  | node s ts ih =>
    rw [verdict?, verdicts?_self ih, Symbol.compare_eq_eq_iff.mpr rfl,
      Nat.compare_eq_eq.mpr rfl]
    rfl

end Tree

namespace Term

/-- **The verdict begins with a look at the pair** and goes on with the
children, if it has not come to a pair without one. -/
theorem verdict?_tree (a b : Term) :
    a.tree.verdict? b.tree
      = if stuck a b then none
        else followedBy (some (glance a b))
          (Tree.verdicts? (a.children.map tree) (b.children.map tree)) := by
  have mixed : ∀ s t : Symbol, (if s = t then none else some (compare s t))
      = if (s == t) = true then none
        else followedBy (some ((compare s t).then .eq)) (some .eq) := by
    intro s t
    rw [Ordering.then_eq]
    by_cases same : s = t
    · rw [if_pos same, if_pos (beq_iff_eq.mpr same)]
    · rw [if_neg same, if_neg (mt beq_iff_eq.mp same)]
      cases compare s t <;> rfl
  rcases a with ⟨m, v⟩ | ⟨m, s, ts⟩ <;> rcases b with ⟨n, w⟩ | ⟨n, t, us⟩
  · have free : stuck (boxed m v) (boxed n w) = false := Bool.and_false _
    rw [free, if_neg Bool.false_ne_true]
    show some ((compare v.tag w.tag).then (compare v w))
      = followedBy (some ((compare v.tag w.tag).then (compare v w))) (some .eq)
    cases (compare v.tag w.tag).then (compare v w) <;> rfl
  · have tags : stuck (boxed m v) (node n t us) = (v.tag == t) :=
      Bool.and_true _
    rw [tags]
    exact mixed v.tag t
  · have tags : stuck (node m s ts) (boxed n w) = (s == w.tag) :=
      Bool.and_true _
    rw [tags, children, children, List.map_nil]
    refine (mixed s w.tag).trans ?_
    cases ts <;> rfl
  · have free : stuck (node m s ts) (node n t us) = false := Bool.and_false _
    rw [free, if_neg Bool.false_ne_true, tree_node, tree_node, Tree.verdict?,
      List.length_map, List.length_map]
    rfl

end Term

namespace Graph

variable {G G' : Graph} {a b c d : Term}

/-- Where nothing is decided at a look, the children are as many on either
side, and the pairs of them are behind each other. -/
theorem map_zip_children (h : Term.glance a b = .eq)
    (free : Term.stuck a b = false) :
    (a.children.zip b.children).map (fun p => p.1.tree)
        = a.children.map Term.tree
      ∧ (a.children.zip b.children).map (fun p => p.2.tree)
        = b.children.map Term.tree := by
  have length : a.children.length = b.children.length := by
    rcases a with ⟨m, v⟩ | ⟨m, s, ts⟩ <;> rcases b with ⟨n, w⟩ | ⟨n, t, us⟩
    · rfl
    · have same := Ordering.then_eq_eq.mp h
      rw [Term.stuck, Symbol.compare_eq_eq_iff.mp same.1, beq_self_eq_true]
        at free
      cases free
    · have same := Ordering.then_eq_eq.mp h
      rw [Term.stuck, Symbol.compare_eq_eq_iff.mp same.1, beq_self_eq_true]
        at free
      cases free
    · exact Nat.compare_eq_eq.mp (Ordering.then_eq_eq.mp h).2
  have left : (a.children.zip b.children).map Prod.fst = a.children :=
    List.map_fst_zip length.le
  have right : (a.children.zip b.children).map Prod.snd = b.children :=
    List.map_snd_zip length.ge
  constructor
  · conv_rhs => rw [← left, List.map_map]
    rfl
  · conv_rhs => rw [← right, List.map_map]
    rfl

/-- **The verdict of the walk**, or that there is none, is that of the
recursion on trees. -/
theorem walk_verdict (work : List (Term × Term)) (tally : Tally)
    (h : ∀ p ∈ work, p.1 ∈ G ∧ p.2 ∈ G) :
    (Term.walk work tally).map Prod.fst
      = Tree.verdicts? (work.map fun p => p.1.tree)
          (work.map fun p => p.2.tree) := by
  match work with
  | [] => rw [Term.walk]; rfl
  | (a, b) :: work =>
    obtain ⟨⟨ha, hb⟩, rest⟩ := List.forall_mem_cons.mp h
    have next : ∀ p ∈ a.children.zip b.children ++ work, p.1 ∈ G ∧ p.2 ∈ G := by
      intro p hp
      rcases List.mem_append.mp hp with below | behind
      · obtain ⟨hl, hr⟩ := List.of_mem_zip below
        exact ⟨mem_of_mem_children ha hl, mem_of_mem_children hb hr⟩
      · exact rest p behind
    rw [Term.walk_cons, List.map_cons, List.map_cons, Tree.verdicts?]
    by_cases same : a.same b = true
    · rw [if_pos same, walk_verdict work _ rest, eq_of_same ha hb same,
        Tree.verdict?_self]
      rfl
    · rw [if_neg same, Term.verdict?_tree]
      cases free : Term.stuck a b with
      | true => rfl
      | false =>
        rw [if_neg Bool.false_ne_true, if_neg Bool.false_ne_true]
        cases look : Term.glance a b with
        | lt => rfl
        | gt => rfl
        | eq =>
          obtain ⟨left, right⟩ := map_zip_children look free
          have length : (a.children.map Term.tree).length
              = (b.children.map Term.tree).length := by
            rw [← left, ← right, List.length_map, List.length_map]
          dsimp only
          rw [walk_verdict _ _ next, List.map_append, List.map_append, left,
            right, Tree.verdicts?_append length]
          rfl
termination_by Term.pending work
decreasing_by
  · exact Term.pending_lt_pending_cons _ _
  · exact Term.pending_children_append_lt _ _ _

/-- **The verdict on two terms of a graph**, or that there is none, is that on
their trees, whatever their tags and whatever is shared. -/
theorem verdict_eq (ha : a ∈ G) (hb : b ∈ G) :
    (a.compareTally? b).map Prod.fst = a.tree.verdict? b.tree := by
  rw [Term.compareTally?, walk_verdict _ _ (List.forall_mem_singleton.mpr ⟨ha, hb⟩)]
  show followedBy (a.tree.verdict? b.tree) (some .eq) = _
  rcases a.tree.verdict? b.tree with _ | _ | _ | _ <;> rfl

/-- **Terms with one unfolding are compared to the same verdict** with
whatever there is, on either side. -/
theorem verdict_congr (ha : a ∈ G) (hb : b ∈ G) (hc : c ∈ G') (hd : d ∈ G')
    (left : c.tree = a.tree) (right : d.tree = b.tree) :
    (c.compareTally? d).map Prod.fst = (a.compareTally? b).map Prod.fst := by
  rw [verdict_eq hc hd, verdict_eq ha hb, left, right]

end Graph

end TermGraph
