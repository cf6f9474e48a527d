import TermGraph.Proofs.StructuralOrder

/-!
# The order of terms is total, and its equality is identity

A tree can be spelt as one list of integers: its tag, then the key of its
value, or the number of its children and the spellings of the children
one after another. Read from the left, two such lists differ first where
the structural order finds its first difference, so the structural order
is the lexicographic order of these keys – `Tree.order_eq_compare_key`.

That settles orientation and transitivity at every depth at once: they are
those of lists of integers, and nothing about tags, arities or children
has to be carried through an induction of its own. What a key does not
give for free is that equal trees are one tree; `Tree.eq_of_order_eq`
reads it off the structural order instead.

A tree whose nodes may carry tags of boxed scalars has no place in this:
a scalar and such a node have one tag and nothing else in common.
-/

namespace TermGraph

namespace Tree

mutual

/-- **The key of a tree**, its nodes in preorder. -/
def key : Tree → List ℤ
  | boxed v => v.tag.toNat :: v.key
  | node s ts => s.toNat :: ts.length :: keys ts

/-- The keys of several trees, one after another. -/
def keys : List Tree → List ℤ
  | [] => []
  | t :: ts => t.key ++ keys ts

end

theorem compare_tag (s t : Symbol) :
    compare (s.toNat : ℤ) (t.toNat : ℤ) = compare s t :=
  compare_natCast _ _

variable {t u : Tree}

theorem wellTagged_node {s : Symbol} {ts : List Tree} :
    (node s ts).WellTagged
      ↔ s.isBoxed = false ∧ ∀ t ∈ ts, t.WellTagged :=
  all_node s ts

/-- A scalar never has the tag of a node. -/
theorem compare_tag_ne_eq {s : Symbol} (h : s.isBoxed = false) (v : Scalar) :
    compare v.tag s ≠ .eq := fun e =>
  Scalar.tag_ne_of_isBoxed_eq_false h v (Symbol.compare_eq_eq_iff.mp e)

theorem compare_keys_append {ts us : List Tree}
    (hlen : ts.length = us.length)
    (h : ∀ t ∈ ts, ∀ u ∈ us, ∀ r s : List ℤ,
      compare (t.key ++ r) (u.key ++ s) = (t.order u).then (compare r s))
    (r s : List ℤ) :
    compare (keys ts ++ r) (keys us ++ s)
      = (orders ts us).then (compare r s) := by
  induction ts generalizing us with
  | nil =>
    rw [List.length_eq_zero_iff.mp hlen.symm]
    rfl
  | cons t ts ih =>
    cases us with
    | nil => cases hlen
    | cons u us =>
      rw [keys, keys, List.append_assoc, List.append_assoc,
        h t (.head _) u (.head _), orders, Ordering.then_assoc,
        ih (Nat.succ.inj hlen) fun t ht u hu => h t (.tail _ ht) u (.tail _ hu)]

/-- **The structural order is that of the keys**, with anything behind
them. -/
theorem compare_key_append (ht : t.WellTagged) (hu : u.WellTagged)
    (r s : List ℤ) :
    compare (t.key ++ r) (u.key ++ s) = (t.order u).then (compare r s) := by
  induction t generalizing u r s with
  | boxed v =>
    cases u with
    | boxed w =>
      rw [key, key, List.cons_append, List.cons_append,
        List.compare_cons_cons, compare_tag, order, Ordering.then_assoc]
      refine then_congr fun htag => ?_
      exact Scalar.compare_key_append (Symbol.compare_eq_eq_iff.mp htag) r s
    | node a us =>
      -- A scalar and a node part at the tag, whatever comes behind it.
      rw [key, key, List.cons_append, List.cons_append,
        List.compare_cons_cons, compare_tag, order]
      refine then_congr fun htag => ?_
      exact absurd htag (compare_tag_ne_eq (wellTagged_node.mp hu).1 v)
  | node a ts ih =>
    obtain ⟨ha, hts⟩ := wellTagged_node.mp ht
    cases u with
    | boxed w =>
      rw [key, key, List.cons_append, List.cons_append, List.cons_append,
        List.compare_cons_cons, compare_tag, order]
      refine then_congr fun htag => ?_
      exact absurd (Symbol.compare_eq_eq_iff.mp htag).symm
        (Scalar.tag_ne_of_isBoxed_eq_false ha w)
    | node b us =>
      have hus := (wellTagged_node.mp hu).2
      rw [key, key, List.cons_append, List.cons_append, List.cons_append,
        List.cons_append, List.compare_cons_cons, List.compare_cons_cons,
        compare_tag, compare_natCast, order, Ordering.then_assoc,
        Ordering.then_assoc]
      refine then_congr fun _ => then_congr fun hlen => ?_
      exact compare_keys_append (Nat.compare_eq_eq.mp hlen)
        (fun t ht u hu r s => ih t ht (hts t ht) (hus u hu) r s) r s

theorem order_eq_compare_key (ht : t.WellTagged) (hu : u.WellTagged) :
    t.order u = compare t.key u.key := by
  have h := compare_key_append ht hu [] []
  rw [List.append_nil, List.append_nil] at h
  exact (h.trans Ordering.then_eq).symm

/-! ## The laws of the order -/

/-- **The other way round the verdict is reversed.** -/
theorem order_swap (ht : t.WellTagged) (hu : u.WellTagged) :
    u.order t = (t.order u).swap := by
  rw [order_eq_compare_key ht hu, order_eq_compare_key hu ht]
  exact Std.OrientedOrd.eq_swap

theorem eq_of_orders_eq {ts us : List Tree} (hlen : ts.length = us.length)
    (h : ∀ t ∈ ts, ∀ u ∈ us, t.order u = .eq → t = u)
    (e : orders ts us = .eq) : ts = us := by
  induction ts generalizing us with
  | nil => exact (List.length_eq_zero_iff.mp hlen.symm).symm
  | cons t ts ih =>
    cases us with
    | nil => cases hlen
    | cons u us =>
      obtain ⟨first, rest⟩ := Ordering.then_eq_eq.mp e
      rw [h t (.head _) u (.head _) first, ih (Nat.succ.inj hlen)
        (fun t ht u hu => h t (.tail _ ht) u (.tail _ hu)) rest]

/-- **Trees that are not told apart are one tree.** -/
theorem eq_of_order_eq (ht : t.WellTagged) (hu : u.WellTagged)
    (e : t.order u = .eq) : t = u := by
  induction t generalizing u with
  | boxed v =>
    cases u with
    | boxed w =>
      obtain ⟨htag, hvalue⟩ := Ordering.then_eq_eq.mp e
      exact congrArg boxed (Scalar.eq_of_valueOrder_eq
        (Symbol.compare_eq_eq_iff.mp htag) hvalue)
    | node b us => exact absurd e (compare_tag_ne_eq (wellTagged_node.mp hu).1 v)
  | node a ts ih =>
    obtain ⟨ha, hts⟩ := wellTagged_node.mp ht
    cases u with
    | boxed w =>
      exact absurd (Symbol.compare_eq_eq_iff.mp e).symm
        (Scalar.tag_ne_of_isBoxed_eq_false ha w)
    | node b us =>
      have hus := (wellTagged_node.mp hu).2
      obtain ⟨htag, hrest⟩ := Ordering.then_eq_eq.mp e
      obtain ⟨hlen, hchildren⟩ := Ordering.then_eq_eq.mp hrest
      rw [Symbol.compare_eq_eq_iff.mp htag,
        eq_of_orders_eq (Nat.compare_eq_eq.mp hlen)
          (fun t ht u hu e => ih t ht (hts t ht) (hus u hu) e) hchildren]

end Tree

namespace Graph

variable {G : Graph} {a b c : Term}

/-- **The order of terms finds two terms equal exactly if they unfold to
one tree.** -/
theorem order_eq_eq_iff (ha : a ∈ G) (hb : b ∈ G) (wa : a.tree.WellTagged)
    (wb : b.tree.WellTagged) : a.order b = .eq ↔ a.tree = b.tree := by
  rw [order_eq ha hb wa wb]
  constructor
  · exact Tree.eq_of_order_eq wa wb
  · intro same
    rw [same, Tree.order_self]

/-- **The order of terms is a total order**, and the terms it finds equal
are those that unfold to one tree: the same tags, numbers of children and
values, down to the bits of floats. -/
theorem order_total (ha : a ∈ G) (hb : b ∈ G) (hc : c ∈ G)
    (wa : a.tree.WellTagged) (wb : b.tree.WellTagged)
    (wc : c.tree.WellTagged) :
    b.order a = (a.order b).swap
      ∧ (a.order b ≠ .gt → b.order c ≠ .gt →
          a.order c ≠ .gt
            ∧ (a.order b = .lt ∨ b.order c = .lt → a.order c = .lt))
      ∧ (a.order b = .eq ↔ a.tree = b.tree) := by
  refine ⟨?_, ?_, order_eq_eq_iff ha hb wa wb⟩
  · rw [order_eq hb ha wb wa, order_eq ha hb wa wb, Tree.order_swap wa wb]
  · rw [order_eq ha hb wa wb, order_eq hb hc wb wc, order_eq ha hc wa wc,
      Tree.order_eq_compare_key wa wb, Tree.order_eq_compare_key wb wc,
      Tree.order_eq_compare_key wa wc]
    intro hab hbc
    replace hab := Ordering.isLE_iff_ne_gt.mpr hab
    replace hbc := Ordering.isLE_iff_ne_gt.mpr hbc
    refine ⟨Ordering.isLE_iff_ne_gt.mp (Std.TransOrd.isLE_trans hab hbc), ?_⟩
    rintro (hlt | hlt)
    · exact Std.TransCmp.lt_of_lt_of_isLE hlt hbc
    · exact Std.TransCmp.lt_of_isLE_of_lt hab hlt

/-- A text, a node over it, and one that has it twice, in this order. -/
theorem order_total_sharing :
    sharedText.order onceOver = .lt ∧ onceOver.order twiceOver = .lt
      ∧ sharedText.order twiceOver = .lt
      ∧ onceOver.order sharedText = .gt
      ∧ sharedText.tree ≠ onceOver.tree := by
  have first : sharedText.order onceOver = .lt := by
    rw [order_eq sharedText_mem_sharing onceOver_mem_sharing
      wellTagged_sharedText wellTagged_onceOver]
    rfl
  obtain ⟨swapped, composed, equal⟩ := order_total sharedText_mem_sharing
    onceOver_mem_sharing twiceOver_mem_sharing wellTagged_sharedText
    wellTagged_onceOver wellTagged_twiceOver
  refine ⟨first, onceOver_order_twiceOver, ?_, ?_, ?_⟩
  · exact (composed (by rw [first]; decide)
      (by rw [onceOver_order_twiceOver]; decide)).2 (.inl first)
  · rw [swapped, first]
    rfl
  · rw [Ne, ← equal, first]
    decide

end Graph

end TermGraph
