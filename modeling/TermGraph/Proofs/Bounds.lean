import TermGraph.Proofs.Commons
import TermGraph.Proofs.StructuralOrder

/-!
# The bounds of the order

The least and the greatest term carry tags that no checked constructor
accepts, and these tags are at the two ends of the order of symbols. From
that it follows at once that the two terms bound all others, provided that
a node with one of their tags has no children – which is what `Rule.sound`
says of every node of a run, however the node came to be there. So the
comparison with a bound ends at the tag, or with the verdict that the two
are equal (`Commons.bounds_enclose`).
-/

namespace TermGraph

/-! ## The bounds as trees -/

namespace Symbol

variable {s : Symbol}

theorem compare_minTag (h : s ≠ minTag) : compare minTag s = .lt := by
  rw [compare_eq_lt_iff]
  exact Nat.pos_of_ne_zero fun zero => h (eq_of_toNat_eq zero)

theorem compare_maxTag (h : s ≠ maxTag) : compare s maxTag = .lt := by
  rw [compare_eq_lt_iff]
  refine Nat.lt_of_le_of_ne (Nat.le_of_lt_succ s.id.toNat_lt) fun top => ?_
  exact h (eq_of_toNat_eq top)

end Symbol

namespace Term

variable {n : ℕ} {s : Symbol} {ts : List Term} {t u x : Term}

/-- A node with the tag of a bound has nothing below it. -/
theorem eq_nil_of_sound (h : (node n s ts).tree.All Rule.sound)
    (bound : s.isSentinel = true) : ts = [] := by
  rw [tree_node, Tree.all_node, List.length_map] at h
  exact List.length_eq_zero_iff.mp (h.1.2 bound)

/-- **The least term is below every other**, and equal to what has its
tag. -/
theorem least_order_tree (h : x.tree.All Rule.sound) :
    least.tree.order x.tree = if x.tag = .minTag then .eq else .lt := by
  cases x with
  | boxed n v => cases v <;> rfl
  | node n s ts =>
    by_cases hs : s = .minTag
    · subst hs
      rw [eq_nil_of_sound h rfl]
      rfl
    · rw [tag, if_neg hs, least, tree_node, tree_node, Tree.order,
        Symbol.compare_minTag hs]
      rfl

/-- **The greatest term is above every other**, and equal to what has its
tag. -/
theorem order_greatest_tree (h : x.tree.All Rule.sound) :
    x.tree.order greatest.tree = if x.tag = .maxTag then .eq else .lt := by
  cases x with
  | boxed n v => cases v <;> rfl
  | node n s ts =>
    by_cases hs : s = .maxTag
    · subst hs
      rw [eq_nil_of_sound h rfl]
      rfl
    · rw [tag, if_neg hs, greatest, tree_node, tree_node, Tree.order,
        Symbol.compare_maxTag hs]
      rfl

theorem wellTagged_of_sound (h : x.tree.All Rule.sound) :
    x.tree.WellTagged :=
  (all_tree_iff x).mpr fun n s ts found => ((all_tree_iff x).mp h n s ts found).1

end Term

namespace Commons

/-- **The bounds enclose whatever a run obtains.** After any moves over any
number of tables, the least term is below every term and every part of
one, and the greatest term above it; a term with the tag of a bound is
equal to it. Both comparisons end with this verdict. -/
theorem bounds_enclose (moves : List Move) (t x : Term)
    (ht : t ∈ (start.run moves).terms) (hx : x.Occurs t) :
    (∃ tally, Term.least.compareTally? x
        = some (if x.tag = .minTag then .eq else .lt, tally))
      ∧ Term.least.order x = (if x.tag = .minTag then .eq else .lt)
      ∧ (∃ tally, x.compareTally? .greatest
          = some (if x.tag = .maxTag then .eq else .lt, tally))
      ∧ x.order .greatest = if x.tag = .maxTag then .eq else .lt := by
  obtain ⟨H, h⟩ := in_run in_start moves
  have lives := h.lives ∅
  have here := h.mem_of_occurs ht hx
  have sound := h.nodes.all_tree here
  have tagged := Term.wellTagged_of_sound sound
  have below := Graph.compareTally?_eq (G := H.toGraph) lives.least here
    (Term.wellTagged_of_sound (h.nodes.all_tree lives.least)) tagged
  have above := Graph.compareTally?_eq (G := H.toGraph) here lives.greatest
    tagged (Term.wellTagged_of_sound (h.nodes.all_tree lives.greatest))
  rw [Term.least_order_tree sound] at below
  rw [Term.order_greatest_tree sound] at above
  refine ⟨⟨_, below⟩, ?_, ⟨_, above⟩, ?_⟩
  · rw [Term.order, below]
  · rw [Term.order, above]

/-- A term over the greatest one is below the greatest one all the same. -/
theorem bounds_enclose_present :
    Term.node 2 .someTag [.greatest] ∈ (start.run
        [.newTable, .use 0 (.obtain (.constant .greatest)),
          .use 0 (.obtain (.present 0))]).terms
      ∧ (Term.node 2 .someTag [.greatest]).Occurs (.node 2 .someTag [.greatest])
      ∧ Term.least.order (.node 2 .someTag [.greatest]) = .lt
      ∧ (Term.node 2 .someTag [.greatest]).order .greatest = .lt := by
  have there : Term.node 2 .someTag [.greatest] ∈ (start.run
      [.newTable, .use 0 (.obtain (.constant .greatest)),
        .use 0 (.obtain (.present 0))]).terms := .tail _ (.head _)
  obtain ⟨-, below, -, above⟩ := bounds_enclose _ _ _ there (.self _)
  exact ⟨there, .self _, below, above⟩

end Commons

end TermGraph
