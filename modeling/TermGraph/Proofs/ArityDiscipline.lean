import TermGraph.Proofs.Course
import TermGraph.Proofs.Workspace

/-!
# Heads and their children in a run

A head goes with one number of children, and the table says which. No
single operation checks this of the terms it works on: some build without
a check, some trust the number of children they find, and a sampler keeps
the arities it was made with. What makes it true of every node in sight
is that each of them was once admitted by a table of the run, and that a
later table has not changed its mind.

For the comparison of terms it follows that numbers of children are
compared in vain: where the tags agree, so do they.
-/

namespace TermGraph

/-- **A node is known to a table**: its head is no tag of boxed scalars,
has a name, and its number of children is the arity of the head. -/
structure SymbolTable.Knows (t : SymbolTable) (s : Symbol) (k : ℕ) : Prop where
  /-- The head may head a node. -/
  unboxed : s.isBoxed = false
  /-- The head has a name. -/
  named : (t.name? s).isSome = true
  /-- The number of children is the arity of the head. -/
  arity : t.arity? s = some k

theorem SymbolTable.knows_of_arity? {t : SymbolTable} {s : Symbol} {k : ℕ}
    (h : t.arity? s = some k) : t.Knows s k :=
  ⟨isBoxed_of_arity? h, isSome_name?_of_arity? h, h⟩

namespace Workspace

variable {w : Workspace} {H : Heap} {t u x y : Term}

/-- What a workspace has is known to its table, at every depth. -/
theorem In.all_knows (h : w.In H) (ht : t ∈ w.terms) :
    t.tree.All w.table.Knows :=
  (h.nodes.mono fun _ _ => SymbolTable.knows_of_arity?).all_tree (h.terms t ht)

theorem In.wellTagged (h : w.In H) (ht : t ∈ w.terms) :
    t.tree.WellTagged :=
  (h.nodes.mono fun _ _ => SymbolTable.isBoxed_of_arity?).all_tree
    (h.terms t ht)

/-- **The terms of a run live together**, and none of their nodes carries
a tag of boxed scalars. -/
theorem exists_graph_run (table : SymbolTable) (ops : List Operation) :
    ∃ G : Graph, ∀ t ∈ ((start table).run ops).terms,
      t ∈ G ∧ t.tree.WellTagged := by
  obtain ⟨H, h⟩ := in_run (in_start table) ops
  exact ⟨H.toGraph, fun t ht => ⟨h.terms t ht, h.wellTagged ht⟩⟩

/-- Parts of terms with one tag have the same number of children. -/
theorem In.arity_eq_of_tag_eq (h : w.In H) (ht : t ∈ w.terms)
    (hu : u ∈ w.terms) (hx : x.Occurs t) (hy : y.Occurs u)
    (same : x.tag = y.tag) : x.arity = y.arity := by
  have known := (Term.all_tree_iff t).mp (h.all_knows ht)
  have known' := (Term.all_tree_iff u).mp (h.all_knows hu)
  cases x with
  | boxed m v =>
    cases y with
    | boxed n w => rfl
    | node n s us =>
      exact absurd same (Scalar.tag_ne_of_isBoxed_eq_false
        (known' n s us hy).unboxed v)
  | node m s ts =>
    have left := known m s ts hx
    cases y with
    | boxed n w =>
      exact absurd same.symm (Scalar.tag_ne_of_isBoxed_eq_false left.unboxed w)
    | node n s' us =>
      have right := known' n s' us hy
      rw [← show s = s' from same] at right
      exact Option.some.inj (left.arity.symm.trans right.arity)

/-- **Heads and numbers of children in a whole run.** After any operations
over one table, every node of every term obtained is known to the table as
it then is; a bound of the order has no children; nodes with one head have
the same number of children; and among the pairs that a comparison of two
of the terms comes to, none with one tag is decided by those numbers. -/
theorem known_of_run (table : SymbolTable) (ops : List Operation) :
    let w := (start table).run ops
    (∀ t ∈ w.terms, ∀ n s ts, (Term.node n s ts).Occurs t →
        w.table.Knows s ts.length ∧ (s.isSentinel = true → ts = []))
      ∧ (∀ t ∈ w.terms, ∀ u ∈ w.terms, ∀ m n s ts us,
          (Term.node m s ts).Occurs t → (Term.node n s us).Occurs u →
            ts.length = us.length)
      ∧ ∀ t ∈ w.terms, ∀ u ∈ w.terms,
          t.compareTally? u
              = some ((t.course u).verdict, Tally.countAll {} (t.course u).pairs)
            ∧ ∀ x y, (x, y) ∈ (t.course u).pairs → x.tag = y.tag →
                compare x.arity y.arity = .eq := by
  obtain ⟨H, h⟩ := in_run (in_start table) ops
  refine ⟨fun t ht n s ts found => ?_, ?_, fun t ht u hu => ⟨?_, ?_⟩⟩
  · have known := (Term.all_tree_iff t).mp (h.all_knows ht) n s ts found
    refine ⟨known, fun bound => ?_⟩
    have none := known.arity.symm.trans (SymbolTable.arity?_of_isSentinel _ bound)
    exact List.length_eq_zero_iff.mp (Option.some.inj none)
  · intro t ht u hu m n s ts us left right
    exact h.arity_eq_of_tag_eq ht hu left right rfl
  · exact Term.compareTally?_eq_course (h.wellTagged ht) (h.wellTagged hu)
  · intro x y hxy same
    obtain ⟨left, right⟩ := Term.occurs_of_mem_pairs hxy
    exact Nat.compare_eq_eq.mpr (h.arity_eq_of_tag_eq ht hu left right same)

end Workspace

end TermGraph
