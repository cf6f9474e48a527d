import TermGraph.Proofs.Applications
import TermGraph.Proofs.Cost
import TermGraph.Proofs.Invocations
import TermGraph.Proofs.Rendering
import TermGraph.Proofs.Requests

/-!
# Comparing chains

A chain is a number of heads, one over another, each with the next as its
only child. Built from below, its heads take their serial numbers in the
order they are built, and so a chain is known from the number it starts
with (`Term.chain`, `SymbolTable.applyTimes_eq_chain`).

Two chains of one length over one end are compared head by head and no
head is the same instance in both, for as long as they start with different
numbers. So each pair of heads is looked at, and what is left is what the
comparison of the ends costs (`Term.reckon_chain`).

The two chains of the command `chain` fit that in either form. Without a
shared half their ends are two leaves, and looked at like the rest. With one
they are chains over the lower half of the first, which is what is reached
by going down `depth / 2` of its heads: that many are built over it again,
so the two have one length whether or not the depth is even, and their ends
are one instance. Where `depth / 2` is zero nothing is built over it, and
the second chain is the first.
-/

namespace TermGraph

namespace Term

/-- **A chain**: heads over an end, with serial numbers that count from the
lowest. -/
def chain (s : Symbol) (k : ℕ) (x : Term) : ℕ → Term
  | 0 => x
  | n + 1 => node (k + n) s [chain s k x n]

variable {s : Symbol} {k l m n : ℕ} {x y : Term}

/-- A chain over a chain is one chain. -/
theorem chain_add (s : Symbol) (k : ℕ) (x : Term) (m n : ℕ) :
    chain s k x (m + n) = chain s (k + m) (chain s k x m) n := by
  induction n with
  | zero => rfl
  | succ n ih => rw [← Nat.add_assoc, chain, chain, ih, Nat.add_assoc]

/-- A chain may also be taken apart at its lowest head. -/
theorem chain_succ (s : Symbol) (k : ℕ) (x : Term) (n : ℕ) :
    chain s k x (n + 1) = chain s (k + 1) (node k s [x]) n := by
  rw [Nat.add_comm, chain_add]
  rfl

theorem wellTagged_chain (hs : s.isBoxed = false) (hx : x.tree.WellTagged)
    (k n : ℕ) : (chain s k x n).tree.WellTagged := by
  induction n with
  | zero => exact hx
  | succ n ih =>
    rw [chain, tree_node]
    exact (Tree.all_node s _).mpr ⟨hs, List.forall_mem_singleton.mpr ih⟩

/-- One pair of children costs what the pair costs. -/
theorem reckons_singleton (a b : Term) : reckons [a] [b] = a.reckon b := by
  rw [reckons]
  obtain ⟨o, c⟩ := a.reckon b
  cases o <;> rfl

/-- **Two chains are compared head by head, and then their ends are.** -/
theorem reckon_chain (h : 0 < n → k ≠ l) :
    (chain s k x n).reckon (chain s l y n)
      = ((x.reckon y).1, { inspected := n } + (x.reckon y).2) := by
  induction n with
  | zero => rw [chain, chain, Tally.add_def, Nat.zero_add, Nat.zero_add]
  | succ n ih =>
    have apart : k ≠ l := h n.succ_pos
    have heads : (chain s k x (n + 1)).same (chain s l y (n + 1)) = false :=
      beq_eq_false_iff_ne.mpr fun same => apart (Nat.add_right_cancel same)
    have undecided : glance (chain s k x (n + 1)) (chain s l y (n + 1)) = .eq :=
      glance_node_eq_eq_iff.mpr ⟨rfl, rfl⟩
    rw [reckon_of_not_same heads, undecided]
    dsimp only [chain, children]
    rw [reckons_singleton, ih fun _ => apart]
    refine congrArg (Prod.mk _) ?_
    simp only [Tally.add_def, Tally.mk.injEq]
    omega

end Term

/-! ## Building a chain -/

namespace Checked

variable {α β : Type} {x : Checked α} {f : α → Checked β} {a : α}
  {u v : Supply}

/-- What comes behind a computation that was not refused. -/
theorem bind_of_ok (h : x u = .ok (a, v)) : (x >>= f) u = f a v := by
  show (x u >>= fun r => f r.1 r.2) = f a v
  rw [h]
  rfl

/-- What was not refused builds nothing by itself. -/
theorem lift_of_ok {r : Except TermError α} (h : r = .ok a) (u : Supply) :
    (liftM r : Checked α) u = .ok (a, u) := by
  rw [h]
  rfl

end Checked

/-- A supply from which some numbers were taken. -/
def Supply.skip (u : Supply) (n : ℕ) : Supply :=
  ⟨u.next + n, u.two_le.trans (Nat.le_add_right _ _)⟩

namespace SymbolTable

variable {table : SymbolTable} {s : Symbol} {k : ℕ}

/-- **Repeated application builds a chain.** -/
theorem applyTimes_eq_chain (h : table.Admits s 1) (n : ℕ) (x : Term)
    (u : Supply) :
    table.applyTimes s (fun t => [t]) n x u
      = .ok (Term.chain s u.next x n, u.skip n) := by
  induction n generalizing x u with
  | zero => rfl
  | succ n ih =>
    have built : Checked.build (table.apply s [x]) u
        = .ok (.node u.next s [x], u.skip 1) := by
      rw [apply_of_admits h]
      rfl
    have taken : (u.skip 1).skip n = u.skip (n + 1) := by
      simp only [Supply.skip, Nat.add_assoc, Nat.add_comm 1]
    rw [applyTimes, Checked.bind_of_ok built, ih, Term.chain_succ, taken]
    rfl

end SymbolTable

/-! ## The command -/

namespace CommandLine

open Term

variable {s : Symbol} {k m n : ℕ} {x : Term}

/-- **Going down** some heads of a chain leads to the chain below them. -/
theorem descend_chain (m : ℕ) :
    descend m (chain s k x (n + m)) = .ok (chain s k x n) := by
  induction m with
  | zero => rfl
  | succ m ih => exact ih

namespace ChainOptions

/-- The end of the first chain, from the number `k` on. -/
def leaf (k : ℕ) : Term := .boxed k (.int32 0)

/-- The first chain. -/
def first (o : ChainOptions) (s : Symbol) (k : ℕ) : Term :=
  chain s (k + 1) (leaf k) o.depth

/-- What the second chain is built over, if it shares a part of the
first. -/
def lower (o : ChainOptions) (s : Symbol) (k : ℕ) : Term :=
  chain s (k + 1) (leaf k) (o.depth - o.depth / 2)

/-- **The second chain**: over the lower half of the first, or over a leaf
of its own. -/
def second (o : ChainOptions) (s : Symbol) (k : ℕ) : Term :=
  if o.shared then chain s (k + 1 + o.depth) (o.lower s k) (o.depth / 2)
  else chain s (k + 1 + o.depth + 1) (leaf (k + 1 + o.depth)) o.depth

variable (o : ChainOptions)

/-- **The first chain is the upper half over the lower.** -/
theorem first_eq_chain_lower (s : Symbol) (k : ℕ) :
    o.first s k
      = chain s (k + 1 + (o.depth - o.depth / 2)) (o.lower s k)
          (o.depth / 2) := by
  rw [lower, ← chain_add, Nat.sub_add_cancel (Nat.div_le_self _ _), first]

/-- The lower half is there, that far down in the first chain. -/
theorem descend_first (s : Symbol) (k : ℕ) :
    descend (o.depth / 2) (o.first s k) = .ok (o.lower s k) := by
  have reached := descend_chain (s := s) (k := k + 1) (x := leaf k)
    (n := o.depth - o.depth / 2) (o.depth / 2)
  rwa [Nat.sub_add_cancel (Nat.div_le_self _ _)] at reached

/-- **The chains are built as they are meant**, and building them is never
refused. -/
theorem pair_eq {table : SymbolTable} (h : table.Admits s 1) (u : Supply) :
    ∃ v, o.pair table s u = .ok ((o.first s u.next, o.second s u.next), v) := by
  have leaf_built (u : Supply) :
      Checked.build (.ok (Term.newBoxed (.int32 0))) u
        = .ok (leaf u.next, u.skip 1) := rfl
  have chain_built := SymbolTable.applyTimes_eq_chain h
  have first_built : table.applyTimes s (fun t => [t]) o.depth (leaf u.next)
      (u.skip 1) = .ok (o.first s u.next, (u.skip 1).skip o.depth) :=
    chain_built _ _ _
  unfold pair
  rw [Checked.bind_of_ok (leaf_built u), Checked.bind_of_ok first_built]
  cases hshared : o.shared with
  | false =>
    rw [if_neg Bool.false_ne_true, Checked.bind_of_ok (leaf_built _),
      Checked.bind_of_ok (chain_built _ _ _), second, hshared,
      if_neg Bool.false_ne_true]
    exact ⟨_, rfl⟩
  | true =>
    have reached := Checked.lift_of_ok (o.descend_first s u.next)
    rw [if_pos rfl, Checked.bind_of_ok (reached _),
      Checked.bind_of_ok (chain_built _ _ _), second, hshared, if_pos rfl]
    exact ⟨_, rfl⟩

/-- **What the comparison of the two chains costs.** -/
theorem reckon_first_second (s : Symbol) (k : ℕ) :
    (o.first s k).reckon (o.second s k)
      = (.eq, if o.shared then ⟨o.depth / 2, 1⟩ else ⟨o.depth + 1, 0⟩) := by
  cases hshared : o.shared with
  | false =>
    have ends : (leaf k).reckon (leaf (k + 1 + o.depth))
        = (.eq, { inspected := 1 }) := by
      rw [reckon_of_not_same]
      · rfl
      · refine beq_eq_false_iff_ne.mpr ?_
        simp only [leaf, serial]
        omega
    rw [second, hshared, if_neg Bool.false_ne_true, first,
      reckon_chain (by omega), ends]
    rfl
  | true =>
    -- What is built over the lower half is numbered above the whole first
    -- chain, so the two upper halves differ in every number.
    have ends : (o.lower s k).reckon (o.lower s k) = (.eq, { shared := 1 }) :=
      reckon_of_same (beq_self_eq_true _)
    rw [second, hshared, if_pos rfl, first_eq_chain_lower,
      reckon_chain (by omega), ends]
    rfl

/-- Where half the depth is nothing, the second chain is the first. -/
theorem second_eq_first (s : Symbol) (k : ℕ) (hshared : o.shared = true)
    (h : o.depth ≤ 1) : o.second s k = o.first s k := by
  have nothing : o.depth / 2 = 0 := by omega
  rw [second, hshared, if_pos rfl, first_eq_chain_lower, nothing, chain, chain]

theorem wellTagged_leaf (k : ℕ) : (leaf k).tree.WellTagged :=
  Tree.all_boxed _

theorem wellTagged_first (hs : s.isBoxed = false) (k : ℕ) :
    (o.first s k).tree.WellTagged :=
  wellTagged_chain hs (wellTagged_leaf k) _ _

theorem wellTagged_second (hs : s.isBoxed = false) (k : ℕ) :
    (o.second s k).tree.WellTagged := by
  unfold second
  split
  · exact wellTagged_chain hs (wellTagged_chain hs (wellTagged_leaf k) _ _) _ _
  · exact wellTagged_chain hs (wellTagged_leaf _) _ _

/-- **The comparison of the two chains.** -/
theorem compareTally?_first_second (hs : s.isBoxed = false) (k : ℕ) :
    (o.first s k).compareTally? (o.second s k)
      = some (.eq,
          if o.shared then ⟨o.depth / 2, 1⟩ else ⟨o.depth + 1, 0⟩) := by
  rw [compareTally?_eq_reckon (o.wellTagged_first hs k)
    (o.wellTagged_second hs k), reckon_first_second]

/-- The head the chains are built with. -/
theorem exists_link : ∃ s table,
    SymbolTable.intern ∅ "s" 1 = .ok (s, table) ∧ table.Admits s 1 := by
  have isFree : Symbol.builtin? "s" = none := by decide
  have isNew : SymbolTable.index? ∅ "s" = none :=
    SymbolTable.index?_eq_none (by decide)
  refine ⟨_, _, SymbolTable.intern_of_new (e := ⟨"s", 1⟩) isFree isNew
    (by decide), ?_⟩
  exact ⟨rfl, rfl⟩

/-- A verdict is written by its name. -/
theorem text_eqTag (n : ℕ) (table : SymbolTable) :
    (node n .eqTag []).text table = "cmp_eq" := by
  rw [text_eq, tree_node, Tree.text_node, SymbolTable.label_eq]
  rfl

/-- **What `chain` prints.** -/
theorem lines_eq :
    o.lines = .ok ["compare = cmp_eq (shared tail: "
      ++ toString o.shared ++ ")"] := by
  obtain ⟨s, table, interned, admits⟩ := exists_link
  obtain ⟨v, built⟩ := o.pair_eq admits .initial
  have equal : (o.first s 2).order (o.second s 2) = .eq := by
    have unboxed := SymbolTable.isBoxed_of_arity? admits.2
    rw [order, compareTally?_first_second o unboxed]
  have verdict : ((Term.newOrdering .eq).run v).1.text table = "cmp_eq" :=
    text_eqTag v.next table
  rw [lines, interned]
  show (o.pair table s .initial >>= fun r => .ok ["compare = "
    ++ ((Term.newOrdering (r.1.1.order r.1.2)).run r.2).1.text table
    ++ " (shared tail: " ++ toString o.shared ++ ")"]) = _
  rw [built]
  show Except.ok ["compare = "
    ++ ((Term.newOrdering ((o.first s 2).order (o.second s 2))).run v).1.text
      table ++ " (shared tail: " ++ toString o.shared ++ ")"] = _
  rw [equal, verdict]
  rfl

/-- **The command compares two equal chains, at a known cost.** For every
depth, with a shared half and without, both chains are built; they compare
as equal; without a shared half each pair of heads and the pair of leaves
are looked at and none is passed over, and with one, half as many pairs of
heads as the depth are looked at, rounded down, and the shared half is
passed over as one instance. At the depths `0` and `1` that is the whole
chain. The command ends with code `0` and prints the verdict. -/
theorem chains_compare_equal :
    (∃ s table first second supply,
        SymbolTable.intern ∅ "s" 1 = .ok (s, table)
          ∧ (o.pair table s).run .initial = .ok ((first, second), supply)
          ∧ first.compareTally? second
            = some (.eq,
                if o.shared then ⟨o.depth / 2, 1⟩ else ⟨o.depth + 1, 0⟩)
          ∧ (o.shared = true → o.depth ≤ 1 → first.same second = true))
      ∧ (∀ args, Invocation.ofArguments? args = some (.chain o) →
          run args = ⟨0, ["compare = cmp_eq (shared tail: "
            ++ toString o.shared ++ ")"]⟩)
      ∧ (o.depth < UInt64.size →
          Invocation.ofArguments? o.arguments = some (.chain o)) := by
  refine ⟨?_, fun args read => run_of_lines read (congrArg some o.lines_eq),
    o.ofArguments?_arguments⟩
  obtain ⟨s, table, interned, admits⟩ := exists_link
  obtain ⟨v, built⟩ := o.pair_eq admits .initial
  have unboxed := SymbolTable.isBoxed_of_arity? admits.2
  refine ⟨s, table, o.first s 2, o.second s 2, v, interned, built,
    compareTally?_first_second o unboxed 2, fun hshared shallow => ?_⟩
  rw [second_eq_first o s 2 hshared shallow]
  exact beq_self_eq_true _

/-- At the depth `1` the chain that shares a half is the other one. -/
theorem chains_compare_equal_one :
    (∃ s table first second supply,
        SymbolTable.intern ∅ "s" 1 = .ok (s, table)
          ∧ (pair ⟨1, true⟩ table s).run .initial
            = .ok ((first, second), supply)
          ∧ first.compareTally? second = some (.eq, ⟨0, 1⟩)
          ∧ first.same second = true)
      ∧ Invocation.ofArguments? ["chain", "-d", "1", "--shared"]
        = some (.chain ⟨1, true⟩)
      ∧ run ["chain", "-d", "1", "--shared"]
        = ⟨0, ["compare = cmp_eq (shared tail: true)"]⟩ := by
  obtain ⟨⟨s, table, first, second, supply, interned, built, cost, one⟩,
    printed, read⟩ := chains_compare_equal ⟨1, true⟩
  have read := read (by decide)
  exact ⟨⟨s, table, first, second, supply, interned, built, cost,
    one rfl (Nat.le_refl 1)⟩, read, printed _ read⟩

end ChainOptions

end CommandLine

end TermGraph
