import TermGraph.Proofs.LeafTexts
import TermGraph.Proofs.Naming
import TermGraph.Proofs.SortedLines
import TermGraph.Proofs.UniqueReading

/-!
# Lines that can be read in one way

The command `sort` prints terms over six heads, with the leaves of a range of
four (`CommandLine.Printable`). No name among the heads and no text of a leaf
has a parenthesis or a comma in it, and no name is the text of a leaf: names
have no digits and no quotes. So their vocabulary can be read
(`CommandLine.legible_printable`), and a line determines the shape of the term
that is printed, its heads, and its leaves up to the types of their numbers
(`CommandLine.SortOptions.lines_read_one_way`). This holds whichever two runs
the lines are from, since all of them have the same table.

The quote within one of the words does no harm. The texts of leaves are
compared as a whole, up to the next parenthesis or comma, and not up to the
next quote.
-/

namespace TermGraph

variable {heads : Rule} {leaves leaves' : Scalar → Prop} {table : SymbolTable}
  {es : List Entry}

theorem Tree.MadeOf.mono_leaves {t : Tree} (h : t.MadeOf heads leaves)
    (imp : ∀ v, leaves v → leaves' v) : t.MadeOf heads leaves' := by
  induction h with
  | boxed leaf => exact .boxed (imp _ leaf)
  | node head _ ih => exact .node head ih

/-- **The heads that go by the names of entries**, each with the number of
children of its entry. -/
def SymbolTable.Spells (table : SymbolTable) (es : List Entry) : Rule :=
  fun s k => ∃ e ∈ es, table.name? s = some e.name ∧ e.arity = k

/-- **Names can be read** if they are tokens and none is the text of a leaf:
a table has one symbol for a name. -/
theorem SymbolTable.legible_spells
    (names : ∀ e ∈ es, IsToken e.name.toList)
    (texts : ∀ v, leaves v → IsToken v.render.toList)
    (apart : ∀ v, leaves v → ∀ e ∈ es, e.name ≠ v.render) :
    Legible table.label (table.Spells es) leaves := by
  have label {s : Symbol} {e : Entry} (named : table.name? s = some e.name) :
      table.label s = e.name := by
    rw [SymbolTable.label, named, Option.getD_some]
  refine ⟨?_, fun leaf => texts _ leaf, ?_, ?_⟩
  · rintro s k ⟨e, he, named, -⟩
    rw [label named]
    exact names e he
  · rintro s k t l ⟨d, -, hd, -⟩ ⟨e, -, he, -⟩ same
    rw [label hd, label he] at same
    have found := find?_eq_some_iff_name?.mpr hd
    rw [same, find?_eq_some_iff_name?.mpr he] at found
    exact (Option.some.inj found).symm
  · rintro s k v ⟨e, he, named, -⟩ leaf
    rw [label named]
    exact apart v leaf e he

/-- **Samples are made of what the plan has**, as is what is there for
reuse. -/
theorem Sampler.makes_firstSamples {σ : Sampler} {supply : Supply} {n : ℕ}
    (stocked : σ.plan.Stocks σ.pool) :
    ∀ t ∈ σ.firstSamples supply n, σ.plan.Makes t := by
  rw [firstSamples_eq_times]
  obtain ⟨-, along⟩ := Sampling.along_times
    (R := fun s t s' => σ.plan.Stocks s.pool →
      σ.plan.Makes t ∧ σ.plan.Stocks s'.pool)
    (fun s stocked => stocked.generate σ.plan.config.maxDepth) n
    (σ.state supply)
  exact (along.keeps (I := fun s => σ.plan.Stocks s.pool) id stocked).1

namespace CommandLine

/-- The heads of samples: the vocabulary, lists and present values. -/
def headEntries : List Entry :=
  vocabulary ++ [⟨"cons", 2⟩, ⟨"nil", 0⟩, ⟨"some", 1⟩]

/-- **The terms that can be printed**: of any depth, over the heads of
samples, with leaves of a range of four. -/
def Printable (table : SymbolTable) (t : Term) : Prop :=
  t.tree.MadeOf (table.Spells headEntries) (Scalar.LeafIn 4)

/-- **What is printed can be read.** -/
theorem legible_printable (table : SymbolTable) :
    Legible table.label (table.Spells headEntries) (Scalar.LeafIn 4) := by
  refine SymbolTable.legible_spells ?_ ?_ ?_
  · decide
  · intro v leaf
    refine leaf.elim (P := fun v => IsToken v.render.toList) ?_
    decide +kernel
  · intro v leaf
    refine leaf.elim (P := fun v => ∀ e ∈ headEntries, e.name ≠ v.render) ?_
    decide +kernel

namespace SortOptions

variable (o : SortOptions)

/-- The heads that are built with have the names and the numbers of children
that are meant. -/
theorem spells_formers {symbols : List Symbol} {table : SymbolTable}
    {formers : List Former}
    (interned : internAll ∅ vocabulary = .ok (symbols, table))
    (known : table.formers (symbols ++ [.consTag, .nilTag, .someTag])
      = .ok formers) :
    ∀ f ∈ formers, table.Spells headEntries f.head f.arity := by
  have evaluated : ((internAll ∅ vocabulary).toOption.all fun r =>
      (r.2.formers (r.1 ++ [.consTag, .nilTag, .someTag])).toOption.all
        fun fs => decide (∀ f ∈ fs, ∃ e ∈ headEntries,
          r.2.name? f.head = some e.name ∧ e.arity = f.arity)) = true := by
    decide +kernel
  rw [interned, Except.toOption, Option.all_some, known, Except.toOption,
    Option.all_some, decide_eq_true_iff] at evaluated
  exact evaluated

/-- **Samples can be printed.** -/
theorem printable_firstSamples {table : SymbolTable} {formers : List Former}
    (spelt : ∀ f ∈ formers, table.Spells headEntries f.head f.arity) (n : ℕ) :
    ∀ t ∈ (Sampler.ofFormers o.seed formers o.config).firstSamples .initial n,
      Printable table t := by
  intro t ht
  have makes := Sampler.makes_firstSamples
    ⟨Nat.zero_le _, fun u hu => absurd hu (Array.not_mem_empty u)⟩ t ht
  refine (makes.mono fun s k former => ?_).mono_leaves fun v => ?_
  · exact spelt _ (List.mem_toArray.mp former)
  · exact Scalar.leafIn_of_yields (show (4 : Int32).toInt < 2 ^ 24 by decide)

/-- **The lines of `sort` can be read in one way.** All runs have one table.
Whatever the options, a run ends with code `0` and prints one line for each of
the terms it keeps, which are some of its samples, if memory can be asked for
as many; otherwise it prints nothing. The terms are over the six heads with
leaves of a range of four. Any two such terms, of any depth, whose lines are
one text, have one shape, the same heads, and leaves that are the same up to
the type of their numbers. -/
theorem lines_read_one_way : ∃ table : SymbolTable,
    (∀ o : SortOptions, ∃ σ kept lines, o.sampler = .ok (table, σ)
      ∧ Prints table (σ.firstSamples .initial o.count) kept lines
      ∧ (∀ args, Invocation.ofArguments? args = some (.sort o) →
          run args
            = if o.count ≤ Term.capacity then ⟨0, lines⟩ else ⟨101, []⟩)
      ∧ ∀ t ∈ kept, Printable table t)
    ∧ ∀ t u, Printable table t → Printable table u →
        t.text table = u.text table →
          t.tree.AlikeUpTo Scalar.SameUpToType u.tree := by
  obtain ⟨symbols, table, formers, interned, known, fits⟩ := exists_formers
  refine ⟨table, fun o => ?_, fun t u ht hu same => ?_⟩
  · have sampled := o.sampler_eq interned known
    have made : Sampler.ofSeed o.seed table _ o.config
        = .ok (.ofFormers o.seed formers o.config) :=
      SymbolTable.ofSeed_of_formers known
    obtain ⟨G, living⟩ := Sampler.exists_graph_firstSamples made o.count
    have prints := prints_distinctBy table living
    have printable := o.printable_firstSamples (spells_formers interned known)
    exact ⟨_, _, _, sampled, prints,
      fun args read => o.run_eq sampled
        (fun f hf => fits f (List.mem_toArray.mp hf)) read,
      fun t ht => printable _ t (prints.subset ht)⟩
  · rw [t.text_eq, u.text_eq] at same
    have alike := Tree.alikeUpTo_of_text_eq (legible_printable table) ht hu same
    exact alike.mono ht hu fun v w left right => left.sameUpToType right

-- An integer and the quarter of four: the lines agree, the types do not.
example : (Tree.node .someTag [.boxed (leafScalar 0 1)]).text Symbol.label
    = (Tree.node .someTag [.boxed (leafScalar 3 4)]).text Symbol.label := by
  decide +kernel

end SortOptions

end CommandLine

end TermGraph
