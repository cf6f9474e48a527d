import TermGraph.Proofs.Batches
import TermGraph.Proofs.Capacity
import TermGraph.Proofs.Invocations
import TermGraph.Proofs.Rendering
import TermGraph.Proofs.Samples

/-!
# Longer sorts

The command `sort` prints the distinct ones of a number of samples,
ascending. With a greater number the sampler is the same and its first
samples are the same, so the distinct ones are among those of the longer
run. Both sequences are strictly ascending in one order, and of two such
sequences the one whose members are among those of the other is found in it
as it stands. So a longer run prints the same lines with others inserted
(`CommandLine.SortOptions.longer_sort_inserts`), as long as memory can be asked
for its samples. A number of samples that is greater than that stops the
program before the first of them.

The lines are compared by way of the trees of the samples, since the text of
a term says nothing else about it. For the order of terms to be that of
their trees the samples of both runs have to live together in one graph,
and they do: the longer run has them all.
-/

namespace TermGraph

namespace Graph

variable {G : Graph} {ts us : List Term}

/-- Terms of a graph with their tags in place are members. -/
theorem exists_members (h : ∀ t ∈ ts, t ∈ G ∧ t.tree.WellTagged) :
    ∃ ms : List G.Member, ms.map Member.term = ts := by
  refine ⟨ts.pmap (fun t ht => ⟨t, ht.1, ht.2⟩) h, ?_⟩
  rw [List.map_pmap]
  exact List.pmap_eq_self.mpr fun _ _ => rfl

end Graph

/-- **The samples of a new sampler live together**, and none of their nodes
carries a tag of boxed scalars. -/
theorem Sampler.exists_graph_firstSamples {seed : UInt64} {table : SymbolTable}
    {symbols : List Symbol} {config : Config} {σ : Sampler}
    (h : Sampler.ofSeed seed table symbols config = .ok σ) (n : ℕ) :
    ∃ G : Graph, ∀ t ∈ σ.firstSamples .initial n,
      t ∈ G ∧ t.tree.WellTagged := by
  obtain ⟨H, grows, made⟩ :=
    Sampler.grows_firstSamples (SymbolTable.in_of_ofSeed h .bounds) n
  have bounds : Heap.bounds.Keeps fun s _ => s.isBoxed = false := by
    intro n s ts ht
    rcases Heap.mem_bounds.mp ht with least | greatest
    · cases least
      rfl
    · cases greatest
      rfl
  have unboxed : ∀ s k, table.Admits s k → s.isBoxed = false :=
    fun _ _ admits => SymbolTable.isBoxed_of_arity? admits.2
  have nodes : H.Keeps fun s _ => s.isBoxed = false :=
    grows.keeps unboxed bounds
  exact ⟨H.toGraph, fun t ht => ⟨made t ht, nodes.all_tree (made t ht)⟩⟩

namespace CommandLine

/-- **Lines that print terms**: those of the terms that are kept, which are
some of them, strictly ascending, and one of each class. -/
structure Prints (table : SymbolTable) (ts kept : List Term)
    (lines : List String) : Prop where
  /-- What is kept is among the terms. -/
  subset : kept ⊆ ts
  /-- No term is kept behind an equal or a greater one. -/
  ascending : kept.Pairwise fun t u => t.order u = .lt
  /-- Each of the terms is equal to one that is kept. -/
  covers : ∀ t ∈ ts, ∃ u ∈ kept, u.order t = .eq
  /-- There is one line for each term that is kept. -/
  eq_map : lines = kept.map fun t => t.text table

section

open Batch Graph.Member

variable {G : Graph} {ts us : List Term} (table : SymbolTable)

/-- **The distinct terms are printed.** -/
theorem prints_distinctBy (h : ∀ t ∈ ts, t ∈ G ∧ t.tree.WellTagged) :
    Prints table ts (distinctBy id ts)
      ((distinctBy id ts).map fun t => t.text table) := by
  obtain ⟨ms, rfl⟩ := Graph.exists_members h
  rw [distinctBy_map]
  have holds := represents_distinctBy id ms
  rw [List.map_id, List.map_id] at holds
  refine ⟨?_, ?_, ?_, rfl⟩
  · exact List.map_subset _ fun t ht => mem_of_mem_distinctBy id ht
  · exact List.pairwise_map.mpr (pairwise_distinctBy id ms)
  · refine List.forall_mem_map.mpr fun t ht => ?_
    obtain ⟨u, hu, same⟩ :=
      List.mem_map.mp ((holds.mem_iff t.tree).mpr (List.mem_map_of_mem ht))
    have equal : u == t := beq_iff_tree_eq.mpr same
    exact ⟨u.term, List.mem_map_of_mem hu, beq_iff_eq.mp equal⟩

/-- **More terms print more lines**, and those of the fewer are found among
them in their sequence. -/
theorem sublist_map_text_distinctBy
    (h : ∀ t ∈ us, t ∈ G ∧ t.tree.WellTagged) (part : ts ⊆ us) :
    ((distinctBy id ts).map fun t => t.text table).Sublist
      ((distinctBy id us).map fun t => t.text table) := by
  obtain ⟨ms, hms⟩ := Graph.exists_members fun t ht => h t (part ht)
  obtain ⟨ns, hns⟩ := Graph.exists_members h
  have trees : ∀ x, x ∈ ms.map (tree ∘ id) → x ∈ ns.map (tree ∘ id) := by
    have terms : ms.map term ⊆ ns.map term := by rwa [hms, hns]
    have unfolded := List.map_subset Term.tree terms
    rw [List.map_map, List.map_map] at unfolded
    exact fun x hx => unfolded hx
  -- Of a class another member may be kept in the longer list, but the tree
  -- is the same, and a text says nothing else.
  have texts : ∀ l : List G.Member,
      ((distinctBy (term ∘ id) l).map term).map (fun t => t.text table)
        = ((distinctBy (term ∘ id) l).map (tree ∘ id)).map
            (Tree.text table.label) := fun l => by
    rw [List.map_map, List.map_map]
    exact List.map_congr_left fun t _ => t.term.text_eq table
  rw [← hms, ← hns, distinctBy_map, distinctBy_map]
  refine (congrArg₂ List.Sublist (texts ms) (texts ns)).mpr ?_
  exact (map_tree_distinctBy_sublist id id trees).map _

end

namespace SortOptions

variable (o : SortOptions)

/-- The vocabulary is registered, its heads can be built, and memory can be
asked for their children. -/
theorem exists_formers : ∃ symbols table formers,
    internAll ∅ vocabulary = .ok (symbols, table)
      ∧ table.formers (symbols ++ [.consTag, .nilTag, .someTag])
        = .ok formers
      ∧ ∀ f ∈ formers, f.arity ≤ Term.capacity := by
  have evaluated : ((internAll ∅ vocabulary).toOption.any fun r =>
      (r.2.formers (r.1 ++ [.consTag, .nilTag, .someTag])).toOption.any
        fun fs => decide (∀ f ∈ fs, f.arity ≤ Term.capacity)) = true := by
    decide +kernel
  cases interned : internAll ∅ vocabulary with
  | error e =>
    rw [interned] at evaluated
    cases evaluated
  | ok r =>
    rw [interned] at evaluated
    cases known : r.2.formers (r.1 ++ [.consTag, .nilTag, .someTag]) with
    | error e =>
      rw [Except.toOption, Option.any_some, known] at evaluated
      cases evaluated
    | ok formers =>
      rw [Except.toOption, Option.any_some, known, Except.toOption,
        Option.any_some, decide_eq_true_iff] at evaluated
      exact ⟨r.1, r.2, formers, rfl, known, evaluated⟩

/-- The table is the one of the vocabulary, and the sampler is new. -/
theorem sampler_eq {symbols : List Symbol} {table : SymbolTable}
    {formers : List Former}
    (interned : internAll ∅ vocabulary = .ok (symbols, table))
    (known : table.formers (symbols ++ [.consTag, .nilTag, .someTag])
      = .ok formers) :
    o.sampler = .ok (table, .ofFormers o.seed formers o.config) := by
  rw [sampler, interned]
  show (Sampler.ofSeed o.seed table _ o.config >>= fun σ => .ok (table, σ)) = _
  rw [SymbolTable.ofSeed_of_formers known]
  rfl

/-- **The sampler is made**, whatever the options, and is not stopped. -/
theorem exists_sampler : ∃ symbols table σ,
    o.sampler = .ok (table, σ)
      ∧ Sampler.ofSeed o.seed table symbols o.config = .ok σ
      ∧ σ.plan.Fits := by
  obtain ⟨symbols, table, formers, interned, known, fits⟩ := exists_formers
  exact ⟨_, table, _, o.sampler_eq interned known,
    SymbolTable.ofSeed_of_formers known,
    fun f hf => fits f (List.mem_toArray.mp hf)⟩

/-- **What `sort` prints** are the distinct ones of its samples, if memory can
be asked for all of them. -/
theorem lines_eq {table : SymbolTable} {σ : Sampler}
    (h : o.sampler = .ok (table, σ)) (fits : σ.plan.Fits) :
    o.lines = if o.count ≤ Term.capacity then
      some (.ok ((Batch.distinctBy id
        (σ.firstSamples .initial o.count)).map fun t => t.text table))
      else none := by
  rw [lines, h]
  dsimp only
  split
  · next memory =>
    rw [guard, if_pos memory]
    show (σ.samples? o.count .initial).bind _ = _
    rw [Sampler.samples?_eq fits]
    rfl
  · next more =>
    rw [guard, if_neg more]
    rfl

/-- **How `sort` ends**: with the lines it prints, or without them. -/
theorem run_eq {table : SymbolTable} {σ : Sampler} {args : List String}
    (h : o.sampler = .ok (table, σ)) (fits : σ.plan.Fits)
    (read : Invocation.ofArguments? args = some (.sort o)) :
    run args = if o.count ≤ Term.capacity then
      ⟨0, (Batch.distinctBy id
        (σ.firstSamples .initial o.count)).map fun t => t.text table⟩
      else ⟨101, []⟩ := by
  rw [run, read]
  dsimp only
  rw [Invocation.lines, o.lines_eq h fits]
  by_cases memory : o.count ≤ Term.capacity
  · rw [if_pos memory, if_pos memory]
  · rw [if_neg memory, if_neg memory]

/-- **A longer sort only inserts lines.** For all options and a greater
number of samples, the samplers are one and its first samples are the same.
Each of the two runs prints the distinct ones of its samples, one line for
each and strictly ascending, and ends with code `0`, if memory can be asked for
as many samples; otherwise it ends with code `101` and prints nothing. The
lines of the shorter run are found among those of the longer, in their
sequence. -/
theorem longer_sort_inserts {more : ℕ} (h : o.count ≤ more) :
    ∃ table σ kept keptLonger lines linesLonger,
      o.sampler = .ok (table, σ)
        ∧ σ.firstSamples .initial o.count <+: σ.firstSamples .initial more
        ∧ Prints table (σ.firstSamples .initial o.count) kept lines
        ∧ Prints table (σ.firstSamples .initial more) keptLonger linesLonger
        ∧ lines.Sublist linesLonger
        ∧ (∀ args, Invocation.ofArguments? args = some (.sort o) →
            run args
              = if o.count ≤ Term.capacity then ⟨0, lines⟩ else ⟨101, []⟩)
        ∧ (∀ args, Invocation.ofArguments? args
              = some (.sort { o with count := more }) →
            run args
              = if more ≤ Term.capacity then ⟨0, linesLonger⟩ else ⟨101, []⟩)
        ∧ ∀ reuse, Binary.ofText? .double reuse = some o.reuse →
            o.depth < UInt64.size → more < UInt64.size →
            Invocation.ofArguments? (o.arguments reuse) = some (.sort o)
              ∧ Invocation.ofArguments?
                  ({ o with count := more }.arguments reuse)
                = some (.sort { o with count := more }) := by
  obtain ⟨symbols, table, σ, sampled, made, fits⟩ := o.exists_sampler
  obtain ⟨G, longer⟩ := Sampler.exists_graph_firstSamples made more
  have first := σ.prefix_firstSamples .initial h
  have shorter : ∀ t ∈ σ.firstSamples .initial o.count,
      t ∈ G ∧ t.tree.WellTagged := fun t ht => longer t (first.subset ht)
  have sampledLonger : ({ o with count := more } : SortOptions).sampler
      = .ok (table, σ) := sampled
  refine ⟨table, σ, _, _, _, _, sampled, first, prints_distinctBy table shorter,
    prints_distinctBy table longer,
    sublist_map_text_distinctBy table longer first.subset,
    fun args read => run_eq _ sampled fits read,
    fun args read => run_eq _ sampledLonger fits read,
    fun reuse hreuse hdepth hmore => ⟨?_, ?_⟩⟩
  · exact o.ofArguments?_arguments (h.trans_lt hmore) hdepth hreuse
  · exact ofArguments?_arguments _ hmore hdepth hreuse

/-- One sample and two of them, with a reuse every other time. -/
theorem longer_sort_inserts_two :
    ∃ lines linesLonger : List String, lines.Sublist linesLonger
      ∧ run ["sort", "-c", "1", "-d", "2", "-s", "7", "-r=0.5"] = ⟨0, lines⟩
      ∧ run ["sort", "-c", "2", "-d", "2", "-s", "7", "-r=0.5"]
        = ⟨0, linesLonger⟩ := by
  obtain ⟨_, _, _, _, lines, linesLonger, -, -, -, -, found, shorter, longer,
    read⟩ := longer_sort_inserts
      ⟨1, 2, 7, .ofNat .double 0x3fe0000000000000⟩ (show 1 ≤ 2 by decide)
  have half : Binary.ofText? .double "0.5"
      = some (.ofNat .double 0x3fe0000000000000) := by
    decide +kernel
  obtain ⟨first, second⟩ := read "0.5" half (by decide) (by decide)
  exact ⟨lines, linesLonger, found, shorter _ first, longer _ second⟩

/-- **More samples than memory can be asked for** are not taken, however simple
they would be. -/
theorem run_sort_of_capacity_lt :
    run ["sort", "-c", "1152921504606846976", "-d", "0"] = ⟨101, []⟩ := by
  decide +kernel

end SortOptions

end CommandLine

end TermGraph
