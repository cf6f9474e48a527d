import TermGraph.Proofs.Decisions
import TermGraph.Proofs.Generation
import TermGraph.Proofs.Samples

/-!
# How deep samples nest

The depth a sampler is set up with is a bound on the heads it opens one
below another: where that many wait, no other is opened. It says nothing
about a term taken from the pool, which may be as deep as any finished
before and may stand at any depth itself. So the setting bounds how deep
samples nest only as long as nothing is reused (`Plan.depth_generate_le`).

With reuse a sample may nest deeper than the setting, and the samples behind
it, which find it in the pool, deeper still
(`Sampler.nests_deeper_than_set`). What is left is a bound that grows with
the samples. Each head that is opened adds one level to what is below it,
and the heads that are opened for one sample are no more than those of a
full tree, `heads`; so this is by how much a sample can nest deeper than
what the pool held before it (`Plan.deepensBy_generate`).
-/

namespace TermGraph

namespace Tree

mutual

/-- **How deep a tree nests**: not at all if it is a scalar or has no
children, and otherwise one level deeper than the deepest child. -/
def depth : Tree → ℕ
  | boxed _ => 0
  | node _ ts => depths ts

/-- One level more than the deepest of several trees. -/
def depths : List Tree → ℕ
  | [] => 0
  | t :: ts => max (t.depth + 1) (depths ts)

end

@[simp] theorem depth_boxed (v : Scalar) : (boxed v).depth = 0 := rfl

/-- **A node nests to a depth** if its children stay below it. -/
theorem depth_node_le_iff {s : Symbol} {ts : List Tree} {n : ℕ} :
    (node s ts).depth ≤ n ↔ ∀ t ∈ ts, t.depth < n := by
  rw [depth]
  induction ts with
  | nil => exact iff_of_true (Nat.zero_le n) (List.forall_mem_nil _)
  | cons t ts ih =>
    rw [depths, Nat.max_le, ih, List.forall_mem_cons, Nat.succ_le_iff]

end Tree

/-- **What is kept for reuse nests to a depth** at most. -/
def State.NestsTo (s : State) (d : ℕ) : Prop :=
  ∀ u ∈ s.pool, u.tree.depth ≤ d

theorem State.NestsTo.mono {s : State} {d e : ℕ} (h : s.NestsTo d)
    (hde : d ≤ e) : s.NestsTo e :=
  fun u hu => (h u hu).trans hde

/-- **A term made in a state is deeper than the pool by some levels** at
most, and so is what the pool holds afterwards. -/
def Term.DeepensBy (e : ℕ) (s : State) (t : Term) (s' : State) : Prop :=
  ∀ d, s.NestsTo d → t.tree.depth ≤ d + e ∧ s'.NestsTo (d + e)

namespace Plan

variable {plan : Plan} {s s' : State} {t : Term} {ts : List Term}
  {head : Symbol} {room more d e : ℕ}

/-- A node over terms of some depth is one level deeper. -/
theorem depth_finish_le (h : ∀ t ∈ ts, t.tree.depth < d) :
    (plan.finish head ts s).1.tree.depth ≤ d := by
  obtain ⟨⟨n, made⟩, -⟩ := plan.of_finish head ts s
  rw [made, Term.tree_node, Tree.depth_node_le_iff, List.forall_mem_map]
  exact h

/-! ## With reuse -/

/-- A term that a decision supplies is no deeper than the pool, and what it
leaves there is not either. -/
theorem nestsTo_of_done (h : plan.start room s = (.done t, s'))
    (hs : s.NestsTo d) : t.tree.depth ≤ d ∧ s'.NestsTo d := by
  have decided := plan.decides_start room s
  rw [h] at decided
  cases decided with
  | reused _ member pool => exact ⟨hs t member, fun u hu => hs u (pool ▸ hu)⟩
  | @leaf s₁ _ pool =>
    obtain ⟨⟨n, v, made⟩, unchanged⟩ := plan.of_newLeaf s₁
    have here : (plan.newLeaf s₁).1.tree.depth ≤ d := by
      rw [made, Term.tree_boxed, Tree.depth_boxed]
      exact Nat.zero_le d
    refine ⟨here, fun u hu => ?_⟩
    rcases Sampling.mem_pool_remember hu with rfl | old
    · exact here
    · exact hs u (pool ▸ unchanged ▸ old)
  | @atom head s₁ _ _ pool =>
    have here : (plan.finish head [] s₁).1.tree.depth ≤ d :=
      depth_finish_le (List.forall_mem_nil _)
    refine ⟨here, fun u hu => ?_⟩
    rcases (plan.of_finish head [] s₁).2 u hu with rfl | old
    · exact here
    · exact hs u (pool ▸ old)

/-- **The heads of a full tree** with room for `r` levels, in which every
head has `k` children. -/
def heads (k : ℕ) : ℕ → ℕ
  | 0 => 0
  | r + 1 => 1 + k * heads k r

/-- Terms generated one after another, each of which may be deeper than the
pool by the same amount. -/
theorem nestsTo_along (h : Sampling.Along (Term.DeepensBy e) s ts s')
    (hs : s.NestsTo d) :
    (∀ t ∈ ts, t.tree.depth ≤ d + ts.length * e)
      ∧ s'.NestsTo (d + ts.length * e) := by
  induction h generalizing d with
  | nil s => exact ⟨List.forall_mem_nil _, hs.mono (Nat.le_add_right d _)⟩
  | @cons s s₁ s₂ t ts first rest ih =>
    obtain ⟨here, kept⟩ := first d hs
    obtain ⟨others, kept⟩ := ih kept
    have total : d + e + ts.length * e = d + (ts.length + 1) * e := by
      rw [Nat.succ_mul, Nat.add_assoc, Nat.add_comm e]
    rw [List.length_cons, ← total]
    refine ⟨List.forall_mem_cons.mpr ⟨?_, others⟩, kept⟩
    exact here.trans (Nat.le_add_right _ _)

/-- **A term is deeper than the pool was by no more than the heads of a
full tree**, and so is what the pool holds afterwards. -/
theorem deepensBy_generate (plan : Plan) (room : ℕ) (s : State) :
    Term.DeepensBy (heads plan.maxArity room) s (plan.generate room s).1
      (plan.generate room s).2 := by
  refine generate_induct (motive := fun room s t s' =>
    Term.DeepensBy (heads plan.maxArity room) s t s') ?_ ?_ room s
  · intro room s t s' h d hs
    obtain ⟨here, kept⟩ := nestsTo_of_done h hs
    exact ⟨here.trans (Nat.le_add_right _ _), kept.mono (Nat.le_add_right _ _)⟩
  · intro room s head more s₁ ts s₂ h counted children d hs
    obtain ⟨-, former, pool⟩ := of_opened h
    have few : more + 1 ≤ plan.maxArity := arity_le_maxArity former
    obtain ⟨below, kept⟩ :=
      nestsTo_along children fun u hu => hs u (pool ▸ hu)
    rw [counted] at below kept
    have total : d + (more + 1) * heads plan.maxArity room
        < d + heads plan.maxArity (room + 1) := by
      have := Nat.mul_le_mul_right (heads plan.maxArity room) few
      rw [heads]
      omega
    have here : (plan.finish head ts s₂).1.tree.depth
        ≤ d + heads plan.maxArity (room + 1) :=
      depth_finish_le fun t ht => (below t ht).trans_lt total
    refine ⟨here, fun u hu => ?_⟩
    rcases (plan.of_finish head ts s₂).2 u hu with rfl | old
    · exact here
    · exact (kept u old).trans total.le

/-! ## Without reuse -/

/-- **Nothing is reused**: reuse never happens, or there is nothing to reuse
and nothing is kept. -/
def ReusesNothing (plan : Plan) (s : State) : Prop :=
  plan.config.reuse.Never ∨ plan.config.poolSize = 0 ∧ s.pool = #[]

theorem ReusesNothing.of_pool (h : plan.ReusesNothing s)
    (pool : s'.pool = s.pool) : plan.ReusesNothing s' :=
  h.imp_right fun h => ⟨h.1, pool.trans h.2⟩

/-- Where reuse can happen, there is nothing to reuse. -/
theorem ReusesNothing.notMem (h : plan.ReusesNothing s)
    (possible : ¬ plan.config.reuse.Never) (t : Term) : t ∉ s.pool := by
  rcases h with never | ⟨-, pool⟩
  · exact absurd never possible
  · rw [pool]
    exact Array.not_mem_empty t

/-- It stays so when a term is kept. -/
theorem ReusesNothing.remember (h : plan.ReusesNothing s) (t : Term) :
    plan.ReusesNothing (plan.remember t s).2 := by
  refine h.imp_right fun ⟨size, pool⟩ => ⟨size, ?_⟩
  rw [Plan.remember, size, Sampling.remember_zero]
  exact pool

theorem ReusesNothing.finish (h : plan.ReusesNothing s) (head : Symbol)
    (ts : List Term) : plan.ReusesNothing (plan.finish head ts s).2 := by
  have built : plan.ReusesNothing
      (Sampling.build (Term.newNode head ts) s).2 := h.of_pool rfl
  exact built.remember _

/-- A term that a decision supplies is new then, and does not nest. -/
theorem depth_of_done (h : plan.start room s = (.done t, s'))
    (hs : plan.ReusesNothing s) :
    t.tree.depth = 0 ∧ plan.ReusesNothing s' := by
  have decided := plan.decides_start room s
  rw [h] at decided
  cases decided with
  | reused possible member _ => exact absurd member (hs.notMem possible t)
  | @leaf s₁ _ pool =>
    obtain ⟨⟨n, v, made⟩, unchanged⟩ := plan.of_newLeaf s₁
    refine ⟨?_, (hs.of_pool (unchanged.trans pool)).remember _⟩
    rw [made, Term.tree_boxed, Tree.depth_boxed]
  | atom _ _ pool =>
    exact ⟨Nat.le_zero.mp (depth_finish_le (List.forall_mem_nil _)),
      (hs.of_pool pool).finish _ _⟩

/-- **Without reuse a term nests no deeper than there is room.** -/
theorem depth_generate_le (hs : plan.ReusesNothing s) (room : ℕ) :
    (plan.generate room s).1.tree.depth ≤ room
      ∧ plan.ReusesNothing (plan.generate room s).2 := by
  refine generate_induct (motive := fun room s t s' => plan.ReusesNothing s →
    t.tree.depth ≤ room ∧ plan.ReusesNothing s') ?_ ?_ room s hs
  · intro room s t s' h hs
    obtain ⟨here, kept⟩ := depth_of_done h hs
    exact ⟨here ▸ Nat.zero_le room, kept⟩
  · intro room s head more s₁ ts s₂ h _ children hs
    obtain ⟨-, -, pool⟩ := of_opened h
    obtain ⟨below, kept⟩ := children.keeps
      (Q := fun t => t.tree.depth ≤ room) id (hs.of_pool pool)
    refine ⟨depth_finish_le fun t ht => ?_, kept.finish _ _⟩
    exact Nat.lt_succ_of_le (below t ht)

end Plan

/-! ## Samples -/

namespace Sampler

variable {σ : Sampler} {supply : Supply} {n i d : ℕ} {t : Term}

/-- **Samples nest deeper by and by**, each by no more than the heads of a
full tree. -/
theorem depth_firstSamples_le (pool : (σ.state supply).NestsTo d)
    (ht : t ∈ σ.firstSamples supply n) :
    t.tree.depth
      ≤ d + n * Plan.heads σ.plan.maxArity σ.plan.config.maxDepth := by
  rw [firstSamples_eq_times] at ht
  obtain ⟨counted, along⟩ := Sampling.along_times
    (R := Term.DeepensBy (Plan.heads σ.plan.maxArity σ.plan.config.maxDepth))
    (σ.plan.deepensBy_generate σ.plan.config.maxDepth) n (σ.state supply)
  have nests := (Plan.nestsTo_along along pool).1 t ht
  rwa [counted] at nests

/-- **Samples nest no deeper than is set** as long as nothing is reused. -/
theorem depth_firstSamples_le_maxDepth
    (idle : σ.plan.ReusesNothing (σ.state supply))
    (ht : t ∈ σ.firstSamples supply n) :
    t.tree.depth ≤ σ.plan.config.maxDepth := by
  rw [firstSamples_eq_times] at ht
  obtain ⟨-, along⟩ := Sampling.along_times
    (R := fun s (t : Term) s' => σ.plan.ReusesNothing s →
      t.tree.depth ≤ σ.plan.config.maxDepth ∧ σ.plan.ReusesNothing s')
    (fun s idle => Plan.depth_generate_le idle _) n (σ.state supply)
  exact (along.keeps (Q := fun t => t.tree.depth ≤ σ.plan.config.maxDepth)
    id idle).1 t ht

/-- **How deep the samples of a new sampler nest.** Where reuse never
happens, or nothing is kept for it, no sample nests deeper than is set. In
any case the first sample nests no deeper than a full tree has heads, and
each sample behind it by no more than as many levels deeper. -/
theorem depth_sample_le {seed : UInt64} {table : SymbolTable}
    {symbols : List Symbol} {config : Config}
    (h : ofSeed seed table symbols config = .ok σ)
    (ht : (σ.firstSamples supply n)[i]? = some t) :
    (config.reuse.Never ∨ config.poolSize = 0 →
        t.tree.depth ≤ config.maxDepth)
      ∧ t.tree.depth
          ≤ (i + 1) * Plan.heads σ.plan.maxArity config.maxDepth := by
  obtain ⟨formers, -, rfl⟩ := SymbolTable.formers_of_ofSeed h
  constructor
  · intro idle
    refine depth_firstSamples_le_maxDepth ?_ (List.mem_of_getElem? ht)
    exact idle.imp_right fun size => ⟨size, rfl⟩
  · have nothing : ((ofFormers seed formers config).state supply).NestsTo 0 :=
      fun u hu => absurd hu (Array.not_mem_empty u)
    have nests := depth_firstSamples_le nothing (mem_firstSamples_succ ht)
    rwa [Nat.zero_add] at nests

/-- Room for one level, and a head wherever there is room. -/
def oneLevel (reuse : Binary .double) : Config where
  maxDepth := 1
  leaf := .ofNat .double 0
  reuse := reuse
  intRange := 0

/-- Without reuse a second sample stays at one level. -/
theorem depth_sample_le_oneLevel :
    ∃ σ t, ofSeed 10 ∅ [.someTag] (oneLevel (.ofNat .double 0)) = .ok σ
      ∧ (σ.firstSamples .initial 2)[1]? = some t
      ∧ t.tree.depth ≤ 1
      ∧ t.tree.depth ≤ (1 + 1) * Plan.heads σ.plan.maxArity 1 := by
  have made : ofSeed 10 ∅ [.someTag] (oneLevel (.ofNat .double 0))
      = .ok (ofFormers 10 [⟨.someTag, 1⟩] (oneLevel (.ofNat .double 0))) := rfl
  obtain ⟨t, ht⟩ := Option.isSome_iff_exists.mp
    (show (((ofFormers 10 [⟨.someTag, 1⟩]
      (oneLevel (.ofNat .double 0))).firstSamples .initial 2)[1]?).isSome
      by decide +kernel)
  obtain ⟨set, bound⟩ := depth_sample_le made ht
  exact ⟨_, t, made, ht, set (.inl rfl), bound⟩

/-- **Samples nest deeper than is set.** There is room for one level, and
reuse every other time: the second sample is a presence over the first,
which is one over a scalar. -/
theorem nests_deeper_than_set :
    ∃ σ t, ofSeed 10 ∅ [.someTag]
          (oneLevel (.ofNat .double 0x3fe0000000000000)) = .ok σ
      ∧ (σ.firstSamples .initial 2)[1]? = some t
      ∧ σ.plan.config.maxDepth < t.tree.depth := by
  have depth : (((ofFormers 10 [⟨.someTag, 1⟩]
      (oneLevel (.ofNat .double 0x3fe0000000000000))).firstSamples
        .initial 2)[1]?.map fun t => t.tree.depth) = some 2 := by
    decide +kernel
  obtain ⟨t, ht, deep⟩ := Option.map_eq_some_iff.mp depth
  refine ⟨_, t, rfl, ht, ?_⟩
  rw [deep]
  exact Nat.one_lt_two

end Sampler

end TermGraph
