import TermGraph.Proofs.RoundedQuotients
import TermGraph.Proofs.Samples

/-!
# What samples are made of

A sampler has nothing but its symbols and its leaves to build from, and
what it takes from its pool it has put there before. So every term it
returns or keeps is made of the symbols it was set up with, each over as
many children as it has, and of scalars that stand for integers within the
range that is set (`Sampler.made_of_symbols`). The invariant is about the
pool alone: what is built is built from there, and goes there
(`Plan.Stocks`). Along with it goes the number of terms kept, of which there
are never more than is set, since a full pool gives one up for one that
comes.

An integer is put into one of five forms. `Scalar.Stands` says what the
form keeps of it: the integer itself, or so many times it, or its half or
its quarter, or the word at its place. Machine arithmetic could lose
something there. It does not, because an integer of 32 bits is a double
with its quarter as well, times three thousand million is one of 64 bits,
and is rounded to a single before it is halved as after
(`Scalar.stands_leafScalar`).
-/

namespace TermGraph

/-! ## Scalars for integers -/

/-- **The scalars that stand for an integer.** -/
inductive Scalar.Stands (v : ℤ) : Scalar → Prop
  /-- The integer. -/
  | int32 {w : Int32} (value : w.toInt = v) : Stands v (.int32 w)
  /-- Three thousand million times the integer. -/
  | int64 {w : Int64} (value : w.toInt = 3000000000 * v) : Stands v (.int64 w)
  /-- Half of what the integer is rounded to as a single. -/
  | float32 {x y : Binary .single} (rounded : y.Rounds v)
      (finite : x.isFinite = true) (sign : x.isNegative = decide (v < 0))
      (value : x.value = y.value / 2) : Stands v (.float32 x)
  /-- A quarter of the integer. -/
  | float64 {x : Binary .double} (finite : x.isFinite = true)
      (sign : x.isNegative = decide (v < 0)) (value : x.value = v / 4) :
      Stands v (.float64 x)
  /-- The word at the place of the absolute value, counted round. -/
  | text {w : String} (word : leafWords.toList[v.natAbs % 5]? = some w) :
      Stands v (.text w)

/-- The range of the integers behind scalars fits 32 bits. -/
theorem Config.intBound_lt (c : Config) : c.intBound < 2 ^ 31 := by
  have := c.intRange.toInt_lt
  rw [Config.intBound]
  omega

/-- Counted round, every place has a word. -/
theorem getElem?_leafWords (n : ℕ) :
    leafWords.toList[n % 5]? = some (leafWords.get (Fin.ofNat 5 n)) := by
  have place : ∀ i : Fin 5,
      leafWords.toList[i.val]? = some (leafWords.get i) := by decide
  exact place (Fin.ofNat 5 n)

/-- **The scalar for an integer stands for it**, whatever its form. -/
theorem Scalar.stands_leafScalar {v : ℤ} (hv : v.natAbs < 2 ^ 31)
    (form : Fin 5) : (leafScalar form v).Stands v := by
  match form with
  | 0 => exact .int32 (Int32.toInt_ofInt_of_le (by omega) (by omega))
  | 1 => exact .int64 (Int64.toInt_ofInt_of_le (by omega) (by omega))
  | 2 =>
    obtain ⟨rounded, finite, value⟩ := Binary.ofScaledInt_single hv.le
    exact .float32 rounded finite (Binary.isNegative_ofScaledInt _ _ _) value
  | 3 =>
    obtain ⟨finite, value⟩ := Binary.ofScaledInt_double hv.le
    exact .float64 finite (Binary.isNegative_ofScaledInt _ _ _) value
  | 4 => exact .text (getElem?_leafWords v.natAbs)

/-- What is drawn around zero is no farther from it than asked. -/
theorem Draw.natAbs_around_le (n : ℕ) (s : Keystream) :
    (around n s).1.natAbs ≤ n := by
  have drawn : (below (2 * n + 1) s).1 < 2 * n + 1 :=
    below_lt (Nat.succ_pos _) s
  have value : (around n s).1 = ((below (2 * n + 1) s).1 : ℤ) - n := rfl
  omega

/-! ## Heads and leaves -/

/-- **A tree is made of heads and leaves**: of heads that go with the number
of their children, and of scalars of a kind. -/
inductive Tree.MadeOf (heads : Rule) (leaves : Scalar → Prop) : Tree → Prop
  /-- A scalar is a leaf. -/
  | boxed {v : Scalar} (leaf : leaves v) : MadeOf heads leaves (boxed v)
  /-- A node has a head, and is made of them below. -/
  | node {s : Symbol} {ts : List Tree} (head : heads s ts.length)
      (children : ∀ t ∈ ts, MadeOf heads leaves t) :
      MadeOf heads leaves (node s ts)

variable {heads heads' : Rule} {leaves : Scalar → Prop}

theorem Tree.MadeOf.mono {t : Tree} (h : t.MadeOf heads leaves)
    (imp : ∀ s k, heads s k → heads' s k) : t.MadeOf heads' leaves := by
  induction h with
  | boxed leaf => exact .boxed leaf
  | node head _ ih => exact .node (imp _ _ head) ih

/-- Every head goes with the number of its children. -/
theorem Tree.MadeOf.all {t : Tree} (h : t.MadeOf heads leaves) :
    t.All heads := by
  induction h with
  | boxed leaf => exact .boxed _
  | node head _ ih => exact .node head ih

/-- Without heads there are scalars only. -/
theorem Term.isBoxed_of_madeOf {t : Term} (h : t.tree.MadeOf heads leaves)
    (none : ∀ s k, ¬ heads s k) : t.isBoxed = true := by
  cases t with
  | boxed n v => rfl
  | node n s ts =>
    rw [tree_node] at h
    cases h with
    | node head _ => exact absurd head (none _ _)

/-- **The scalars that settings allow**: those that stand for an integer in
the range. -/
def Config.Yields (c : Config) (value : Scalar) : Prop :=
  ∃ v : ℤ, |v| ≤ max c.intRange.toInt 0 ∧ value.Stands v

/-- No more is kept than may be. -/
theorem Sampling.size_pool_remember_le {k : ℕ} {s : State} (t : Term)
    (h : s.pool.size ≤ k) : (remember k t s).2.pool.size ≤ k := by
  unfold remember
  split
  · next room => exact (Array.size_push t).trans_le room
  · split
    · next full =>
      generalize (Draw.index s.pool.size full.2).run s.stream = drawn
      obtain ⟨i, stream⟩ := drawn
      exact (Array.size_set i.isLt).trans_le h
    · exact h

namespace Plan

variable {plan : Plan} {s s' : State} {t : Term} {room : ℕ}

/-- **The heads of a plan**, each with its number of children. -/
def Offers (plan : Plan) : Rule := fun s k => ⟨s, k⟩ ∈ plan.formers

/-- A term is made of what a plan has. -/
def Makes (plan : Plan) (t : Term) : Prop :=
  t.tree.MadeOf plan.Offers plan.config.Yields

/-- **What a plan keeps for reuse**: no more terms than may be kept, made of
what it has. -/
structure Stocks (plan : Plan) (pool : Array Term) : Prop where
  /-- There are no more than may be. -/
  size_le : pool.size ≤ plan.config.poolSize
  /-- They are made of what there is. -/
  makes : ∀ t ∈ pool, plan.Makes t

/-- A new leaf is in the range. -/
theorem makes_newLeaf (plan : Plan) (s : State) :
    plan.Makes (plan.newLeaf s).1 := by
  have drawn := Draw.natAbs_around_le plan.config.intBound s.stream
  refine .boxed ⟨(Draw.around plan.config.intBound s.stream).1, ?_, ?_⟩
  · have bound : plan.config.intBound = plan.config.intRange.toInt.toNat := rfl
    rw [Int.abs_eq_natAbs]
    omega
  · exact Scalar.stands_leafScalar
      (drawn.trans_lt plan.config.intBound_lt) _

/-- A node over terms of a plan is one. -/
theorem makes_finish {head : Symbol} {ts : List Term} (s : State)
    (former : ⟨head, ts.length⟩ ∈ plan.formers) (h : ∀ t ∈ ts, plan.Makes t) :
    plan.Makes (plan.finish head ts s).1 := by
  obtain ⟨⟨n, made⟩, -⟩ := plan.of_finish head ts s
  rw [made, Makes, Term.tree_node]
  refine .node ?_ (List.forall_mem_map.mpr h)
  rwa [List.length_map]

/-- What is kept may be added to what is there. -/
theorem Stocks.remember (h : plan.Stocks s.pool) (ht : plan.Makes t) :
    plan.Stocks (plan.remember t s).2.pool := by
  refine ⟨Sampling.size_pool_remember_le t h.size_le, fun u hu => ?_⟩
  rcases Sampling.mem_pool_remember hu with rfl | old
  · exact ht
  · exact h.makes u old

/-- So may a node that is complete. -/
theorem Stocks.finish {head : Symbol} {ts : List Term}
    (h : plan.Stocks s.pool)
    (made : plan.Makes (plan.finish head ts s).1) :
    plan.Stocks (plan.finish head ts s).2.pool :=
  Stocks.remember (s := (Sampling.build (Term.newNode head ts) s).2) h made

/-- **A term that a decision supplies** is made of what the plan has. -/
theorem Stocks.of_done (h : plan.Stocks s.pool)
    (taken : plan.start room s = (.done t, s')) :
    plan.Makes t ∧ plan.Stocks s'.pool := by
  have decided := plan.decides_start room s
  rw [taken] at decided
  cases decided with
  | reused _ member pool => exact ⟨h.makes t member, pool ▸ h⟩
  | @leaf s₁ _ pool =>
    have made := plan.makes_newLeaf s₁
    exact ⟨made, Stocks.remember (s := (plan.newLeaf s₁).2) (pool ▸ h) made⟩
  | @atom head s₁ _ former pool =>
    have made : plan.Makes (plan.finish head [] s₁).1 :=
      makes_finish s₁ former (List.forall_mem_nil _)
    exact ⟨made, Stocks.finish (pool ▸ h) made⟩

/-- **What a generation makes** is made of what the plan has, and so is what
it leaves for reuse. -/
theorem Stocks.generate (h : plan.Stocks s.pool) (room : ℕ) :
    plan.Makes (plan.generate room s).1
      ∧ plan.Stocks (plan.generate room s).2.pool := by
  refine generate_induct (motive := fun _ s t s' => plan.Stocks s.pool →
    plan.Makes t ∧ plan.Stocks s'.pool) ?_ ?_ room s h
  · intro room s t s' taken h
    exact h.of_done taken
  · intro room s head more s₁ ts s₂ taken counted children h
    obtain ⟨-, former, pool⟩ := of_opened taken
    obtain ⟨below, kept⟩ := children.keeps
      (I := fun s => plan.Stocks s.pool) id (pool ▸ h)
    have made := makes_finish s₂ (counted ▸ former) below
    exact ⟨made, kept.finish made⟩

end Plan

/-! ## Samples -/

namespace Sampler

variable {σ τ : Sampler}

/-- **What samples are made of.** Take a new sampler and let any number of
samples be taken. Its pool holds no more terms than is set. Each term in it,
and the next sample, is made of the symbols of the sampler, each over as
many children as the table had for it, and of scalars that stand for an
integer in the range that is set. Without symbols they are scalars. -/
theorem made_of_symbols {seed : UInt64} {table : SymbolTable}
    {symbols : List Symbol} {config : Config}
    (made : ofSeed seed table symbols config = .ok σ) (later : σ.Later τ)
    (supply : Supply) :
    τ.pool.size ≤ config.poolSize
      ∧ ∀ t, t ∈ τ.pool ∨ t = (τ.sample supply).1.1 →
        t.tree.MadeOf (fun s k => s ∈ symbols ∧ table.arity? s = some k)
            config.Yields
          ∧ (symbols = [] → t.isBoxed = true) := by
  obtain ⟨formers, known, rfl⟩ := SymbolTable.formers_of_ofSeed made
  obtain ⟨heads, admitted⟩ := SymbolTable.of_formers_eq_ok known
  set plan := (ofFormers seed formers config).plan with hplan
  have stocked : plan.Stocks τ.pool :=
    later.keeps (I := plan.Stocks)
      (fun s hs => (Plan.Stocks.generate hs _).2)
      ⟨Nat.zero_le _, fun t ht => absurd ht (Array.not_mem_empty t)⟩
  have sampled : plan.Makes (τ.sample supply).1.1 := by
    rw [term_sample, later.plan_eq]
    exact (Plan.Stocks.generate (s := τ.state supply) stocked _).1
  have offered : ∀ s k, plan.Offers s k →
      s ∈ symbols ∧ table.arity? s = some k := by
    intro s k former
    have listed := List.mem_toArray.mp former
    exact ⟨heads ▸ List.mem_map_of_mem listed, (admitted _ listed).2⟩
  refine ⟨stocked.size_le, fun t ht => ?_⟩
  have makes : plan.Makes t := by
    rcases ht with kept | rfl
    · exact stocked.makes t kept
    · exact sampled
  have built := Tree.MadeOf.mono makes offered
  refine ⟨built, fun none => Term.isBoxed_of_madeOf built fun s k h => ?_⟩
  rw [none] at h
  exact absurd h.1 List.not_mem_nil

/-- Reuse every other time, from a pool of three. -/
def smallPool : Config where
  reuse := .ofNat .double 0x3fe0000000000000
  intRange := 2
  poolSize := 3

/-- A second sample over cells and empty lists is made of them, and a sample
over no symbols is a scalar. -/
theorem made_of_symbols_smallPool :
    (∃ σ, ofSeed 7 ∅ [.nilTag, .consTag] smallPool = .ok σ
      ∧ (σ.sample .initial).1.2.pool.size ≤ 3
      ∧ ((σ.sample .initial).1.2.sample .initial).1.1.tree.MadeOf
          (fun s k => s ∈ [Symbol.nilTag, .consTag]
            ∧ (∅ : SymbolTable).arity? s = some k) smallPool.Yields)
      ∧ ∃ σ, ofSeed 7 ∅ [] smallPool = .ok σ
        ∧ (σ.sample .initial).1.1.isBoxed = true := by
  have lists : ofSeed 7 ∅ [.nilTag, .consTag] smallPool
      = .ok (ofFormers 7 [⟨.nilTag, 0⟩, ⟨.consTag, 2⟩] smallPool) := rfl
  have scalars : ofSeed 7 ∅ [] smallPool
      = .ok (ofFormers 7 [] smallPool) := rfl
  obtain ⟨size, made⟩ :=
    made_of_symbols lists (.sampled .now .initial) .initial
  obtain ⟨-, boxed⟩ := made_of_symbols scalars .now .initial
  exact ⟨⟨_, lists, size, (made _ (.inr rfl)).1⟩,
    _, scalars, (boxed _ (.inr rfl)).2 rfl⟩

end Sampler

end TermGraph
