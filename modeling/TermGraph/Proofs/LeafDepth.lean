import TermGraph.Proofs.Nesting

/-!
# Where the leaves of samples lie

With nothing reused, a decision ends a branch in one of three ways: there is
no room for a head, the chance of a leaf comes true, or a head without
children is chosen. A sampler for which the last two are out of the question
ends every branch for lack of room, and so all branches of a sample are
equally long: each of its leaves is a scalar and lies exactly as deep as is
set (`Sampler.leaves_at_maxDepth`).

`Tree.Lies` tells how deep a part of a tree lies, and `Tree.Perfect` says of
a tree that its leaves lie at one depth. The heads may have any numbers of
children, as long as each has some.
-/

namespace TermGraph

namespace Tree

/-- **A part of a tree lies at a depth**, counted in the heads above it. -/
inductive Lies : Tree → ℕ → Tree → Prop
  /-- The whole tree lies at the top. -/
  | top (t : Tree) : Lies t 0 t
  /-- What lies in a child lies one level deeper in the node. -/
  | under {x t : Tree} {s : Symbol} {ts : List Tree} {d : ℕ} (child : t ∈ ts)
      (inside : Lies x d t) : Lies x (d + 1) (node s ts)

/-- **A leaf**: a tree without children. -/
def IsLeaf : Tree → Prop
  | boxed _ => True
  | node _ ts => ts = []

/-- **A perfect tree**: its leaves are scalars, and all of them lie at one
depth. -/
def Perfect (n : ℕ) (t : Tree) : Prop :=
  ∀ d x, x.Lies d t → x.IsLeaf → d = n ∧ ∃ v, x = boxed v

theorem perfect_boxed (v : Scalar) : (boxed v).Perfect 0 := by
  rintro d x (_ | _) -
  exact ⟨rfl, v, rfl⟩

/-- A node over perfect trees is perfect, if it is over any. -/
theorem perfect_node {n : ℕ} {s : Symbol} {ts : List Tree} (some : ts ≠ [])
    (h : ∀ t ∈ ts, t.Perfect n) : (node s ts).Perfect (n + 1) := by
  rintro d x (_ | ⟨child, inside⟩) leaf
  · exact absurd leaf some
  · obtain ⟨rfl, scalar⟩ := h _ child _ x inside leaf
    exact ⟨rfl, scalar⟩

end Tree

namespace Plan

variable {plan : Plan} {s s' : State} {t : Term} {room : ℕ}

/-- **No branch ends by choice**: leaves never come by chance, and there are
heads to choose from, all of which have children. -/
structure Branches (plan : Plan) : Prop where
  /-- Leaves never come by chance. -/
  leaf : plan.config.leaf.Never
  /-- There are heads to choose from. -/
  formers : plan.formers.size ≠ 0
  /-- They have children. -/
  children : ∀ f ∈ plan.formers, f.arity ≠ 0

/-- Then a decision supplies a term only for lack of room, and the term is a
scalar. -/
theorem Branches.of_done (branches : plan.Branches)
    (h : plan.start room s = (.done t, s')) (hs : plan.ReusesNothing s) :
    room = 0 ∧ ∃ v, t.tree = .boxed v := by
  have decided := plan.decides_start room s
  rw [h] at decided
  cases decided with
  | reused possible member _ =>
    exact absurd member (hs.notMem possible t)
  | @leaf s₁ possible _ =>
    obtain ⟨⟨n, v, made⟩, -⟩ := plan.of_newLeaf s₁
    refine ⟨?_, v, by rw [made, Term.tree_boxed]⟩
    rcases possible with none | full | chance
    · exact absurd none branches.formers
    · exact full
    · exact absurd branches.leaf chance
  | atom _ former _ => exact absurd rfl (branches.children _ former)

/-- **A generated term is perfect**, and its leaves lie as deep as there is
room. -/
theorem Branches.perfect_generate (branches : plan.Branches)
    (hs : plan.ReusesNothing s) (room : ℕ) :
    (plan.generate room s).1.tree.Perfect room
      ∧ plan.ReusesNothing (plan.generate room s).2 := by
  refine generate_induct (motive := fun room s t s' => plan.ReusesNothing s →
    t.tree.Perfect room ∧ plan.ReusesNothing s') ?_ ?_ room s hs
  · intro room s t s' h hs
    obtain ⟨rfl, v, scalar⟩ := branches.of_done h hs
    rw [scalar]
    exact ⟨Tree.perfect_boxed v, (depth_of_done h hs).2⟩
  · intro room s head more s₁ ts s₂ h counted children hs
    obtain ⟨-, -, pool⟩ := of_opened h
    obtain ⟨below, kept⟩ := children.keeps
      (Q := fun t => t.tree.Perfect room) id (hs.of_pool pool)
    obtain ⟨⟨n, made⟩, -⟩ := plan.of_finish head ts s₂
    refine ⟨?_, kept.finish head ts⟩
    rw [made, Term.tree_node]
    refine Tree.perfect_node ?_ (List.forall_mem_map.mpr below)
    exact List.ne_nil_of_length_pos (by rw [List.length_map]; omega)

end Plan

/-! ## Samples -/

namespace Sampler

variable {σ τ : Sampler}

/-- **A sampler that reuses nothing goes on to reuse nothing.** -/
theorem Later.reusesNothing {supply : Supply} (h : σ.Later τ)
    (idle : σ.plan.ReusesNothing (σ.state supply)) :
    τ.plan.ReusesNothing (τ.state supply) := by
  rw [h.plan_eq]
  exact h.keeps (I := fun pool => σ.plan.config.reuse.Never
      ∨ σ.plan.config.poolSize = 0 ∧ pool = #[])
    (fun s hs => (Plan.depth_generate_le hs _).2) idle

/-- **Without chance the leaves lie as deep as is set.** Take a new sampler
for which reuse never happens, or nothing is kept for it, and let any number
of samples be taken. No sample nests deeper than is set. If moreover leaves
never come by chance, and there are symbols to choose from, all of which have
children, then every leaf of a sample is a scalar and lies exactly as deep
as is set. -/
theorem leaves_at_maxDepth {seed : UInt64} {table : SymbolTable}
    {symbols : List Symbol} {config : Config}
    (made : ofSeed seed table symbols config = .ok σ) (later : σ.Later τ)
    (idle : config.reuse.Never ∨ config.poolSize = 0) (supply : Supply) :
    (τ.sample supply).1.1.tree.depth ≤ config.maxDepth
      ∧ (config.leaf.Never → symbols ≠ [] →
          (∀ x ∈ symbols, ∀ k, table.arity? x = some k → 1 ≤ k) →
        ∀ d x, Tree.Lies x d (τ.sample supply).1.1.tree → x.IsLeaf →
          d = config.maxDepth ∧ ∃ v, x = .boxed v) := by
  obtain ⟨formers, known, rfl⟩ := SymbolTable.formers_of_ofSeed made
  obtain ⟨heads, admitted⟩ := SymbolTable.of_formers_eq_ok known
  have nothing : τ.plan.ReusesNothing (τ.state supply) :=
    later.reusesNothing (idle.imp_right fun size => ⟨size, rfl⟩)
  rw [term_sample]
  rw [later.plan_eq] at nothing ⊢
  refine ⟨(Plan.depth_generate_le nothing _).1, fun leaf some arities => ?_⟩
  have branches : (ofFormers seed formers config).plan.Branches := by
    refine ⟨leaf, fun none => some ?_, fun f hf none => ?_⟩
    · have empty : formers = [] := List.eq_nil_of_length_eq_zero none
      rw [← heads, empty, List.map_nil]
    · have listed := List.mem_toArray.mp hf
      have arity := (admitted f listed).2
      rw [none] at arity
      have positive := arities _ (heads ▸ List.mem_map_of_mem listed) 0 arity
      exact Nat.not_succ_le_zero 0 positive
  exact (branches.perfect_generate nothing _).1

/-- Room for two levels, a negative chance of reuse, and one of leaves that is
no number. -/
def twoLevels : Config where
  maxDepth := 2
  leaf := .ofNat .double 0x7ff8000000000000
  reuse := .ofNat .double 0xbff0000000000000

/-- Over presences and cells, whose numbers of children differ, the leaves of
a second sample lie below two heads. -/
theorem leaves_at_maxDepth_twoLevels :
    ∃ σ, ofSeed 5 ∅ [.someTag, .consTag] twoLevels = .ok σ
      ∧ ∀ d x, Tree.Lies x d
          ((σ.sample .initial).1.2.sample .initial).1.1.tree → x.IsLeaf →
          d = 2 ∧ ∃ v, x = .boxed v := by
  have made : ofSeed 5 ∅ [.someTag, .consTag] twoLevels
      = .ok (ofFormers 5 [⟨.someTag, 1⟩, ⟨.consTag, 2⟩] twoLevels) := rfl
  obtain ⟨-, leaves⟩ := leaves_at_maxDepth made
    (.sampled .now .initial) (.inl rfl) .initial
  refine ⟨_, made, leaves rfl (List.cons_ne_nil _ _) ?_⟩
  intro x hx k arity
  rcases List.mem_cons.mp hx with rfl | hx
  · cases arity
    exact Nat.le_refl 1
  · cases List.mem_singleton.mp hx
    cases arity
    exact Nat.le_succ 1

end Sampler

end TermGraph
