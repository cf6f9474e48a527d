import TermGraph.Sampler.Basic

/-!
# What one decision of a sampler can be

A sampler decides for a place by several draws, some of which are made only
if others have turned out in a certain way. `Plan.Decides` lists what can
come of them: a term of the pool, a new leaf, a new atom or a head to be
opened, each with the conditions under which it can, and with what it does
to the pool. Which of them it is depends on the stream; that it is one of
them does not (`Plan.decides_start`), and it is all that an invariant of
samples has to go through.

Only what is finished enters the pool, and the pool never gains anything
else (`Sampling.mem_pool_remember`).
-/

namespace TermGraph

/-- **A probability of which nothing comes**: no number, a negative one or
zero. -/
def Binary.Never (p : Binary .double) : Prop :=
  (p.isNaN || p.isNegative || p.isZero) = true

/-- What never happens is decided without a draw. -/
theorem Draw.chance_of_never {p : Binary .double} (h : p.Never) :
    Draw.chance p = pure false :=
  if_pos h

namespace Sampling

variable {s : State} {t u : Term}

/-- **The pool gains what is kept and nothing else.** -/
theorem mem_pool_remember {k : Nat} (h : u ∈ (remember k t s).2.pool) :
    u = t ∨ u ∈ s.pool := by
  unfold remember at h
  split at h
  · rcases Array.mem_push.mp h with old | new
    · exact .inr old
    · exact .inl new
  · split at h
    · next full =>
      generalize (Draw.index s.pool.size full.2).run s.stream = drawn at h
      obtain ⟨i, stream⟩ := drawn
      rcases Array.mem_or_eq_of_mem_set
        (show u ∈ s.pool.set i t i.isLt from h) with old | new
      · exact .inr old
      · exact .inl new
    · exact .inr h

/-- Nothing is built for it. -/
theorem supply_remember (k : Nat) (t : Term) (s : State) :
    (remember k t s).2.supply = s.supply := by
  unfold remember
  split
  · rfl
  · split <;> rfl

/-- A pool that holds nothing keeps nothing. -/
theorem remember_zero (t : Term) (s : State) : remember 0 t s = ((), s) := by
  unfold remember
  rw [if_neg (Nat.not_lt_zero _), dif_neg fun full => Nat.lt_irrefl 0 full.1]

/-- **What is reused comes from the pool**, and only where reuse can
happen. -/
theorem of_reused? (reuse : Binary .double) (s : State) :
    (reused? reuse s).2.pool = s.pool
      ∧ ∀ t ∈ (reused? reuse s).1, t ∈ s.pool ∧ ¬ reuse.Never := by
  rw [reused?, bind_apply]
  by_cases filled : 0 < (get (m := Sampling) s).1.pool.size
  · rw [dif_pos filled, bind_apply]
    split
    · next taken =>
      refine ⟨rfl, fun t ht => ?_⟩
      cases ht
      refine ⟨Array.getElem_mem _, fun never => ?_⟩
      rw [Draw.chance_of_never never] at taken
      cases taken
    · exact ⟨rfl, fun t ht => absurd ht (Option.not_mem_none t)⟩
  · rw [dif_neg filled]
    exact ⟨rfl, fun t ht => absurd ht (Option.not_mem_none t)⟩

end Sampling

namespace Plan

variable {plan : Plan} {room : Nat} {s : State}

/-- A leaf carries a scalar, and the pool is left as it is. -/
theorem of_newLeaf (plan : Plan) (s : State) :
    (∃ n v, (plan.newLeaf s).1 = .boxed n v)
      ∧ (plan.newLeaf s).2.pool = s.pool :=
  ⟨⟨_, _, rfl⟩, rfl⟩

/-- A node that is complete has the head and the children it was built
from, and it is what the pool gains. -/
theorem of_finish (plan : Plan) (head : Symbol) (ts : List Term) (s : State) :
    (∃ n, (plan.finish head ts s).1 = .node n head ts)
      ∧ ∀ u ∈ (plan.finish head ts s).2.pool,
          u = (plan.finish head ts s).1 ∨ u ∈ s.pool :=
  ⟨⟨_, rfl⟩, fun _ hu => Sampling.mem_pool_remember
    (s := (Sampling.build (Term.newNode head ts) s).2) hu⟩

/-- **Where a head is chosen** there is room for it and it is one of the
plan's; where none is, there is no room, or none to choose, or the chance of
a leaf. -/
theorem of_former? (plan : Plan) (room : Nat) (s : State) :
    (plan.former? room s).2.pool = s.pool
      ∧ match (plan.former? room s).1 with
        | some f => 0 < room ∧ f ∈ plan.formers
        | none => plan.formers.size = 0 ∨ room = 0
            ∨ ¬ plan.config.leaf.Never := by
  unfold former?
  split
  · next choice =>
    rw [Sampling.bind_apply]
    split
    · next leaf =>
      refine ⟨rfl, .inr (.inr fun never => ?_)⟩
      rw [Draw.chance_of_never never] at leaf
      cases leaf
    · exact ⟨rfl, choice.2, Array.getElem_mem _⟩
  · next choice =>
    refine ⟨rfl, ?_⟩
    show plan.formers.size = 0 ∨ room = 0 ∨ ¬ plan.config.leaf.Never
    omega

/-- **What a decision can be**, for a place with room for `room` levels. -/
inductive Decides (plan : Plan) (room : Nat) (s : State) :
    Start → State → Prop
  /-- A term of the pool, where reuse can happen. -/
  | reused {t : Term} {s' : State} (possible : ¬ plan.config.reuse.Never)
      (member : t ∈ s.pool) (pool : s'.pool = s.pool) :
      Decides plan room s (.done t) s'
  /-- A new leaf, where no head can be chosen or none has to be. -/
  | leaf {s₁ : State} (possible : plan.formers.size = 0 ∨ room = 0
        ∨ ¬ plan.config.leaf.Never) (pool : s₁.pool = s.pool) :
      Decides plan room s (.done (plan.newLeaf s₁).1)
        (plan.remember (plan.newLeaf s₁).1 (plan.newLeaf s₁).2).2
  /-- A new atom, where there is room. -/
  | atom {head : Symbol} {s₁ : State} (positive : 0 < room)
      (former : ⟨head, 0⟩ ∈ plan.formers) (pool : s₁.pool = s.pool) :
      Decides plan room s (.done (plan.finish head [] s₁).1)
        (plan.finish head [] s₁).2
  /-- A head whose children come next, where there is room. -/
  | opened {head : Symbol} {more : Nat} {s' : State} (positive : 0 < room)
      (former : ⟨head, more + 1⟩ ∈ plan.formers) (pool : s'.pool = s.pool) :
      Decides plan room s (.opened head more) s'

/-- **Every decision is one of these.** -/
theorem decides_start (plan : Plan) (room : Nat) (s : State) :
    plan.Decides room s (plan.start room s).1 (plan.start room s).2 := by
  rw [start, Sampling.bind_apply]
  obtain ⟨pool, taken⟩ := Sampling.of_reused? plan.config.reuse s
  generalize Sampling.reused? plan.config.reuse s = reused at pool taken
  obtain ⟨_ | t, s₁⟩ := reused
  · dsimp only
    rw [Sampling.bind_apply]
    obtain ⟨pool₁, chosen⟩ := plan.of_former? room s₁
    generalize plan.former? room s₁ = former at pool₁ chosen
    obtain ⟨_ | ⟨head, _ | more⟩, s₂⟩ := former
    · exact .leaf chosen (pool₁.trans pool)
    · exact .atom chosen.1 chosen.2 (pool₁.trans pool)
    · exact .opened chosen.1 chosen.2 (pool₁.trans pool)
  · obtain ⟨member, possible⟩ := taken t rfl
    exact .reused possible member pool

/-- A head that was opened is one of the plan's, and nothing was kept. -/
theorem of_opened {head : Symbol} {more : Nat} {s' : State}
    (h : plan.start room s = (.opened head more, s')) :
    0 < room ∧ ⟨head, more + 1⟩ ∈ plan.formers ∧ s'.pool = s.pool := by
  have decided := plan.decides_start room s
  rw [h] at decided
  cases decided with
  | opened positive former pool => exact ⟨positive, former, pool⟩

end Plan

end TermGraph
