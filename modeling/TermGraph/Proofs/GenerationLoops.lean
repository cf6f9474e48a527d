import Mathlib.Algebra.BigOperators.Ring.Finset
import TermGraph.Proofs.Generation

/-!
# The loops of a generation

A generation runs in two loops, one within the other. The outer loop takes
the decision for the next place, which lies as deep as there are heads that
wait; where the decision opens a head, it waits from then on, and the loop
begins anew. Where the decision supplies a term, the inner loop hands it to
the head that waits innermost. If that head waits for other children still,
the outer loop begins anew as well; otherwise its node is completed, and is
handed to the head outside it in turn.

`Plan.grow` has a measure in its definition by which it ends. Here the loops
are written as they run (`Loops.handOver`, `Loops.fill`), and there is
nothing about them by which the outer one would end but a limit on its
rounds, with which it comes to nothing. So it is a statement about the loops
that from some limit on they come to something, and that limit is the number
of decisions they take (`Plan.fill_eq`). The inner loop settles a term
(`Plan.handOver_eq`), so one round of the outer loop is one step of the
generation (`Plan.fill_step`), and every step lowers the `load` of what is
left to do, which bounds the rounds to come. What is drawn, and what is
reused, has no part in it.

What takes the decisions, and what completes the nodes, is left open in the
loops: they may come to nothing too. If what takes the decisions lets those
through that fit into memory and no others, the loops come to what the sampler
comes to at work (`Plan.fill_eq_grow?`).
-/

namespace TermGraph

/-- **A computation of a sampler that may come to nothing.** -/
abbrev Attempt := StateT State Option

namespace Attempt

/-- A computation that comes to something whatever the state. -/
def certain {α : Type} (x : Sampling α) : Attempt α := fun s => some (x s)

theorem certain_bind {α β : Type} (x : Sampling α) (f : α → Attempt β)
    (s : State) : (certain x >>= f) s = f (x s).1 (x s).2 := rfl

/-- What comes to something whatever the state, does so in sequence. -/
theorem certain_bind_eq {α β : Type} {x : Sampling α} {f : α → Attempt β}
    {g : α → Sampling β} (h : ∀ a, f a = certain (g a)) :
    (certain x >>= f) = certain (x >>= g) :=
  funext fun _ => congrFun (h _) _

/-- What a guard lets through goes on. -/
theorem guard_bind {β : Type} {p : Prop} [Decidable p] (h : p)
    (f : Unit → Attempt β) : (guard p >>= f) = f () := by
  rw [guard, if_pos h]
  rfl

/-- **A value, given that something holds.** -/
def given {α : Type} (p : Prop) [Decidable p] (a : α) : Attempt α := do
  guard p
  return a

theorem given_eq {α : Type} {p : Prop} [Decidable p] (h : p) (a : α) :
    given p a = certain (pure a) :=
  guard_bind h _

/-- A value that is not given comes to nothing in sequence. -/
theorem given_bind_of_not {α β : Type} {p : Prop} [Decidable p] (h : ¬ p)
    (a : α) (f : α → Attempt β) (s : State) : (given p a >>= f) s = none := by
  rw [given, guard, if_neg h]
  rfl

end Attempt

/-- **A head that waits**, with the children that are there so far. -/
structure Parent where
  /-- The head. -/
  head : Symbol
  /-- The number of children it waits for. -/
  arity : ℕ
  /-- The children so far. -/
  args : List Term

namespace Loops

variable (start : ℕ → Attempt Start)
  (finish : Symbol → List Term → Attempt Term)

/-- **The inner loop** hands a term to the heads that wait, the innermost
first. What it comes to is the whole term, or the heads that still wait. -/
def handOver (t : Term) : List Parent → Attempt (Term ⊕ List Parent)
  | [] => return .inl t
  | parent :: waiting =>
    let args := parent.args ++ [t]
    if args.length < parent.arity then
      return .inr ({ parent with args } :: waiting)
    else do
      let node ← finish parent.head args
      handOver node waiting

/-- **The outer loop** takes the decision for the place below the heads that
wait, but no more decisions than a limit. -/
def fill : ℕ → List Parent → Attempt Term
  | 0, _ => failure
  | limit + 1, waiting => do
    match ← start waiting.length with
    | .opened head more => fill limit (⟨head, more + 1, []⟩ :: waiting)
    | .done t =>
      match ← handOver finish t waiting with
      | .inl whole => return whole
      | .inr waiting => fill limit waiting

end Loops

open Attempt Loops

/-- The head that waits, as the loops keep it. -/
def Frame.parent (f : Frame) : Parent :=
  ⟨f.head, f.built.length + (f.later + 1), f.built.reverse⟩

namespace Plan

variable {plan : Plan} {frames left : List Frame} {s s' : State}

/-- **The loops of a plan**, with no more decisions than a limit, and none to
what memory can be asked for. -/
def loops (plan : Plan) (limit : ℕ) : Attempt Term :=
  fill (fun depth => certain (plan.start (plan.config.maxDepth - depth)))
    (fun head ts => certain (plan.finish head ts)) limit []

/-- **The room below each head** is what its depth leaves of it. -/
def Levelled (plan : Plan) : List Frame → Prop
  | [] => True
  | f :: fs => f.room = plan.config.maxDepth - (fs.length + 1)
      ∧ plan.Levelled fs

theorem Levelled.room_eq (h : plan.Levelled frames) :
    plan.room frames = plan.config.maxDepth - frames.length := by
  cases frames with
  | nil => rfl
  | cons f fs => exact h.1

/-- **Handing a term over leaves the rooms as they are.** -/
theorem Levelled.of_settle {t : Term} (h : plan.Levelled frames)
    (settled : plan.settle t frames s = (.inr left, s')) :
    plan.Levelled left := by
  induction frames generalizing t s with
  | nil => cases settled
  | cons f fs ih =>
    obtain ⟨head, room, built, later⟩ := f
    cases later with
    | succ later =>
      cases settled
      exact h
    | zero => exact ih h.2 settled

/-- **A step keeps the rooms in line with the depths.** -/
theorem Levelled.of_step (h : plan.Levelled frames)
    (taken : plan.step frames s = (.inr left, s')) : plan.Levelled left := by
  rw [step, Sampling.bind_apply] at taken
  generalize plan.start (plan.room frames) s = decision at taken
  obtain ⟨t | ⟨head, more⟩, s₁⟩ := decision
  · exact h.of_settle taken
  · cases taken
    refine ⟨?_, h⟩
    rw [h.room_eq]
    rfl

theorem load_pos (plan : Plan) (frames : List Frame) :
    0 < plan.load frames :=
  Nat.add_pos_left (budget_pos _ _) _

section

variable {start : ℕ → Attempt Start}
  {finish : Symbol → List Term → Attempt Term} {fits : Start → Bool}
  (decides : ∀ depth, start depth
    = certain (plan.start (plan.config.maxDepth - depth)) >>= fun decision =>
        given (fits decision) decision)
  (completes : ∀ head ts, finish head ts = certain (plan.finish head ts))

/-- What is left to do by the outer loop after what a step came to. -/
def goOn (start : ℕ → Attempt Start)
    (finish : Symbol → List Term → Attempt Term) (limit : ℕ) :
    (Term ⊕ List Frame) × State → Option (Term × State)
  | (.inl t, s) => some (t, s)
  | (.inr left, s) => fill start finish limit (left.map Frame.parent) s

include completes in
/-- **The inner loop settles a term.** -/
theorem handOver_eq (t : Term) (frames : List Frame) :
    handOver finish t (frames.map Frame.parent)
      = certain (Sum.map id (List.map Frame.parent)
          <$> plan.settle t frames) := by
  induction frames generalizing t with
  | nil =>
    rw [List.map_nil, handOver]
    rfl
  | cons f fs ih =>
    obtain ⟨head, room, built, later⟩ := f
    have args : (Frame.parent ⟨head, room, built, later⟩).args ++ [t]
        = (t :: built).reverse := List.reverse_cons.symm
    rw [List.map_cons, handOver]
    rw [args, List.length_reverse, List.length_cons]
    cases later with
    | succ later =>
      have more : built.length + 1
          < (Frame.parent ⟨head, room, built, later + 1⟩).arity :=
        Nat.add_lt_add_left (Nat.lt_add_of_pos_left (Nat.succ_pos _)) _
      have arity : (Frame.parent ⟨head, room, built, later + 1⟩).arity
          = (Frame.parent ⟨head, room, t :: built, later⟩).arity := by
        simp only [Frame.parent, List.length_cons]
        omega
      rw [if_pos more, arity]
      rfl
    | zero =>
      have last : ¬ built.length + 1
          < (Frame.parent ⟨head, room, built, 0⟩).arity :=
        Nat.lt_irrefl _
      rw [if_neg last, completes]
      exact certain_bind_eq fun node => ih node

include decides completes in
/-- **One round of the outer loop is one step of the generation**, if the
decision fits. -/
theorem fill_step (h : plan.Levelled frames) (limit : ℕ) (s : State) :
    fill start finish (limit + 1) (frames.map Frame.parent) s
      = if fits (plan.start (plan.room frames) s).1 then
          goOn start finish limit (plan.step frames s) else none := by
  rw [fill, List.length_map, decides, ← h.room_eq, bind_assoc, certain_bind,
    step, Sampling.bind_apply]
  generalize plan.start (plan.room frames) s = taken
  obtain ⟨decision, s'⟩ := taken
  dsimp only
  split
  · next fit =>
    rw [given_eq fit, certain_bind]
    cases decision with
    | done t =>
      show (handOver finish t (frames.map Frame.parent) >>= _) s' = _
      rw [handOver_eq completes, certain_bind]
      show _ = goOn start finish limit (plan.settle t frames s')
      dsimp only [Functor.map, StateT.map]
      generalize plan.settle t frames s' = settled
      obtain ⟨_ | _, _⟩ := settled <;> rfl
    | opened head more =>
      have opened : Frame.parent ⟨head, plan.room frames - 1, [], more⟩
          = ⟨head, more + 1, []⟩ := by
        rw [Frame.parent, List.length_nil, Nat.zero_add, List.reverse_nil]
      refine congrArg (fill start finish limit · s') ?_
      rw [List.map_cons, opened]
  · next unfit => exact given_bind_of_not unfit _ _ _

end

section

variable {start : ℕ → Attempt Start}
  {finish : Symbol → List Term → Attempt Term}
  (completes : ∀ head ts, finish head ts = certain (plan.finish head ts))

include completes in
/-- **The loops come to the term that is generated**, after a number of
decisions that is no more than the load. -/
theorem fill_eq (decides : ∀ depth, start depth
      = certain (plan.start (plan.config.maxDepth - depth)))
    (h : plan.Levelled frames) (s : State) :
    ∃ starts ≤ plan.load frames, ∀ limit,
      fill start finish limit (frames.map Frame.parent) s
        = if starts ≤ limit then some (plan.grow frames s) else none := by
  have always : ∀ depth, start depth
      = certain (plan.start (plan.config.maxDepth - depth)) >>= fun decision =>
          given (true = true) decision := decides
  fun_induction plan.grow frames s with
  | case1 frames s t s' taken =>
    refine ⟨1, load_pos plan frames, fun limit => ?_⟩
    cases limit with
    | zero => rfl
    | succ limit =>
      rw [fill_step always completes h, taken, if_pos rfl,
        if_pos (Nat.le_add_left 1 limit)]
      rfl
  | case2 frames s left s' taken lowered ih =>
    obtain ⟨starts, bound, ends⟩ := ih (h.of_step taken)
    refine ⟨starts + 1, bound.trans_lt lowered, fun limit => ?_⟩
    cases limit with
    | zero => rfl
    | succ limit =>
      rw [fill_step always completes h, taken, if_pos rfl]
      simp only [Nat.add_le_add_iff_right]
      exact ends limit

end

/-! ## How many decisions there can be -/

/-- A full tree has a node at the top, and so many times more on each level
than on the one above. -/
theorem budget_eq_sum (k r : ℕ) :
    budget k r = ∑ d ∈ Finset.range (r + 1), k ^ d := by
  induction r with
  | zero => rfl
  | succ r ih =>
    rw [Finset.sum_range_succ', budget, ih, Finset.mul_sum, Nat.add_comm,
      pow_zero]
    exact congrArg (· + 1)
      (Finset.sum_congr rfl fun d _ => (pow_succ' k d).symm)

/-- **The greatest number of children of a former** is zero if there is no
former. -/
theorem maxArity_eq (plan : Plan) :
    plan.maxArity
      = (plan.formers.toList.map Former.arity).max?.getD 0 := by
  rw [maxArity, ← Array.foldl_toList]
  cases plan.formers.toList with
  | nil => rfl
  | cons f fs =>
    rw [List.map_cons, List.max?_cons', Option.getD_some, List.foldl_map,
      List.foldl_cons, Nat.zero_max]

end Plan

/-! ## Samples -/

/-- **The loops of a sampler end.** For any stream, pool and numbers left to
give out, there is a number of decisions after which the two loops come to
the sample and leave the sampler as it is left, and before which they do not.
It is no more than the number of nodes of a full tree of the depth that is
set, in which each head has as many children as any of the sampler's has. -/
theorem Sampler.loops_end (σ : Sampler) (supply : Supply) :
    ∃ starts ≤ ∑ d ∈ Finset.range (σ.plan.config.maxDepth + 1),
        (σ.plan.formers.toList.map Former.arity).max?.getD 0 ^ d,
      ∀ limit, σ.plan.loops limit (σ.state supply)
        = if starts ≤ limit then
            some ((σ.sample supply).1.1,
              (σ.sample supply).1.2.state (σ.sample supply).2)
          else none := by
  rw [← σ.plan.maxArity_eq, ← Plan.budget_eq_sum]
  have level : σ.plan.Levelled [] := trivial
  exact Plan.fill_eq (fun _ _ => rfl) (fun _ => rfl) level (σ.state supply)

end TermGraph
