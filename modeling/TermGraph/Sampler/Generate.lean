import TermGraph.Sampler.Basic

/-!
# Generating a term

A term is generated place by place. Where a head is chosen, its children
come next, and the head waits as a `Frame` until they are all there; the
frames of the heads that wait are kept in a list, the innermost first.
A finished term goes to the innermost frame, and if it is the last child
that frame waited for, the frame becomes a term in turn.

How deep a place lies is not stored but read off the frames: each knows
how much room is left below its head, and a place without a frame around
it has all of it.

`Plan.grow` generates as if there were no limit to what memory can be asked
for. A sampler at work asks for memory with each head it opens, and is
stopped where there is not so much (`Plan.grow?`). The steps are the same,
and so is what they come to, as long as the sampler is not stopped.

The generation ends because a place with room `r` takes at most
`budget r` decisions, as many as a full tree of that height has nodes
when every head has the greatest number of children there is. `load`
adds this up over all places still to be filled, and every decision
lowers it.
-/

namespace TermGraph

/-- **A head that waits for its children.** The next child is being
generated. -/
structure Frame where
  /-- The head. -/
  head : Symbol
  /-- The room each child has. -/
  room : Nat
  /-- The children that are there, the last one first. -/
  built : List Term
  /-- The number of children to come after the next. -/
  later : Nat

namespace Plan

/-- The greatest number of children of a former. -/
def maxArity (plan : Plan) : Nat :=
  plan.formers.foldl (fun k f => max k f.arity) 0

/-- The room of the place to be filled next. -/
def room (plan : Plan) : List Frame → Nat
  | [] => plan.config.maxDepth
  | f :: _ => f.room

/-- **Hands a finished term to the frames that wait for it.** The result
is the whole term, or the frames that still wait. -/
def settle (plan : Plan) : Term → List Frame → Sampling (Term ⊕ List Frame)
  | t, [] => return .inl t
  | t, f :: fs =>
    match f.later with
    | later + 1 =>
      return .inr ({ f with built := t :: f.built, later } :: fs)
    | 0 => do
      let node ← plan.finish f.head (t :: f.built).reverse
      plan.settle node fs

/-- **What follows from a decision at once**: a term is handed to the frames
that wait, and a head begins to wait itself. -/
def advance (plan : Plan) (frames : List Frame) :
    Start → Sampling (Term ⊕ List Frame)
  | .done t => plan.settle t frames
  | .opened head later =>
    return .inr (⟨head, plan.room frames - 1, [], later⟩ :: frames)

/-- **One decision**, for the place to be filled next, and what follows
from it at once. -/
def step (plan : Plan) (frames : List Frame) :
    Sampling (Term ⊕ List Frame) := do
  plan.advance frames (← plan.start (plan.room frames))

/-- **One decision, if it fits into memory.** A head that has too many
children stops the sampler. -/
def step? (plan : Plan) (frames : List Frame) (s : State) :
    Option ((Term ⊕ List Frame) × State) :=
  let (start, s) := plan.start (plan.room frames) s
  if start.fits then some (plan.advance frames start s) else none

/-- The decisions that fit are the decisions. -/
theorem step?_eq (plan : Plan) (frames : List Frame) (s : State) :
    plan.step? frames s
      = if (plan.start (plan.room frames) s).1.fits then
          some (plan.step frames s) else none := rfl

theorem step_eq_of_step? {plan : Plan} {frames : List Frame} {s : State}
    {r : (Term ⊕ List Frame) × State} (h : plan.step? frames s = some r) :
    plan.step frames s = r := by
  rw [step?_eq] at h
  split at h
  · exact Option.some.inj h
  · cases h

/-! ## Why it ends -/

/-- The number of nodes of a full tree of height `r` in which every inner
node has `k` children. -/
def budget (k : Nat) : Nat → Nat
  | 0 => 1
  | r + 1 => 1 + k * budget k r

theorem budget_pos (k r : Nat) : 0 < budget k r := by
  cases r with
  | zero => exact Nat.one_pos
  | succ r => exact Nat.add_pos_left Nat.one_pos _

/-- The decisions left for the children to come after the next. -/
def backlog (plan : Plan) : List Frame → Nat
  | [] => 0
  | f :: fs => f.later * budget plan.maxArity f.room + plan.backlog fs

/-- **The decisions left at most**, with the next place counted. -/
def load (plan : Plan) (frames : List Frame) : Nat :=
  budget plan.maxArity (plan.room frames) + plan.backlog frames

/-- Frames that are left after a term was handed over have no more before
them than the backlog there was. -/
theorem load_le_backlog_of_settle {plan : Plan} {t : Term}
    {frames left : List Frame} {s : State}
    (h : (plan.settle t frames s).1 = .inr left) :
    plan.load left ≤ plan.backlog frames := by
  induction frames generalizing t s with
  | nil => cases h
  | cons f fs ih =>
    obtain ⟨head, room, built, later⟩ := f
    cases later with
    | succ later =>
      cases h
      simp only [load, Plan.room, backlog, Nat.succ_mul]
      omega
    | zero =>
      refine Nat.le_trans (ih h) ?_
      simp only [backlog]
      omega

theorem arity_le_maxArity {plan : Plan} {f : Former} (h : f ∈ plan.formers) :
    f.arity ≤ plan.maxArity := by
  rw [maxArity, ← Array.foldl_toList]
  rw [← Array.mem_toList_iff] at h
  generalize plan.formers.toList = l at h
  suffices key : ∀ (l : List Former) (k : Nat),
      k ≤ l.foldl (fun k f => max k f.arity) k ∧
        ∀ g ∈ l, g.arity ≤ l.foldl (fun k f => max k f.arity) k from
    (key l 0).2 f h
  intro l
  induction l with
  | nil => simp
  | cons g l ih =>
    intro k
    have ⟨start_le, mem_le⟩ := ih (max k g.arity)
    rw [List.foldl_cons]
    refine ⟨Nat.le_trans (Nat.le_max_left _ _) start_le, fun f hf => ?_⟩
    rcases List.mem_cons.mp hf with rfl | hf
    · exact Nat.le_trans (Nat.le_max_right _ _) start_le
    · exact mem_le f hf

/-- A former that was chosen is one of the plan's, and there is room for
its head. -/
theorem of_former?_eq_some {plan : Plan} {room : Nat} {f : Former}
    {s : State} (h : (plan.former? room s).1 = some f) :
    0 < room ∧ f ∈ plan.formers := by
  unfold former? at h
  split at h
  · next choice =>
    simp only [Sampling.bind_apply] at h
    split at h
    · cases h
    · cases h
      exact ⟨choice.2, Array.getElem_mem _⟩
  · cases h

/-- A head that waits for children had room, and waits for no more of
them than any former asks for. -/
theorem of_start_eq_opened {plan : Plan} {room more : Nat} {head : Symbol}
    {s : State} (h : (plan.start room s).1 = .opened head more) :
    0 < room ∧ more < plan.maxArity := by
  rw [start, Sampling.bind_apply] at h
  generalize (Sampling.reused? plan.config.reuse s) = taken at h
  obtain ⟨_ | t, s'⟩ := taken
  · dsimp only at h
    rw [Sampling.bind_apply] at h
    generalize hchosen : plan.former? room s' = chosen at h
    obtain ⟨_ | ⟨head', arity⟩, s''⟩ := chosen
    · cases h
    · cases arity with
      | zero => cases h
      | succ arity =>
        cases h
        have ⟨hroom, hmem⟩ := of_former?_eq_some (congrArg Prod.fst hchosen)
        exact ⟨hroom, arity_le_maxArity hmem⟩
  · cases h

/-- **Every decision lowers the load.** -/
theorem load_lt_of_step {plan : Plan} {frames left : List Frame} {s : State}
    (h : (plan.step frames s).1 = .inr left) :
    plan.load left < plan.load frames := by
  rw [step, Sampling.bind_apply] at h
  generalize hstart : plan.start (plan.room frames) s = start at h
  obtain ⟨t | ⟨head, later⟩, s'⟩ := start
  · have := load_le_backlog_of_settle h
    have := budget_pos plan.maxArity (plan.room frames)
    simp only [load] at *
    omega
  · have ⟨hroom, hlt⟩ := of_start_eq_opened (congrArg Prod.fst hstart)
    cases h
    obtain ⟨r, hr⟩ := Nat.exists_eq_succ_of_ne_zero (Nat.ne_of_gt hroom)
    have hle : (later + 1) * budget plan.maxArity r
        ≤ plan.maxArity * budget plan.maxArity r :=
      Nat.mul_le_mul_right _ hlt
    rw [Nat.succ_mul] at hle
    show budget plan.maxArity (plan.room frames - 1)
        + (later * budget plan.maxArity (plan.room frames - 1)
          + plan.backlog frames)
      < budget plan.maxArity (plan.room frames) + plan.backlog frames
    rw [hr, Nat.succ_eq_add_one, Nat.add_sub_cancel, budget]
    omega

/-- **Decisions until the term is whole.** -/
def grow (plan : Plan) (frames : List Frame) (s : State) : Term × State :=
  match taken : plan.step frames s with
  | (.inl t, s) => (t, s)
  | (.inr left, s) =>
    have _ := load_lt_of_step (congrArg Prod.fst taken)
    plan.grow left s
termination_by plan.load frames

theorem load_lt_of_step? {plan : Plan} {frames left : List Frame}
    {s s' : State} (h : plan.step? frames s = some (.inr left, s')) :
    plan.load left < plan.load frames :=
  load_lt_of_step (congrArg Prod.fst (step_eq_of_step? h))

/-- **Decisions until the term is whole**, as long as each of them fits into
memory. -/
def grow? (plan : Plan) (frames : List Frame) (s : State) :
    Option (Term × State) :=
  match taken : plan.step? frames s with
  | none => none
  | some (.inl t, s) => some (t, s)
  | some (.inr left, s) =>
    have _ := load_lt_of_step? taken
    plan.grow? left s
termination_by plan.load frames

end Plan

/-! ## Samplers -/

/-- **A sampler**: its plan, its place in the stream and its pool. -/
structure Sampler where
  /-- What it was set up with. -/
  plan : Plan
  /-- The place in the stream of random words. -/
  stream : Keystream
  /-- The terms kept for reuse. -/
  pool : Array Term

namespace Sampler

/-- A new sampler over formers that are already there. The pool is empty:
memory for what it will hold is asked for before, in `ofSeed?`. -/
def ofFormers (seed : UInt64) (formers : List Former) (config : Config) :
    Sampler where
  plan := ⟨formers.toArray, config⟩
  stream := .ofSeed seed
  pool := #[]

/-- **A new sampler over symbols of a table.** -/
def ofSeed (seed : UInt64) (table : SymbolTable) (symbols : List Symbol)
    (config : Config) : Except TermError Sampler := do
  return ofFormers seed (← table.formers symbols) config

/-- **A new sampler, if there is memory for its pool**, which is asked for
all of the pool when the symbols have been accepted. Where there is not so
much, the program stops. -/
def ofSeed? (seed : UInt64) (table : SymbolTable) (symbols : List Symbol)
    (config : Config) : Option (Except TermError Sampler) :=
  match ofSeed seed table symbols config with
  | .error e => some (.error e)
  | .ok sampler =>
    if config.poolSize ≤ Term.capacity then some (.ok sampler) else none

/-- **The next sample.** -/
def sample (sampler : Sampler) : Fresh (Term × Sampler) := fun supply =>
  let (t, s) := sampler.plan.grow [] ⟨sampler.stream, sampler.pool, supply⟩
  ((t, { sampler with stream := s.stream, pool := s.pool }), s.supply)

/-- **The next sample, if it fits into memory.** Where it does not, the
program stops. -/
def sample? (sampler : Sampler) : StateT Supply Option (Term × Sampler) :=
  fun supply => do
    let (t, s) ←
      sampler.plan.grow? [] ⟨sampler.stream, sampler.pool, supply⟩
    return ((t, { sampler with stream := s.stream, pool := s.pool }), s.supply)

section

variable {m : Type → Type} [Monad m] (next : Sampler → m (Term × Sampler))

/-- Several samples behind those already taken, the last of which comes
first; `next` is how one of them is taken. -/
def samplesAfter (sampler : Sampler) (taken : List Term) :
    Nat → m (List Term × Sampler)
  | 0 => return (taken.reverse, sampler)
  | count + 1 => do
    let (t, sampler) ← next sampler
    samplesAfter sampler (t :: taken) count

end

/-- **Several samples**, in the order they are taken. -/
def samples (sampler : Sampler) (count : Nat) :
    Fresh (List Term × Sampler) :=
  samplesAfter sample sampler [] count

/-- **Several samples, if all of them fit into memory.** -/
def samples? (sampler : Sampler) (count : Nat) :
    StateT Supply Option (List Term × Sampler) :=
  samplesAfter sample? sampler [] count

end Sampler

end TermGraph
