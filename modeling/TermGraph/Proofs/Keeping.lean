import TermGraph.Proofs.Samples

/-!
# What a sampler keeps

Whatever a sampler finishes it keeps for reuse: a leaf, an atom, a node when
the last of its children is there. What it takes from its pool it does not
keep again. `Plan.kept` lists what one generation keeps, in the order in
which it does, and the list can be had from the decisions alone, because the
pool plays no part in it: a pool that is full gives up a term for each one
that comes, and a pool that holds nothing takes none.

Two things can be read off the list. Each term in it was built, and nothing
else was, so it is as long as there were serial numbers taken
(`Plan.next_generate`). And for as long as the pool has room it is what the
pool gains (`Plan.pool_generate`).

Samples need not follow each other at once. `Sampler.Takes` is a run of
samples with anything built before each of them, and lists what the sampler
keeps in all of it, which is what the pool has gained in the end if there was
room (`Sampler.Takes.toList_pool`).
-/

namespace TermGraph

namespace Sampling

variable {α β : Type}

/-- What a computation keeps that is run a number of times, where `log` is
what it keeps each time. -/
def keptInRow (x : Sampling α) (log : State → List β) : ℕ → State → List β
  | 0, _ => []
  | n + 1, s => log s ++ keptInRow x log n (x s).2

/-- If each time takes as many numbers as it keeps terms, then so do all. -/
theorem next_times {x : Sampling α} {log : State → List β}
    (h : ∀ s, (x s).2.supply.next = s.supply.next + (log s).length) (n : ℕ)
    (s : State) :
    (x.times n s).2.supply.next
      = s.supply.next + (keptInRow x log n s).length := by
  induction n generalizing s with
  | zero => rfl
  | succ n ih =>
    rw [keptInRow, List.length_append, ← Nat.add_assoc, ← h, ← ih]
    rfl

/-- If a pool with room gains each time what is kept, then it gains all of
it. -/
theorem pool_times {x : Sampling α} {log : State → List Term} {k n : ℕ}
    {s : State}
    (h : ∀ s, s.pool.size + (log s).length ≤ k →
      (x s).2.pool.toList = s.pool.toList ++ log s)
    (room : s.pool.size + (keptInRow x log n s).length ≤ k) :
    (x.times n s).2.pool.toList = s.pool.toList ++ keptInRow x log n s := by
  induction n generalizing s with
  | zero => exact (List.append_nil _).symm
  | succ n ih =>
    rw [keptInRow, List.length_append, ← Nat.add_assoc] at room
    have first := h s (Nat.le_of_add_right_le room)
    have size : (x s).2.pool.size = s.pool.size + (log s).length := by
      rw [← Array.length_toList, first, List.length_append,
        Array.length_toList]
    rw [keptInRow, ← List.append_assoc, ← first]
    exact ih (size ▸ room)

/-- A pool with room gains what is kept. -/
theorem remember_of_room {k : ℕ} {t : Term} {s : State}
    (room : s.pool.size < k) :
    remember k t s = ((), { s with pool := s.pool.push t }) :=
  if_pos room

/-- Reuse that never happens takes nothing. -/
theorem reused?_of_never {reuse : Binary .double} (h : reuse.Never)
    (s : State) : reused? reuse s = (none, s) := by
  rw [reused?, bind_apply]
  split
  · rw [Draw.chance_of_never h]
    rfl
  · rfl

theorem supply_reused? (reuse : Binary .double) (s : State) :
    (reused? reuse s).2.supply = s.supply := by
  rw [reused?, bind_apply]
  split
  · rw [bind_apply]
    split <;> rfl
  · rfl

end Sampling

/-! ## One decision -/

/-- The term a decision comes to, if it is one. -/
def Start.supplied : Start → List Term
  | .done t => [t]
  | .opened _ _ => []

namespace Plan

variable {plan : Plan} {room : ℕ} {s s' : State} {t : Term}

theorem supply_former? (plan : Plan) (room : ℕ) (s : State) :
    (plan.former? room s).2.supply = s.supply := by
  unfold former?
  split
  · rw [Sampling.bind_apply]
    split <;> rfl
  · rfl

/-- A node that is complete is built and then kept. -/
theorem finish_eq (plan : Plan) (head : Symbol) (ts : List Term) (s : State) :
    plan.finish head ts s
      = (.node s.supply.next head ts,
          (plan.remember (.node s.supply.next head ts)
            { s with supply := (Fresh.serial s.supply).2 }).2) := rfl

/-- **The decision for one place without reuse**: a leaf, an atom, or the head
of a term whose children come next. -/
def startNew (plan : Plan) (room : ℕ) : Sampling Start := do
  match ← plan.former? room with
  | none =>
    let t ← plan.newLeaf
    plan.remember t
    return .done t
  | some ⟨head, 0⟩ => return .done (← plan.finish head [])
  | some ⟨head, more + 1⟩ => return .opened head more

/-- A decision is made without reuse if nothing is reused. -/
theorem start_apply (plan : Plan) (room : ℕ) (s : State) :
    plan.start room s
      = match Sampling.reused? plan.config.reuse s with
        | (some t, s₁) => (.done t, s₁)
        | (none, s₁) => plan.startNew room s₁ := by
  rw [start, Sampling.bind_apply]
  generalize Sampling.reused? plan.config.reuse s = reused
  obtain ⟨_ | t, s₁⟩ := reused <;> rfl

/-- **What a decision keeps**: the term it comes to, unless that is one of the
pool. -/
def keptByStart (plan : Plan) (room : ℕ) (s : State) : List Term :=
  match Sampling.reused? plan.config.reuse s with
  | (some _, _) => []
  | (none, s₁) => (plan.startNew room s₁).1.supplied

/-- A head that is opened is not kept. -/
theorem keptByStart_of_opened {head : Symbol} {more : ℕ}
    (h : plan.start room s = (.opened head more, s')) :
    plan.keptByStart room s = [] := by
  rw [start_apply] at h
  rw [keptByStart]
  generalize Sampling.reused? plan.config.reuse s = reused at h ⊢
  obtain ⟨_ | t, s₁⟩ := reused
  · dsimp only at h ⊢
    rw [h]
    rfl
  · rfl

/-- **What a decision accounts for**: the term or the head it comes to, what
is left of pool and numbers, and what it keeps. -/
inductive Accounts (plan : Plan) (s : State) :
    Start → State → List Term → Prop
  /-- A term of the pool is not kept again. -/
  | reused {t : Term} {s' : State} (possible : ¬ plan.config.reuse.Never)
      (member : t ∈ s.pool) (pool : s'.pool = s.pool)
      (supply : s'.supply = s.supply) : Accounts plan s (.done t) s' []
  /-- A leaf or an atom is built and kept. -/
  | finished {t : Term} {s₁ : State} (serial : t.serial = s.supply.next)
      (childless : t.children = []) (pool : s₁.pool = s.pool)
      (supply : s₁.supply = (Fresh.serial s.supply).2) :
      Accounts plan s (.done t) (plan.remember t s₁).2 [t]
  /-- A head that is opened is not there yet. -/
  | opened {head : Symbol} {more : ℕ} {s' : State} (pool : s'.pool = s.pool)
      (supply : s'.supply = s.supply) :
      Accounts plan s (.opened head more) s' []

/-- Without reuse a decision accounts for what it does. -/
theorem accounts_startNew (plan : Plan) (room : ℕ) (pool : s'.pool = s.pool)
    (supply : s'.supply = s.supply) :
    plan.Accounts s (plan.startNew room s').1 (plan.startNew room s').2
      (plan.startNew room s').1.supplied := by
  rw [startNew, Sampling.bind_apply]
  have pool₁ := (plan.of_former? room s').1.trans pool
  have supply₁ := (plan.supply_former? room s').trans supply
  generalize plan.former? room s' = former at pool₁ supply₁
  obtain ⟨_ | ⟨head, _ | more⟩, s₁⟩ := former
  · exact .finished (congrArg Supply.next supply₁) rfl pool₁
      (congrArg (fun u => (Fresh.serial u).2) supply₁)
  · exact .finished (congrArg Supply.next supply₁) rfl pool₁
      (congrArg (fun u => (Fresh.serial u).2) supply₁)
  · exact .opened pool₁ supply₁

/-- **Every decision accounts for what it does.** -/
theorem accounts_start (plan : Plan) (room : ℕ) (s : State) :
    plan.Accounts s (plan.start room s).1 (plan.start room s).2
      (plan.keptByStart room s) := by
  rw [keptByStart, start_apply]
  obtain ⟨pool, taken⟩ := Sampling.of_reused? plan.config.reuse s
  have supply := Sampling.supply_reused? plan.config.reuse s
  generalize Sampling.reused? plan.config.reuse s = reused at *
  obtain ⟨_ | t, s₁⟩ := reused
  · exact plan.accounts_startNew room pool supply
  · obtain ⟨member, possible⟩ := taken t rfl
    exact .reused possible member pool supply

/-! ## A generation -/

/-- **What a generation keeps**, in order. Without room nothing is opened. A
node is kept behind all that its children keep. -/
def kept (plan : Plan) : ℕ → State → List Term
  | 0, s => plan.keptByStart 0 s
  | room + 1, s =>
    match plan.start (room + 1) s with
    | (.done _, _) => plan.keptByStart (room + 1) s
    | (.opened _ more, s₁) =>
      Sampling.keptInRow (plan.generate room) (plan.kept room) (more + 1) s₁
        ++ [(plan.generate (room + 1) s).1]

/-- A decision that supplies a term keeps what the generation does. -/
theorem kept_of_done (h : plan.start room s = (.done t, s')) :
    plan.generate room s = (t, s')
      ∧ plan.kept room s = plan.keptByStart room s := by
  refine ⟨?_, ?_⟩
  · rw [generate_eq, Sampling.bind_apply, h]
    rfl
  · cases room with
    | zero => rfl
    | succ room => rw [kept, h]

/-- **A head that was opened** keeps what its children keep, and then the
node. -/
theorem kept_of_opened {head : Symbol} {more : ℕ}
    (h : plan.start (room + 1) s = (.opened head more, s')) :
    let children := (plan.generate room).times (more + 1) s'
    plan.generate (room + 1) s = plan.finish head children.1 children.2
      ∧ plan.kept (room + 1) s
          = Sampling.keptInRow (plan.generate room) (plan.kept room)
              (more + 1) s'
            ++ [(plan.finish head children.1 children.2).1] := by
  have made : plan.generate (room + 1) s
      = (plan.complete (plan.generate room) (.opened head more)) s' := by
    rw [generate_eq, Sampling.bind_apply, h]
    rfl
  refine ⟨made, ?_⟩
  rw [kept, h, made]
  rfl

/-- **Induction over what a generation keeps**: over the decisions that supply
a term, and over the nodes whose children were generated in a row. -/
theorem kept_induct {motive : ℕ → State → Term × State → List Term → Prop}
    (done : ∀ {room s t s'}, plan.start room s = (.done t, s') →
      plan.Accounts s (.done t) s' (plan.keptByStart room s) →
      motive room s (t, s') (plan.keptByStart room s))
    (opened : ∀ {room s head more s₁},
      plan.start (room + 1) s = (.opened head more, s₁) →
      s₁.pool = s.pool → s₁.supply = s.supply →
      (∀ s, motive room s (plan.generate room s) (plan.kept room s)) →
      let children := (plan.generate room).times (more + 1) s₁
      motive (room + 1) s (plan.finish head children.1 children.2)
        (Sampling.keptInRow (plan.generate room) (plan.kept room) (more + 1) s₁
          ++ [(plan.finish head children.1 children.2).1]))
    (room : ℕ) (s : State) :
    motive room s (plan.generate room s) (plan.kept room s) := by
  -- A decision that supplies a term is the same at every level.
  have supplied : ∀ {room s t s'}, plan.start room s = (.done t, s') →
      motive room s (plan.generate room s) (plan.kept room s) := by
    intro room s t s' h
    have account := plan.accounts_start room s
    obtain ⟨made, keeps⟩ := kept_of_done h
    rw [h] at account
    rw [made, keeps]
    exact done h account
  induction room generalizing s with
  | zero =>
    generalize h : plan.start 0 s = start
    obtain ⟨t | ⟨head, more⟩, s₁⟩ := start
    · exact supplied h
    · exact absurd (of_opened h).1 (Nat.lt_irrefl 0)
  | succ room ih =>
    generalize h : plan.start (room + 1) s = start
    obtain ⟨t | ⟨head, more⟩, s₁⟩ := start
    · exact supplied h
    · have account := plan.accounts_start (room + 1) s
      obtain ⟨made, keeps⟩ := kept_of_opened h
      rw [h] at account
      rw [made, keeps]
      generalize plan.keptByStart (room + 1) s = ts at account
      cases account with
      | opened pool supply => exact opened h pool supply ih

theorem next_finish (plan : Plan) (head : Symbol) (ts : List Term)
    (s : State) :
    (plan.finish head ts s).2.supply.next = s.supply.next + 1 := by
  rw [finish_eq]
  exact congrArg Supply.next (Sampling.supply_remember _ _ _)

/-- **Each term that is kept took a number**, and no other did. -/
theorem next_generate (plan : Plan) (room : ℕ) (s : State) :
    (plan.generate room s).2.supply.next
      = s.supply.next + (plan.kept room s).length := by
  refine kept_induct (motive := fun _ s made ts =>
    made.2.supply.next = s.supply.next + ts.length) ?_ ?_ room s
  · intro room s t s' _ account
    generalize plan.keptByStart room s = ts at account ⊢
    cases account with
    | reused _ _ _ supply => exact congrArg Supply.next supply
    | @finished t s₁ _ _ _ supply =>
      exact congrArg Supply.next
        ((Sampling.supply_remember _ t s₁).trans supply)
  · intro room s head more s₁ _ _ supply ih children
    rw [next_finish, Sampling.next_times ih, List.length_append, supply]
    rfl

/-- **A pool with room gains what is kept.** -/
theorem pool_generate (room : ℕ) (s : State)
    (h : s.pool.size + (plan.kept room s).length ≤ plan.config.poolSize) :
    (plan.generate room s).2.pool.toList
      = s.pool.toList ++ plan.kept room s := by
  refine kept_induct (motive := fun _ s made ts =>
    s.pool.size + ts.length ≤ plan.config.poolSize →
      made.2.pool.toList = s.pool.toList ++ ts) ?_ ?_ room s h
  · intro room s t s' _ account h
    generalize plan.keptByStart room s = ts at account h ⊢
    cases account with
    | reused _ _ pool _ => rw [pool, List.append_nil]
    | @finished t s₁ _ _ pool _ =>
      rw [remember, Sampling.remember_of_room (pool ▸ h), Array.toList_push,
        pool]
  · intro room s head more s₁ _ pool _ ih children h
    rw [List.length_append, ← Nat.add_assoc, ← pool] at h
    have below := Sampling.pool_times ih (Nat.le_of_succ_le h)
    rw [finish_eq, remember, Sampling.remember_of_room, Array.toList_push]
    · rw [← List.append_assoc, ← pool, ← below]
    · rw [← Array.length_toList, below, List.length_append]
      exact h

end Plan

/-! ## Samples in succession -/

namespace Sampler

/-- **What a sampler keeps of its next sample.** -/
def kept (σ : Sampler) (supply : Supply) : List Term :=
  σ.plan.kept σ.plan.config.maxDepth (σ.state supply)

/-- **Samples in succession**, with anything built before each of them: the
numbers left to give out are then some of those that were. Listed are the
samples and what the sampler keeps. -/
inductive Takes : Sampler → Supply → List Term → List Term → Sampler → Prop
  /-- No sample is taken. -/
  | none (σ : Sampler) (supply : Supply) : Takes σ supply [] [] σ
  /-- A sample is taken, and then others. -/
  | sampled {σ τ : Sampler} {supply later : Supply} {ts kept : List Term}
      (onward : supply.next ≤ later.next)
      (rest : Takes (σ.sample later).1.2 (σ.sample later).2 ts kept τ) :
      Takes σ supply ((σ.sample later).1.1 :: ts) (σ.kept later ++ kept) τ

variable {σ τ : Sampler} {supply : Supply} {ts kept : List Term}

/-- **As long as there is room, the pool gains what the sampler keeps.** -/
theorem Takes.toList_pool (run : σ.Takes supply ts kept τ)
    (room : σ.pool.size + kept.length ≤ σ.plan.config.poolSize) :
    τ.pool.toList = σ.pool.toList ++ kept := by
  induction run with
  | none => exact (List.append_nil _).symm
  | @sampled σ τ supply later ts kept _ _ ih =>
    rw [List.length_append, ← Nat.add_assoc] at room
    have here := Plan.pool_generate σ.plan.config.maxDepth (σ.state later)
      (Nat.le_of_add_right_le room)
    rw [← state_sample] at here
    have size : (σ.sample later).1.2.pool.size
        = σ.pool.size + (σ.kept later).length := by
      rw [← Array.length_toList, ← Array.length_toList, ← List.length_append]
      exact congrArg List.length here
    rw [ih (size ▸ room), ← List.append_assoc]
    exact congrArg (· ++ kept) here

end Sampler

end TermGraph
