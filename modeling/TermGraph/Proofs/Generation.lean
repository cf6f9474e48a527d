import TermGraph.Sampler.Generate

/-!
# Generation by recursion

A term is generated one decision at a time, with the heads that wait for
their children in a list. `Plan.generate` is the recursion that the list
stands for: a decision for a place, and if it opens a head, the terms for
the places below it from left to right and then the node over them.

The two take the same decisions in the same sequence. A place is generated
among the frames that wait around it, and what is done with the term
afterwards – it is handed to the innermost of them, which may become a term
in turn, and the generation goes on – is `Plan.deliver`. To generate with
frames around is to generate by recursion and to deliver
(`Plan.grow_eq_generate`); the frames are arbitrary there, and so they may
be those that the recursion itself has opened. Each of the children of a
head is one such step (`Plan.grow_frame`), by induction on the number of
children that are still to come.

All of this is said of the computations as they stand, for any state. So
nothing has to be known about what is drawn: the decisions are the same
because the states are.
-/

namespace TermGraph

namespace Sampling

variable {α : Type} {x : Sampling α} {R : State → α → State → Prop}

/-- **A computation a number of times**, with its results in order. -/
def times (x : Sampling α) : Nat → Sampling (List α)
  | 0 => return []
  | n + 1 => do
    let a ← x
    let as ← times x n
    return a :: as

/-- **Steps in a row**, each of which begins in the state where the one
before it ended. -/
inductive Along (R : State → α → State → Prop) : State → List α → State → Prop
  /-- No step at all. -/
  | nil (s : State) : Along R s [] s
  /-- One step and then others. -/
  | cons {s s₁ s₂ : State} {a : α} {as : List α} (first : R s a s₁)
      (rest : Along R s₁ as s₂) : Along R s (a :: as) s₂

/-- **What every step keeps, all of them keep**, and what each of them then
says of its result holds of all results. -/
theorem Along.keeps {I : State → Prop} {Q : α → Prop} {s s' : State}
    {as : List α} (h : Along R s as s')
    (step : ∀ {s a s'}, R s a s' → I s → Q a ∧ I s') (start : I s) :
    (∀ a ∈ as, Q a) ∧ I s' := by
  induction h with
  | nil s => exact ⟨List.forall_mem_nil _, start⟩
  | cons first rest ih =>
    obtain ⟨here, kept⟩ := step first start
    obtain ⟨others, kept⟩ := ih kept
    exact ⟨List.forall_mem_cons.mpr ⟨here, others⟩, kept⟩

/-- **A computation that is run a number of times** makes that many steps
in a row. -/
theorem along_times (h : ∀ s, R s (x s).1 (x s).2) (n : Nat) (s : State) :
    (x.times n s).1.length = n
      ∧ Along R s (x.times n s).1 (x.times n s).2 := by
  induction n generalizing s with
  | zero => exact ⟨rfl, .nil s⟩
  | succ n ih =>
    obtain ⟨counted, rest⟩ := ih (x s).2
    rw [times]
    simp only [bind_apply, pure_apply, List.length_cons]
    exact ⟨congrArg Nat.succ counted, .cons (h s) rest⟩

end Sampling

namespace Plan

variable {plan : Plan}

/-- **What follows a decision** in the recursion: nothing, if the term is
there; otherwise the children of the head that was opened, and the node
over them. -/
def complete (plan : Plan) (child : Sampling Term) : Start → Sampling Term
  | .done t => return t
  | .opened head more => do
    let children ← child.times (more + 1)
    plan.finish head children

/-- **The term for one place, by recursion**, with room for `room` levels
at and below it. -/
def generate (plan : Plan) (room : Nat) : Sampling Term := fun s =>
  match taken : plan.start room s with
  | (.done t, s) => (t, s)
  | (.opened head more, s) =>
    have _ := (of_start_eq_opened (congrArg Prod.fst taken)).1
    plan.complete (plan.generate (room - 1)) (.opened head more) s
termination_by room

theorem generate_eq (plan : Plan) (room : Nat) :
    plan.generate room
      = plan.start room >>= plan.complete (plan.generate (room - 1)) := by
  funext s
  rw [Sampling.bind_apply]
  fun_cases plan.generate room s with
  | case1 t s' taken =>
    rw [taken]
    rfl
  | case2 head more s' taken => rw [taken]

/-- **Induction over a generation**: over the terms a decision supplies, and
over the nodes whose children were generated one after another with one
level of room less. -/
theorem generate_induct {motive : Nat → State → Term → State → Prop}
    (done : ∀ {room s t s'}, plan.start room s = (.done t, s') →
      motive room s t s')
    (opened : ∀ {room s head more s₁ ts s₂}, plan.start (room + 1) s
        = (.opened head more, s₁) → ts.length = more + 1 →
      Sampling.Along (motive room) s₁ ts s₂ →
      motive (room + 1) s (plan.finish head ts s₂).1
        (plan.finish head ts s₂).2)
    (room : Nat) (s : State) :
    motive room s (plan.generate room s).1 (plan.generate room s).2 := by
  induction room generalizing s with
  | zero =>
    rw [generate_eq, Sampling.bind_apply]
    generalize hstart : plan.start 0 s = start
    obtain ⟨t | ⟨head, more⟩, s₁⟩ := start
    · exact done hstart
    · have room := (of_start_eq_opened (congrArg Prod.fst hstart)).1
      exact absurd room (Nat.lt_irrefl 0)
  | succ room ih =>
    rw [generate_eq, Sampling.bind_apply]
    generalize hstart : plan.start (room + 1) s = start
    obtain ⟨t | ⟨head, more⟩, s₁⟩ := start
    · exact done hstart
    · obtain ⟨counted, children⟩ := Sampling.along_times ih (more + 1) s₁
      exact opened hstart counted children

/-! ## With frames around -/

/-- What is left to do after a decision and what followed from it at
once. -/
def resume (plan : Plan) : Term ⊕ List Frame → Sampling Term
  | .inl t => return t
  | .inr left => plan.grow left

theorem grow_eq (plan : Plan) (frames : List Frame) :
    plan.grow frames = plan.step frames >>= plan.resume := by
  funext s
  rw [Sampling.bind_apply]
  fun_cases plan.grow frames s with
  | case1 t s' taken =>
    rw [taken]
    rfl
  | case2 left s' taken =>
    rw [taken]
    rfl

/-- **What is left to do once a term is there**: it is handed to the frames
that wait for it, and the generation goes on with those that still do. -/
def deliver (plan : Plan) (frames : List Frame) (t : Term) : Sampling Term :=
  plan.settle t frames >>= plan.resume

/-- **The children of a head that waits** are generated one after another,
if each place with their room is generated as the recursion does; then the
node is built over all of them and delivered in turn. -/
theorem grow_frame {room : Nat}
    (below : ∀ frames s, plan.room frames = room →
      plan.grow frames s
        = (plan.generate room >>= plan.deliver frames) s)
    (frames : List Frame) (head : Symbol) (built : List Term) (later : Nat)
    (s : State) :
    plan.grow (⟨head, room, built, later⟩ :: frames) s
      = ((plan.generate room).times (later + 1) >>= fun ts =>
          plan.finish head (built.reverse ++ ts) >>= plan.deliver frames)
        s := by
  induction later generalizing built s with
  | zero =>
    -- The child is the last one, and settling it builds the node.
    rw [below _ _ rfl]
    simp only [Sampling.times, Sampling.bind_apply, Sampling.pure_apply,
      deliver, settle, List.reverse_cons]
  | succ later ih =>
    -- Settling the child leaves the same frame with one child more.
    rw [below _ _ rfl, Sampling.times]
    simp only [Sampling.bind_apply, Sampling.pure_apply, deliver, settle]
    rw [resume, ih]
    simp only [Sampling.bind_apply, List.reverse_cons, List.append_assoc]
    rfl

/-- **With frames around it, a place is generated by recursion and the term
delivered.** -/
theorem grow_eq_generate (frames : List Frame) (s : State) :
    plan.grow frames s
      = (plan.generate (plan.room frames) >>= plan.deliver frames) s := by
  induction hroom : plan.room frames using Nat.strongRecOn
    generalizing frames s with
  | ind room ih =>
    subst hroom
    rw [grow_eq, generate_eq, step]
    simp only [Sampling.bind_apply]
    generalize hstart : plan.start (plan.room frames) s = start
    obtain ⟨t | ⟨head, more⟩, s₁⟩ := start
    · rfl
    · have positive := (of_start_eq_opened (congrArg Prod.fst hstart)).1
      exact grow_frame (ih _ (Nat.sub_lt positive Nat.one_pos))
        frames head [] more s₁

/-- Without frames around it, the term is not delivered anywhere. -/
theorem grow_nil_eq_generate (s : State) :
    plan.grow [] s = plan.generate plan.config.maxDepth s :=
  grow_eq_generate [] s

end Plan

namespace Sampler

/-- The state in which a sampler begins its next sample. -/
def state (σ : Sampler) (supply : Supply) : State :=
  ⟨σ.stream, σ.pool, supply⟩

variable (σ : Sampler) (supply : Supply)

/-- The next sample is a term generated with all the room there is. -/
theorem term_sample :
    (σ.sample supply).1.1
      = (σ.plan.generate σ.plan.config.maxDepth (σ.state supply)).1 := by
  rw [← Plan.grow_nil_eq_generate]
  rfl

/-- And what the generation leaves is what the sampler goes on with. -/
theorem state_sample :
    (σ.sample supply).1.2.state (σ.sample supply).2
      = (σ.plan.generate σ.plan.config.maxDepth (σ.state supply)).2 := by
  rw [← Plan.grow_nil_eq_generate]
  rfl

/-- **A sample is generated by recursion.** From any stream and pool and
with any numbers left to give out, the next sample of a sampler is the term
that the recursion generates with all the room there is, and the stream, the
pool and the numbers are left as the recursion leaves them. At a depth
below the top the recursion takes the decision for the place; where that
opens a head, it generates the children from left to right, one level
deeper, and builds the node over them, which is kept when they all have
been. -/
theorem sample_eq_generate :
    (∃ t s, σ.plan.generate σ.plan.config.maxDepth
          ⟨σ.stream, σ.pool, supply⟩ = (t, s)
        ∧ σ.sample supply
          = ((t, { σ with stream := s.stream, pool := s.pool }), s.supply))
      ∧ ∀ depth, σ.plan.generate (σ.plan.config.maxDepth - depth)
          = (do
            match ← σ.plan.start (σ.plan.config.maxDepth - depth) with
            | .done t => return t
            | .opened head more =>
              let deeper := σ.plan.config.maxDepth - (depth + 1)
              let children ← (σ.plan.generate deeper).times (more + 1)
              let t ← Sampling.build (Term.newNode head children)
              σ.plan.remember t
              return t) := by
  refine ⟨⟨_, _, rfl, ?_⟩, fun depth => ?_⟩
  · rw [sample, Plan.grow_nil_eq_generate]
    rfl
  · rw [Plan.generate_eq]
    refine congrArg (σ.plan.start _ >>= ·) (funext fun start => ?_)
    cases start with
    | done t => rfl
    | opened head more => rfl

end Sampler

end TermGraph
