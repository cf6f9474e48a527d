import TermGraph.Proofs.Decisions
import TermGraph.Proofs.Generation

/-!
# The limit to what memory can be asked for

A sampler at work asks for memory with each head it opens, and is stopped
where a head has more children than memory can be asked for. The limit has no
other part in a generation. One that is not stopped comes to what it would
come to without a limit (`Plan.grow?_eq_some_iff`), and it is stopped if and
only if one of its decisions opens a head with too many children
(`Plan.Stopped`, `Plan.grow?_eq_none_iff`), by induction on the decisions.

So a sampler all of whose heads fit is never stopped
(`Sampler.sample?_eq`, `Sampler.samples?_eq`), and what is said of its
samples is said of it at work.
-/

namespace TermGraph

/-- What does not fit is a head with too many children. -/
theorem Start.fits_eq_false_iff {start : Start} :
    start.fits = false ↔ ∃ head more, start = .opened head more
      ∧ Term.capacity < more + 1 := by
  constructor
  · intro unfit
    cases start with
    | done t => cases unfit
    | opened head more =>
      exact ⟨head, more, rfl, Nat.lt_of_not_le (of_decide_eq_false unfit)⟩
  · rintro ⟨head, more, rfl, much⟩
    exact decide_eq_false (Nat.not_le_of_lt much)

namespace Plan

variable {plan : Plan} {frames left : List Frame} {s s' : State}

/-- **A generation is stopped** on the way from some frames and a state, if a
decision opens a head with more children than memory can be asked for. -/
inductive Stopped (plan : Plan) : List Frame → State → Prop
  /-- The next decision does. -/
  | here {frames : List Frame} {s s' : State} {head : Symbol} {more : Nat}
      (opened : plan.start (plan.room frames) s = (.opened head more, s'))
      (much : Term.capacity < more + 1) : Stopped plan frames s
  /-- One that comes after it does. -/
  | later {frames left : List Frame} {s s' : State}
      (taken : plan.step frames s = (.inr left, s'))
      (rest : Stopped plan left s') : Stopped plan frames s

/-- A decision that does not fit stops the generation. -/
theorem stopped_of_unfit (h : (plan.start (plan.room frames) s).1.fits = false) :
    plan.Stopped frames s := by
  obtain ⟨head, more, opened, much⟩ := Start.fits_eq_false_iff.mp h
  exact .here (Prod.ext opened rfl) much

/-- So does a step that is not taken. -/
theorem stopped_of_step? (h : plan.step? frames s = none) :
    plan.Stopped frames s := by
  rw [step?_eq, ite_eq_right_iff] at h
  exact stopped_of_unfit
    (Bool.eq_false_iff.mpr fun fit => Option.some_ne_none _ (h fit))

/-- Where a step is taken, what stops the generation comes after it. -/
theorem stopped_iff_of_step? {r : (Term ⊕ List Frame) × State}
    (h : plan.step? frames s = some r) :
    plan.Stopped frames s
      ↔ ∃ left s', r = (.inr left, s') ∧ plan.Stopped left s' := by
  have step := step_eq_of_step? h
  constructor
  · intro stopped
    cases stopped with
    | here opened much =>
      have unfit := Start.fits_eq_false_iff.mpr
        ⟨_, _, congrArg Prod.fst opened, much⟩
      rw [step?_eq, unfit] at h
      cases h
    | later taken rest => exact ⟨_, _, step.symm.trans taken, rest⟩
  · rintro ⟨left, s', rfl, rest⟩
    exact .later step rest

/-- **When a generation comes to nothing**, by induction on its decisions. -/
theorem grow?_eq_none_iff :
    plan.grow? frames s = none ↔ plan.Stopped frames s := by
  fun_induction plan.grow? frames s with
  | case1 frames s stopped =>
    exact ⟨fun _ => stopped_of_step? stopped, fun _ => rfl⟩
  | case2 frames s t s' taken =>
    rw [stopped_iff_of_step? taken]
    refine ⟨nofun, ?_⟩
    rintro ⟨left, s'', whole, -⟩
    cases whole
  | case3 frames s left s' taken lowered ih =>
    rw [stopped_iff_of_step? taken, ih]
    refine ⟨fun rest => ⟨left, s', rfl, rest⟩, ?_⟩
    rintro ⟨left', s'', same, rest⟩
    cases same
    exact rest

/-- **What a generation comes to** is the same with the limit as without. -/
theorem grow_eq_of_grow? {r : Term × State}
    (h : plan.grow? frames s = some r) : plan.grow frames s = r := by
  fun_induction plan.grow? frames s with
  | case1 => cases h
  | case2 frames s t s' taken =>
    rw [grow_eq, Sampling.bind_apply, step_eq_of_step? taken]
    exact Option.some.inj h
  | case3 frames s left s' taken lowered ih =>
    rw [grow_eq, Sampling.bind_apply, step_eq_of_step? taken]
    exact ih h

theorem grow?_eq_some_iff {r : Term × State} :
    plan.grow? frames s = some r
      ↔ ¬ plan.Stopped frames s ∧ plan.grow frames s = r := by
  rw [← grow?_eq_none_iff]
  cases taken : plan.grow? frames s with
  | none => exact ⟨nofun, fun h => absurd rfl h.1⟩
  | some r' =>
    rw [grow_eq_of_grow? taken, Option.some.injEq]
    exact ⟨fun same => ⟨nofun, same⟩, And.right⟩

/-- **A plan fits into memory** if the children of each of its heads do. -/
def Fits (plan : Plan) : Prop :=
  ∀ f ∈ plan.formers, f.arity ≤ Term.capacity

/-- What fits is not stopped. -/
theorem Fits.not_stopped (h : plan.Fits) : ¬ plan.Stopped frames s := by
  intro stopped
  induction stopped with
  | here opened much => exact Nat.not_le_of_lt much (h _ (of_opened opened).2.1)
  | later _ _ ih => exact ih

end Plan

namespace Sampler

variable {σ : Sampler} {supply : Supply}

/-- A sample is what the generation comes to, with what the sampler goes on
with. -/
theorem sample?_eq_map (σ : Sampler) (supply : Supply) :
    σ.sample? supply = (σ.plan.grow? [] (σ.state supply)).map fun r =>
      ((r.1, { σ with stream := r.2.stream, pool := r.2.pool }),
        r.2.supply) := by
  show (σ.plan.grow? [] (σ.state supply)).bind _ = _
  cases σ.plan.grow? [] (σ.state supply) <;> rfl

/-- **Otherwise it takes its next sample.** -/
theorem sample?_eq_some_iff {r : (Term × Sampler) × Supply} :
    σ.sample? supply = some r
      ↔ ¬ σ.plan.Stopped [] (σ.state supply) ∧ σ.sample supply = r := by
  rw [sample?_eq_map, Option.map_eq_some_iff]
  constructor
  · rintro ⟨whole, taken, rfl⟩
    obtain ⟨going, rfl⟩ := Plan.grow?_eq_some_iff.mp taken
    exact ⟨going, rfl⟩
  · rintro ⟨going, rfl⟩
    exact ⟨_, Plan.grow?_eq_some_iff.mpr ⟨going, rfl⟩, rfl⟩

/-- **A sampler whose heads fit is not stopped.** -/
theorem sample?_eq (fits : σ.plan.Fits) (supply : Supply) :
    σ.sample? supply = some (σ.sample supply) :=
  sample?_eq_some_iff.mpr ⟨fits.not_stopped, rfl⟩

theorem samplesAfter_sample? (fits : σ.plan.Fits) (taken : List Term) (n : Nat)
    (supply : Supply) :
    samplesAfter sample? σ taken n supply
      = some (samplesAfter sample σ taken n supply) := by
  induction n generalizing σ taken supply with
  | zero => rfl
  | succ n ih =>
    show (σ.sample? supply).bind _ = _
    rw [sample?_eq fits]
    exact @ih (σ.sample supply).1.2 fits _ (σ.sample supply).2

/-- **Nor is it over several samples.** -/
theorem samples?_eq (fits : σ.plan.Fits) (n : Nat) (supply : Supply) :
    σ.samples? n supply = some (σ.samples n supply) :=
  samplesAfter_sample? fits [] n supply

end Sampler

end TermGraph
