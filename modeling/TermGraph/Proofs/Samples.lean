import TermGraph.Proofs.Generation
import TermGraph.Proofs.SampledTerms

/-!
# Several samples

A sampler generates one term after another, each with all the room there
is, and its stream, its pool and the numbers left to give out are passed on
from one to the next. So its samples are the results of one computation
that is run a number of times (`Sampler.firstSamples_eq_times`), and what a
generation keeps is kept by all of them.

The first samples are the same whether or not others follow
(`Sampler.prefix_firstSamples`). All of them live in one heap, and with
them whatever they share (`Sampler.grows_firstSamples`).

Between two samples other terms may be built, and then the numbers left to
give out are not those the first of them left. `Sampler.Later` is the
sampler after any number of samples with anything in between. Its plan is
the one it was set up with, and its pool is as generations leave it
(`Sampler.Later.keeps`).
-/

namespace TermGraph

namespace Sampling

variable {α : Type} {x : Sampling α} {p : Rule} {H : Heap} {s : State}
  {m n : ℕ}

/-- **The first results are the same** whether or not the computation is run
again. -/
theorem prefix_times (x : Sampling α) (h : m ≤ n) (s : State) :
    (x.times m s).1 <+: (x.times n s).1 := by
  induction m generalizing n s with
  | zero => exact List.nil_prefix
  | succ m ih =>
    cases n with
    | zero => cases h
    | succ n =>
      exact List.prefix_cons_inj _ |>.mpr (ih (Nat.le_of_succ_le_succ h) _)

/-- **Terms made one after another are made in one heap.** -/
theorem ends_times {x : Sampling Term}
    (hx : ∀ {s H}, s.In H → Ends p x s H fun t H' => t ∈ H') (n : ℕ)
    (hs : s.In H) :
    Ends p (x.times n) s H fun ts H' => ∀ t ∈ ts, t ∈ H' := by
  induction n generalizing s H with
  | zero => exact ends_pure hs (List.forall_mem_nil _)
  | succ n ih =>
    refine ends_bind (hx hs) fun t s₁ H₁ _ home₁ here => ?_
    refine ends_bind (ih home₁) fun ts s₂ H₂ grows₂ home₂ others => ?_
    exact ends_pure home₂ (List.forall_mem_cons.mpr ⟨grows₂.mem here, others⟩)

end Sampling

/-- A term generated with all the room there is, is made in the heap. -/
theorem Plan.ends_generate {plan : Plan} {p : Rule} {H : Heap} {s : State}
    (follows : plan.Follows p) (hs : s.In H) :
    Sampling.Ends p (plan.generate plan.config.maxDepth) s H
      fun t H' => t ∈ H' := by
  rw [Sampling.Ends, ← grow_nil_eq_generate]
  exact ends_grow follows hs (List.forall_mem_nil _)

namespace Sampler

variable {σ : Sampler} {p : Rule} {H : Heap} {m n : ℕ}

/-- **The first samples** of a sampler, in the order they are taken. -/
def firstSamples (σ : Sampler) (supply : Supply) (n : ℕ) : List Term :=
  (σ.samples n supply).1.1

theorem samplesAfter_eq (taken : List Term) (n : ℕ) (supply : Supply) :
    (samplesAfter sample σ taken n supply).1.1
      = taken.reverse
        ++ ((σ.plan.generate σ.plan.config.maxDepth).times n
            (σ.state supply)).1 := by
  induction n generalizing σ taken supply with
  | zero => exact (List.append_nil _).symm
  | succ n ih =>
    rw [Sampling.times]
    simp only [Sampling.bind_apply, Sampling.pure_apply]
    rw [← σ.state_sample supply, ← σ.term_sample supply, List.append_cons,
      ← List.reverse_cons]
    exact ih _ _

/-- **Samples are terms generated one after another.** -/
theorem firstSamples_eq_times (σ : Sampler) (supply : Supply) (n : ℕ) :
    σ.firstSamples supply n
      = ((σ.plan.generate σ.plan.config.maxDepth).times n
          (σ.state supply)).1 :=
  samplesAfter_eq [] n supply

/-- **Samples that follow change nothing about the first ones.** -/
theorem prefix_firstSamples (σ : Sampler) (supply : Supply) (h : m ≤ n) :
    σ.firstSamples supply m <+: σ.firstSamples supply n := by
  rw [firstSamples_eq_times, firstSamples_eq_times]
  exact Sampling.prefix_times _ h _

@[simp] theorem length_firstSamples (σ : Sampler) (supply : Supply) (n : ℕ) :
    (σ.firstSamples supply n).length = n := by
  rw [firstSamples_eq_times]
  exact (Sampling.along_times (R := fun _ _ _ => True) (fun _ => trivial) n
    (σ.state supply)).1

/-- A sample is among the first ones up to its place. -/
theorem mem_firstSamples_succ {supply : Supply} {i : ℕ} {t : Term}
    (h : (σ.firstSamples supply n)[i]? = some t) :
    t ∈ σ.firstSamples supply (i + 1) := by
  obtain ⟨inside, here⟩ := List.getElem?_eq_some_iff.mp h
  rw [length_firstSamples] at inside
  have first := List.prefix_iff_getElem?.mp
    (σ.prefix_firstSamples supply (Nat.succ_le_of_lt inside)) i
    (by rw [length_firstSamples]; exact Nat.lt_succ_self i)
  rw [h, Option.some.injEq] at first
  exact first ▸ List.getElem_mem _

/-- **The samples of a run are made in one heap.** -/
theorem grows_firstSamples (h : σ.In p H) (n : ℕ) :
    ∃ H' : Heap, H.Grows p H' ∧ ∀ t ∈ σ.firstSamples H.supply n, t ∈ H' := by
  rw [firstSamples_eq_times]
  have home : (σ.state H.supply).In H := ⟨rfl, h.pool⟩
  obtain ⟨H', grows, -, made⟩ :=
    Sampling.ends_times (Plan.ends_generate h.follows) n home
  exact ⟨H', grows, made⟩

/-! ## With anything in between -/

/-- **A sampler later on**: after some samples, whatever was built before
each of them. -/
inductive Later (σ : Sampler) : Sampler → Prop
  /-- No sample was taken. -/
  | now : Later σ σ
  /-- One sample more was taken. -/
  | sampled {τ : Sampler} (before : Later σ τ) (supply : Supply) :
      Later σ (τ.sample supply).1.2

/-- **The plan stays the same.** -/
theorem Later.plan_eq {τ : Sampler} (h : σ.Later τ) : τ.plan = σ.plan := by
  induction h with
  | now => rfl
  | sampled _ _ ih => exact ih

/-- **What a generation keeps of the pool, samples keep.** -/
theorem Later.keeps {τ : Sampler} {I : Array Term → Prop} (h : σ.Later τ)
    (step : ∀ s, I s.pool →
      I (σ.plan.generate σ.plan.config.maxDepth s).2.pool)
    (start : I σ.pool) : I τ.pool := by
  induction h with
  | now => exact start
  | @sampled τ before supply ih =>
    have left : (τ.sample supply).1.2.pool
        = (σ.plan.generate σ.plan.config.maxDepth (τ.state supply)).2.pool := by
      rw [← before.plan_eq]
      exact congrArg State.pool (τ.state_sample supply)
    rw [left]
    exact step _ ih

end Sampler

end TermGraph
