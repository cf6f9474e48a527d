import TermGraph.Proofs.Ingredients
import TermGraph.Proofs.Keeping
import TermGraph.Proofs.Nesting
import TermGraph.Proofs.Places
import TermGraph.Proofs.Saving

/-!
# Samples that share nothing

Where nothing is reused, every part of a sample is built for its place, and
so no instance stands at two places, neither of one sample nor of two. What
is kept in the pool makes no difference, because nothing comes out of it.

What is generated takes the numbers that come next, children before their
node, so the numbers of the children of a head lie in stretches one behind
the other and that of the head behind them all. `Term.NewIn` says so of terms
and of the two ends of the stretch they take up, and terms new in stretches
that follow each other are new in both together (`Term.NewIn.append`). This
carries over from the children of a head to the samples of a run, whatever is
built between them.

Terms without an instance in common are passed over nowhere when they are
compared.
-/

namespace TermGraph

namespace Term

/-- Terms without a number in common have no instance in common. -/
theorem apart_of_disjoint {t u : Term} (h : List.Disjoint t.serials u.serials) :
    t.Apart u := by
  intro x y hx hy
  refine beq_eq_false_iff_ne.mpr fun same => ?_
  exact h hx.serial_mem (same ▸ hy.serial_mem)

/-- **Where no number stands at two places**, two terms of a list have none in
common. -/
theorem disjoint_of_nodup {ts : List Term} {i j : ℕ} {t u : Term}
    (h : (serialsAll ts).Nodup) (hij : i ≠ j) (ht : ts[i]? = some t)
    (hu : ts[j]? = some u) : List.Disjoint t.serials u.serials := by
  rw [serialsAll_eq_flatten, List.Nodup, List.pairwise_flatten,
    List.pairwise_map] at h
  have apart := List.pairwise_iff_getElem.mp h.2
  obtain ⟨hi, rfl⟩ := List.getElem?_eq_some_iff.mp ht
  obtain ⟨hj, rfl⟩ := List.getElem?_eq_some_iff.mp hu
  rcases Nat.lt_or_gt_of_ne hij with before | behind
  · exact fun k left right => apart i j hi hj before k left k right rfl
  · exact fun k left right => apart j i hj hi behind k right k left rfl

/-- **Terms are new in a stretch of numbers**: each place has a number of its
own, and it lies in the stretch. -/
structure NewIn (m : ℕ) (ts : List Term) (n : ℕ) : Prop where
  /-- No number stands at two places. -/
  nodup : (serialsAll ts).Nodup
  /-- The numbers lie in the stretch. -/
  within : ∀ k ∈ serialsAll ts, m ≤ k ∧ k < n
  /-- The stretch begins before it ends. -/
  le : m ≤ n

variable {l m n : ℕ} {t : Term} {ts us : List Term}

theorem NewIn.nil (h : m ≤ n) : NewIn m [] n :=
  ⟨List.nodup_nil, List.forall_mem_nil _, h⟩

/-- **Stretches that follow each other** are one. -/
theorem NewIn.append (h : NewIn l ts m) (h' : NewIn m us n) :
    NewIn l (ts ++ us) n := by
  have both : serialsAll (ts ++ us) = serialsAll ts ++ serialsAll us := by
    simp only [serialsAll_eq_flatten, List.map_append, List.flatten_append]
  refine ⟨?_, fun k hk => ?_, h.le.trans h'.le⟩
  · rw [both]
    refine List.nodup_append.mpr ⟨h.nodup, h'.nodup, fun k hk k' hk' => ?_⟩
    exact Nat.ne_of_lt ((h.within k hk).2.trans_le (h'.within k' hk').1)
  · rw [both] at hk
    rcases List.mem_append.mp hk with first | second
    · exact ⟨(h.within k first).1, (h.within k first).2.trans_le h'.le⟩
    · exact ⟨h.le.trans (h'.within k second).1, (h'.within k second).2⟩

/-- **A term over new children** is new, if its number is the next one. -/
theorem NewIn.over (h : NewIn m t.children n) (serial : t.serial = n) :
    NewIn m [t] (n + 1) := by
  have here : serialsAll [t] = n :: serialsAll t.children := by
    rw [serialsAll, serialsAll, List.append_nil, serials_eq, serial]
  refine ⟨?_, fun k hk => ?_, Nat.le_succ_of_le h.le⟩
  · rw [here]
    refine List.nodup_cons.mpr ⟨fun below => ?_, h.nodup⟩
    exact Nat.lt_irrefl n (h.within n below).2
  · rw [here] at hk
    rcases List.mem_cons.mp hk with rfl | below
    · exact ⟨h.le, Nat.lt_succ_self k⟩
    · exact ⟨(h.within k below).1, Nat.lt_succ_of_lt (h.within k below).2⟩

end Term

/-- **Terms made one after another are new together**, if each of them is new
as long as a condition holds, and leaves it so. -/
theorem Sampling.newIn_times {x : Sampling Term} {I : State → Prop}
    (h : ∀ s, I s → Term.NewIn s.supply.next [(x s).1] (x s).2.supply.next
      ∧ I (x s).2) (n : ℕ) {s : State} (hs : I s) :
    Term.NewIn s.supply.next (x.times n s).1 (x.times n s).2.supply.next
      ∧ I (x.times n s).2 := by
  induction n generalizing s with
  | zero => exact ⟨.nil (Nat.le_refl _), hs⟩
  | succ n ih =>
    obtain ⟨first, kept⟩ := h s hs
    obtain ⟨others, kept⟩ := ih kept
    exact ⟨first.append others, kept⟩

namespace Plan

variable {plan : Plan} {s : State}

/-- **What a generation makes without reuse is new.** -/
theorem newIn_generate (hs : plan.ReusesNothing s) (room : ℕ) :
    Term.NewIn s.supply.next [(plan.generate room s).1]
        (plan.generate room s).2.supply.next
      ∧ plan.ReusesNothing (plan.generate room s).2 := by
  refine kept_induct (motive := fun _ s made _ => plan.ReusesNothing s →
    Term.NewIn s.supply.next [made.1] made.2.supply.next
      ∧ plan.ReusesNothing made.2) ?_ ?_ room s hs
  · intro room s t s' _ account hs
    generalize plan.keptByStart room s = ts at account
    cases account with
    | reused possible member _ _ =>
      exact absurd member (hs.notMem possible t)
    | @finished t s₁ serial childless pool supply =>
      have next : (plan.remember t s₁).2.supply.next = s.supply.next + 1 :=
        congrArg Supply.next ((Sampling.supply_remember _ t s₁).trans supply)
      have below : Term.NewIn s.supply.next t.children s.supply.next :=
        childless ▸ .nil (Nat.le_refl _)
      exact ⟨next ▸ below.over serial, (hs.of_pool pool).remember t⟩
  · intro room s head more s₁ _ pool supply ih children hs
    obtain ⟨below, idle⟩ := Sampling.newIn_times ih (more + 1) (hs.of_pool pool)
    rw [supply] at below
    rw [next_finish]
    refine ⟨?_, idle.finish head children.1⟩
    exact Term.NewIn.over (t := (plan.finish head children.1 children.2).1)
      below rfl

end Plan

/-! ## Samples -/

namespace Sampler

variable {σ τ : Sampler} {supply : Supply} {ts kept : List Term}

/-- **What each generation keeps of the pool, a run keeps**, and what each then
says of its term holds of all samples. -/
theorem Takes.keeps {I : Array Term → Prop} {Q : Term → Prop}
    (run : σ.Takes supply ts kept τ)
    (step : ∀ s, I s.pool →
      Q (σ.plan.generate σ.plan.config.maxDepth s).1
        ∧ I (σ.plan.generate σ.plan.config.maxDepth s).2.pool)
    (start : I σ.pool) : ∀ t ∈ ts, Q t := by
  induction run with
  | none => exact List.forall_mem_nil _
  | @sampled σ τ supply later ts kept _ _ ih =>
    obtain ⟨here, left⟩ := step (σ.state later) start
    rw [← term_sample] at here
    rw [← state_sample] at left
    exact List.forall_mem_cons.mpr ⟨here, ih step left⟩

/-- **The samples of a run are new together** as long as nothing is reused. -/
theorem Takes.newIn (run : σ.Takes supply ts kept τ)
    (idle : σ.plan.ReusesNothing (σ.state supply)) :
    ∃ n, Term.NewIn supply.next ts n := by
  induction run with
  | none σ supply => exact ⟨supply.next, .nil (Nat.le_refl _)⟩
  | @sampled σ τ supply later ts kept onward _ ih =>
    have begun : σ.plan.ReusesNothing (σ.state later) := idle.of_pool rfl
    obtain ⟨here, left⟩ := Plan.newIn_generate begun σ.plan.config.maxDepth
    rw [← term_sample] at here
    rw [← state_sample] at here left
    obtain ⟨n, others⟩ := ih left
    exact ⟨n, ((Term.NewIn.nil onward).append here).append others⟩

/-- No node of a sample carries a tag of boxed scalars. -/
theorem Takes.wellTagged {seed : UInt64} {table : SymbolTable}
    {symbols : List Symbol} {config : Config}
    (made : ofSeed seed table symbols config = .ok σ)
    (run : σ.Takes supply ts kept τ) : ∀ t ∈ ts, t.tree.WellTagged := by
  obtain ⟨admitted, pool⟩ := SymbolTable.of_ofSeed_eq_ok made
  have stocked : σ.plan.Stocks σ.pool := by
    rw [pool]
    exact ⟨Nat.zero_le _, fun t ht => absurd ht (Array.not_mem_empty t)⟩
  refine run.keeps (I := σ.plan.Stocks) (fun s hs => ?_) stocked
  obtain ⟨makes, left⟩ := Plan.Stocks.generate hs σ.plan.config.maxDepth
  have unboxed : ∀ s k, σ.plan.Offers s k → s.isBoxed = false :=
    fun s k former => SymbolTable.isBoxed_of_arity? (admitted _ former).2
  exact ⟨(Tree.MadeOf.mono makes unboxed).all, left⟩

/-- **Without reuse nothing is shared.** Take a new sampler for which reuse
never happens, or that keeps nothing, and let it take samples with anything
built between them. No instance stands at two places of a sample, nor in two
samples, so a comparison of two of them passes over nothing. -/
theorem shares_nothing {seed : UInt64} {table : SymbolTable}
    {symbols : List Symbol} {config : Config}
    (made : ofSeed seed table symbols config = .ok σ)
    (idle : config.reuse.Never ∨ config.poolSize = 0)
    (run : σ.Takes supply ts kept τ) :
    (Term.serialsAll ts).Nodup
      ∧ ∀ (i j : ℕ) (t u : Term),
          i ≠ j → ts[i]? = some t → ts[j]? = some u →
            t.Apart u
              ∧ ∃ verdict inspected, t.compareTally? u
                  = some (verdict, { inspected := inspected, shared := 0 }) := by
  have nothing : σ.plan.ReusesNothing (σ.state supply) := by
    obtain ⟨formers, -, rfl⟩ := SymbolTable.formers_of_ofSeed made
    exact idle.imp_right fun size => ⟨size, rfl⟩
  obtain ⟨n, new⟩ := run.newIn nothing
  have tagged := run.wellTagged made
  refine ⟨new.nodup, fun i j t u hij ht hu => ?_⟩
  have apart : t.Apart u :=
    Term.apart_of_disjoint (Term.disjoint_of_nodup new.nodup hij ht hu)
  refine ⟨apart, (t.course u).verdict,
    (Tally.countAll {} (t.course u).pairs).inspected, ?_⟩
  have passed := Term.length_skipped (t.course u).pairs
  rw [Graph.skipped_of_apart apart] at passed
  rw [Term.compareTally?_eq_course (tagged t (List.mem_of_getElem? ht))
    (tagged u (List.mem_of_getElem? hu))]
  exact congrArg (fun k => some (_, Tally.mk _ k)) passed.symm

/-- Reuse whenever it is possible, from a pool that holds nothing. -/
def emptyPool : Config where
  maxDepth := 1
  leaf := .ofNat .double 0
  reuse := .ofNat .double 0x3ff0000000000000
  poolSize := 0

/-- Two cells that are sampled, with a scalar built in between. -/
theorem shares_nothing_emptyPool :
    ∃ σ t u kept τ, ofSeed 5 ∅ [.consTag] emptyPool = .ok σ
      ∧ σ.Takes .initial [t, u] kept τ
      ∧ t.tag = .consTag ∧ u.tag = .consTag
      ∧ (Term.serialsAll [t, u]).Nodup
      ∧ ∃ verdict inspected, t.compareTally? u
          = some (verdict, { inspected := inspected, shared := 0 }) := by
  let σ := ofFormers 5 [⟨.consTag, 2⟩] emptyPool
  let left := (σ.sample .initial).2
  let later := (Term.newBoxed (.int32 1) left).2
  have made : ofSeed 5 ∅ [.consTag] emptyPool = .ok σ := rfl
  have cells : (σ.sample .initial).1.1.tag = .consTag
      ∧ ((σ.sample .initial).1.2.sample later).1.1.tag = .consTag := by
    decide +kernel
  clear_value σ
  have onward : left.next ≤ later.next := Nat.le_succ left.next
  have run := Takes.sampled (σ := σ) (Nat.le_refl Supply.initial.next)
    (.sampled onward (.none _ _))
  obtain ⟨nodup, apart⟩ := shares_nothing made (.inr rfl) run
  obtain ⟨-, tally⟩ := apart 0 1 _ _ Nat.zero_ne_one rfl rfl
  exact ⟨σ, _, _, _, _, made, run, cells.1, cells.2, nodup, tally⟩

end Sampler

end TermGraph
