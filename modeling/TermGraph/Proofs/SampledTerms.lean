import TermGraph.Proofs.Decisions
import TermGraph.Proofs.Heap
import TermGraph.Proofs.Registration
import TermGraph.Sampler.Generate

/-!
# What a sampler builds

A sampler takes terms from its pool, and builds leaves and nodes. The
nodes are built without any check: an atom outright, and any other node
when the last of its children is there. That they have as many children
as their head should have is no property of one step. It rests on an
invariant of the heads that wait, `Frame.Waits`: the children that are
there, the one being generated and those to come after it are as many as
the former of the head says.

The steps of the generation are placed in a heap by `Sampling.Ends`. It
says what a step leaves behind, in terms of a heap in which the state was
at home and a larger one in which the state is at home afterwards; the
draws in between are arbitrary, so nothing has to be known about the
stream of random words.
-/

namespace TermGraph

variable {p q : Rule} {H H' : Heap} {s : State} {t : Term} {plan : Plan}

/-- **A state is at home in a heap**: it draws on the numbers of the heap,
and its pool has members only. -/
structure State.In (s : State) (H : Heap) : Prop where
  /-- The supply is that of the heap. -/
  supply : s.supply = H.supply
  /-- What may be used again is there. -/
  pool : ∀ t ∈ s.pool, t ∈ H

namespace Sampling

variable {α β : Type} {x : Sampling α} {Q : α → Heap → Prop}

/-- **A computation ends in a larger heap**, in which its state is at home
and its result is as it should be. -/
def Ends (p : Rule) (x : Sampling α) (s : State) (H : Heap)
    (Q : α → Heap → Prop) : Prop :=
  ∃ H' : Heap, H.Grows p H' ∧ (x s).2.In H' ∧ Q (x s).1 H'

theorem ends_pure {a : α} (hs : s.In H) (ha : Q a H) :
    Ends p (pure a) s H Q :=
  ⟨H, .refl H, hs, ha⟩

theorem ends_bind {f : α → Sampling β} {R : β → Heap → Prop}
    (hx : Ends p x s H Q)
    (hf : ∀ a s' H', H.Grows p H' → s'.In H' → Q a H' →
      Ends p (f a) s' H' R) : Ends p (x >>= f) s H R := by
  obtain ⟨H₁, grows₁, home₁, result₁⟩ := hx
  obtain ⟨H₂, grows₂, home₂, result₂⟩ := hf _ _ H₁ grows₁ home₁ result₁
  exact ⟨H₂, grows₁.trans grows₂, home₂, result₂⟩

theorem ends_draw (d : Draw α) (hs : s.In H) :
    Ends p (draw d) s H fun _ _ => True :=
  ⟨H, .refl H, ⟨hs.supply, hs.pool⟩, trivial⟩

theorem ends_build {f : Fresh Term} (hf : f.Makes p H) (hs : s.In H) :
    Ends p (build f) s H fun t H' => t ∈ H' := by
  obtain ⟨H', grows, supply, made⟩ := hf
  rw [← hs.supply] at supply made
  exact ⟨H', grows, ⟨supply, fun u hu => grows.mem (hs.pool u hu)⟩, made⟩

theorem ends_remember (k : ℕ) (hs : s.In H) (ht : t ∈ H) :
    Ends p (remember k t) s H fun _ _ => True := by
  have supply : (remember k t s).2.supply = s.supply := supply_remember k t s
  refine ⟨H, .refl H, ⟨supply.trans hs.supply, fun u hu => ?_⟩, trivial⟩
  rcases mem_pool_remember hu with rfl | old
  · exact ht
  · exact hs.pool u old

theorem ends_reused? (r : Binary .double) (hs : s.In H) :
    Ends p (reused? r) s H fun found H' => ∀ t ∈ found, t ∈ H' := by
  refine ends_bind (Q := fun s' H' => s'.In H') ⟨H, .refl H, hs, hs⟩ ?_
  intro s₀ s₁ H₁ _ home₁ pool₁
  dsimp only
  split
  · refine ends_bind (ends_draw _ home₁) fun taken s₂ H₂ grows₂ home₂ _ => ?_
    split
    · refine ends_bind (ends_draw _ home₂) fun i s₃ H₃ grows₃ home₃ _ => ?_
      refine ends_pure home₃ fun t ht => ?_
      cases ht
      exact grows₃.mem (grows₂.mem (pool₁.pool _ (Array.getElem_mem _)))
    · exact ends_pure home₂ fun _ hf => absurd hf (Option.not_mem_none _)
  · exact ends_pure home₁ fun _ hf => absurd hf (Option.not_mem_none _)

end Sampling

/-! ## The decision for one place -/

namespace Plan

open Sampling

/-- **The formers of a plan are admitted by a rule.** -/
def Follows (plan : Plan) (p : Rule) : Prop :=
  ∀ f ∈ plan.formers, p f.head f.arity

theorem ends_newLeaf (plan : Plan) (hs : s.In H) :
    Ends p plan.newLeaf s H fun t H' => t ∈ H' := by
  refine ends_bind (ends_draw _ hs) fun v s₁ H₁ _ home₁ _ => ?_
  refine ends_bind (ends_draw _ home₁) fun form s₂ H₂ _ home₂ _ => ?_
  exact ends_build (Fresh.makes_newBoxed _) home₂

theorem ends_finish {head : Symbol} {ts : List Term} (plan : Plan)
    (rule : p head ts.length) (hs : s.In H) (hts : ∀ t ∈ ts, t ∈ H) :
    Ends p (plan.finish head ts) s H fun t H' => t ∈ H' := by
  refine ends_bind (ends_build (Fresh.makes_newNode (.admitted rule) hts) hs) ?_
  intro t s₁ H₁ _ home₁ ht
  refine ends_bind (ends_remember _ home₁ ht) fun _ s₂ H₂ grows₂ home₂ _ => ?_
  exact ends_pure home₂ (grows₂.mem ht)

theorem ends_former? (plan : Plan) (room : ℕ) (hs : s.In H) :
    Ends p (plan.former? room) s H fun chosen _ =>
      ∀ f ∈ chosen, f ∈ plan.formers := by
  unfold former?
  split
  · refine ends_bind (ends_draw _ hs) fun leaf s₁ H₁ _ home₁ _ => ?_
    split
    · exact ends_pure home₁ fun _ hf => absurd hf (Option.not_mem_none _)
    · refine ends_bind (ends_draw _ home₁) fun i s₂ H₂ _ home₂ _ => ?_
      refine ends_pure home₂ fun f hf => ?_
      cases hf
      exact Array.getElem_mem _
  · exact ends_pure hs fun _ hf => absurd hf (Option.not_mem_none _)

/-- What is right of the decision for one place: the term that stands
there is there, and the head that is opened may have that many
children. -/
def Started (p : Rule) (H : Heap) : Start → Prop
  | .done t => t ∈ H
  | .opened head more => p head (more + 1)

theorem ends_start (follows : plan.Follows p) (room : ℕ) (hs : s.In H) :
    Ends p (plan.start room) s H fun start H' => Started p H' start := by
  refine ends_bind (ends_reused? _ hs) fun found s₁ H₁ _ home₁ hfound => ?_
  cases found with
  | some t => exact ends_pure home₁ (hfound t rfl)
  | none =>
    refine ends_bind (plan.ends_former? room home₁) ?_
    intro chosen s₂ H₂ _ home₂ hchosen
    obtain _ | ⟨head, _ | more⟩ := chosen
    · refine ends_bind (plan.ends_newLeaf home₂) fun t s₃ H₃ _ home₃ ht => ?_
      refine ends_bind (ends_remember _ home₃ ht) ?_
      exact fun _ s₄ H₄ grows₄ home₄ _ => ends_pure home₄ (grows₄.mem ht)
    · have rule : p head 0 := follows _ (hchosen _ rfl)
      refine ends_bind (plan.ends_finish rule home₂ (List.forall_mem_nil _)) ?_
      exact fun t s₃ H₃ _ home₃ ht => ends_pure home₃ ht
    · exact ends_pure home₂ (follows _ (hchosen _ rfl))

end Plan

/-! ## Heads that wait -/

/-- **A head waits for its children**: those that are there, the next one
and the later ones are together as many as it may have. -/
structure Frame.Waits (f : Frame) (p : Rule) (H : Heap) : Prop where
  /-- The children so far are there. -/
  built : ∀ t ∈ f.built, t ∈ H
  /-- The number of children is admitted. -/
  admitted : p f.head (f.built.length + (f.later + 1))

theorem Frame.Waits.mono {f : Frame} (h : f.Waits p H)
    (grows : H.Grows p H') : f.Waits p H' :=
  ⟨fun t ht => grows.mem (h.built t ht), h.admitted⟩

namespace Plan

open Sampling

/-- What is right of a decision and what followed from it: the whole term
is there, or the heads that still wait do so. -/
def Settled (p : Rule) (H : Heap) : Term ⊕ List Frame → Prop
  | .inl t => t ∈ H
  | .inr frames => ∀ f ∈ frames, f.Waits p H

theorem ends_settle (plan : Plan) {frames : List Frame} (hs : s.In H)
    (ht : t ∈ H) (waits : ∀ f ∈ frames, f.Waits p H) :
    Ends p (plan.settle t frames) s H fun left H' => Settled p H' left := by
  induction frames generalizing s t H with
  | nil => exact ends_pure hs ht
  | cons f fs ih =>
    obtain ⟨head, room, built, later⟩ := f
    obtain ⟨hbuilt, admitted⟩ := waits _ (.head _)
    have together : ∀ u ∈ t :: built, u ∈ H := fun u hu =>
      (List.mem_cons.mp hu).elim (fun same => same ▸ ht) (hbuilt u)
    cases later with
    | succ later =>
      refine ends_pure hs fun f hf => ?_
      rcases List.mem_cons.mp hf with rfl | hf
      · refine ⟨together, ?_⟩
        rw [List.length_cons, Nat.succ_add_eq_add_succ]
        exact admitted
      · exact waits f (.tail _ hf)
    | zero =>
      -- The last child is there: the node is built, and is a child in turn.
      have rule : p head (t :: built).reverse.length := by
        rw [List.length_reverse]
        exact admitted
      refine ends_bind (plan.ends_finish rule hs fun u hu =>
        together u (List.mem_reverse.mp hu)) ?_
      intro node s₁ H₁ grows₁ home₁ hnode
      exact ih home₁ hnode fun f hf => (waits f (.tail _ hf)).mono grows₁

/-- **What one decision keeps**: all heads that wait afterwards have
waited, or wait now. -/
theorem ends_step (follows : plan.Follows p) {frames : List Frame}
    (hs : s.In H) (waits : ∀ f ∈ frames, f.Waits p H) :
    Ends p (plan.step frames) s H fun left H' => Settled p H' left := by
  refine ends_bind (ends_start follows _ hs) ?_
  intro start s₁ H₁ grows₁ home₁ hstart
  have waits₁ : ∀ f ∈ frames, f.Waits p H₁ :=
    fun f hf => (waits f hf).mono grows₁
  cases start with
  | done t => exact plan.ends_settle home₁ hstart waits₁
  | opened head later =>
    refine ends_pure home₁ fun f hf => ?_
    rcases List.mem_cons.mp hf with rfl | hf
    · refine ⟨List.forall_mem_nil _, ?_⟩
      rw [List.length_nil, Nat.zero_add]
      exact hstart
    · exact waits₁ f hf

/-- **The whole generation**, by induction on the decisions. -/
theorem ends_grow (follows : plan.Follows p) {frames : List Frame}
    (hs : s.In H) (waits : ∀ f ∈ frames, f.Waits p H) :
    Ends p (plan.grow frames) s H fun t H' => t ∈ H' := by
  unfold Ends
  fun_induction plan.grow frames s generalizing H with
  | case1 frames s t s' taken =>
    have step := ends_step follows hs waits
    unfold Ends at step
    rw [taken] at step
    exact step
  | case2 frames s left s' taken _ ih =>
    obtain ⟨H₁, grows₁, home₁, waits₁⟩ := ends_step follows hs waits
    rw [taken] at home₁ waits₁
    obtain ⟨H₂, grows₂, home₂, whole⟩ := ih home₁ waits₁
    exact ⟨H₂, grows₁.trans grows₂, home₂, whole⟩

end Plan

/-! ## Samplers -/

namespace Sampler

variable {σ : Sampler}

/-- **A sampler is at home in a heap**: it follows the rule, and its pool
has members only. -/
structure In (σ : Sampler) (p : Rule) (H : Heap) : Prop where
  /-- The formers are admitted. -/
  follows : σ.plan.Follows p
  /-- What may be used again is there. -/
  pool : ∀ t ∈ σ.pool, t ∈ H

theorem In.mono (h : σ.In p H) (grows : H.Grows q H')
    (hpq : ∀ s k, p s k → q s k) : σ.In q H' :=
  ⟨fun f hf => hpq _ _ (h.follows f hf), fun t ht => grows.mem (h.pool t ht)⟩

/-- **A sample is made in the heap of its sampler**, and the sampler is at
home in the larger one. -/
theorem grows_sample (h : σ.In p H) :
    ∃ H' : Heap, H.Grows p H' ∧ (σ.sample H.supply).2 = H'.supply
      ∧ (σ.sample H.supply).1.1 ∈ H' ∧ (σ.sample H.supply).1.2.In p H' := by
  obtain ⟨H', grows, home, made⟩ := Plan.ends_grow h.follows
    (s := ⟨σ.stream, σ.pool, H.supply⟩) ⟨rfl, h.pool⟩ (List.forall_mem_nil _)
  exact ⟨H', grows, home.supply, made, h.follows, home.pool⟩

/-- **A sampler builds on its rule and its pool.** What holds of the nodes of
the one and the other, holds of those of the sample and of the pool behind
it. -/
theorem all_sample (h : σ.In p H) (pool : ∀ t ∈ σ.pool, t.tree.All p) :
    (σ.sample H.supply).1.1.tree.All p
      ∧ ∀ t ∈ (σ.sample H.supply).1.2.pool, t.tree.All p := by
  obtain ⟨H', grows, -, made, home⟩ := grows_sample (H := H.only p)
    ⟨h.follows, fun t ht => ⟨h.pool t ht, pool t ht⟩⟩
  have kept := grows.keeps (fun _ _ => id) (H.keeps_only p)
  exact ⟨kept.all_tree made, fun t ht => kept.all_tree (home.pool t ht)⟩

end Sampler

/-! ## Plans over a table -/

namespace SymbolTable

variable {table : SymbolTable}

/-- The former of a symbol has it for a head, and the table admits it. -/
theorem of_former_eq_ok {x : Symbol} {f : Former}
    (h : table.former x = .ok f) :
    f.head = x ∧ table.Admits f.head f.arity := by
  unfold former at h
  split at h
  · cases h
  · split at h
    · cases h
    · next plain =>
      split at h
      · cases h
      · next known =>
        cases h
        exact ⟨rfl, Bool.eq_false_iff.mpr plain, known⟩

/-- **The formers of several symbols** have them for heads, one after the
other, and the table admits each. -/
theorem of_formers_eq_ok {symbols : List Symbol} {formers : List Former}
    (h : table.formers symbols = .ok formers) :
    formers.map Former.head = symbols
      ∧ ∀ f ∈ formers, table.Admits f.head f.arity := by
  unfold SymbolTable.formers at h
  induction symbols generalizing formers with
  | nil =>
    cases h
    exact ⟨rfl, List.forall_mem_nil _⟩
  | cons x xs ih =>
    rw [List.mapM_cons] at h
    cases hx : table.former x with
    | error e =>
      rw [hx] at h
      cases h
    | ok f =>
      cases hxs : xs.mapM table.former with
      | error e =>
        rw [hx, hxs] at h
        cases h
      | ok fs =>
        rw [hx, hxs] at h
        cases h
        obtain ⟨head, admitted⟩ := of_former_eq_ok hx
        obtain ⟨heads, others⟩ := ih hxs
        rw [List.map_cons, head, heads]
        exact ⟨rfl, List.forall_mem_cons.mpr ⟨admitted, others⟩⟩

/-- A new sampler is made over the formers of its symbols. -/
theorem formers_of_ofSeed {seed : UInt64} {symbols : List Symbol}
    {config : Config} {σ : Sampler}
    (h : Sampler.ofSeed seed table symbols config = .ok σ) :
    ∃ formers, table.formers symbols = .ok formers
      ∧ σ = .ofFormers seed formers config := by
  unfold Sampler.ofSeed at h
  cases hformers : table.formers symbols with
  | error e =>
    rw [hformers] at h
    cases h
  | ok formers =>
    rw [hformers] at h
    cases h
    exact ⟨formers, rfl, rfl⟩

/-- And it is made if they are there. -/
theorem ofSeed_of_formers {seed : UInt64} {symbols : List Symbol}
    {formers : List Former} {config : Config}
    (h : table.formers symbols = .ok formers) :
    Sampler.ofSeed seed table symbols config
      = .ok (.ofFormers seed formers config) := by
  rw [Sampler.ofSeed, h]
  rfl

/-- A new sampler has formers of the table, and an empty pool. -/
theorem of_ofSeed_eq_ok {seed : UInt64} {symbols : List Symbol}
    {config : Config} {σ : Sampler}
    (h : Sampler.ofSeed seed table symbols config = .ok σ) :
    (∀ f ∈ σ.plan.formers, table.Admits f.head f.arity) ∧ σ.pool = #[] := by
  obtain ⟨formers, known, rfl⟩ := formers_of_ofSeed h
  refine ⟨fun f hf => ?_, rfl⟩
  exact (of_formers_eq_ok known).2 f (List.mem_toArray.mp hf)

/-- **A new sampler follows the table it is made over**, and is at home
anywhere. -/
theorem in_of_ofSeed {seed : UInt64} {symbols : List Symbol} {config : Config}
    {σ : Sampler} (h : Sampler.ofSeed seed table symbols config = .ok σ)
    (H : Heap) : σ.In table.Admits H := by
  obtain ⟨follows, pool⟩ := of_ofSeed_eq_ok h
  refine ⟨follows, fun t ht => ?_⟩
  rw [pool] at ht
  exact absurd ht (Array.not_mem_empty t)

end SymbolTable

end TermGraph
