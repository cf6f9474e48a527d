import TermGraph.Proofs.Keeping
import TermGraph.Proofs.Places

/-!
# The size of the pool before it is full

How many terms a pool may hold matters from the moment on when it would have
to hold more. Until then whatever is kept is put behind what is there, and
nothing is drawn for it; and what is drawn for reuse depends on the number of
terms that are there and not on how many there may be. So two samplers that
differ in that size only draw the same, as long as the pools of both have
room, and return terms that are alike (`Sampler.alike_while_room`). A pool
that may hold nothing counts as one with room, if reuse never happens: then
nothing is ever taken from either pool.

The two runs are taken side by side. `State.Abreast` says where they stand:
at the same place of the stream, with pools that hold terms that are alike,
with room for a given number of terms to come. It is a relation between the
numbers given out on the two sides that makes their terms alike, and the
relation gains a pair with each term that is built (`Abreast.build`). Each
step leads on from there (`Plan.Leads`), and uses up as much of the room as
it keeps terms (`Plan.kept`).
-/

namespace TermGraph

variable {α β : Type} {r r' : ℕ → ℕ → Prop} {k n : ℕ}

/-! ## Numbers that correspond -/

/-- **The relation that has one pair more.** -/
def paired (r : ℕ → ℕ → Prop) (m n : ℕ) (i j : ℕ) : Prop :=
  r i j ∨ i = m ∧ j = n

/-- Each number still belongs to one, if those that are paired are new. -/
theorem biUnique_paired {m n : ℕ} (unique : Relator.BiUnique r)
    (left : ∀ {i j}, r i j → i < m) (right : ∀ {i j}, r i j → j < n) :
    Relator.BiUnique (paired r m n) := by
  constructor
  · rintro i i' j (h | ⟨rfl, rfl⟩) (h' | ⟨rfl, hj⟩)
    · exact unique.1 h h'
    · exact absurd (hj ▸ right h) (Nat.lt_irrefl _)
    · exact absurd (right h') (Nat.lt_irrefl _)
    · rfl
  · rintro i j j' (h | ⟨rfl, rfl⟩) (h' | ⟨hi, rfl⟩)
    · exact unique.2 h h'
    · exact absurd (hi ▸ left h) (Nat.lt_irrefl _)
    · exact absurd (left h') (Nat.lt_irrefl _)
    · rfl

/-! ## Pools with room -/

/-- **A pool has room for `n` terms more**, or holds nothing at all. -/
def State.Holds (k n : ℕ) (s : State) : Prop :=
  k = 0 ∨ s.pool.size + n ≤ k

/-- A pool with nothing in it has room for as many as it may hold. -/
theorem State.holds_of_empty {s : State} (pool : s.pool = #[])
    (h : k = 0 ∨ n ≤ k) : s.Holds k n := by
  refine h.imp_right fun few => ?_
  rw [pool, Array.size_empty, Nat.zero_add]
  exact few

/-- What is kept in a pool with room is put behind the others, and nothing is
drawn for it. -/
theorem Sampling.of_remember {s : State} (t : Term) (h : s.Holds k (n + 1)) :
    (remember k t s).2.stream = s.stream
      ∧ (remember k t s).2.Holds k n
      ∧ (0 < k → (remember k t s).2.pool.toList = s.pool.toList ++ [t]) := by
  rcases h with rfl | room
  · rw [remember_zero]
    exact ⟨rfl, .inl rfl, fun none => absurd none (Nat.lt_irrefl 0)⟩
  · rw [← Nat.add_assoc] at room
    rw [remember_of_room (Nat.lt_of_add_right_lt room)]
    refine ⟨rfl, .inr ?_, fun _ => Array.toList_push⟩
    rw [Array.size_push, Nat.add_right_comm]
    exact room

/-! ## Side by side -/

/-- **Decisions that are alike**: terms that are, or the same head. -/
inductive Start.Alike (r : ℕ → ℕ → Prop) : Start → Start → Prop
  /-- Terms that are alike. -/
  | done {t t' : Term} (like : t.Alike r t') : Alike r (.done t) (.done t')
  /-- One head with as many children to come. -/
  | opened (head : Symbol) (more : ℕ) :
      Alike r (.opened head more) (.opened head more)

namespace Plan

/-- The plan with a pool of another size. -/
def pooled (plan : Plan) (k : ℕ) : Plan :=
  { plan with config := { plan.config with poolSize := k } }

/-- **Two states are side by side**, the second one with a pool for `k`
terms. -/
structure Abreast (plan : Plan) (k : ℕ) (r : ℕ → ℕ → Prop) (n : ℕ)
    (s s' : State) : Prop where
  /-- They are at the same place of the stream. -/
  stream : s'.stream = s.stream
  /-- Each number belongs to one number of the other side. -/
  unique : Relator.BiUnique r
  /-- The numbers that correspond are given out. -/
  given : ∀ {i j}, r i j → i < s.supply.next ∧ j < s'.supply.next
  /-- The terms kept for reuse are alike, or not asked for. -/
  pools : plan.config.reuse.Never
    ∨ (0 < plan.config.poolSize ∧ 0 < k)
      ∧ List.Forall₂ (Term.Alike r) s.pool.toList s'.pool.toList
  /-- There is room for so many terms on the one side. -/
  room : s.Holds plan.config.poolSize n
  /-- And on the other. -/
  room' : s'.Holds k n

/-- **Two results with the states they leave** are alike, and the states are
side by side with nothing forgotten. -/
def Leads (plan : Plan) (k : ℕ) (r : ℕ → ℕ → Prop) (n : ℕ)
    (like : (ℕ → ℕ → Prop) → α → β → Prop) (y : α × State) (y' : β × State) :
    Prop :=
  ∃ r', (∀ i j, r i j → r' i j) ∧ plan.Abreast k r' n y.2 y'.2
    ∧ like r' y.1 y'.1

variable {plan : Plan} {s s' : State} {t t' : Term} {ts ts' : List Term}
  {room m : ℕ} {α' β' : Type} {like : (ℕ → ℕ → Prop) → α → β → Prop}
  {like' : (ℕ → ℕ → Prop) → α' → β' → Prop}

theorem Abreast.leads {a : α} {b : β} (h : plan.Abreast k r n s s')
    (ha : like r a b) : plan.Leads k r n like (a, s) (b, s') :=
  ⟨r, fun _ _ => id, h, ha⟩

theorem Leads.trans {y : α × State} {y' : β × State}
    (kept : ∀ i j, r i j → r' i j) (h : plan.Leads k r' n like y y') :
    plan.Leads k r n like y y' := by
  obtain ⟨r₁, kept₁, abreast, ha⟩ := h
  exact ⟨r₁, fun i j hr => kept₁ i j (kept i j hr), abreast, ha⟩

theorem Leads.bind {x : Sampling α} {x' : Sampling β} {f : α → Sampling α'}
    {f' : β → Sampling β'} (hx : plan.Leads k r m like (x s) (x' s'))
    (hf : ∀ {r' a b s₁ s₁'}, (∀ i j, r i j → r' i j) →
      plan.Abreast k r' m s₁ s₁' → like r' a b →
      plan.Leads k r' n like' (f a s₁) (f' b s₁')) :
    plan.Leads k r n like' ((x >>= f) s) ((x' >>= f') s') := by
  obtain ⟨r₁, kept, abreast, ha⟩ := hx
  exact (hf kept abreast ha).trans kept

/-- **The same is drawn.** -/
theorem Abreast.draw (h : plan.Abreast k r n s s') (d : Draw α) :
    plan.Leads k r n (fun _ => Eq) (Sampling.draw d s)
      (Sampling.draw d s') := by
  have same : d.run s'.stream = d.run s.stream := congrArg d.run h.stream
  refine ⟨r, fun _ _ => id, ?_, (congrArg Prod.fst same).symm⟩
  exact ⟨congrArg Prod.snd same, h.unique, h.given, h.pools, h.room, h.room'⟩

/-- So is a place among as many. -/
theorem Abreast.index {a b : ℕ} (h : plan.Abreast k r n s s') (same : a = b)
    (ha : 0 < a) (hb : 0 < b) :
    plan.Leads k r n (fun _ i j => i.val = j.val)
      (Sampling.draw (.index a ha) s) (Sampling.draw (.index b hb) s') := by
  subst same
  obtain ⟨r', kept, abreast, drawn⟩ := h.draw (.index a ha)
  exact ⟨r', kept, abreast, congrArg Fin.val drawn⟩

/-- **What is built next** is built on both sides, and its numbers
correspond from then on. -/
theorem Abreast.build (h : plan.Abreast k r n s s') :
    plan.Abreast k (paired r s.supply.next s'.supply.next) n
      { s with supply := (Fresh.serial s.supply).2 }
      { s' with supply := (Fresh.serial s'.supply).2 } where
  stream := h.stream
  unique := biUnique_paired h.unique (fun hr => (h.given hr).1)
    fun hr => (h.given hr).2
  given := by
    rintro i j (old | ⟨rfl, rfl⟩)
    · exact (h.given old).imp Nat.lt_succ_of_lt Nat.lt_succ_of_lt
    · exact ⟨Nat.lt_succ_self _, Nat.lt_succ_self _⟩
  pools := h.pools.imp_right fun held =>
    ⟨held.1, held.2.imp fun _ _ like => like.mono fun _ _ => .inl⟩
  room := h.room
  room' := h.room'

theorem Abreast.newBoxed (h : plan.Abreast k r n s s') (v : Scalar) :
    plan.Leads k r n Term.Alike (Sampling.build (Term.newBoxed v) s)
      (Sampling.build (Term.newBoxed v) s') :=
  ⟨_, fun _ _ => .inl, h.build, .boxed (.inr ⟨rfl, rfl⟩)⟩

theorem Abreast.newNode (h : plan.Abreast k r n s s') (head : Symbol)
    (children : List.Forall₂ (Term.Alike r) ts ts') :
    plan.Leads k r n Term.Alike (Sampling.build (Term.newNode head ts) s)
      (Sampling.build (Term.newNode head ts') s') :=
  ⟨_, fun _ _ => .inl, h.build, .over head (.inr ⟨rfl, rfl⟩)
    (children.imp fun _ _ like => like.mono fun _ _ => .inl)⟩

/-- **What is kept takes up room** on both sides. -/
theorem Abreast.remember (h : plan.Abreast k r (n + 1) s s')
    (like : t.Alike r t') :
    plan.Abreast k r n (plan.remember t s).2
      ((plan.pooled k).remember t' s').2 := by
  obtain ⟨stream, holds, pool⟩ := Sampling.of_remember t h.room
  obtain ⟨stream', holds', pool'⟩ := Sampling.of_remember t' h.room'
  refine ⟨?_, h.unique, fun hr => ?_, ?_, holds, holds'⟩
  · exact stream'.trans (h.stream.trans stream.symm)
  · rw [Plan.remember, Plan.remember, Sampling.supply_remember,
      Sampling.supply_remember]
    exact h.given hr
  · refine h.pools.imp_right fun held => ⟨held.1, ?_⟩
    have here : (plan.remember t s).2.pool.toList = s.pool.toList ++ [t] :=
      pool held.1.1
    have there : ((plan.pooled k).remember t' s').2.pool.toList
        = s'.pool.toList ++ [t'] := pool' held.1.2
    rw [here, there]
    exact List.rel_append held.2 (.cons like .nil)

theorem Abreast.finish (h : plan.Abreast k r (n + 1) s s') (head : Symbol)
    (children : List.Forall₂ (Term.Alike r) ts ts') :
    plan.Leads k r n Term.Alike (plan.finish head ts s)
      ((plan.pooled k).finish head ts' s') := by
  refine (h.newNode head children).bind fun _ h₁ like => ?_
  exact (h₁.remember like).leads like

/-! ## One decision -/

theorem Abreast.newLeaf (h : plan.Abreast k r n s s') :
    plan.Leads k r n Term.Alike (plan.newLeaf s)
      ((plan.pooled k).newLeaf s') := by
  refine (h.draw _).bind fun _ h₁ same => ?_
  subst same
  refine (h₁.draw _).bind fun _ h₂ same => ?_
  subst same
  exact h₂.newBoxed _

/-- **The same former is chosen.** -/
theorem Abreast.former? (h : plan.Abreast k r n s s') (room : ℕ) :
    plan.Leads k r n (fun _ => Eq) (plan.former? room s)
      ((plan.pooled k).former? room s') := by
  show plan.Leads k r n (fun _ => Eq) (plan.former? room s)
    (plan.former? room s')
  unfold Plan.former?
  by_cases choice : 0 < plan.formers.size ∧ 0 < room
  · rw [dif_pos choice]
    refine (h.draw _).bind fun {_ leaf _ _ _} _ h₁ same => ?_
    subst same
    cases leaf with
    | true => exact h₁.leads rfl
    | false =>
      refine (h₁.draw _).bind fun _ h₂ same => ?_
      subst same
      exact h₂.leads rfl
  · rw [dif_neg choice]
    exact h.leads rfl

/-- **Where one side reuses a term, so does the other**, and the terms are
alike. -/
theorem Abreast.reused? (h : plan.Abreast k r n s s') :
    plan.Leads k r n (fun r => Option.Rel (Term.Alike r))
      (Sampling.reused? plan.config.reuse s)
      (Sampling.reused? plan.config.reuse s') := by
  rcases h.pools with never | ⟨-, pools⟩
  · rw [Sampling.reused?_of_never never, Sampling.reused?_of_never never]
    exact h.leads .none
  · have size : s.pool.size = s'.pool.size := pools.length_eq
    rw [Sampling.reused?, Sampling.bind_apply, Sampling.bind_apply]
    by_cases filled : 0 < (get (m := Sampling) s).1.pool.size
    · have filled' : 0 < (get (m := Sampling) s').1.pool.size :=
        size ▸ filled
      rw [dif_pos filled, dif_pos filled']
      refine (h.draw _).bind fun {_ taken _ _ _} old h₁ same => ?_
      subst same
      cases taken with
      | false => exact h₁.leads .none
      | true =>
        refine (h₁.index size filled filled').bind
          fun {_ i j _ _} older h₂ same => ?_
        obtain ⟨i, hi⟩ := i
        obtain ⟨_, hj⟩ := j
        cases same
        have here : Term.Alike r s.pool[i] s'.pool[i] := pools.get hi hj
        exact h₂.leads (.some (here.mono fun _ _ hr =>
          older _ _ (old _ _ hr)))
    · have filled' : ¬ 0 < (get (m := Sampling) s').1.pool.size :=
        size ▸ filled
      rw [dif_neg filled, dif_neg filled']
      exact h.leads .none

/-- **Without reuse decisions are alike**, if there is room for what they come
to. -/
theorem Abreast.startNew
    (h : plan.Abreast k r (n + (plan.startNew room s).1.supplied.length) s s') :
    plan.Leads k r n Start.Alike (plan.startNew room s)
      ((plan.pooled k).startNew room s') := by
  obtain ⟨r₁, kept₁, h₁, chosen⟩ := h.former? room
  refine Leads.trans kept₁ ?_
  rw [Plan.startNew, Sampling.bind_apply] at h₁
  rw [Plan.startNew, Plan.startNew, Sampling.bind_apply, Sampling.bind_apply]
  generalize plan.former? room s = former at *
  generalize (plan.pooled k).former? room s' = former' at *
  obtain ⟨f, s₁⟩ := former
  obtain ⟨f', s₁'⟩ := former'
  obtain rfl : f = f' := chosen
  obtain _ | ⟨head, _ | more⟩ := f
  · refine Leads.bind (Abreast.newLeaf (n := n + 1) h₁) fun _ h₂ like => ?_
    exact (h₂.remember like).leads (.done like)
  · refine Leads.bind (Abreast.finish (n := n) h₁ head .nil)
      fun _ h₂ like => ?_
    exact h₂.leads (.done like)
  · exact h₁.leads (.opened head more)

/-- **Side by side, decisions are alike**, if there is room for what is
kept. -/
theorem Abreast.start
    (h : plan.Abreast k r (n + (plan.keptByStart room s).length) s s') :
    plan.Leads k r n Start.Alike (plan.start room s)
      ((plan.pooled k).start room s') := by
  obtain ⟨r₁, kept₁, h₁, found⟩ := h.reused?
  refine Leads.trans kept₁ ?_
  have same : (plan.pooled k).config.reuse = plan.config.reuse := rfl
  rw [keptByStart] at h₁
  rw [start_apply, start_apply, same]
  generalize Sampling.reused? plan.config.reuse s = reused at *
  generalize Sampling.reused? plan.config.reuse s' = reused' at *
  obtain ⟨t, s₁⟩ := reused
  obtain ⟨t', s₁'⟩ := reused'
  cases found with
  | some like => exact h₁.leads (.done like)
  | none => exact h₁.startNew

/-! ## Generations -/

/-- **Computations that are run a number of times** stay side by side, if they
do each time for as many terms as they keep. -/
theorem Abreast.times {x x' : Sampling Term} {log : State → List Term}
    (hx : ∀ s {r n s'}, plan.Abreast k r (n + (log s).length) s s' →
      plan.Leads k r n Term.Alike (x s) (x' s')) {c : ℕ}
    (h : plan.Abreast k r (n + (Sampling.keptInRow x log c s).length) s s') :
    plan.Leads k r n (fun r => List.Forall₂ (Term.Alike r)) (x.times c s)
      (x'.times c s') := by
  induction c generalizing r s s' with
  | zero => exact Abreast.leads (n := n) h .nil
  | succ c ih =>
    rw [Sampling.keptInRow, List.length_append,
      Nat.add_comm (log s).length, ← Nat.add_assoc] at h
    obtain ⟨r₁, kept₁, h₁, first⟩ := hx s h
    obtain ⟨r₂, kept₂, h₂, others⟩ := ih h₁
    exact ⟨r₂, fun i j hr => kept₂ i j (kept₁ i j hr), h₂,
      .cons (first.mono kept₂) others⟩

/-- **Side by side, terms are generated that are alike**, as long as there is
room for all that is kept. -/
theorem Abreast.generate
    (h : plan.Abreast k r (n + (plan.kept room s).length) s s') :
    plan.Leads k r n Term.Alike (plan.generate room s)
      ((plan.pooled k).generate room s') := by
  refine kept_induct (motive := fun room s made kept => ∀ {r n s'},
    plan.Abreast k r (n + kept.length) s s' →
      plan.Leads k r n Term.Alike made
        ((plan.pooled k).generate room s')) ?_ ?_ room s h
  · intro room s t s₁ taken _ r n s' h
    obtain ⟨r₁, kept₁, h₁, alike⟩ := h.start
    rw [taken] at h₁ alike
    generalize taken' : (plan.pooled k).start room s' = start' at h₁ alike
    obtain ⟨_, s₁'⟩ := start'
    cases alike with
    | done like =>
      rw [(kept_of_done taken').1]
      exact ⟨r₁, kept₁, h₁, like⟩
  · intro room s head more s₁ taken _ _ ih children r n s' h
    rw [List.length_append, List.length_singleton, ← Nat.add_assoc,
      Nat.add_right_comm] at h
    have nothing := keptByStart_of_opened taken
    obtain ⟨r₁, kept₁, h₁, alike⟩ := Abreast.start (by rwa [nothing])
    rw [taken] at h₁ alike
    generalize taken' : (plan.pooled k).start (room + 1) s' = start' at h₁ alike
    obtain ⟨_, s₁'⟩ := start'
    cases alike with
    | opened =>
      rw [(kept_of_opened taken').1]
      obtain ⟨r₂, kept₂, h₂, below⟩ := h₁.times ih
      exact ((h₂.finish head below).trans kept₂).trans kept₁

/-- Whatever is built on either side, the states stay side by side. -/
theorem Abreast.onward (h : plan.Abreast k r n s s') {later later' : Supply}
    (le : s.supply.next ≤ later.next) (le' : s'.supply.next ≤ later'.next) :
    plan.Abreast k r n { s with supply := later }
      { s' with supply := later' } :=
  ⟨h.stream, h.unique, fun hr => (h.given hr).imp (Nat.lt_of_lt_of_le · le)
    (Nat.lt_of_lt_of_le · le'), h.pools, h.room, h.room'⟩

end Plan

/-! ## Samples -/

namespace Sampler

variable {σ τ σ' τ' : Sampler} {supply supply' : Supply}
  {ts us kept kept' : List Term}

/-- **Samples taken side by side** are alike, as long as there is room for all
that is kept. -/
theorem Takes.abreast (run : σ.Takes supply ts kept σ')
    (run' : τ.Takes supply' us kept' τ') (same : τ.plan = σ.plan.pooled k)
    (equal : ts.length = us.length)
    (h : σ.plan.Abreast k r (n + kept.length) (σ.state supply)
      (τ.state supply')) :
    ∃ r' later later', (∀ i j, r i j → r' i j)
      ∧ σ.plan.Abreast k r' n (σ'.state later) (τ'.state later')
      ∧ List.Forall₂ (Term.Alike r') ts us := by
  induction run generalizing r τ supply' us kept' with
  | none σ supply =>
    cases run' with
    | none => exact ⟨r, supply, supply', fun _ _ => id, h, .nil⟩
    | sampled => cases equal
  | @sampled σ σ' supply later ts kept onward _ ih =>
    cases run' with
    | none => cases equal
    | @sampled _ _ _ later' us kept' onward' rest' =>
      rw [List.length_append, Nat.add_comm (σ.kept later).length,
        ← Nat.add_assoc] at h
      have begun : σ.plan.Abreast k r
          (n + kept.length + (σ.kept later).length) (σ.state later)
          (τ.state later') := h.onward onward onward'
      obtain ⟨r₁, kept₁, h₁, first⟩ := Plan.Abreast.generate begun
      have term : (τ.sample later').1.1 = ((σ.plan.pooled k).generate
          σ.plan.config.maxDepth (τ.state later')).1 := by
        rw [term_sample, same]
        rfl
      have state : (τ.sample later').1.2.state (τ.sample later').2
          = ((σ.plan.pooled k).generate σ.plan.config.maxDepth
              (τ.state later')).2 := by
        rw [state_sample, same]
        rfl
      rw [← term_sample, ← term] at first
      rw [← state_sample, ← state] at h₁
      obtain ⟨r₂, last, last', kept₂, h₂, others⟩ :=
        ih rest' same (Nat.succ.inj equal) h₁
      exact ⟨r₂, last, last', fun i j hr => kept₂ i j (kept₁ i j hr), h₂,
        .cons (first.mono kept₂) others⟩

/-- **The size of the pool makes no difference before it is full.** Take two
new samplers that are set up alike but for the sizes of their pools, both
positive, or any sizes if reuse never happens. Let them take as many samples,
with anything built between them, and let neither keep more terms than its
pool holds, where a pool that holds nothing has no limit. Then the samples of
both say the same and share the same, and the streams are left at the same
place. -/
theorem alike_while_room {seed : UInt64} {table : SymbolTable}
    {symbols : List Symbol} {config : Config} {p q : ℕ}
    (made : ofSeed seed table symbols { config with poolSize := p } = .ok σ)
    (made' : ofSeed seed table symbols { config with poolSize := q } = .ok τ)
    (sizes : 0 < p ∧ 0 < q ∨ config.reuse.Never)
    (run : σ.Takes supply ts kept σ') (run' : τ.Takes supply' us kept' τ')
    (equal : ts.length = us.length) (room : p = 0 ∨ kept.length ≤ p)
    (room' : q = 0 ∨ kept.length ≤ q) :
    us.map Term.tree = ts.map Term.tree ∧ Term.SharesAs ts us
      ∧ τ'.stream = σ'.stream := by
  obtain ⟨formers, known, rfl⟩ := SymbolTable.formers_of_ofSeed made
  obtain ⟨formers', known', rfl⟩ := SymbolTable.formers_of_ofSeed made'
  obtain rfl : formers = formers' := Except.ok.inj (known.symm.trans known')
  rw [← Nat.zero_add kept.length] at room room'
  -- Nothing is built yet, so no numbers correspond.
  obtain ⟨r, later, later', -, abreast, alike⟩ :=
    run.abreast (r := fun _ _ => False) run' rfl equal
      { stream := rfl
        unique := ⟨fun _ _ _ h => h.elim, fun _ _ _ h => h.elim⟩
        given := False.elim
        pools := sizes.symm.imp_right fun sizes => ⟨sizes, .nil⟩
        room := State.holds_of_empty rfl room
        room' := State.holds_of_empty rfl room' }
  refine ⟨?_, Term.sharesAs_of_alike abreast.unique alike, abreast.stream⟩
  rw [← List.forall₂_eq_eq_eq, List.forall₂_map_left_iff,
    List.forall₂_map_right_iff]
  exact (alike.imp fun _ _ => Term.Alike.tree_eq).flip

/-- Reuse every other time, and a head wherever there is room. -/
def everyOther : Config where
  maxDepth := 1
  leaf := .ofNat .double 0
  reuse := .ofNat .double 0x3fe0000000000000

/-- Two samples of each of two samplers, the second of which is used when the
first has been. Five terms are kept, and the pools hold five and nine. -/
theorem alike_while_room_everyOther :
    ∃ σ τ t t' u u' kept kept' σ' τ' supply,
      ofSeed 12 ∅ [.consTag] { everyOther with poolSize := 5 } = .ok σ
        ∧ ofSeed 12 ∅ [.consTag] { everyOther with poolSize := 9 } = .ok τ
        ∧ σ.Takes .initial [t, t'] kept σ' ∧ kept.length = 5
        ∧ τ.Takes supply [u, u'] kept' τ'
        ∧ [u, u'].map Term.tree = [t, t'].map Term.tree
        ∧ Term.SharesAs [t, t'] [u, u'] ∧ τ'.stream = σ'.stream := by
  let σ := ofFormers 12 [⟨.consTag, 2⟩] { everyOther with poolSize := 5 }
  let τ := ofFormers 12 [⟨.consTag, 2⟩] { everyOther with poolSize := 9 }
  have made : ofSeed 12 ∅ [.consTag] { everyOther with poolSize := 5 }
      = .ok σ := rfl
  have made' : ofSeed 12 ∅ [.consTag] { everyOther with poolSize := 9 }
      = .ok τ := rfl
  have few : (σ.kept .initial
      ++ ((σ.sample .initial).1.2.kept (σ.sample .initial).2 ++ [])).length
      = 5 := by
    decide +kernel
  clear_value σ τ
  have run := Takes.sampled (σ := σ) (Nat.le_refl Supply.initial.next)
    (.sampled (Nat.le_refl _) (.none _ _))
  have run' := Takes.sampled (σ := τ)
    (Nat.le_refl ((σ.sample .initial).1.2.sample (σ.sample .initial).2).2.next)
    (.sampled (Nat.le_refl _) (.none _ _))
  have same := alike_while_room made made' (.inl (by decide)) run run' rfl
    (.inr few.le) (.inr (few.le.trans (by decide)))
  exact ⟨σ, τ, _, _, _, _, _, _, _, _, _, made, made', run, few, run', same⟩

end Sampler

end TermGraph
