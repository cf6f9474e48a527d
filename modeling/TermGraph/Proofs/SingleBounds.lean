import TermGraph.Proofs.Commons

/-!
# Each bound of the order is one instance, until it is copied

The least and the greatest term are there from the beginning, and the tags
they carry are refused wherever a head is applied. So a second node with
one of the tags is brought about by none of the operations that apply a
head, nor by those that put a head of their own over what is there, nor by
a sampler, which has no heads but those it was set up with.

A copy is another matter. It has the head of what is copied, and nothing
asks whether that is a bound: the copy of a bound is equal to it and is not
the same instance. `Commons.single_iff` says that this is all there is to
it. The terms of a run know the bounds as the two instances that were there
from the beginning exactly if none of its moves copies one of them.
-/

namespace TermGraph

/-! ## Terms that know each bound as one instance -/

namespace Term

variable {n : ℕ} {v : Scalar} {s : Symbol} {ts : List Term} {t u x : Term}

/-- **A term knows the bounds as single instances**: whatever is found in it
with the tag of a bound is that bound. -/
def Single (t : Term) : Prop :=
  ∀ x : Term, x.Occurs t →
    (x.tag = .minTag → x.same least = true)
      ∧ (x.tag = .maxTag → x.same greatest = true)

/-- What has no node with the tag of a bound knows no other. -/
theorem single_of_plain (h : t.tree.All Rule.plain) : t.Single := by
  intro x hx
  have other : x.tag.isSentinel = false := by
    cases x with
    | boxed n v => cases v <;> rfl
    | node n s ts => exact ((all_tree_iff t).mp h n s ts hx).2
  constructor
  · intro same
    rw [same] at other
    cases other
  · intro same
    rw [same] at other
    cases other

theorem single_boxed (n : ℕ) (v : Scalar) : (boxed n v).Single :=
  single_of_plain (Tree.all_boxed v)

/-- **A node knows the bounds as its children do**, if it is no second
one. -/
theorem single_node_iff : (node n s ts).Single ↔
    ((s = .minTag → n = 0) ∧ (s = .maxTag → n = 1)) ∧ ∀ t ∈ ts, t.Single := by
  constructor
  · intro h
    obtain ⟨least, greatest⟩ := h _ (.self _)
    exact ⟨⟨fun same => beq_iff_eq.mp (least same),
      fun same => beq_iff_eq.mp (greatest same)⟩,
      fun t ht x hx => h x (.under ht hx)⟩
  · rintro ⟨⟨least, greatest⟩, below⟩ x hx
    rcases occurs_node_iff.mp hx with rfl | ⟨t, ht, inside⟩
    · exact ⟨fun same => beq_iff_eq.mpr (least same),
        fun same => beq_iff_eq.mpr (greatest same)⟩
    · exact below t ht x inside

/-- A node with another head is no bound. -/
theorem single_node (n : ℕ) (plain : s.isSentinel = false)
    (hts : ∀ t ∈ ts, t.Single) : (node n s ts).Single := by
  refine single_node_iff.mpr ⟨⟨?_, ?_⟩, hts⟩
  · rintro rfl
    cases plain
  · rintro rfl
    cases plain

/-- The bounds know each other as single instances. -/
theorem single_least : least.Single :=
  single_node_iff.mpr
    ⟨⟨fun _ => rfl, fun other => (by cases other)⟩, List.forall_mem_nil _⟩

theorem single_greatest : greatest.Single :=
  single_node_iff.mpr
    ⟨⟨fun other => (by cases other), fun _ => rfl⟩, List.forall_mem_nil _⟩

theorem Single.of_mem_children (h : t.Single) (hu : u ∈ t.children) :
    u.Single := fun x hx => h x (.under hu hx)

/-! ## What brings a second bound about -/

variable {table : SymbolTable} {fresh : Fresh Term} {supply : Supply}

/-- A copy of another term knows the bounds as that does. -/
theorem Single.copy (h : t.Single) (plain : t.isSentinel = false) :
    (t.copy supply).1.Single := by
  cases t with
  | boxed n v => exact single_boxed _ v
  | node n s ts => exact single_node _ plain fun u hu => h.of_mem_children hu

theorem single_newCons (ht : t.Single) (hu : u.Single) :
    (newCons t u supply).1.Single := by
  refine single_node _ rfl fun x hx => ?_
  rcases List.mem_cons.mp hx with rfl | hx
  · exact ht
  · exact List.mem_singleton.mp hx ▸ hu

/-- Cells put on one after another know the bounds as what they are made
of. -/
theorem single_foldlM_newCons (hts : ∀ t ∈ ts, t.Single) (hu : u.Single) :
    ((ts.foldlM (fun tail head => newCons head tail) u : Fresh Term)
      supply).1.Single := by
  induction ts generalizing u supply with
  | nil => exact hu
  | cons t ts ih =>
    rw [List.foldlM_cons]
    exact ih (fun x hx => hts x (.tail _ hx))
      (single_newCons (hts t (.head _)) hu)

theorem single_newList (hts : ∀ t ∈ ts, t.Single) :
    (newList ts supply).1.Single :=
  single_foldlM_newCons (fun t ht => hts t (List.mem_reverse.mp ht))
    (single_node _ rfl (List.forall_mem_nil _))

theorem single_constant (c : Script.Constant) : (c.build supply).1.Single := by
  have atomic : ∀ s : Symbol, s.isSentinel = false →
      (newNode s [] supply).1.Single :=
    fun s plain => single_node _ plain (List.forall_mem_nil _)
  cases c with
  | nil => exact atomic _ rfl
  | absent => exact atomic _ rfl
  | truth b => cases b <;> exact atomic _ rfl
  | least => exact single_least
  | greatest => exact single_greatest
  | verdict o => cases o <;> exact atomic _ rfl

/-- A bound is not applied, so what is applied brings none about. -/
theorem single_of_apply {k : ℕ} (h : s.apply k ts = .ok fresh)
    (hts : ∀ t ∈ ts, t.Single) : (fresh supply).1.Single := by
  obtain ⟨rfl, -, -, plain⟩ := Fresh.of_apply_eq_ok h
  exact single_node _ plain hts

theorem single_of_table_apply (h : table.apply s ts = .ok fresh)
    (hts : ∀ t ∈ ts, t.Single) : (fresh supply).1.Single := by
  obtain ⟨k, -, h⟩ := Recipe.exists_of_apply_eq_ok h
  exact single_of_apply h hts

theorem single_of_withChildren (h : t.withChildren ts = .ok fresh)
    (hts : ∀ t ∈ ts, t.Single) : (fresh supply).1.Single := by
  cases t with
  | boxed n v => cases h
  | node n s old => exact single_of_apply h hts

end Term

/-- **What a recipe builds knows the bounds as what is there does**, unless
it copies one of them. -/
theorem Recipe.single_of_prepare? {table : SymbolTable} {ts : List Term}
    {recipe : Recipe} {fresh : Fresh Term} (supply : Supply)
    (hts : ∀ t ∈ ts, t.Single)
    (other : ∀ i t, recipe = .copy i → ts[i]? = some t → t.isSentinel = false)
    (h : recipe.prepare? table ts = some fresh) :
    (fresh supply).1.Single := by
  have there : ∀ {i : ℕ} {t : Term}, ts[i]? = some t → t.Single :=
    fun ht => hts _ (List.mem_of_getElem? ht)
  have picked : ∀ {is : List ℕ} {us : List Term}, pick? ts is = some us →
      ∀ u ∈ us, u.Single := fun hus u hu => hts u (mem_of_pick? hus u hu)
  cases recipe with
  | scalar v =>
    cases h
    exact Term.single_boxed _ v
  | constant c =>
    cases h
    exact Term.single_constant c
  | cons i j =>
    obtain ⟨t, ht, h⟩ := Option.bind_eq_some_iff.mp h
    obtain ⟨u, hu, rfl⟩ := Option.map_eq_some_iff.mp h
    exact Term.single_newCons (there ht) (there hu)
  | list is =>
    obtain ⟨us, hus, rfl⟩ := Option.map_eq_some_iff.mp h
    exact Term.single_newList (picked hus)
  | present i =>
    obtain ⟨t, ht, rfl⟩ := Option.map_eq_some_iff.mp h
    exact Term.single_node _ rfl fun u hu => List.mem_singleton.mp hu ▸ there ht
  | apply s is =>
    obtain ⟨us, hus, h⟩ := Option.bind_eq_some_iff.mp h
    exact Term.single_of_table_apply (eq_ok_of_toOption h) (picked hus)
  | atom s =>
    exact Term.single_of_table_apply (eq_ok_of_toOption h)
      (List.forall_mem_nil _)
  | withChildren i is =>
    obtain ⟨t, ht, h⟩ := Option.bind_eq_some_iff.mp h
    obtain ⟨us, hus, h⟩ := Option.bind_eq_some_iff.mp h
    exact Term.single_of_withChildren (eq_ok_of_toOption h) (picked hus)
  | copy i =>
    obtain ⟨t, ht, rfl⟩ := Option.map_eq_some_iff.mp h
    exact (there ht).copy (other i t rfl ht)
  | child i k =>
    obtain ⟨t, ht, h⟩ := Option.bind_eq_some_iff.mp h
    obtain ⟨u, hu, rfl⟩ := Option.map_eq_some_iff.mp h
    exact (there ht).of_mem_children (List.mem_of_getElem? hu)

/-! ## Single bounds in a run -/

/-- **A workspace knows the bounds as single instances**, and its samplers
do not know them at all. -/
structure Workspace.Single (w : Workspace) : Prop where
  /-- The terms know each bound as one instance. -/
  terms : ∀ t ∈ w.terms, t.Single
  /-- In a pool there is no bound. -/
  pools : ∀ σ ∈ w.samplers, ∀ t ∈ σ.pool, t.tree.All Rule.plain

namespace Workspace

variable {w : Workspace} {H : Heap} {op : Operation}

/-- **One operation brings no second bound about**, unless it copies one. -/
theorem single_perform (lives : w.Lives Rule.plain H) (h : w.Single)
    (other : ∀ i t, op = .obtain (.copy i) → w.terms[i]? = some t →
      t.isSentinel = false) : (w.perform op).Single := by
  have more : ∀ {t : Term}, t.Single → ∀ u ∈ w.terms ++ [t], u.Single := by
    intro t ht u hu
    rcases List.mem_append.mp hu with old | new
    · exact h.terms u old
    · exact List.mem_singleton.mp new ▸ ht
  unfold perform
  cases op with
  | intern name arity =>
    dsimp only
    split
    · exact ⟨h.terms, h.pools⟩
    · exact h
  | obtain recipe =>
    dsimp only
    split
    · next prepared =>
      refine ⟨more (Recipe.single_of_prepare? _ h.terms ?_ prepared), h.pools⟩
      exact fun i t copies => other i t (congrArg _ copies)
    · exact h
  | newSampler seed heads config =>
    dsimp only
    split
    · next made =>
      refine ⟨h.terms, fun σ hσ t ht => ?_⟩
      rcases List.mem_append.mp hσ with old | new
      · exact h.pools σ old t ht
      · rw [List.mem_singleton.mp new, (SymbolTable.of_ofSeed_eq_ok made).2] at ht
        exact absurd ht (Array.not_mem_empty t)
    · exact h
  | sample i =>
    dsimp only
    split
    · next σ hσ =>
      have there := List.mem_of_getElem? hσ
      obtain ⟨sample, pool⟩ := Sampler.all_sample (lives.samplers σ there)
        (h.pools σ there)
      rw [← lives.supply] at sample pool
      refine ⟨more (Term.single_of_plain sample), fun σ' hσ' => ?_⟩
      rcases List.mem_or_eq_of_mem_set hσ' with old | rfl
      · exact h.pools σ' old
      · exact pool
    · exact h

end Workspace

namespace Commons

variable {c : Commons} {H : Heap} {m : Move}

/-- **A move copies a bound of the order.** -/
def CopiesBound (c : Commons) (m : Move) : Prop :=
  ∃ i j table t, m = .use i (.obtain (.copy j)) ∧ c.tables[i]? = some table
    ∧ c.terms[j]? = some t ∧ t.isSentinel = true

/-- One move brings no second bound about, unless it copies one. -/
theorem single_perform (h : c.In H) (single : (c.workspace ∅).Single)
    (other : ¬ c.CopiesBound m) : ((c.perform m).workspace ∅).Single := by
  unfold perform
  cases m with
  | newTable => exact ⟨single.terms, single.pools⟩
  | copyTable i =>
    dsimp only
    split
    · exact ⟨single.terms, single.pools⟩
    · exact single
  | use i op =>
    dsimp only
    split
    · next table there =>
      have kept : ((c.workspace table).perform op).Single := by
        refine Workspace.single_perform (h.lives table)
          ⟨single.terms, single.pools⟩ fun j t copies found => ?_
        rw [copies] at other
        exact Bool.eq_false_iff.mpr fun bound =>
          other ⟨i, j, table, t, rfl, there, found, bound⟩
      exact ⟨kept.terms, kept.pools⟩
    · exact single

/-- **Nor does a whole run**, by induction on its moves. -/
theorem single_run {moves : List Move} (h : c.In H)
    (single : (c.workspace ∅).Single)
    (other : ∀ before m after, moves = before ++ m :: after →
      ¬ (c.run before).CopiesBound m) :
    ((c.run moves).workspace ∅).Single := by
  induction moves generalizing c H with
  | nil => exact single
  | cons m moves ih =>
    obtain ⟨H', h'⟩ := in_perform h m
    refine ih h' (single_perform h single (other [] m moves rfl)) ?_
    intro before m' after split
    exact other (m :: before) m' after (congrArg _ split)

/-- **The copy of a bound is another instance** with its tag. -/
theorem exists_of_copiesBound (h : c.CopiesBound m) :
    ∃ t ∈ (c.perform m).terms, ¬ t.Single := by
  obtain ⟨i, j, table, t, rfl, hi, hj, bound⟩ := h
  cases t with
  | boxed n v => cases v <;> cases bound
  | node n s ts =>
    refine ⟨.node c.supply.next s ts, ?_, fun single => ?_⟩
    · have copied : (c.perform (.use i (.obtain (.copy j)))).terms
          = c.terms ++ [.node c.supply.next s ts] := by
        simp only [perform, hi, workspace, Workspace.perform, Recipe.prepare?,
          hj, Option.map_some]
        rfl
      rw [copied]
      exact List.mem_append_right _ (.head _)
    · -- Its number is past those of the bounds.
      have past := c.supply.two_le
      obtain ⟨⟨least, greatest⟩, -⟩ := Term.single_node_iff.mp single
      rcases Symbol.isSentinel_iff.mp bound with rfl | rfl
      · have zero := least rfl
        omega
      · have one := greatest rfl
        omega

/-- **The bounds are single instances exactly if no bound is copied.** After
any moves over any number of tables, whatever has the tag of a bound, in a
term that was obtained or below it, is the instance that was there from the
beginning, if and only if none of the moves copied such a term. -/
theorem single_iff (moves : List Move) :
    (∀ t ∈ (start.run moves).terms, t.Single)
      ↔ ∀ before m after, moves = before ++ m :: after →
          ¬ (start.run before).CopiesBound m := by
  constructor
  · rintro single before m after rfl copies
    obtain ⟨t, ht, other⟩ := exists_of_copiesBound copies
    refine other (single t ?_)
    rw [run_append]
    exact (terms_prefix_run _ after).subset ht
  · intro other
    exact (single_run in_start ⟨List.forall_mem_nil _, List.forall_mem_nil _⟩
      other).terms

/-- After the least term is copied, a node with its tag is another
instance. -/
theorem second_least_of_copy :
    Term.node 2 .minTag [] ∈ (start.run [.newTable,
        .use 0 (.obtain (.constant .least)), .use 0 (.obtain (.copy 0))]).terms
      ∧ (Term.node 2 .minTag []).tag = .minTag
      ∧ (Term.node 2 .minTag []).same .least = false :=
  ⟨.tail _ (.head _), rfl, rfl⟩

end Commons

end TermGraph
