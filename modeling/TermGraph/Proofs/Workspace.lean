import TermGraph.Proofs.Requests
import TermGraph.Proofs.SampledTerms
import TermGraph.Script.Expr

/-!
# Runs over one table

Terms are obtained one after another, and each new one may use any that
are there: as children, as what is copied or taken apart, or through the
pool of a sampler. A `Workspace` holds what has been obtained so far, and
an `Operation` is anything that can be done next. Registrations come in
between as they please, so a sampler may be older than half of the table
it was made over, and a head older than the terms it heads.

Operands are meant by position, and any number is a position. What is
missing or refused changes nothing, so every list of operations is a run.
Memory has no limit here; a run that is stopped at one is the beginning of a
run that is not.

What holds of a run is said through a heap that is not part of it. In
`Workspace.In` the heap has all terms that were ever built, and every
node in it has as many children as the table *now* says. An operation
enlarges the heap by terms the table admits (`Workspace.lives_perform`),
and a registration leaves what the table says alone
(`Workspace.arity?_perform`), which is all there is to the step
`Workspace.in_perform`.
-/

namespace TermGraph

open Script (Constant)

/-- **How a term is obtained** from terms that are there. -/
inductive Recipe where
  /-- A boxed scalar. -/
  | scalar (value : Scalar)
  /-- A constant. -/
  | constant (c : Constant)
  /-- A list cell. -/
  | cons (head tail : ℕ)
  /-- A list. -/
  | list (items : List ℕ)
  /-- A present value. -/
  | present (value : ℕ)
  /-- A symbol applied with the arity the table has for it. -/
  | apply (head : Symbol) (args : List ℕ)
  /-- A symbol applied to nothing. -/
  | atom (head : Symbol)
  /-- A term with other children. -/
  | withChildren (term : ℕ) (args : List ℕ)
  /-- A new instance of a term. -/
  | copy (term : ℕ)
  /-- The child of a term. -/
  | child (term index : ℕ)

namespace Recipe

/-- The terms at given positions. -/
def pick? (ts : List Term) (positions : List ℕ) : Option (List Term) :=
  positions.mapM (ts[·]?)

/-- **What a recipe builds** over the terms that are there, if none is
missing and the constructor accepts them. -/
def prepare? (table : SymbolTable) (ts : List Term) :
    Recipe → Option (Fresh Term)
  | scalar v => some (Term.newBoxed v)
  | constant c => some c.build
  | cons i j => ts[i]?.bind fun t => ts[j]?.map fun u => Term.newCons t u
  | list is => (pick? ts is).map Term.newList
  | present i => ts[i]?.map Term.newSome
  | apply s is => (pick? ts is).bind fun us => (table.apply s us).toOption
  | atom s => (table.atom s).toOption
  | withChildren i is => ts[i]?.bind fun t =>
      (pick? ts is).bind fun us => (t.withChildren us).toOption
  | copy i => ts[i]?.map Term.copy
  | child i k => ts[i]?.bind fun t => t.children[k]?.map pure

end Recipe

/-- **What is there in a run.** -/
structure Workspace where
  /-- The table. -/
  table : SymbolTable
  /-- The terms obtained so far, oldest first. -/
  terms : List Term
  /-- The samplers, oldest first. -/
  samplers : List Sampler
  /-- The serial numbers not given out. -/
  supply : Supply

/-- **What can be done in a run.** -/
inductive Operation where
  /-- Registers a name. -/
  | intern (name : String) (arity : ℕ)
  /-- Obtains a term. -/
  | obtain (recipe : Recipe)
  /-- Sets up a sampler over the table. -/
  | newSampler (seed : UInt64) (heads : List Symbol) (config : Config)
  /-- Takes a sample. -/
  | sample (sampler : ℕ)

/-- **The requests for names in an operation**: it is one, or there are
none. -/
def Operation.requests : Operation → List Entry
  | .intern name arity => [⟨name, arity⟩]
  | _ => []

namespace Workspace

/-- The beginning of a run over a table. -/
def start (table : SymbolTable) : Workspace := ⟨table, [], [], .initial⟩

/-- **What an operation does.** One that is refused does nothing. -/
def perform (w : Workspace) : Operation → Workspace
  | .intern name arity =>
    match w.table.intern name arity with
    | .ok (_, table) => { w with table }
    | .error _ => w
  | .obtain recipe =>
    match recipe.prepare? w.table w.terms with
    | some fresh =>
      { w with
        terms := w.terms ++ [(fresh w.supply).1]
        supply := (fresh w.supply).2 }
    | none => w
  | .newSampler seed heads config =>
    match Sampler.ofSeed seed w.table heads config with
    | .ok sampler => { w with samplers := w.samplers ++ [sampler] }
    | .error _ => w
  | .sample i =>
    match w.samplers[i]? with
    | some sampler =>
      { w with
        terms := w.terms ++ [(sampler.sample w.supply).1.1]
        samplers := w.samplers.set i (sampler.sample w.supply).1.2
        supply := (sampler.sample w.supply).2 }
    | none => w

/-- **A run**: operations one after another. -/
def run (w : Workspace) (ops : List Operation) : Workspace :=
  ops.foldl perform w

end Workspace

/-! ## Recipes -/

namespace Recipe

variable {table : SymbolTable} {H : Heap} {ts us : List Term}

theorem mem_of_pick? {is : List ℕ} (h : pick? ts is = some us) :
    ∀ u ∈ us, u ∈ ts := by
  unfold pick? at h
  induction is generalizing us with
  | nil =>
    cases h
    exact List.forall_mem_nil _
  | cons i is ih =>
    rw [List.mapM_cons] at h
    obtain ⟨t, ht, h⟩ := Option.bind_eq_some_iff.mp h
    obtain ⟨rest, hrest, h⟩ := Option.bind_eq_some_iff.mp h
    cases h
    intro u hu
    rcases List.mem_cons.mp hu with rfl | hu
    · exact List.mem_of_getElem? ht
    · exact ih hrest u hu

theorem eq_ok_of_toOption {ε α : Type} {r : Except ε α} {a : α}
    (h : r.toOption = some a) : r = .ok a := by
  cases r with
  | error e => cases h
  | ok b =>
    cases h
    rfl

/-- A constant is made in every heap that has the bounds of the order: the
table admits the others. -/
theorem makes_constant (least : .least ∈ H) (greatest : .greatest ∈ H)
    (c : Constant) : Fresh.Makes table.Admits c.build H := by
  have atomic : ∀ s : Symbol, s.isSentinel = false → s.isBuiltin = true →
      s.builtinArity? = some 0 →
        Fresh.Makes table.Admits (Term.newNode s []) H :=
    fun s plain builtin h => Fresh.makes_newNode
      (.admitted (table.admits_of_builtinArity? plain builtin h))
      (List.forall_mem_nil _)
  cases c with
  | nil => exact atomic _ rfl rfl rfl
  | absent => exact atomic _ rfl rfl rfl
  | truth b => cases b <;> exact atomic _ rfl rfl rfl
  | least => exact Fresh.makes_pure least
  | greatest => exact Fresh.makes_pure greatest
  | verdict o => cases o <;> exact atomic _ rfl rfl rfl

/-- A table applies a symbol with the arity it has for it. -/
theorem exists_of_apply_eq_ok {s : Symbol} {fresh : Fresh Term}
    (h : table.apply s us = .ok fresh) :
    ∃ k, table.arity? s = some k ∧ s.apply k us = .ok fresh := by
  unfold SymbolTable.apply at h
  split at h
  · cases h
  · split at h
    · cases h
    · next known => exact ⟨_, known, h⟩

/-- What the table applies, it admits. -/
theorem makes_apply {s : Symbol} {fresh : Fresh Term}
    (h : table.apply s us = .ok fresh) (hus : ∀ u ∈ us, u ∈ H) :
    Fresh.Makes table.Admits fresh H := by
  obtain ⟨k, known, h⟩ := exists_of_apply_eq_ok h
  obtain ⟨rfl, counted, -, plain⟩ := Fresh.of_apply_eq_ok h
  exact Fresh.makes_newNode (.admitted ⟨plain, counted ▸ known⟩) hus

/-- **What a recipe builds is made in the heap**, whatever the recipe. -/
theorem makes_of_prepare? (least : .least ∈ H) (greatest : .greatest ∈ H)
    (hts : ∀ t ∈ ts, t ∈ H) {recipe : Recipe} {fresh : Fresh Term}
    (h : recipe.prepare? table ts = some fresh) :
    Fresh.Makes table.Admits fresh H := by
  have there : ∀ {i t}, ts[i]? = some t → t ∈ H :=
    fun ht => hts _ (List.mem_of_getElem? ht)
  have picked : ∀ {is us}, pick? ts is = some us → ∀ u ∈ us, u ∈ H :=
    fun hus u hu => hts u (mem_of_pick? hus u hu)
  have cons : table.Admits .consTag 2 :=
    table.admits_of_builtinArity? rfl rfl rfl
  cases recipe with
  | scalar v =>
    cases h
    exact Fresh.makes_newBoxed v
  | constant c =>
    cases h
    exact makes_constant least greatest c
  | cons i j =>
    obtain ⟨t, ht, h⟩ := Option.bind_eq_some_iff.mp h
    obtain ⟨u, hu, rfl⟩ := Option.map_eq_some_iff.mp h
    exact Fresh.makes_newCons cons (there ht) (there hu)
  | list is =>
    obtain ⟨us, hus, rfl⟩ := Option.map_eq_some_iff.mp h
    exact Fresh.makes_newList (table.admits_of_builtinArity? rfl rfl rfl) cons
      (picked hus)
  | present i =>
    obtain ⟨t, ht, rfl⟩ := Option.map_eq_some_iff.mp h
    exact Fresh.makes_newNode
      (.admitted (table.admits_of_builtinArity? rfl rfl rfl))
      fun u hu => List.mem_singleton.mp hu ▸ there ht
  | apply s is =>
    obtain ⟨us, hus, h⟩ := Option.bind_eq_some_iff.mp h
    exact makes_apply (eq_ok_of_toOption h) (picked hus)
  | atom s => exact makes_apply (eq_ok_of_toOption h) (List.forall_mem_nil _)
  | withChildren i is =>
    obtain ⟨t, ht, h⟩ := Option.bind_eq_some_iff.mp h
    obtain ⟨us, hus, h⟩ := Option.bind_eq_some_iff.mp h
    exact Fresh.makes_withChildren (there ht) (picked hus)
      (eq_ok_of_toOption h)
  | copy i =>
    obtain ⟨t, ht, rfl⟩ := Option.map_eq_some_iff.mp h
    exact Fresh.makes_copy (there ht)
  | child i k =>
    obtain ⟨t, ht, h⟩ := Option.bind_eq_some_iff.mp h
    obtain ⟨u, hu, rfl⟩ := Option.map_eq_some_iff.mp h
    exact Fresh.makes_pure
      (Heap.mem_of_mem_children (there ht) (List.mem_of_getElem? hu))

end Recipe

/-! ## Runs -/

namespace Workspace

variable {w : Workspace} {p : Rule} {H H' : Heap}

/-- **A workspace lives in a heap** under a rule: what it has is there, it
draws on the numbers of the heap, and its samplers follow the rule. What
the table says about nodes is left open, so workspaces over different
tables can live in one heap. -/
structure Lives (w : Workspace) (p : Rule) (H : Heap) : Prop where
  /-- The supply is that of the heap. -/
  supply : w.supply = H.supply
  /-- The least term is there. -/
  least : .least ∈ H
  /-- The greatest term is there. -/
  greatest : .greatest ∈ H
  /-- What was obtained is there. -/
  terms : ∀ t ∈ w.terms, t ∈ H
  /-- The samplers are at home, and follow the rule. -/
  samplers : ∀ σ ∈ w.samplers, σ.In p H

/-- **A workspace is at home in a heap**: it lives there, its samplers follow
the table, and the nodes of the heap have the numbers of children that the
table says. -/
structure In (w : Workspace) (H : Heap) : Prop
    extends Lives w w.table.Admits H where
  /-- The nodes agree with the table. -/
  nodes : H.Keeps fun s k => w.table.arity? s = some k

theorem in_start (table : SymbolTable) : (start table).In Heap.bounds := by
  refine ⟨⟨rfl, Heap.mem_bounds.mpr (.inl rfl), Heap.mem_bounds.mpr (.inr rfl),
    List.forall_mem_nil _, List.forall_mem_nil _⟩, fun n s ts ht => ?_⟩
  rcases Heap.mem_bounds.mp ht with same | same
  · cases same
    exact table.arity?_of_isSentinel rfl
  · cases same
    exact table.arity?_of_isSentinel rfl

/-! ## What one operation does -/

/-- More terms and samplers from a larger heap live there. -/
theorem Lives.grow (h : w.Lives p H) (grows : H.Grows p H') {t : Term}
    {samplers : List Sampler} {supply : Supply} (hsupply : supply = H'.supply)
    (ht : t ∈ H') (hsamplers : ∀ σ ∈ samplers, σ.In p H') :
    Lives ⟨w.table, w.terms ++ [t], samplers, supply⟩ p H' := by
  refine ⟨hsupply, grows.mem h.least, grows.mem h.greatest, fun u hu => ?_,
    hsamplers⟩
  rcases List.mem_append.mp hu with old | new
  · exact grows.mem (h.terms u old)
  · exact List.mem_singleton.mp new ▸ ht

/-- **What one operation builds.** The heap grows by terms the rule admits,
if it admits what the table does, and the workspace lives in the larger
one. -/
theorem lives_perform (h : w.Lives p H)
    (admits : ∀ s k, w.table.Admits s k → p s k) (op : Operation) :
    ∃ H' : Heap, H.Grows p H' ∧ (w.perform op).Lives p H' := by
  have still : ∀ {K : Heap} {σ : Sampler}, H.Grows p K →
      σ ∈ w.samplers → σ.In p K :=
    fun grows hσ => (h.samplers _ hσ).mono grows fun _ _ => id
  unfold perform
  cases op with
  | intern name arity =>
    refine ⟨H, .refl H, ?_⟩
    dsimp only
    split
    · exact ⟨h.supply, h.least, h.greatest, h.terms, h.samplers⟩
    · exact h
  | obtain recipe =>
    dsimp only
    split
    · next prepared =>
      obtain ⟨H', grows, supply, made⟩ := (Recipe.makes_of_prepare? h.least
        h.greatest h.terms prepared).mono admits
      rw [← h.supply] at supply made
      exact ⟨H', grows, h.grow grows supply made fun σ => still grows⟩
    · exact ⟨H, .refl H, h⟩
  | newSampler seed heads config =>
    refine ⟨H, .refl H, ?_⟩
    dsimp only
    split
    · next made =>
      refine ⟨h.supply, h.least, h.greatest, h.terms, fun σ hσ => ?_⟩
      rcases List.mem_append.mp hσ with old | new
      · exact h.samplers σ old
      · rw [List.mem_singleton.mp new]
        exact (SymbolTable.in_of_ofSeed made H).mono (.refl H) admits
    · exact h
  | sample i =>
    dsimp only
    split
    · next σ hσ =>
      obtain ⟨H', grows, supply, made, home⟩ := Sampler.grows_sample
        (h.samplers σ (List.mem_of_getElem? hσ))
      rw [← h.supply] at supply made home
      refine ⟨H', grows, h.grow grows supply made fun σ' hσ' => ?_⟩
      rcases List.mem_or_eq_of_mem_set hσ' with old | rfl
      · exact still grows old
      · exact home
    · exact ⟨H, .refl H, h⟩

/-- **What was obtained stays where it is**, whatever is done. -/
theorem terms_prefix_perform (w : Workspace) (op : Operation) :
    w.terms <+: (w.perform op).terms := by
  unfold perform
  cases op with
  | obtain recipe =>
    dsimp only
    split
    · exact List.prefix_append _ _
    · exact List.prefix_rfl
  | sample i =>
    dsimp only
    split
    · exact List.prefix_append _ _
    · exact List.prefix_rfl
  | intern name arity =>
    dsimp only
    split <;> exact List.prefix_rfl
  | newSampler seed heads config =>
    dsimp only
    split <;> exact List.prefix_rfl

/-- **A table changes by requests only.** -/
theorem table_perform (w : Workspace) (op : Operation) :
    (w.perform op).table = w.table.afterAll op.requests := by
  cases op with
  | intern name arity =>
    show (w.perform _).table = w.table.after ⟨name, arity⟩
    rw [perform, SymbolTable.after]
    cases w.table.intern name arity <;> rfl
  | obtain recipe =>
    rw [perform]
    split <;> rfl
  | newSampler seed heads config =>
    rw [perform]
    split <;> rfl
  | sample i =>
    rw [perform]
    split <;> rfl

/-- **What the table says it goes on to say**, whatever is done. -/
theorem arity?_perform {s : Symbol} {k : ℕ} (op : Operation)
    (h : w.table.arity? s = some k) :
    (w.perform op).table.arity? s = some k := by
  rw [table_perform]
  exact (w.table.extends_afterAll op.requests).arity?_eq h

/-- **What one operation keeps.** The heap grows by terms the table
admits, and the workspace is at home in the larger one. -/
theorem in_perform (h : w.In H) (op : Operation) :
    ∃ H' : Heap, H.Grows w.table.Admits H' ∧ (w.perform op).In H' := by
  obtain ⟨H', grows, lives⟩ := lives_perform h.toLives (fun _ _ => id) op
  -- The table may have grown, and what is there has to suit it as it is now.
  have known : ∀ s k, w.table.arity? s = some k →
      (w.perform op).table.arity? s = some k := fun s k => arity?_perform op
  have follows : ∀ σ ∈ (w.perform op).samplers,
      σ.In (w.perform op).table.Admits H' := fun σ hσ =>
    (lives.samplers σ hσ).mono (.refl H') fun s k admitted =>
      ⟨admitted.1, known s k admitted.2⟩
  exact ⟨H', grows, { lives with samplers := follows },
    (grows.keeps (fun s k admitted => admitted.2) h.nodes).mono known⟩

/-! ## Whole runs -/

/-- **What a whole run keeps**, by induction on its operations. -/
theorem in_run (h : w.In H) (ops : List Operation) :
    ∃ H' : Heap, (w.run ops).In H' := by
  induction ops generalizing w H with
  | nil => exact ⟨H, h⟩
  | cons op ops ih =>
    obtain ⟨H', -, h'⟩ := in_perform h op
    exact ih h'

-- A cell over one term is refused; over two, even the same one, it is not.
example : ((start ∅).run [.obtain (.constant .nil),
      .obtain (.apply .consTag [0]), .obtain (.apply .consTag [0, 0])]).terms
    = [.node 2 .nilTag [],
        .node 3 .consTag [.node 2 .nilTag [], .node 2 .nilTag []]] := rfl

end Workspace

end TermGraph
