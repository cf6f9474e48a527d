import TermGraph.Proofs.SideBySide
import TermGraph.Script.Session

/-!
# One script over two tables

A script that refers to symbols by name can be run over different tables.
If both have registered the names in one order, with the same numbers of
children, then an expression builds terms that correspond in both, or is
refused in both; so the terms a script saves are compared alike, although
their symbols have different numbers.

`Expr.agrees_eval` follows the recursion of the evaluation, with one case for
each way to build a term. `Session.Alongside` is what two sessions keep while
one script saves its terms in both, and `Session.Alongside.saving` follows
the script.
-/

namespace TermGraph

namespace Script

open SymbolTable Term

/-! ## Expressions -/

mutual

/-- **The symbols an expression refers to.** -/
def Expr.heads : Expr → List SymbolRef
  | .saved _ | .scalar _ | .repeated _ _ | .constant _ | .range _ _ => []
  | .cons head tail => head.heads ++ tail.heads
  | .present value => value.heads
  | .list items => headsAll items
  | .apply head args => head :: headsAll args
  | .atom head => [head]
  | .applyAs head _ args => head :: headsAll args
  | .unchecked head args => head :: headsAll args
  | .copy term => term.heads
  | .withChildren term args => term.heads ++ headsAll args
  | .descend term _ _ => term.heads
  | .chain head _ start => head :: start.heads
  | .dag head _ _ start => head :: start.heads
  | .spine head _ start other => head :: (start.heads ++ other.heads)
  | .wide head _ term => head :: term.heads

/-- The symbols several expressions refer to. -/
def headsAll : List Expr → List SymbolRef
  | [] => []
  | e :: es => e.heads ++ headsAll es

end

/-- **A reference to a symbol that is shared**: it is built in, or goes by a
name that is given. -/
def SymbolRef.Shared (ds : List Entry) : SymbolRef → Prop
  | .id s => s.isBuiltin = true
  | .name n => (Symbol.builtin? n).isSome = true ∨ n ∈ ds.map Entry.name

instance (ds : List Entry) : (ref : SymbolRef) → Decidable (ref.Shared ds)
  | .id s => inferInstanceAs (Decidable (s.isBuiltin = true))
  | .name n => inferInstanceAs
      (Decidable ((Symbol.builtin? n).isSome = true ∨ n ∈ ds.map Entry.name))

section

variable {t u : SymbolTable} {ds : List Entry} {r r' : ℕ → ℕ → Prop}
  {σ σ' : Supply} {S S' : Shelf Term} {x x' : Term}

/-- **A shared symbol is found on both sides**, and means the same. -/
theorem answers_symbol (ht : t.Registers ds) (hu : u.Registers ds)
    {ref : SymbolRef} (shared : ref.Shared ds) :
    Answers (ε := Fault) (Means t u ds) (Scope.symbol ⟨t, S⟩ ref)
      (Scope.symbol ⟨u, S'⟩ ref) := by
  have both : ∀ {n s s'}, t.find? n = some s → u.find? n = some s' →
      Means t u ds s s' → Answers (Means t u ds)
        (Scope.symbol ⟨t, S⟩ (.name n)) (Scope.symbol ⟨u, S'⟩ (.name n)) := by
    intro n s s' hs hs' means
    simp only [Scope.symbol, hs, hs']
    exact .ok means
  cases ref with
  | id s => exact .ok (.inl ⟨shared, rfl⟩)
  | name n =>
    rcases shared with builtin | given
    · obtain ⟨s, hs⟩ := Option.isSome_iff_exists.mp builtin
      have fixed : s.isBuiltin = true := by
        rw [← Symbol.isSome_builtinName?, Symbol.builtin?_eq_some_iff.mp hs]
        rfl
      exact both (find?_eq_some_iff.mpr (.inl hs))
        (find?_eq_some_iff.mpr (.inl hs)) (.inl ⟨fixed, rfl⟩)
    · obtain ⟨e, he, rfl⟩ := List.mem_map.mp given
      obtain ⟨s, known, hs⟩ := ht.exists_find? he
      obtain ⟨s', known', hs'⟩ := hu.exists_find? he
      exact both hs hs' (.inr ⟨e, he, known, known'⟩)

theorem agrees_symbol (ht : t.Registers ds) (hu : u.Registers ds)
    {ref : SymbolRef} (shared : ref.Shared ds) (beside : Beside r σ σ') :
    Agrees (fun _ => Means t u ds) r
      ((liftM (Scope.symbol ⟨t, S⟩ ref) : Evaluation Symbol) σ)
      ((liftM (Scope.symbol ⟨u, S'⟩ ref) : Evaluation Symbol) σ') :=
  beside.lift (answers_symbol ht hu shared)

/-- **Two shelves correspond**: under each name there are terms that do, or
none. -/
def ShelvesCorrespond (R : Symbol → Symbol → Prop) (r : ℕ → ℕ → Prop)
    (S S' : Shelf Term) : Prop :=
  ∀ name, Option.Rel (Corresponds R r) (S.find? name) (S'.find? name)

variable {R : Symbol → Symbol → Prop}

theorem ShelvesCorrespond.mono (h : ShelvesCorrespond R r S S')
    (imp : ∀ i j, r i j → r' i j) : ShelvesCorrespond R r' S S' := by
  intro name
  have held := h name
  generalize S.find? name = o at held ⊢
  generalize S'.find? name = o' at held ⊢
  cases held with
  | some hx => exact .some (hx.mono imp)
  | none => exact .none

theorem ShelvesCorrespond.answers_term (h : ShelvesCorrespond R r S S')
    (name : String) :
    Answers (Corresponds R r) (Scope.term ⟨t, S⟩ name)
      (Scope.term ⟨u, S'⟩ name) := by
  have held := h name
  unfold Scope.term
  generalize S.find? name = o at held
  generalize S'.find? name = o' at held
  cases held with
  | some hx => exact .ok hx
  | none => exact .error _ _

/-- Terms that correspond have children at the same positions. -/
theorem answers_child (index : ℕ) (hx : x.Corresponds R r x') :
    Answers (Corresponds R r) (child x index) (child x' index) := by
  have found := rel_getElem? hx.children_related index
  cases hx with
  | boxed => exact .error _ _
  | @node m n s s' ts us _ _ _ _ =>
    simp only [child, node?]
    dsimp only [children] at found
    generalize ts[index]? = o at found ⊢
    generalize us[index]? = o' at found ⊢
    cases found with
    | some hy => exact .ok hy
    | none => exact .error _ _

theorem answers_descend (index n : ℕ) (hx : x.Corresponds R r x') :
    Answers (Corresponds R r) (descend index n x) (descend index n x') := by
  induction n generalizing x x' with
  | zero => exact .ok hx
  | succ n ih =>
    have found := answers_child index hx
    unfold descend
    generalize child x index = o at found ⊢
    generalize child x' index = o' at found ⊢
    cases found with
    | ok hy => exact ih hy
    | error e e' => exact .error e e'

/-! ## Evaluation -/

theorem forall₂_replicate (n : ℕ) (hx : x.Corresponds R r x') :
    List.Forall₂ (Corresponds R r) (List.replicate n x)
      (List.replicate n x') := by
  induction n with
  | zero => exact .nil
  | succ n ih => exact .cons hx ih

/-- **A head and what it is applied to**, one after the other. The terms at
hand still correspond when the second is evaluated. -/
theorem agrees_headed (ht : t.Registers ds) (hu : u.Registers ds)
    {ref : SymbolRef} (shared : ref.Shared ds) (beside : Beside r σ σ')
    (saved : ShelvesCorrespond (Means t u ds) r S S') {α α' β β' : Type}
    {like : (ℕ → ℕ → Prop) → α → α' → Prop}
    {like' : (ℕ → ℕ → Prop) → β → β' → Prop} {x : Evaluation α}
    {x' : Evaluation α'} {f : Symbol → α → Evaluation β}
    {f' : Symbol → α' → Evaluation β'}
    (hx : ∀ {r' τ τ'}, Beside r' τ τ' →
      ShelvesCorrespond (Means t u ds) r' S S' → Agrees like r' (x τ) (x' τ'))
    (hf : ∀ {r' s s' a a' τ τ'}, (∀ i j, r i j → r' i j) → Beside r' τ τ' →
      Means t u ds s s' → like r' a a' → Agrees like' r' (f s a τ) (f' s' a' τ')) :
    Agrees like' r
      ((liftM (Scope.symbol ⟨t, S⟩ ref) >>= fun s => x >>= f s) σ)
      ((liftM (Scope.symbol ⟨u, S'⟩ ref) >>= fun s => x' >>= f' s) σ') :=
  (agrees_symbol ht hu shared beside).bind fun kept beside means =>
    (hx beside (saved.mono kept)).bind fun kept' beside hab =>
      hf (fun i j hr => kept' i j (kept i j hr)) beside means hab

mutual

/-- **An expression over shared symbols builds terms that correspond**, or
is refused on both sides. -/
theorem Expr.agrees_eval (ht : t.Registers ds) (hu : u.Registers ds) (e : Expr)
    (shared : ∀ ref ∈ e.heads, ref.Shared ds) {r : ℕ → ℕ → Prop}
    {σ σ' : Supply} (beside : Beside r σ σ')
    (saved : ShelvesCorrespond (Means t u ds) r S S') :
    Agrees (Corresponds (Means t u ds)) r (e.eval ⟨t, S⟩ σ) (e.eval ⟨u, S'⟩ σ') := by
  have order := inOrder_means ht hu
  match e with
  | .saved name =>
    rw [Expr.eval, Expr.eval]
    exact beside.lift (saved.answers_term name)
  | .scalar v =>
    rw [Expr.eval, Expr.eval]
    exact .ok (beside.newBoxed v)
  | .repeated text times =>
    rw [Expr.eval, Expr.eval]
    exact .ok (beside.newBoxed _)
  | .constant c =>
    rw [Expr.eval, Expr.eval]
    exact .ok (beside.constant order c)
  | .cons head tail =>
    rw [Expr.eval, Expr.eval]
    obtain ⟨sharedHead, sharedTail⟩ := List.forall_mem_append.mp shared
    refine (head.agrees_eval ht hu sharedHead beside saved).bind
      fun kept beside hx => ?_
    refine (tail.agrees_eval ht hu sharedTail beside (saved.mono kept)).bind
      fun kept' beside hy => ?_
    exact .ok (beside.newNode (order.builtin rfl)
      (.cons (hx.mono kept') (.cons hy .nil)))
  | .present value =>
    rw [Expr.eval, Expr.eval]
    refine (value.agrees_eval ht hu shared beside saved).bind
      fun _ beside hx => ?_
    exact .ok (beside.newNode (order.builtin rfl) (.cons hx .nil))
  | .list items =>
    rw [Expr.eval, Expr.eval]
    refine (agrees_evalAll ht hu items shared beside saved).bind
      fun _ beside hxs => ?_
    exact .ok (beside.newList order hxs)
  | .range low high =>
    rw [Expr.eval, Expr.eval]
    exact .ok ((beside.mapM_newBoxed _).bind
      fun _ beside hxs => beside.newList order hxs)
  | .apply head args =>
    rw [Expr.eval, Expr.eval]
    obtain ⟨sharedHead, sharedArgs⟩ := List.forall_mem_cons.mp shared
    refine agrees_headed ht hu sharedHead beside saved
      (agrees_evalAll ht hu args sharedArgs) fun _ beside means hxs => ?_
    exact (beside.build (means.apply order hxs)).checked
  | .atom head =>
    rw [Expr.eval, Expr.eval]
    have sharedHead := List.forall_mem_singleton.mp shared
    refine (agrees_symbol ht hu sharedHead beside).bind
      fun _ beside means => ?_
    exact (beside.build (means.apply order .nil)).checked
  | .applyAs head arity args =>
    rw [Expr.eval, Expr.eval]
    obtain ⟨sharedHead, sharedArgs⟩ := List.forall_mem_cons.mp shared
    refine agrees_headed ht hu sharedHead beside saved
      (agrees_evalAll ht hu args sharedArgs) fun _ beside means hxs => ?_
    exact (beside.build (order.apply means hxs arity)).checked
  | .unchecked head args =>
    rw [Expr.eval, Expr.eval]
    obtain ⟨sharedHead, sharedArgs⟩ := List.forall_mem_cons.mp shared
    refine agrees_headed ht hu sharedHead beside saved
      (agrees_evalAll ht hu args sharedArgs) fun _ beside means hxs => ?_
    exact .ok (beside.newNode means hxs)
  | .copy term =>
    rw [Expr.eval, Expr.eval]
    refine (term.agrees_eval ht hu shared beside saved).bind fun _ beside hx => ?_
    exact .ok (beside.copy hx)
  | .withChildren term args =>
    rw [Expr.eval, Expr.eval]
    obtain ⟨sharedTerm, sharedArgs⟩ := List.forall_mem_append.mp shared
    refine (term.agrees_eval ht hu sharedTerm beside saved).bind
      fun kept beside hx => ?_
    refine (agrees_evalAll ht hu args sharedArgs beside (saved.mono kept)).bind
      fun kept' beside hxs => ?_
    exact (beside.build ((hx.mono kept').withChildren order hxs)).checked
  | .descend term index times =>
    rw [Expr.eval, Expr.eval]
    refine (term.agrees_eval ht hu shared beside saved).bind fun _ beside hx => ?_
    exact beside.lift (answers_descend index times hx)
  | .chain head times start =>
    rw [Expr.eval, Expr.eval]
    obtain ⟨sharedHead, sharedStart⟩ := List.forall_mem_cons.mp shared
    refine agrees_headed ht hu sharedHead beside saved
      (start.agrees_eval ht hu sharedStart) fun _ beside means hx => ?_
    exact (means.applyTimes order beside
      (fun _ hy => .cons hy .nil) times hx).checked
  | .dag head width times start =>
    rw [Expr.eval, Expr.eval]
    obtain ⟨sharedHead, sharedStart⟩ := List.forall_mem_cons.mp shared
    refine agrees_headed ht hu sharedHead beside saved
      (start.agrees_eval ht hu sharedStart) fun _ beside means hx => ?_
    exact (means.applyTimes order beside
      (fun _ hy => forall₂_replicate width hy) times hx).checked
  | .spine head times start other =>
    rw [Expr.eval, Expr.eval]
    obtain ⟨sharedHead, sharedBoth⟩ := List.forall_mem_cons.mp shared
    obtain ⟨sharedStart, sharedOther⟩ := List.forall_mem_append.mp sharedBoth
    refine agrees_headed ht hu sharedHead beside saved
      (start.agrees_eval ht hu sharedStart) fun kept beside means hx => ?_
    refine (other.agrees_eval ht hu sharedOther beside (saved.mono kept)).bind
      fun kept' beside hz => ?_
    exact (means.applyTimes order beside
      (fun more hy => .cons hy (.cons (hz.mono more) .nil)) times
      (hx.mono kept')).checked
  | .wide head width term =>
    rw [Expr.eval, Expr.eval]
    obtain ⟨sharedHead, sharedTerm⟩ := List.forall_mem_cons.mp shared
    refine agrees_headed ht hu sharedHead beside saved
      (term.agrees_eval ht hu sharedTerm) fun _ beside means hx => ?_
    exact (beside.build
      (means.apply order (forall₂_replicate width hx))).checked

/-- So do several. -/
theorem agrees_evalAll (ht : t.Registers ds) (hu : u.Registers ds)
    (es : List Expr) (shared : ∀ ref ∈ headsAll es, ref.Shared ds) {r : ℕ → ℕ → Prop}
    {σ σ' : Supply} (beside : Beside r σ σ')
    (saved : ShelvesCorrespond (Means t u ds) r S S') :
    Agrees (fun r => List.Forall₂ (Corresponds (Means t u ds) r)) r
      (evalAll ⟨t, S⟩ es σ) (evalAll ⟨u, S'⟩ es σ') := by
  match es with
  | [] =>
    rw [evalAll, evalAll]
    exact .ok (beside.made .nil)
  | e :: es =>
    rw [evalAll, evalAll]
    obtain ⟨sharedFirst, sharedRest⟩ := List.forall_mem_append.mp shared
    refine (e.agrees_eval ht hu sharedFirst beside saved).bind
      fun kept beside hx => ?_
    refine (agrees_evalAll ht hu es sharedRest beside (saved.mono kept)).bind
      fun kept' beside hxs => ?_
    exact .ok (beside.made (.cons (hx.mono kept') hxs))

end

end

/-! ## Sessions -/

/-- **What is put under one name leaves the others alone.** -/
theorem Shelf.find?_put_of_ne {α : Type} (S : Shelf α) {name other : String}
    (a : α) (h : other ≠ name) : (S.put name a).find? other = S.find? other := by
  have apart : (other == name) = false := beq_eq_false_iff_ne.mpr h
  obtain ⟨entries⟩ := S
  simp only [Shelf.find?, Shelf.put, Shelf.remove, List.lookup_cons, apart]
  induction entries with
  | nil => rfl
  | cons entry entries ih =>
    obtain ⟨key, b⟩ := entry
    by_cases same : key = name
    · rw [List.filter_cons_of_neg (by simp [same]), ih, List.lookup_cons, same,
        apart]
    · rw [List.filter_cons_of_pos (by simp [same]), List.lookup_cons,
        List.lookup_cons, ih]

theorem ShelvesCorrespond.put {R : Symbol → Symbol → Prop} {r : ℕ → ℕ → Prop}
    {S S' : Shelf Term} {x x' : Term} (h : ShelvesCorrespond R r S S')
    (name : String) (hx : x.Corresponds R r x') :
    ShelvesCorrespond R r (S.put name x) (S'.put name x') := by
  intro other
  by_cases same : other = name
  · rw [same, Shelf.find?_put_self, Shelf.find?_put_self]
    exact .some hx
  · rw [S.find?_put_of_ne x same, S'.find?_put_of_ne x' same]
    exact h other

namespace Session

variable {ds : List Entry} {r : ℕ → ℕ → Prop} {s s' : Session}

/-- The session after a term was to be saved under a name. An expression that
is refused leaves everything as it is. -/
def save (s : Session) (name : String) (e : Expr) : Session :=
  (s.attempt (.save name e)).elim s Prod.snd

/-- **Terms saved one after another** under names. -/
def saving (s : Session) (steps : List (String × Expr)) : Session :=
  steps.foldl (fun s step => s.save step.1 step.2) s

/-- **The comparison of two saved terms**, if both are there. -/
def compared? (s : Session) (x y : String) :
    Option (Option (Ordering × Tally)) :=
  (s.saved.find? x).bind fun a => (s.saved.find? y).map a.compareTally?

/-- What saving a term does to a session. It does not stop the program. -/
theorem attempt_save (s : Session) (name : String) (e : Expr) :
    s.attempt (.save name e)
      = match e.eval s.scope s.supply with
        | .ok y => some (.ok (.term y.1),
            { s with saved := s.saved.put name y.1, supply := y.2 })
        | .error fault => some (.error fault, s) := by
  have performed : (Action.save name e).perform.run s
      = ExceptT.mk (some (match e.eval s.scope s.supply with
        | .ok y => .ok (.term y.1,
            { s with saved := s.saved.put name y.1, supply := y.2 })
        | .error fault => .error fault)) := by
    show ((ExceptT.mk (some (e.eval s.scope s.supply)) >>= fun y =>
        pure (y.1, { s with supply := y.2 })) >>= fun y =>
      pure (Reply.term y.1, { y.2 with saved := y.2.saved.put name y.1 }) :
      ExceptT Fault Option (Reply × Session)) = _
    cases e.eval s.scope s.supply <;> rfl
  rw [attempt, performed]
  cases e.eval s.scope s.supply <;> rfl

theorem save_eq (s : Session) (name : String) (e : Expr) :
    s.save name e
      = match e.eval s.scope s.supply with
        | .ok y => { s with saved := s.saved.put name y.1, supply := y.2 }
        | .error _ => s := by
  rw [save, attempt_save]
  cases e.eval s.scope s.supply <;> rfl

/-- **Two sessions are side by side**: the tables are still those that
registered the names in order, and what is saved corresponds. -/
structure Alongside (t u : SymbolTable) (ds : List Entry) (s s' : Session) :
    Prop where
  /-- The table of the one session. -/
  table : s.table = t
  /-- The table of the other. -/
  table' : s'.table = u
  /-- The saved terms correspond, by numbers that do. -/
  saved : ∃ r, Beside r s.supply s'.supply
    ∧ ShelvesCorrespond (SymbolTable.Means t u ds) r s.saved s'.saved

variable {t u : SymbolTable}

/-- **Saving one more term** keeps sessions side by side. -/
theorem Alongside.save (ht : t.Registers ds) (hu : u.Registers ds)
    (h : Alongside t u ds s s') (name : String) {e : Expr}
    (shared : ∀ ref ∈ e.heads, ref.Shared ds) :
    Alongside t u ds (s.save name e) (s'.save name e) := by
  obtain ⟨table, table', r, beside, saved⟩ := h
  have agrees := e.agrees_eval ht hu shared beside saved
  rw [save_eq, save_eq, scope, scope, table, table']
  generalize e.eval ⟨t, s.saved⟩ s.supply = o at agrees
  generalize e.eval ⟨u, s'.saved⟩ s'.supply = o' at agrees
  cases agrees with
  | ok made =>
    obtain ⟨r', kept, beside', hx⟩ := made
    exact ⟨rfl, rfl, r', beside', (saved.mono kept).put name hx⟩
  | error _ _ => exact ⟨table, table', r, beside, saved⟩

/-- **So does a whole script**, by induction on its steps. -/
theorem Alongside.saving (ht : t.Registers ds) (hu : u.Registers ds)
    {steps : List (String × Expr)} (h : Alongside t u ds s s')
    (shared : ∀ step ∈ steps, ∀ ref ∈ step.2.heads, ref.Shared ds) :
    Alongside t u ds (s.saving steps) (s'.saving steps) := by
  induction steps generalizing s s' with
  | nil => exact h
  | cons step steps ih =>
    obtain ⟨first, rest⟩ := List.forall_mem_cons.mp shared
    exact ih (h.save ht hu step.1 first) rest

/-- **Saved terms are compared alike** in sessions that are side by side. -/
theorem Alongside.compared?_eq (ht : t.Registers ds) (hu : u.Registers ds)
    (h : Alongside t u ds s s') (x y : String) :
    s'.compared? x y = s.compared? x y := by
  obtain ⟨-, -, r, beside, saved⟩ := h
  have first := saved x
  have second := saved y
  unfold compared?
  generalize s.saved.find? x = a, s'.saved.find? x = a' at first
  generalize s.saved.find? y = b, s'.saved.find? y = b' at second
  cases first with
  | none => rfl
  | some hx =>
    cases second with
    | none => rfl
    | some hy =>
      exact congrArg some (Term.compareTally?_of_corresponds
        (SymbolTable.inOrder_means ht hu) beside.unique hx hy)

/-- **Comparisons depend on registrations by their order alone.** Two
sessions have tables that registered certain names, with the same numbers of
children and in the same order, among whatever others. Terms that one script
saves in both sessions, over these names, built-in symbols and scalars, are
compared in the one as in the other, with the same verdict and the same
counts. The symbols of the one table become those of the other by a strictly
increasing renaming; and no such renaming, on whatever terms, changes a
comparison. A table that a history of requests has left, as long as it has
room, registered what was asked for the first time, in the order in which it
was. -/
theorem compared_alike_of_registered_in_order (ds : List Entry)
    (s s' : Session) (ht : s.table.Registers ds) (hu : s'.table.Registers ds)
    (unsaved : s.saved = {}) (unsaved' : s'.saved = {})
    (steps : List (String × Expr))
    (shared : ∀ step ∈ steps, ∀ ref ∈ step.2.heads, ref.Shared ds) :
    (∀ x y, (s'.saving steps).compared? x y = (s.saving steps).compared? x y)
      ∧ Symbol.Renames (s.table.translate s'.table) (s.table.symbolsOf ds)
      ∧ (∀ e ∈ ds, ∃ a, s.table.find? e.name = some a
          ∧ s'.table.find? e.name = some (s.table.translate s'.table a))
      ∧ (∀ (f : Symbol → Symbol) (S : Set Symbol) (a b : Term),
          Symbol.Renames f S →
          a.tree.All (fun head _ => head.isBuiltin = true ∨ head ∈ S) →
          b.tree.All (fun head _ => head.isBuiltin = true ∨ head ∈ S) →
          (a.rename f).compareTally? (b.rename f) = a.compareTally? b)
      ∧ ∀ history : List Entry,
          Symbol.firstFree + (SymbolTable.freeNames history).card
            ≤ Symbol.maxTag.toNat →
          ds.Sublist (SymbolTable.firsts [] history) →
          (SymbolTable.afterAll ∅ history).Registers ds := by
  have alongside : Alongside s.table s'.table ds s s' := by
    refine ⟨rfl, rfl, _, beside_bounds s.supply s'.supply, fun name => ?_⟩
    rw [unsaved, unsaved']
    exact .none
  refine ⟨(alongside.saving ht hu shared).compared?_eq ht hu,
    SymbolTable.renames_translate ht hu, fun e he => ?_,
    fun f S a b => Term.compareTally?_rename,
    fun history => SymbolTable.registers_afterAll⟩
  obtain ⟨a, known, found⟩ := ht.exists_find? he
  obtain ⟨a', known', found'⟩ := hu.exists_find? he
  have means : SymbolTable.Means s.table s'.table ds a a' :=
    .inr ⟨e, he, known, known'⟩
  exact ⟨a, found, means.translate_eq.symm ▸ found'⟩

/-- Two histories of two names, one of them with others before, between and
behind, with a repetition, a conflict and a built-in name. -/
theorem compared_alike_of_registered_in_order_histories :
    let ds : List Entry := [⟨"f", 1⟩, ⟨"g", 2⟩]
    let history : List Entry := [⟨"x", 0⟩, ⟨"cons", 2⟩, ⟨"f", 1⟩, ⟨"f", 3⟩,
      ⟨"y", 4⟩, ⟨"f", 1⟩, ⟨"g", 2⟩, ⟨"z", 0⟩]
    let s : Session := { table := .afterAll ∅ ds }
    let s' : Session := { table := .afterAll ∅ history }
    let steps : List (String × Expr) :=
      [("a", .apply (.name "f") [.constant .nil]),
        ("b", .apply (.name "g") [.saved "a", .constant .nil]),
        ("c", .apply (.name "g") [.saved "a", .scalar (.int32 5)])]
    s.table.find? "f" = some (.ofNat 15) ∧ s'.table.find? "f" = some (.ofNat 16)
      ∧ s'.table.Registers ds
      ∧ (s.saving steps).compared? "b" "c" = some (some (.gt, ⟨2, 1⟩))
      ∧ (s'.saving steps).compared? "b" "c" = some (some (.gt, ⟨2, 1⟩)) := by
  intro ds history s s' steps
  have ht : s.table.Registers ds :=
    SymbolTable.registers_afterAll (by decide) (by decide)
  have hu : s'.table.Registers ds :=
    SymbolTable.registers_afterAll (by decide) (by decide)
  obtain ⟨alike, -, -, -, left⟩ :=
    compared_alike_of_registered_in_order ds s s' ht hu rfl rfl steps (by decide)
  have known : (s.saving steps).compared? "b" "c"
      = some (some (.gt, ⟨2, 1⟩)) := by decide +kernel
  exact ⟨by decide +kernel, by decide +kernel,
    left history (by decide) (by decide), known, (alike "b" "c").trans known⟩

end Session

end Script

end TermGraph
