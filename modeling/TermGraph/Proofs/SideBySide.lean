import TermGraph.Proofs.Applications
import TermGraph.Proofs.PoolSizes
import TermGraph.Proofs.RegistrationOrder
import TermGraph.Script.Expr

/-!
# Building side by side

Two computations that build terms are taken side by side. They may draw on
different supplies and use symbols of different tables, as long as the
symbols correspond in order (`Symbol.InOrder`). `Beside` says that the serial
numbers given out on the two sides correspond one to one, which is all there
is to sharing, and each term that is built adds a pair to the correspondence
(`Beside.next`).

A computation that is never refused ends on both sides with results that are
alike (`Made`). One that may be refused agrees with the other (`Agrees`):
both fail, or both go on from there. That the checks of the constructors fail
on both sides or on neither is a matter of the symbols, which are refused
alike if they correspond (`Symbol.InOrder.apply`), and of the arities the
tables have for them (`SymbolTable.Means.apply`).
-/

namespace TermGraph

/-! ## Side by side -/

/-- **The numbers given out on two sides** correspond one to one, those of
the bounds of the order to themselves. -/
structure Beside (r : ℕ → ℕ → Prop) (σ σ' : Supply) : Prop where
  /-- Each number belongs to one number of the other side. -/
  unique : Relator.BiUnique r
  /-- The numbers that correspond are given out. -/
  given : ∀ {i j}, r i j → i < σ.next ∧ j < σ'.next
  /-- The least term is one instance on both sides. -/
  least : r 0 0
  /-- So is the greatest. -/
  greatest : r 1 1

/-- **What comes of two computations**: the numbers they leave are side by
side with nothing forgotten, and the results are alike. -/
def Made {α β : Type} (like : (ℕ → ℕ → Prop) → α → β → Prop) (r : ℕ → ℕ → Prop)
    (y : α × Supply) (y' : β × Supply) : Prop :=
  ∃ r', (∀ i j, r i j → r' i j) ∧ Beside r' y.2 y'.2 ∧ like r' y.1 y'.1

/-- **Two answers**: both are given and alike, or both are refused, for
whatever reasons. -/
inductive Answers {ε α β : Type} (like : α → β → Prop) :
    Except ε α → Except ε β → Prop
  /-- Both are given. -/
  | ok {a : α} {b : β} (alike : like a b) : Answers like (.ok a) (.ok b)
  /-- Both are refused. -/
  | error (e e' : ε) : Answers like (.error e) (.error e')

/-- **Two computations agree** where they are started: both come to an end
with results that are alike, or both fail. -/
def Agrees {ε α β : Type} (like : (ℕ → ℕ → Prop) → α → β → Prop)
    (r : ℕ → ℕ → Prop) :
    Except ε (α × Supply) → Except ε (β × Supply) → Prop :=
  Answers (Made like r)

section

variable {ε α β α' β' : Type} {like : (ℕ → ℕ → Prop) → α → β → Prop}
  {like' : (ℕ → ℕ → Prop) → α' → β' → Prop} {r r' : ℕ → ℕ → Prop}
  {σ σ' : Supply}

/-- Before anything is built only the bounds of the order correspond. -/
theorem beside_bounds (σ σ' : Supply) :
    Beside (fun i j => i = j ∧ i < 2) σ σ' where
  unique := ⟨fun _ _ _ h h' => h.1.trans h'.1.symm,
    fun _ _ _ h h' => h.1.symm.trans h'.1⟩
  given := by
    rintro i _ ⟨rfl, below⟩
    exact ⟨below.trans_le σ.two_le, below.trans_le σ'.two_le⟩
  least := ⟨rfl, by decide⟩
  greatest := ⟨rfl, by decide⟩

/-- **The next numbers correspond**, once both are given out. -/
theorem Beside.next (h : Beside r σ σ') :
    Beside (paired r σ.next σ'.next) (Fresh.serial σ).2 (Fresh.serial σ').2 where
  unique := biUnique_paired h.unique (fun hr => (h.given hr).1)
    fun hr => (h.given hr).2
  given := by
    rintro i j (old | ⟨rfl, rfl⟩)
    · exact (h.given old).imp Nat.lt_succ_of_lt Nat.lt_succ_of_lt
    · exact ⟨Nat.lt_succ_self _, Nat.lt_succ_self _⟩
  least := .inl h.least
  greatest := .inl h.greatest

theorem Beside.made {a : α} {b : β} (h : Beside r σ σ') (hab : like r a b) :
    Made like r (a, σ) (b, σ') :=
  ⟨r, fun _ _ => id, h, hab⟩

theorem Made.trans {y : α × Supply} {y' : β × Supply}
    (kept : ∀ i j, r i j → r' i j) (h : Made like r' y y') :
    Made like r y y' := by
  obtain ⟨r₁, kept₁, beside, hab⟩ := h
  exact ⟨r₁, fun i j hr => kept₁ i j (kept i j hr), beside, hab⟩

theorem Made.bind {x : Fresh α} {x' : Fresh β} {f : α → Fresh α'}
    {f' : β → Fresh β'} (hx : Made like r (x σ) (x' σ'))
    (hf : ∀ {r' a b τ τ'}, (∀ i j, r i j → r' i j) → Beside r' τ τ' →
      like r' a b → Made like' r' (f a τ) (f' b τ')) :
    Made like' r ((x >>= f) σ) ((x' >>= f') σ') := by
  obtain ⟨r₁, kept, beside, hab⟩ := hx
  exact (hf kept beside hab).trans kept

/-- What was granted or refused without building anything. -/
theorem Beside.lift {x : Except ε α} {x' : Except ε β} (h : Beside r σ σ')
    (hx : Answers (like r) x x') :
    Agrees like r ((liftM x : StateT Supply (Except ε) α) σ)
      ((liftM x' : StateT Supply (Except ε) β) σ') := by
  cases hx with
  | ok hab => exact .ok (h.made hab)
  | error e e' => exact .error e e'

theorem Agrees.trans {o : Except ε (α × Supply)} {o' : Except ε (β × Supply)}
    (kept : ∀ i j, r i j → r' i j) (h : Agrees like r' o o') :
    Agrees like r o o' := by
  cases h with
  | ok made => exact .ok (made.trans kept)
  | error e e' => exact .error e e'

theorem Agrees.bind {x : StateT Supply (Except ε) α}
    {x' : StateT Supply (Except ε) β} {f : α → StateT Supply (Except ε) α'}
    {f' : β → StateT Supply (Except ε) β'} (hx : Agrees like r (x σ) (x' σ'))
    (hf : ∀ {r' a b τ τ'}, (∀ i j, r i j → r' i j) → Beside r' τ τ' →
      like r' a b → Agrees like' r' (f a τ) (f' b τ')) :
    Agrees like' r ((x >>= f) σ) ((x' >>= f') σ') := by
  show Agrees like' r (x σ >>= fun y => f y.1 y.2)
    (x' σ' >>= fun y => f' y.1 y.2)
  generalize x σ = o at hx
  generalize x' σ' = o' at hx
  cases hx with
  | ok made =>
    obtain ⟨r₁, kept, beside, hab⟩ := made
    exact (hf kept beside hab).trans kept
  | error e e' => exact .error e e'

end

/-! ## Building -/

section

open Term

variable {R : Symbol → Symbol → Prop} {r : ℕ → ℕ → Prop} {σ σ' : Supply}
  {s s' : Symbol} {x x' : Term} {ts ts' : List Term} {k : ℕ}

namespace Beside

theorem newBoxed (h : Beside r σ σ') (v : Scalar) :
    Made (Corresponds R) r (Term.newBoxed v σ) (Term.newBoxed v σ') :=
  ⟨_, fun _ _ => .inl, h.next, .boxed (.inr ⟨rfl, rfl⟩)⟩

/-- **New nodes correspond** if their heads and their children do. -/
theorem newNode (h : Beside r σ σ') (head : R s s')
    (children : List.Forall₂ (Corresponds R r) ts ts') :
    Made (Corresponds R) r (Term.newNode s ts σ) (Term.newNode s' ts' σ') :=
  ⟨_, fun _ _ => .inl, h.next, .of_children (.inr ⟨rfl, rfl⟩) head
    (children.imp fun _ _ hx => hx.mono fun _ _ => .inl)⟩

theorem copy (h : Beside r σ σ') (hx : x.Corresponds R r x') :
    Made (Corresponds R) r (x.copy σ) (x'.copy σ') := by
  cases hx with
  | boxed => exact h.newBoxed _
  | node _ head length children =>
    exact h.newNode head (List.forall₂_iff_zip.mpr ⟨length, children⟩)

/-- The scalars of a list are boxed one by one on both sides. -/
theorem mapM_newBoxed (h : Beside r σ σ') (vs : List Scalar) :
    Made (fun r => List.Forall₂ (Corresponds R r)) r
      (vs.mapM Term.newBoxed σ) (vs.mapM Term.newBoxed σ') := by
  induction vs generalizing r σ σ' with
  | nil => exact h.made .nil
  | cons v vs ih =>
    rw [List.mapM_cons]
    refine (h.newBoxed (R := R) v).bind fun kept beside first => ?_
    refine (ih beside).bind fun kept' beside' rest => ?_
    exact beside'.made (.cons (first.mono kept') rest)

/-- **New lists of terms that correspond** do. -/
theorem newList (order : Symbol.InOrder R) (h : Beside r σ σ')
    (hts : List.Forall₂ (Corresponds R r) ts ts') :
    Made (Corresponds R) r (Term.newList ts σ) (Term.newList ts' σ') := by
  have cells : ∀ {us us' : List Term} {r σ σ' y y'}, Beside r σ σ' →
      List.Forall₂ (Corresponds R r) us us' → y.Corresponds R r y' →
      Made (Corresponds R) r
        (us.foldlM (fun tail head => newCons head tail) y σ)
        (us'.foldlM (fun tail head => newCons head tail) y' σ') := by
    intro us
    induction us with
    | nil =>
      rintro _ r σ σ' y y' h ⟨⟩ hy
      exact h.made hy
    | cons u us ih =>
      rintro _ r σ σ' y y' h (_ | ⟨first, rest⟩) hy
      rw [List.foldlM_cons, List.foldlM_cons]
      refine (h.newNode (order.builtin rfl) (.cons first (.cons hy .nil))).bind
        fun kept beside cell => ih beside ?_ cell
      exact rest.imp fun _ _ hx => hx.mono kept
  refine (h.newNode (order.builtin rfl) .nil).bind fun kept beside empty =>
    cells beside ?_ empty
  exact (List.forall₂_reverse_iff.mpr hts).imp fun _ _ hx => hx.mono kept

theorem constant (order : Symbol.InOrder R) (h : Beside r σ σ')
    (c : Script.Constant) :
    Made (Corresponds R) r (c.build σ) (c.build σ') := by
  have atomic : ∀ s : Symbol, s.isBuiltin = true →
      Made (Corresponds R) r (Term.newNode s [] σ) (Term.newNode s [] σ') :=
    fun s builtin => h.newNode (order.builtin builtin) .nil
  cases c with
  | nil => exact atomic _ rfl
  | absent => exact atomic _ rfl
  | truth b => cases b <;> exact atomic _ rfl
  | least => exact h.made (.of_children h.least (order.builtin rfl) .nil)
  | greatest => exact h.made (.of_children h.greatest (order.builtin rfl) .nil)
  | verdict o => cases o <;> exact atomic _ rfl

end Beside

/-! ## Building that is checked -/

/-- **Symbols that correspond are refused alike**: one that is not built in
has no arity of its own. -/
theorem Symbol.InOrder.isSome_applyError? (order : Symbol.InOrder R)
    (head : R s s') (k n : ℕ) :
    (s'.applyError? k n).isSome = (s.applyError? k n).isSome := by
  cases builtin : s.isBuiltin with
  | true => rw [order.eq_of_isBuiltin head builtin]
  | false =>
    have foreign : ∀ a : Symbol, a.isBuiltin = false →
        (a.applyError? k n).isSome = decide (n ≠ k) := by
      intro a ha
      have unboxed := Symbol.isBoxed_of_isBuiltin_eq_false ha
      have plain := Symbol.isSentinel_of_isBuiltin_eq_false ha
      have free : a.builtinArity? = none :=
        Option.eq_none_iff_forall_ne_some.mpr fun k fixed =>
          Bool.eq_false_iff.mp ha
            (SymbolTable.isBuiltin_of_builtinArity? fixed)
      by_cases same : n = k <;>
        simp [Symbol.applyError?, unboxed, plain, free, same]
    rw [foreign s builtin, foreign s' (by rw [order.isBuiltin_eq head, builtin])]

/-- **Two requests correspond**: both are granted, and nodes that correspond
are built, or both are refused. -/
def RequestsAlike (R : Symbol → Symbol → Prop) (r : ℕ → ℕ → Prop) :
    Except TermError (Fresh Term) → Except TermError (Fresh Term) → Prop :=
  Answers fun x x' => ∀ {σ σ'}, Beside r σ σ' →
    Made (Corresponds R) r (x σ) (x' σ')

theorem Symbol.InOrder.apply (order : Symbol.InOrder R) (head : R s s')
    (hts : List.Forall₂ (Corresponds R r) ts ts') (k : ℕ) :
    RequestsAlike R r (s.apply k ts) (s'.apply k ts') := by
  have alike := order.isSome_applyError? head k ts.length
  unfold Symbol.apply
  rw [← hts.length_eq]
  cases refused : s.applyError? k ts.length with
  | none =>
    rw [refused, Option.isSome_none, Option.isSome_eq_false_iff,
      Option.isNone_iff_eq_none] at alike
    rw [alike]
    exact .ok fun beside => beside.newNode head hts
  | some e =>
    rw [refused] at alike
    obtain ⟨e', refused'⟩ := Option.isSome_iff_exists.mp alike
    rw [refused']
    exact .error e e'

/-- **Two tables apply symbols that mean the same alike.** -/
theorem SymbolTable.Means.apply {t u : SymbolTable} {ds : List Entry}
    (order : Symbol.InOrder (SymbolTable.Means t u ds))
    (head : SymbolTable.Means t u ds s s')
    (hts : List.Forall₂ (Corresponds (SymbolTable.Means t u ds) r) ts ts') :
    RequestsAlike (SymbolTable.Means t u ds) r (t.apply s ts) (u.apply s' ts') := by
  unfold SymbolTable.apply
  rw [order.isBoxed_eq head, head.arity?_eq]
  split
  · exact .error _ _
  · cases t.arity? s with
    | none => exact .error _ _
    | some k => exact order.apply head hts k

theorem Term.Corresponds.withChildren (order : Symbol.InOrder R)
    (hx : x.Corresponds R r x')
    (hts : List.Forall₂ (Corresponds R r) ts ts') :
    RequestsAlike R r (x.withChildren ts) (x'.withChildren ts') := by
  cases hx with
  | boxed => exact .error _ _
  | node _ head length _ =>
    rw [Term.withChildren, Term.withChildren, ← length]
    exact order.apply head hts _

theorem Beside.build {q q' : Except TermError (Fresh Term)}
    (h : Beside r σ σ') (hq : RequestsAlike R r q q') :
    Agrees (Corresponds R) r (Checked.build q σ) (Checked.build q' σ') := by
  cases hq with
  | ok made => exact .ok (made h)
  | error e e' => exact .error e e'

theorem Agrees.checked {α β : Type} {like : (ℕ → ℕ → Prop) → α → β → Prop}
    {c : Checked α} {c' : Checked β} (h : Agrees like r (c σ) (c' σ')) :
    Agrees like r (Script.Evaluation.checked c σ) (Script.Evaluation.checked c' σ') := by
  show Agrees like r ((c σ).mapError Script.Fault.term) ((c' σ').mapError Script.Fault.term)
  generalize c σ = o at h
  generalize c' σ' = o' at h
  cases h with
  | ok made => exact .ok made
  | error e e' => exact .error _ _

/-- **Repeated application agrees**, over children that are made alike of the
term so far. -/
theorem SymbolTable.Means.applyTimes {t u : SymbolTable} {ds : List Entry}
    {args args' : Term → List Term}
    (order : Symbol.InOrder (SymbolTable.Means t u ds))
    (head : SymbolTable.Means t u ds s s') (h : Beside r σ σ')
    (hargs : ∀ {r' y y'}, (∀ i j, r i j → r' i j) →
      y.Corresponds (SymbolTable.Means t u ds) r' y' →
      List.Forall₂ (Corresponds (SymbolTable.Means t u ds) r') (args y) (args' y'))
    (n : ℕ) (hx : x.Corresponds (SymbolTable.Means t u ds) r x') :
    Agrees (Corresponds (SymbolTable.Means t u ds)) r
      (t.applyTimes s args n x σ) (u.applyTimes s' args' n x' σ') := by
  induction n generalizing r σ σ' x x' with
  | zero => exact .ok (h.made hx)
  | succ n ih =>
    refine (h.build (head.apply order (hargs (fun _ _ => id) hx))).bind
      fun kept beside hy => ih beside (fun kept' => hargs ?_) hy
    exact fun i j hr => kept' i j (kept i j hr)

end

end TermGraph
