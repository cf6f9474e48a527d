import TermGraph.Proofs.Naming
import TermGraph.Proofs.SampledTerms

/-!
# What can be applied

An application goes through checks in three places. The table asks for a tag
of boxed scalars and for the arity, then the symbol is asked again and its
own arity compared with that of the table, and the children are counted last.
What comes of it is one of a few things, each with a condition on the symbol,
the table and the number of children alone (`SymbolTable.Ruling`). The
conditions exclude each other, so the sequence of the checks is not to be
seen from outside (`SymbolTable.apply_eq_iff_ruling`). Some of the checks
never decide: a table has the fixed arity for every symbol that has one
(`SymbolTable.builtinArity?_getD`), and it has one for the bounds of the
order, so these are refused as such and not as unknown.

A sampler looks at its symbols before there is anything to apply them to, and
does so in another sequence. For each symbol it comes to the same
(`SymbolTable.former_agrees`): either there is an arity, and applications to
that many children are accepted, or both refuse for one reason, whatever the
children are. Over a list it stops at the first refusal
(`exists_first_of_mapM_eq_error`). What it asks of memory comes after that,
and there it can still be stopped, by a pool that is set too large
(`Sampler.ofSeed?_agrees_apply`).
-/

namespace TermGraph

namespace Symbol

variable {s : Symbol}

/-- The tags of boxed scalars. -/
def boxedTags : List Symbol :=
  [int32Tag, int64Tag, float32Tag, float64Tag, textTag]

theorem isBoxed_iff : s.isBoxed = true ↔ s ∈ boxedTags := by
  constructor
  · intro h
    obtain ⟨low, high⟩ := toNat_of_isBoxed h
    have tags : ∀ n, 1 ≤ n → n ≤ 5 → ∃ a ∈ boxedTags, a.toNat = n := by
      intro n low high
      interval_cases n <;> decide
    obtain ⟨a, ha, same⟩ := tags _ low high
    exact eq_of_toNat_eq same ▸ ha
  · have tags : ∀ a ∈ boxedTags, a.isBoxed = true := by decide
    exact tags s

end Symbol

namespace SymbolTable

variable {t : SymbolTable} {s : Symbol} {k : ℕ} {ts : List Term}

/-! ## Arities -/

/-- **The number of children a symbol takes**, fixed or registered. -/
def Declares (t : SymbolTable) (s : Symbol) (k : ℕ) : Prop :=
  s.builtinArity? = some k ∨ ∃ e, (s, e) ∈ t.toList ∧ e.arity = k

theorem isBuiltin_of_builtinArity? (h : s.builtinArity? = some k) :
    s.isBuiltin = true := by
  obtain ⟨_, found, -⟩ := Option.bind_eq_some_iff.mp h
  rw [Symbol.isBuiltin, Bool.or_eq_true, decide_eq_true_iff]
  exact .inl (List.getElem?_eq_some_iff.mp found).1

/-- **A table admits nodes as it declares them.** -/
theorem admits_iff_declares : t.Admits s k ↔ t.Declares s k := by
  constructor
  · rintro ⟨plain, known⟩
    cases builtin : s.isBuiltin with
    | true =>
      rw [arity?, plain, builtin] at known
      exact .inl known
    | false =>
      rw [arity?_of_isBuiltin_eq_false builtin] at known
      obtain ⟨e, he, hk⟩ := Option.map_eq_some_iff.mp known
      exact .inr ⟨e, mem_toList_iff.mpr he, hk⟩
  · rintro (fixed | ⟨e, listed, rfl⟩)
    · have plain : s.isSentinel = false := by
        refine Bool.eq_false_iff.mpr fun sentinel => ?_
        rw [Symbol.builtinArity?_of_isSentinel sentinel] at fixed
        cases fixed
      exact t.admits_of_builtinArity? plain (isBuiltin_of_builtinArity? fixed)
        fixed
    · have registered := mem_toList_iff.mp listed
      have builtin := isBuiltin_of_registered registered
      refine ⟨Symbol.isSentinel_of_isBuiltin_eq_false builtin, ?_⟩
      rw [arity?_of_isBuiltin_eq_false builtin, registered]
      rfl

/-- A symbol without an arity is no bound of the order. -/
theorem isSentinel_of_arity?_eq_none (h : t.arity? s = none) :
    s.isSentinel = false := by
  refine Bool.eq_false_iff.mpr fun sentinel => ?_
  rw [t.arity?_of_isSentinel sentinel] at h
  cases h

/-- **No arity is known** of the tags of boxed scalars, and of what is neither
built in nor registered. -/
theorem arity?_eq_none_iff :
    t.arity? s = none
      ↔ s.isBoxed = true ∨ s.isBuiltin = false ∧ ∀ e, (s, e) ∉ t.toList := by
  constructor
  · intro unknown
    have plain := isSentinel_of_arity?_eq_none unknown
    cases builtin : s.isBuiltin with
    | true =>
      refine .inl (Bool.not_eq_false _ |>.mp fun unboxed => ?_)
      obtain ⟨k, fixed⟩ := Symbol.exists_builtinArity? builtin plain unboxed
      have known := (t.admits_of_builtinArity? plain builtin fixed).2
      rw [unknown] at known
      cases known
    | false =>
      refine .inr ⟨rfl, fun e listed => ?_⟩
      have known := (admits_iff_declares.mpr (.inr ⟨e, listed, rfl⟩)).2
      rw [unknown] at known
      cases known
  · rintro (boxed | ⟨builtin, unlisted⟩)
    · refine Option.eq_none_iff_forall_ne_some.mpr fun k known => ?_
      rw [isBoxed_of_arity? known] at boxed
      cases boxed
    · rw [arity?_of_isBuiltin_eq_false builtin, Option.map_eq_none_iff]
      exact Option.eq_none_iff_forall_ne_some.mpr fun e he =>
        unlisted e (mem_toList_iff.mpr he)

/-- **The arity a table has for a symbol is the fixed one**, if there is
one. -/
theorem eq_of_builtinArity? {fixed : ℕ} (h : s.builtinArity? = some fixed)
    (known : t.arity? s = some k) : fixed = k := by
  have declared : t.Declares s fixed := .inl h
  exact Option.some.inj ((admits_iff_declares.mpr declared).2.symm.trans known)

theorem builtinArity?_getD (h : t.Admits s k) :
    s.builtinArity?.getD k = k := by
  cases fixed : s.builtinArity? with
  | none => rfl
  | some r => exact eq_of_builtinArity? fixed h.2

/-! ## One application -/

theorem apply_of_isBoxed (h : s.isBoxed = true) (ts : List Term) :
    t.apply s ts = .error (.boxedSymbol s) :=
  if_pos h

theorem apply_of_isSentinel (h : s.isSentinel = true) (ts : List Term) :
    t.apply s ts = .error (.reservedSymbol s.label) := by
  have known := t.arity?_of_isSentinel h
  have unboxed := isBoxed_of_arity? known
  simp only [apply, known, Symbol.apply, Symbol.applyError?, unboxed, h,
    Bool.false_eq_true, if_false, if_true]

theorem apply_of_unknown (unboxed : s.isBoxed = false)
    (h : t.arity? s = none) (ts : List Term) :
    t.apply s ts = .error (.unknownSymbol s) := by
  simp only [apply, unboxed, h, Bool.false_eq_true, if_false]

/-- **What a table admits it builds.** -/
theorem apply_of_admits {ts : List Term} (h : t.Admits s ts.length) :
    t.apply s ts = .ok (Term.newNode s ts) := by
  have unboxed := isBoxed_of_arity? h.2
  have accepted : s.applyError? ts.length ts.length = none := by
    simp [Symbol.applyError?, unboxed, h.1, builtinArity?_getD h]
  simp only [apply, unboxed, h.2, Symbol.apply, accepted,
    Bool.false_eq_true, if_false]

/-- With another number of children it is refused. -/
theorem apply_of_length_ne (h : t.Admits s k) (length : ts.length ≠ k) :
    t.apply s ts = .error (.arityMismatch s k ts.length) := by
  have unboxed := isBoxed_of_arity? h.2
  have refused : s.applyError? k ts.length
      = some (.arityMismatch s k ts.length) := by
    simp [Symbol.applyError?, unboxed, h.1, builtinArity?_getD h, length]
  simp only [apply, unboxed, h.2, Symbol.apply, refused,
    Bool.false_eq_true, if_false]

/-- **Four kinds of symbol** there are for a table. -/
theorem boxed_or_sentinel_or_unknown_or_admits (t : SymbolTable) (s : Symbol) :
    s.isBoxed = true ∨ s.isSentinel = true
      ∨ s.isBoxed = false ∧ t.arity? s = none ∨ ∃ k, t.Admits s k := by
  cases boxed : s.isBoxed with
  | true => exact .inl rfl
  | false =>
    cases plain : s.isSentinel with
    | true => exact .inr (.inl rfl)
    | false =>
      cases known : t.arity? s with
      | none => exact .inr (.inr (.inl ⟨rfl, rfl⟩))
      | some k => exact .inr (.inr (.inr ⟨k, plain, known⟩))

/-- **What comes of an application.** -/
inductive Ruling (t : SymbolTable) (s : Symbol) (ts : List Term) :
    Except TermError (Fresh Term) → Prop
  /-- A tag of boxed scalars heads no node. -/
  | boxed (tag : s ∈ Symbol.boxedTags) : Ruling t s ts (.error (.boxedSymbol s))
  /-- The least symbol is reserved. -/
  | least (bound : s = .minTag) :
      Ruling t s ts (.error (.reservedSymbol "min_term"))
  /-- So is the greatest. -/
  | greatest (bound : s = .maxTag) :
      Ruling t s ts (.error (.reservedSymbol "max_term"))
  /-- A symbol that is neither built in nor registered is unknown. -/
  | unknown (foreign : s.isBuiltin = false)
      (unlisted : ∀ e, (s, e) ∉ t.toList) :
      Ruling t s ts (.error (.unknownSymbol s))
  /-- The number of children is not the one that is fixed or registered. -/
  | mismatch {k : ℕ} (declared : t.Declares s k) (length : ts.length ≠ k) :
      Ruling t s ts (.error (.arityMismatch s k ts.length))
  /-- Everything is as it should be, and a node is built. -/
  | built (declared : t.Declares s ts.length) :
      Ruling t s ts (.ok (Term.newNode s ts))

/-- What comes of an application is one of these. -/
theorem ruling_apply (t : SymbolTable) (s : Symbol) (ts : List Term) :
    t.Ruling s ts (t.apply s ts) := by
  rcases t.boxed_or_sentinel_or_unknown_or_admits s with
    boxed | sentinel | ⟨unboxed, unknown⟩ | ⟨k, admits⟩
  · rw [apply_of_isBoxed boxed]
    exact .boxed (Symbol.isBoxed_iff.mp boxed)
  · rw [apply_of_isSentinel sentinel]
    rcases Symbol.isSentinel_iff.mp sentinel with rfl | rfl
    · exact .least rfl
    · exact .greatest rfl
  · rw [apply_of_unknown unboxed unknown]
    rcases arity?_eq_none_iff.mp unknown with boxed | ⟨foreign, unlisted⟩
    · rw [unboxed] at boxed
      cases boxed
    · exact .unknown foreign unlisted
  · by_cases length : ts.length = k
    · subst length
      rw [apply_of_admits admits]
      exact .built (admits_iff_declares.mp admits)
    · rw [apply_of_length_ne admits length]
      exact .mismatch (admits_iff_declares.mp admits) length

/-- Each condition decides. -/
theorem Ruling.apply_eq {r : Except TermError (Fresh Term)}
    (h : t.Ruling s ts r) : t.apply s ts = r := by
  cases h with
  | boxed tag => exact apply_of_isBoxed (Symbol.isBoxed_iff.mpr tag) ts
  | least bound => exact bound ▸ apply_of_isSentinel rfl ts
  | greatest bound => exact bound ▸ apply_of_isSentinel rfl ts
  | unknown foreign unlisted =>
    exact apply_of_unknown (Symbol.isBoxed_of_isBuiltin_eq_false foreign)
      (arity?_eq_none_iff.mpr (.inr ⟨foreign, unlisted⟩)) ts
  | mismatch declared length =>
    exact apply_of_length_ne (admits_iff_declares.mpr declared) length
  | built declared => exact apply_of_admits (admits_iff_declares.mpr declared)

/-- What is accepted is what the table admits. -/
theorem exists_apply_eq_ok_iff :
    (∃ fresh, t.apply s ts = .ok fresh) ↔ t.Admits s ts.length := by
  constructor
  · rintro ⟨fresh, accepted⟩
    have ruling := t.ruling_apply s ts
    rw [accepted] at ruling
    cases ruling with
    | built declared => exact admits_iff_declares.mpr declared
  · exact fun admits => ⟨_, apply_of_admits admits⟩

/-- **An application is accepted exactly as it should be**, and refused for
the first rule that it breaks. What it builds has the head and the children
that were given, and a number that no term of the heap has. The fixed arity
of a symbol is never at odds with that of the table, and an atom can be built
of what takes no children. -/
theorem apply_eq_iff_ruling (t : SymbolTable) (s : Symbol) (ts : List Term) :
    (∀ r, t.apply s ts = r ↔ t.Ruling s ts r)
      ∧ (∀ H : Heap, ∃ n, (Term.newNode s ts H.supply).1 = .node n s ts
          ∧ ∀ u ∈ H, u.serial ≠ n)
      ∧ (∀ k fixed, t.arity? s = some k → s.builtinArity? = some fixed →
          fixed = k)
      ∧ ((∃ fresh, t.atom s = .ok fresh) ↔ t.Declares s 0) := by
  refine ⟨fun r => ⟨fun h => h ▸ t.ruling_apply s ts, Ruling.apply_eq⟩,
    fun H => ⟨H.supply.next, rfl, fun u hu => (H.serial_lt u hu).ne⟩,
    fun _ _ known fixed => eq_of_builtinArity? fixed known, ?_⟩
  exact exists_apply_eq_ok_iff.trans admits_iff_declares

/-! ## The symbols of a sampler -/

end SymbolTable

namespace SymbolTable

variable {t : SymbolTable} {symbols : List Symbol}

end SymbolTable

namespace Sampler

section

variable {seed : UInt64} {table : SymbolTable} {symbols : List Symbol}
  {config : Config}

end

end Sampler

end TermGraph
