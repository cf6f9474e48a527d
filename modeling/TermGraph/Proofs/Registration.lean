import Mathlib.Tactic.IntervalCases
import TermGraph.Symbol.Table

/-!
# What a table knows, and goes on to know

A table answers `arity?` for the built-in constructors, for the bounds of
the order and for its registrations. The symbols it answers for are the
heads of terms: each has a name, and none is a tag of boxed scalars.

Registration only ever adds behind what is there: the table that comes of
it extends the one there was (`SymbolTable.Extends`). So an answer once given
stays – `SymbolTable.Extends.arity?_eq` – and whoever has asked for an
arity may go on relying on it.
-/

namespace TermGraph

namespace Symbol

variable {a b s : Symbol}

theorem compare_eq_lt_iff : compare a b = .lt ↔ a.toNat < b.toNat := by
  rw [compare_def, Nat.compare_eq_lt]

theorem isSentinel_iff : s.isSentinel = true ↔ s = minTag ∨ s = maxTag := by
  rw [isSentinel, Bool.or_eq_true, beq_iff_eq, beq_iff_eq]

theorem toNat_of_isBoxed (h : s.isBoxed = true) :
    1 ≤ s.toNat ∧ s.toNat ≤ 5 := by
  unfold isBoxed at h
  rwa [Bool.and_eq_true, decide_eq_true_iff, decide_eq_true_iff] at h

/-- A tag of boxed scalars heads nothing. -/
theorem builtinArity?_of_isBoxed (h : s.isBoxed = true) :
    s.builtinArity? = none := by
  obtain ⟨low, high⟩ := toNat_of_isBoxed h
  unfold builtinArity?
  generalize s.toNat = n at low high
  interval_cases n <;> rfl

theorem builtinArity?_of_isSentinel (h : s.isSentinel = true) :
    s.builtinArity? = none := by
  rcases isSentinel_iff.mp h with rfl | rfl <;> rfl

/-- **Every other built-in symbol is a constructor**, with a fixed number
of children. -/
theorem exists_builtinArity? (h : s.isBuiltin = true)
    (plain : s.isSentinel = false) (unboxed : s.isBoxed = false) :
    ∃ k, s.builtinArity? = some k := by
  have least : s.toNat ≠ 0 := fun zero =>
    Bool.false_ne_true (plain.symm.trans
      (isSentinel_iff.mpr (.inl (eq_of_toNat_eq zero))))
  have low : s.toNat < 15 := by
    unfold isBuiltin at h
    rw [Bool.or_eq_true, decide_eq_true_iff, beq_iff_eq] at h
    refine h.resolve_right fun max => ?_
    exact Bool.false_ne_true
      (plain.symm.trans (isSentinel_iff.mpr (.inr max)))
  have above : 6 ≤ s.toNat := by
    by_contra high
    have boxed : s.isBoxed = true := by
      unfold isBoxed
      rw [Bool.and_eq_true, decide_eq_true_iff, decide_eq_true_iff]
      exact ⟨Nat.one_le_iff_ne_zero.mpr least, Nat.le_of_not_lt high⟩
    exact Bool.false_ne_true (unboxed.symm.trans boxed)
  unfold builtinArity?
  generalize s.toNat = n at low above
  interval_cases n <;> exact ⟨_, rfl⟩

theorem isBuiltin_of_isBoxed (h : s.isBoxed = true) : s.isBuiltin = true := by
  unfold isBuiltin
  rw [Bool.or_eq_true, decide_eq_true_iff]
  exact .inl (Nat.lt_of_le_of_lt (toNat_of_isBoxed h).2 (by decide))

theorem isBuiltin_of_isSentinel (h : s.isSentinel = true) :
    s.isBuiltin = true := by
  rcases isSentinel_iff.mp h with rfl | rfl <;> rfl

/-- The tags of boxed scalars are all built in. -/
theorem isBoxed_of_isBuiltin_eq_false (h : s.isBuiltin = false) :
    s.isBoxed = false :=
  Bool.eq_false_iff.mpr fun boxed =>
    Bool.eq_false_iff.mp h (isBuiltin_of_isBoxed boxed)

/-- So are the bounds of the order. -/
theorem isSentinel_of_isBuiltin_eq_false (h : s.isBuiltin = false) :
    s.isSentinel = false :=
  Bool.eq_false_iff.mpr fun sentinel =>
    Bool.eq_false_iff.mp h (isBuiltin_of_isSentinel sentinel)

/-- A built-in constructor has a name of its own. -/
theorem isSome_builtinName?_of_builtinArity? {k : ℕ}
    (h : s.builtinArity? = some k) : s.builtinName?.isSome = true := by
  obtain ⟨r, hr, -⟩ := Option.bind_eq_some_iff.mp h
  unfold builtinName?
  split
  · rfl
  · rw [hr]
    rfl

end Symbol

namespace SymbolTable

variable {t u : SymbolTable} {s : Symbol} {k : ℕ}

theorem arity?_of_isSentinel (t : SymbolTable) (h : s.isSentinel = true) :
    t.arity? s = some 0 :=
  if_pos h

/-- **What has an arity is no tag of boxed scalars.** -/
theorem isBoxed_of_arity? (h : t.arity? s = some k) : s.isBoxed = false := by
  refine Bool.eq_false_iff.mpr fun boxed => ?_
  unfold arity? at h
  split at h
  · next sentinel =>
    rcases Symbol.isSentinel_iff.mp sentinel with rfl | rfl <;> cases boxed
  · rw [if_pos (Symbol.isBuiltin_of_isBoxed boxed),
      Symbol.builtinArity?_of_isBoxed boxed] at h
    cases h

/-- **What has an arity has a name.** -/
theorem isSome_name?_of_arity? (h : t.arity? s = some k) :
    (t.name? s).isSome = true := by
  have named : s.builtinName?.isSome = true ∨ (t.entry? s).isSome = true := by
    unfold arity? at h
    split at h
    · next sentinel =>
      rcases Symbol.isSentinel_iff.mp sentinel with rfl | rfl
      · exact .inl rfl
      · exact .inl rfl
    · split at h
      · exact .inl (Symbol.isSome_builtinName?_of_builtinArity? h)
      · obtain ⟨e, he, -⟩ := Option.map_eq_some_iff.mp h
        exact .inr (Option.isSome_of_mem he)
  unfold name?
  split
  · rfl
  · next unnamed =>
    rw [unnamed] at named
    rw [Option.isSome_map]
    exact named.resolve_left Bool.false_ne_true

/-- **The nodes a table admits**: the head may be built, and the number of
children is its arity. -/
def Admits (t : SymbolTable) (s : Symbol) (k : ℕ) : Prop :=
  s.isSentinel = false ∧ t.arity? s = some k

theorem admits_of_builtinArity? (t : SymbolTable)
    (plain : s.isSentinel = false) (builtin : s.isBuiltin = true)
    (h : s.builtinArity? = some k) : t.Admits s k := by
  refine ⟨plain, ?_⟩
  rw [arity?, plain, builtin]
  exact h

/-! ## Growth -/

/-- **A table that was registered in** is the table itself, or has one
registration more. -/
theorem eq_or_register_of_intern {name : String}
    (h : t.intern name k = .ok (s, u)) :
    u = t ∨ ∃ isFree isNew room, u = t.register ⟨name, k⟩ isFree isNew room := by
  unfold intern at h
  split at h
  · split at h
    · split at h
      · cases h
        exact .inl rfl
      · cases h
    · cases h
  · next isFree =>
    split at h
    · split at h
      · cases h
        exact .inl rfl
      · cases h
    · next isNew =>
      split at h
      · next room =>
        cases h
        exact .inr ⟨isFree, isNew, room, rfl⟩
      · cases h

/-- **A table extends another** if it has the registrations of that one, each
in its place. -/
def Extends (u t : SymbolTable) : Prop :=
  ∀ (i : ℕ) (e : Entry), t.entries[i]? = some e → u.entries[i]? = some e

theorem extends_register {e : Entry} {isFree isNew room} :
    (t.register e isFree isNew room).Extends t := by
  intro i d here
  obtain ⟨hlt, hd⟩ := Array.getElem?_eq_some_iff.mp here
  rw [entries_register, Array.getElem?_push_lt hlt, hd]

/-- **A registration extends a table.** -/
theorem extends_of_intern {name : String} (h : t.intern name k = .ok (s, u)) :
    u.Extends t := by
  rcases eq_or_register_of_intern h with rfl | ⟨_, _, _, rfl⟩
  · exact fun _ _ => id
  · exact extends_register

/-- What is registered for a symbol stays registered. -/
theorem Extends.entry?_eq {e : Entry} (h : u.Extends t)
    (known : t.entry? s = some e) : u.entry? s = some e := by
  unfold entry? at known ⊢
  split at known
  · cases known
  · next registered =>
    rw [if_neg registered]
    exact h _ e known

/-- **An arity once known stays**, whatever is registered. -/
theorem Extends.arity?_eq (h : u.Extends t) (known : t.arity? s = some k) :
    u.arity? s = some k := by
  unfold arity? at known ⊢
  split
  · next sentinel => rwa [if_pos sentinel] at known
  · next plain =>
    rw [if_neg plain] at known
    split
    · next builtin => rwa [if_pos builtin] at known
    · next registered =>
      rw [if_neg registered] at known
      obtain ⟨e, he, hk⟩ := Option.map_eq_some_iff.mp known
      exact Option.map_eq_some_iff.mpr ⟨e, h.entry?_eq he, hk⟩

end SymbolTable

end TermGraph
