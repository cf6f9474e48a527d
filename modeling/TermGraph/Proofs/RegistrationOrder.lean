import Mathlib.Data.List.NodupEquivFin
import TermGraph.Proofs.Renaming
import TermGraph.Proofs.Requests

/-!
# Registration in order

The number of a symbol is the place of its name in the table, and so it
depends on every name that was registered before. What does not depend on
them is the order. Take names that two tables have both registered, with the
same numbers of children and in the same order, however many other names
stand between them (`SymbolTable.Registers`). In each table their places
ascend along that order, so the symbols that go by one name correspond in
order (`SymbolTable.inOrder_means`), and they take as many children as each
other. As a map, the correspondence is a strictly increasing renaming
(`SymbolTable.renames_translate`).

Where the names come from is a history of requests, some of them repeated or
refused. What counts of it are the first requests for free names
(`SymbolTable.firsts`): these are what the table registers, in their order
(`SymbolTable.entries_afterAll_append`).
-/

namespace TermGraph

/-! ## Names that were registered in order -/

namespace SymbolTable

variable {t u : SymbolTable} {s s' : Symbol} {d e : Entry} {ds es : List Entry}
  {i k : ℕ}

/-- **A table registers names in order**, with any others before, between
and behind them. -/
def Registers (t : SymbolTable) (ds : List Entry) : Prop :=
  ds.Sublist t.entries.toList

/-- **The first requests for names that are free**, behind other requests. -/
def firsts (before : List Entry) : List Entry → List Entry
  | [] => []
  | e :: es =>
    if Symbol.builtin? e.name = none ∧ e.name ∉ before.map Entry.name then
      e :: firsts (before ++ [e]) es
    else firsts (before ++ [e]) es

/-- **What is registered behind other requests** is what is asked for the
first time. -/
theorem entries_afterAll_append (before : List Entry)
    (room : Symbol.firstFree + (freeNames (before ++ es)).card
      ≤ Symbol.maxTag.toNat) :
    (afterAll ∅ (before ++ es)).entries.toList
      = (afterAll ∅ before).entries.toList ++ firsts before es := by
  induction es generalizing before with
  | nil => rw [List.append_nil, firsts, List.append_nil]
  | cons e es ih =>
    have upTo : Symbol.firstFree + (freeNames before).card
        ≤ Symbol.maxTag.toNat := by
      have := Finset.card_le_card
        (freeNames_subset (List.subset_append_left before (e :: es)))
      omega
    rw [List.append_cons] at room ⊢
    rw [ih _ room, firsts, afterAll_append]
    show ((afterAll ∅ before).after e).entries.toList ++ _ = _
    split
    · next new =>
      obtain ⟨isFree, isNew⟩ := new
      have absent : e.name ∉ (afterAll ∅ before).names :=
        names_afterAll upTo ▸ notMem_freeNames isNew
      have more : (freeNames before).card < (freeNames (before ++ [e] ++ es)).card :=
        card_freeNames_lt (List.subset_append_left _ es) isFree
          (notMem_freeNames isNew)
      have here := size_afterAll upTo
      rw [(answer_of_new isFree absent (by omega)).2, Array.toList_push,
        List.append_assoc, List.singleton_append]
    · next old =>
      rw [after_of_idle upTo]
      by_cases isNew : e.name ∈ before.map Entry.name
      · exact .inr (.inl isNew)
      · refine .inr (.inr (Option.isSome_iff_ne_none.mpr fun isFree => ?_))
        exact old ⟨isFree, isNew⟩

/-- **A table registers what is asked for the first time**, in the order of
the requests. -/
theorem registers_afterAll
    (room : Symbol.firstFree + (freeNames es).card ≤ Symbol.maxTag.toNat)
    (h : ds.Sublist (firsts [] es)) : (afterAll ∅ es).Registers ds := by
  rw [Registers, ← List.nil_append es, entries_afterAll_append [] room]
  exact h

/-- What a table registers it has for a symbol, and finds by name. -/
theorem Registers.exists_find? (h : t.Registers ds) (he : e ∈ ds) :
    ∃ s, t.entry? s = some e ∧ t.find? e.name = some s := by
  obtain ⟨i, hi⟩ := List.mem_iff_getElem?.mp (h.subset he)
  have known : t.entry? (symbolAt i) = some e :=
    entry?_eq_some_iff.mpr ⟨i, Array.getElem?_toList ▸ hi, rfl⟩
  exact ⟨_, known, find?_eq_some_iff.mpr (.inr ⟨e, known, rfl⟩)⟩

/-- **The numbers ascend** along what is registered in order. -/
theorem Registers.exists_places (h : t.Registers ds) :
    ∃ place : ℕ → ℕ, StrictMono place ∧ ∀ i e s, ds[i]? = some e →
      t.entry? s = some e → s.toNat = Symbol.firstFree + place i := by
  obtain ⟨place, here⟩ := List.sublist_iff_exists_orderEmbedding_getElem?_eq.mp h
  refine ⟨place, place.strictMono, fun i e s hi known => ?_⟩
  obtain ⟨j, hj, rfl⟩ := entry?_eq_some_iff.mp known
  have there : t.entries[place i]? = some e := by
    rw [← Array.getElem?_toList, ← here, hi]
  obtain ⟨hlt, -⟩ := Array.getElem?_eq_some_iff.mp hj
  rw [toNat_symbolAt (place_lt hlt), eq_of_name_eq there hj rfl]

/-! ## Symbols of two tables -/

/-- **Two symbols mean the same** in two tables: they are one built-in
symbol, or have one registration among those that are given. -/
def Means (t u : SymbolTable) (ds : List Entry) (s s' : Symbol) : Prop :=
  s.isBuiltin = true ∧ s' = s
    ∨ ∃ e ∈ ds, t.entry? s = some e ∧ u.entry? s' = some e

theorem entry?_injective {s s' : Symbol} (h : t.entry? s = some e)
    (h' : t.entry? s' = some e) : s = s' := by
  have found := find?_eq_some_iff.mpr (.inr ⟨e, h, rfl⟩)
  have found' := find?_eq_some_iff.mpr (.inr ⟨e, h', rfl⟩)
  exact Option.some.inj (found.symm.trans found')

/-- **Symbols that mean the same correspond in order**, if both tables
registered their names in one order. -/
theorem inOrder_means (ht : t.Registers ds) (hu : u.Registers ds) :
    Symbol.InOrder (Means t u ds) := by
  have known : ∀ {s s'}, Means t u ds s s' → s.isBuiltin = false →
      ∃ e ∈ ds, t.entry? s = some e ∧ u.entry? s' = some e := by
    rintro s s' (⟨builtin, -⟩ | registered) foreign
    · rw [foreign] at builtin
      cases builtin
    · exact registered
  refine .of_increasing (fun builtin => .inl ⟨builtin, rfl⟩) ?_ ?_ ?_
  · intro s s' s'' h' h''
    cases foreign : s.isBuiltin with
    | true =>
      have same : ∀ {x}, Means t u ds s x → x = s := by
        rintro x (⟨-, same⟩ | ⟨e, -, he, -⟩)
        · exact same
        · rw [isBuiltin_of_registered he] at foreign
          cases foreign
      exact (same h').trans (same h'').symm
    | false =>
      obtain ⟨e, -, he, he'⟩ := known h' foreign
      obtain ⟨d, -, hd, hd'⟩ := known h'' foreign
      cases he.symm.trans hd
      exact entry?_injective he' hd'
  · intro s s' h foreign
    obtain ⟨e, -, -, he'⟩ := known h foreign
    exact isBuiltin_of_registered he'
  · intro a a' b b' ha hb foreign foreign' less
    obtain ⟨place, ascends, here⟩ := ht.exists_places
    obtain ⟨place', ascends', there⟩ := hu.exists_places
    obtain ⟨e, he, ea, ea'⟩ := known ha foreign
    obtain ⟨d, hd, db, db'⟩ := known hb foreign'
    obtain ⟨i, hi⟩ := List.mem_iff_getElem?.mp he
    obtain ⟨j, hj⟩ := List.mem_iff_getElem?.mp hd
    rw [here i e a hi ea, here j d b hj db, Nat.add_lt_add_iff_left,
      ascends.lt_iff_lt] at less
    rw [there i e a' hi ea', there j d b' hj db', Nat.add_lt_add_iff_left]
    exact ascends' less

/-- **Symbols that mean the same take as many children.** -/
theorem Means.arity?_eq (h : Means t u ds s s') : u.arity? s' = t.arity? s := by
  rcases h with ⟨builtin, rfl⟩ | ⟨e, -, he, he'⟩
  · rw [arity?, arity?, builtin, if_pos rfl, if_pos rfl]
  · rw [arity?_of_isBuiltin_eq_false (isBuiltin_of_registered he),
      arity?_of_isBuiltin_eq_false (isBuiltin_of_registered he'), he, he']

/-- **The symbol of the same name** in another table, if it has one there. -/
def translate (t u : SymbolTable) (s : Symbol) : Symbol :=
  ((t.name? s).bind u.find?).getD s

theorem Means.translate_eq (h : Means t u ds s s') : t.translate u s = s' := by
  have named : ∃ n, t.name? s = some n ∧ u.find? n = some s' := by
    rcases h with ⟨builtin, rfl⟩ | ⟨e, -, he, he'⟩
    · rw [← Symbol.isSome_builtinName?] at builtin
      obtain ⟨n, hn⟩ := Option.isSome_iff_exists.mp builtin
      exact ⟨n, name?_eq_some_iff.mpr (.inl hn),
        find?_eq_some_iff_name?.mpr (name?_eq_some_iff.mpr (.inl hn))⟩
    · exact ⟨e.name, name?_eq_some_iff.mpr (.inr ⟨e, he, rfl⟩),
        find?_eq_some_iff.mpr (.inr ⟨e, he', rfl⟩)⟩
  obtain ⟨n, hn, hs'⟩ := named
  rw [translate, hn, Option.bind_some, hs', Option.getD_some]

/-- The symbols of registrations. -/
def symbolsOf (t : SymbolTable) (ds : List Entry) : Set Symbol :=
  {s | ∃ e ∈ ds, t.entry? s = some e}

/-- **The symbols of one table become those of another by a strictly
increasing renaming**, if both registered their names in one order. -/
theorem renames_translate (ht : t.Registers ds) (hu : u.Registers ds) :
    Symbol.Renames (t.translate u) (t.symbolsOf ds) := by
  have order := inOrder_means ht hu
  have means : ∀ {s}, s ∈ t.symbolsOf ds →
      Means t u ds s (t.translate u s) := by
    rintro s ⟨e, he, known⟩
    obtain ⟨s', known', -⟩ := hu.exists_find? he
    have here : Means t u ds s s' := .inr ⟨e, he, known, known'⟩
    rwa [here.translate_eq]
  refine ⟨fun builtin => ?_, fun hs foreign => ?_, fun ha hb _ _ less => ?_⟩
  · have here : Means t u ds _ _ := .inl ⟨builtin, rfl⟩
    exact here.translate_eq
  · rw [order.isBuiltin_eq (means hs), foreign]
  · rw [← Symbol.compare_eq_lt_iff, order.compare_eq (means ha) (means hb),
      Symbol.compare_eq_lt_iff]
    exact less

end SymbolTable

end TermGraph
