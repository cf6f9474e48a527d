import Mathlib.Data.List.Nodup
import TermGraph.Proofs.Registration

/-!
# Names and symbols

A table answers for a name by `find?` and for a symbol by `name?`. Both
look in two places, among the built-in symbols and among the
registrations, and both set the greatest symbol apart, which has a fixed
name but stands at the other end of the numbers. That the two are inverse
to each other is shown for each place on its own. For the built-in symbols
it is a matter of the layout (`Symbol.builtin?_eq_some_iff`). A
registration has the number of its place, and the places of a table stay
below the greatest symbol, so number and place determine each other on the
whole range of symbols (`SymbolTable.entry?_eq_some_iff`).

The two places do not get into each other's way. No registration has the
name of a built-in symbol, which is what a table keeps, and none has the
number of one (`SymbolTable.isBuiltin_of_registered`). What a look-up finds is
therefore found in the one place or in the other, and which of them is
asked first makes no difference.

Nothing is assumed of a table: what it keeps is part of its type, and so
all of this holds after any requests, answered or refused.
-/

namespace TermGraph

namespace Symbol

variable {a b s : Symbol} {n : String}

theorem toNat_ofNat {k : ℕ} (h : k < UInt32.size) : (ofNat k).toNat = k :=
  UInt32.toNat_ofNat_of_lt' h

theorem ofNat_toNat (s : Symbol) : ofNat s.toNat = s :=
  eq_of_toNat_eq (toNat_ofNat s.id.toNat_lt)

/-- The symbols with a place of their own are those with a fixed name. -/
theorem isSome_builtinName? (s : Symbol) :
    s.builtinName?.isSome = s.isBuiltin := by
  unfold builtinName? isBuiltin
  by_cases hmax : s = maxTag
  · rw [if_pos hmax, hmax]
    rfl
  · rw [if_neg hmax, Option.isSome_map, beq_eq_false_iff_ne.mpr hmax,
      Bool.or_false, Bool.eq_iff_iff, isSome_getElem?, decide_eq_true_iff]
    rfl

/-- No name is reserved twice. -/
theorem nodup_reserved : (reserved.map Reserved.name).Nodup := by decide

theorem name_ne_maxName : ∀ r ∈ reserved, r.name ≠ maxName := by
  simp [reserved, maxName]

/-- A reserved name is found where it stands. -/
theorem findIdx?_reserved {i : ℕ} :
    reserved.findIdx? (·.name == n) = some i
      ↔ reserved[i]?.map Reserved.name = some n := by
  rw [List.findIdx?_eq_some_iff_getElem]
  constructor
  · rintro ⟨hi, same, -⟩
    rw [List.getElem?_eq_getElem hi, Option.map_some, beq_iff_eq.mp same]
  · intro h
    obtain ⟨r, hr, rfl⟩ := Option.map_eq_some_iff.mp h
    obtain ⟨hi, rfl⟩ := List.getElem?_eq_some_iff.mp hr
    refine ⟨hi, beq_self_eq_true _, fun j hji same => ?_⟩
    exact List.pairwise_iff_getElem.mp (List.pairwise_map.mp nodup_reserved)
      j i _ hi hji (beq_iff_eq.mp same)

/-- A place in the reserved stretch is the number of its symbol, and not
that of the greatest symbol. -/
theorem toNat_ofNat_of_reserved {i : ℕ} {r : Reserved}
    (h : reserved[i]? = some r) :
    (ofNat i).toNat = i ∧ ofNat i ≠ maxTag := by
  obtain ⟨hi, -⟩ := List.getElem?_eq_some_iff.mp h
  have below : reserved.length < maxTag.toNat := by decide
  have bound : maxTag.toNat < UInt32.size := by decide
  have here : (ofNat i).toNat = i := toNat_ofNat (by omega)
  refine ⟨here, fun same => ?_⟩
  rw [same] at here
  omega

/-- **Built-in names and built-in symbols determine each other.** The
greatest symbol is set apart on both sides: its name is none of the
reserved ones, and its number no place among them. -/
theorem builtin?_eq_some_iff :
    builtin? n = some s ↔ s.builtinName? = some n := by
  unfold builtin? builtinName?
  by_cases hname : n = maxName
  · rw [if_pos hname, hname]
    by_cases hmax : s = maxTag
    · rw [if_pos hmax, hmax]
      exact iff_of_true rfl rfl
    · rw [if_neg hmax]
      refine iff_of_false (fun h => hmax (Option.some.inj h).symm) fun h => ?_
      obtain ⟨r, hr, same⟩ := Option.map_eq_some_iff.mp h
      exact name_ne_maxName r (List.mem_of_getElem? hr) same
  · rw [if_neg hname, Option.map_eq_some_iff]
    simp only [findIdx?_reserved]
    by_cases hmax : s = maxTag
    · rw [if_pos hmax, hmax]
      refine iff_of_false ?_ fun h => hname (Option.some.inj h).symm
      rintro ⟨i, h, same⟩
      obtain ⟨r, hr, -⟩ := Option.map_eq_some_iff.mp h
      exact (toNat_ofNat_of_reserved hr).2 same
    · rw [if_neg hmax]
      constructor
      · rintro ⟨i, h, rfl⟩
        obtain ⟨r, hr, -⟩ := Option.map_eq_some_iff.mp h
        rwa [(toNat_ofNat_of_reserved hr).1]
      · exact fun h => ⟨s.toNat, h, ofNat_toNat s⟩

end Symbol

namespace SymbolTable

variable {t : SymbolTable} {s : Symbol} {e : Entry} {n : String}

theorem toNat_symbolAt {i : ℕ}
    (h : Symbol.firstFree + i < Symbol.maxTag.toNat) :
    (symbolAt i).toNat = Symbol.firstFree + i :=
  Symbol.toNat_ofNat (h.trans (by decide))

/-- The places of a table have numbers below the greatest symbol. -/
theorem place_lt {i : ℕ} (h : i < t.size) :
    Symbol.firstFree + i < Symbol.maxTag.toNat :=
  Nat.lt_of_lt_of_le (Nat.add_lt_add_left h _) t.fits

/-- **A registration belongs to the symbol of its place.** -/
theorem entry?_eq_some_iff :
    t.entry? s = some e ↔ ∃ i, t.entries[i]? = some e ∧ symbolAt i = s := by
  unfold entry?
  constructor
  · intro h
    split at h
    · cases h
    · next above =>
      refine ⟨_, h, ?_⟩
      rw [symbolAt, Nat.add_sub_cancel' (Nat.le_of_not_lt above),
        Symbol.ofNat_toNat]
  · rintro ⟨i, hi, rfl⟩
    obtain ⟨hlt, -⟩ := Array.getElem?_eq_some_iff.mp hi
    rw [toNat_symbolAt (place_lt hlt), if_neg (Nat.not_lt.mpr (Nat.le_add_right _ _)),
      Nat.add_sub_cancel_left, hi]

/-- **A registered symbol lies above the built-in constructors and below
the greatest symbol.** -/
theorem between_of_registered (h : t.entry? s = some e) :
    Symbol.gtTag.toNat < s.toNat ∧ s.toNat < Symbol.maxTag.toNat := by
  obtain ⟨i, hi, rfl⟩ := entry?_eq_some_iff.mp h
  obtain ⟨hlt, -⟩ := Array.getElem?_eq_some_iff.mp hi
  have first : Symbol.firstFree = Symbol.gtTag.toNat + 1 := by decide
  have below := place_lt hlt
  rw [toNat_symbolAt below]
  omega

theorem isBuiltin_of_registered (h : t.entry? s = some e) :
    s.isBuiltin = false := by
  obtain ⟨above, below⟩ := between_of_registered h
  have plain : s ≠ Symbol.maxTag := fun same => by simp [same] at below
  rw [Symbol.isBuiltin, beq_eq_false_iff_ne.mpr plain, Bool.or_false,
    decide_eq_false_iff_not, Nat.not_lt]
  exact above

/-- No two places have one name. -/
theorem eq_of_name_eq {i j : ℕ} {d : Entry} (hi : t.entries[i]? = some e)
    (hj : t.entries[j]? = some d) (same : e.name = d.name) : i = j := by
  obtain ⟨hlt, -⟩ := Array.getElem?_eq_some_iff.mp hi
  refine (List.getElem?_inj ?_ t.nodup).mp ?_
  · rwa [List.length_map, Array.length_toList]
  · rw [List.getElem?_map, List.getElem?_map, Array.getElem?_toList,
      Array.getElem?_toList, hi, hj, Option.map_some, Option.map_some, same]

/-- A name is found where it is registered. -/
theorem index?_eq_some_iff {i : Fin t.entries.size} :
    t.index? n = some i ↔ ∃ e, t.entries[i.val]? = some e ∧ e.name = n := by
  rw [index?, Array.findFinIdx?_eq_some_iff]
  constructor
  · rintro ⟨here, -⟩
    exact ⟨_, Array.getElem?_eq_getElem i.isLt, beq_iff_eq.mp here⟩
  · rintro ⟨e, he, rfl⟩
    obtain ⟨_, here⟩ := Array.getElem?_eq_some_iff.mp he
    refine ⟨beq_iff_eq.mpr (congrArg Entry.name here), fun j hji same => ?_⟩
    have := eq_of_name_eq (Array.getElem?_eq_getElem j.isLt) he
      (beq_iff_eq.mp same)
    exact absurd this (Nat.ne_of_lt hji)

/-- What has a name is built in or registered under it. -/
theorem name?_eq_some_iff :
    t.name? s = some n
      ↔ s.builtinName? = some n ∨ ∃ e, t.entry? s = some e ∧ e.name = n := by
  unfold name?
  cases hs : s.builtinName? with
  | none =>
    rw [Option.map_eq_some_iff]
    exact (or_iff_right (Option.some_ne_none n).symm).symm
  | some m =>
    refine (or_iff_left ?_).symm
    rintro ⟨e, he, -⟩
    have builtin := s.isSome_builtinName?
    rw [hs, isBuiltin_of_registered he] at builtin
    cases builtin

/-- What a name finds is built in or registered under it. -/
theorem find?_eq_some_iff :
    t.find? n = some s
      ↔ Symbol.builtin? n = some s ∨ ∃ e, t.entry? s = some e ∧ e.name = n := by
  unfold find?
  cases hn : Symbol.builtin? n with
  | none =>
    rw [Option.map_eq_some_iff]
    refine Iff.trans ?_ (or_iff_right (Option.some_ne_none s).symm).symm
    constructor
    · rintro ⟨k, hk, rfl⟩
      obtain ⟨i, hi, same⟩ := Option.bind_eq_some_iff.mp hk
      cases same
      obtain ⟨e, he, named⟩ := index?_eq_some_iff.mp hi
      exact ⟨e, entry?_eq_some_iff.mpr ⟨i, he, rfl⟩, named⟩
    · rintro ⟨e, he, rfl⟩
      obtain ⟨i, hi, rfl⟩ := entry?_eq_some_iff.mp he
      obtain ⟨hlt, -⟩ := Array.getElem?_eq_some_iff.mp hi
      exact ⟨i, Option.bind_eq_some_iff.mpr
        ⟨⟨i, hlt⟩, index?_eq_some_iff.mpr ⟨e, hi, rfl⟩, rfl⟩, rfl⟩
  | some s' =>
    refine (or_iff_left ?_).symm
    rintro ⟨e, he, rfl⟩
    obtain ⟨i, hi, -⟩ := entry?_eq_some_iff.mp he
    rw [t.free e (Array.mem_of_getElem? hi)] at hn
    cases hn

/-- **A name finds the symbol that has it**, and no other. -/
theorem find?_eq_some_iff_name? : t.find? n = some s ↔ t.name? s = some n := by
  rw [find?_eq_some_iff, name?_eq_some_iff, Symbol.builtin?_eq_some_iff]

/-! ## Symbols that are not built in -/

theorem name?_of_isBuiltin_eq_false (h : s.isBuiltin = false) :
    t.name? s = (t.entry? s).map Entry.name := by
  have unnamed : s.builtinName? = none := by
    rw [← Option.not_isSome_iff_eq_none, Symbol.isSome_builtinName?, h]
    exact Bool.false_ne_true
  rw [name?, unnamed]

theorem arity?_of_isBuiltin_eq_false (h : s.isBuiltin = false) :
    t.arity? s = (t.entry? s).map Entry.arity := by
  have plain := Symbol.isSentinel_of_isBuiltin_eq_false h
  rw [arity?, plain, h, if_neg Bool.false_ne_true, if_neg Bool.false_ne_true]

/-- **What is registered of a symbol** is its name and its arity. -/
theorem entry?_eq_some_iff_name?_arity? :
    t.entry? s = some e ↔ s.isBuiltin = false
      ∧ t.name? s = some e.name ∧ t.arity? s = some e.arity := by
  refine Iff.trans ?_ (and_congr_right fun plain => by
    rw [name?_of_isBuiltin_eq_false plain, arity?_of_isBuiltin_eq_false plain]).symm
  constructor
  · intro h
    rw [h]
    exact ⟨isBuiltin_of_registered h, rfl, rfl⟩
  · rintro ⟨-, named, known⟩
    obtain ⟨d, hd, sameName⟩ := Option.map_eq_some_iff.mp named
    rw [hd] at known ⊢
    obtain ⟨n, k⟩ := e
    obtain ⟨m, l⟩ := d
    cases sameName
    cases known
    rfl

theorem exists_entry?_iff :
    (∃ e, t.entry? s = some e)
      ↔ s.isBuiltin = false ∧ (t.name? s).isSome = true := by
  constructor
  · rintro ⟨e, he⟩
    have plain := isBuiltin_of_registered he
    rw [name?_of_isBuiltin_eq_false plain, he]
    exact ⟨plain, rfl⟩
  · rintro ⟨plain, named⟩
    rw [name?_of_isBuiltin_eq_false plain, Option.isSome_map] at named
    exact Option.isSome_iff_exists.mp named

/-! ## The listing of a table -/

theorem mem_toList_iff : (s, e) ∈ t.toList ↔ t.entry? s = some e := by
  unfold toList
  rw [entry?_eq_some_iff, List.mem_map]
  constructor
  · rintro ⟨⟨d, i⟩, hd, same⟩
    cases same
    exact ⟨i, by simpa using List.mk_mem_zipIdx_iff_getElem?.mp hd, rfl⟩
  · rintro ⟨i, hi, rfl⟩
    exact ⟨(e, i), List.mk_mem_zipIdx_iff_getElem?.mpr (by simpa using hi), rfl⟩

theorem mem_map_fst_toList_iff :
    s ∈ t.toList.map Prod.fst ↔ ∃ e, t.entry? s = some e := by
  rw [List.mem_map]
  constructor
  · rintro ⟨⟨s, e⟩, h, rfl⟩
    exact ⟨e, mem_toList_iff.mp h⟩
  · rintro ⟨e, h⟩
    exact ⟨(s, e), mem_toList_iff.mpr h, rfl⟩

theorem length_toList (t : SymbolTable) : t.toList.length = t.size := by
  rw [toList, List.length_map, List.length_zipIdx, Array.length_toList, size]

/-- **The listing ascends**, strictly. -/
theorem pairwise_toList (t : SymbolTable) :
    (t.toList.map Prod.fst).Pairwise fun s s' => compare s s' = .lt := by
  rw [toList, List.map_map, List.pairwise_iff_getElem]
  intro i j hi hj hij
  rw [List.length_map, List.length_zipIdx, Array.length_toList] at hi hj
  rw [Symbol.compare_eq_lt_iff, List.getElem_map, List.getElem_map,
    List.getElem_zipIdx, List.getElem_zipIdx]
  dsimp only [Function.comp_apply]
  rw [Nat.zero_add, Nat.zero_add, toNat_symbolAt (place_lt hi),
    toNat_symbolAt (place_lt hj)]
  exact Nat.add_lt_add_left hij _

/-- **Names and symbols are in bijection**, in every table: what a name
finds is what has the name, for built-in and registered symbols alike. The
registered symbols lie between the built-in constructors and the greatest
symbol, and the listing has each of them once, in ascending order, with
its name and its arity. -/
theorem names_symbols_bijection (t : SymbolTable) :
    (∀ n s, t.find? n = some s ↔ t.name? s = some n)
      ∧ (∀ s, s.isBuiltin = false → (t.name? s).isSome = true →
          compare Symbol.gtTag s = .lt ∧ compare s Symbol.maxTag = .lt)
      ∧ (t.toList.map Prod.fst).Pairwise (fun s s' => compare s s' = .lt)
      ∧ (∀ s e, (s, e) ∈ t.toList ↔ s.isBuiltin = false
          ∧ t.name? s = some e.name ∧ t.arity? s = some e.arity)
      ∧ (∀ s, s ∈ t.toList.map Prod.fst
          ↔ s.isBuiltin = false ∧ (t.name? s).isSome = true)
      ∧ t.toList.length = t.size := by
  refine ⟨fun n s => find?_eq_some_iff_name?, fun s plain named => ?_,
    pairwise_toList t, fun s e => ?_, fun s => ?_, length_toList t⟩
  · obtain ⟨e, he⟩ := exists_entry?_iff.mpr ⟨plain, named⟩
    rw [Symbol.compare_eq_lt_iff, Symbol.compare_eq_lt_iff]
    exact between_of_registered he
  · rw [mem_toList_iff, entry?_eq_some_iff_name?_arity?]
  · rw [mem_map_fst_toList_iff, exists_entry?_iff]

end SymbolTable

end TermGraph
