import TermGraph.Error
import TermGraph.Symbol.Basic

/-!
# Symbol tables

A table gives names to the numbers above the reserved stretch of the
layout, and fixes for each name how many children its terms have. It is
the list of its registrations in the order they were made: the entry at
position `i` belongs to the symbol numbered `firstFree + i`, so order of
registration and order of symbols are one order, and nothing else has to
be stored.

What every table keeps is part of the type. No name is registered twice,
none is the name of a built-in symbol, and the numbers stay below the
greatest symbol. So a name determines its symbol and a symbol its name,
which is what the two look-ups `find?` and `name?` rely on.

`SymbolTable.intern` is the only operation that changes a table, and it
changes it in one case out of six: the name is new, free and there is
room. In every other case it answers, or says why not, and the table is
the one it was given.
-/

namespace TermGraph

/-- A registered name. -/
structure Entry where
  /-- The name. -/
  name : String
  /-- The number of children of its terms. -/
  arity : Nat
deriving DecidableEq

/-- **A symbol table**: its registrations, oldest first. -/
structure SymbolTable where
  /-- The registrations; the position decides the symbol. -/
  entries : Array Entry
  /-- No name is registered twice. -/
  nodup : (entries.toList.map Entry.name).Nodup
  /-- The names of built-in symbols stay free. -/
  free : ∀ e ∈ entries, Symbol.builtin? e.name = none
  /-- Every registration has a number below the greatest symbol. -/
  fits : Symbol.firstFree + entries.size ≤ Symbol.maxTag.toNat

namespace SymbolTable

/-- The table without registrations. -/
def empty : SymbolTable where
  entries := #[]
  nodup := List.nodup_nil
  free := by simp
  fits := by decide

instance : EmptyCollection SymbolTable := ⟨empty⟩
instance : Inhabited SymbolTable := ⟨empty⟩

/-- The number of registered names. -/
def size (t : SymbolTable) : Nat := t.entries.size

/-- Whether nothing is registered. -/
def isEmpty (t : SymbolTable) : Bool := t.entries.isEmpty

/-- Where a name is registered. -/
def index? (t : SymbolTable) (name : String) : Option (Fin t.entries.size) :=
  t.entries.findFinIdx? (·.name == name)

/-- The symbol of the `i`-th registration. -/
def symbolAt (i : Nat) : Symbol := Symbol.ofNat (Symbol.firstFree + i)

/-- The registration of a symbol. The reserved symbols have none, nor
has a number beyond those given out. -/
def entry? (t : SymbolTable) (s : Symbol) : Option Entry :=
  if s.toNat < Symbol.firstFree then none
  else t.entries[s.toNat - Symbol.firstFree]?

/-- **The symbol of a name**, built-in or registered. -/
def find? (t : SymbolTable) (name : String) : Option Symbol :=
  match Symbol.builtin? name with
  | some s => some s
  | none => (t.index? name).map fun i => symbolAt i

/-- **The name of a symbol**, built-in or registered. -/
def name? (t : SymbolTable) (s : Symbol) : Option String :=
  match s.builtinName? with
  | some name => some name
  | none => (t.entry? s).map Entry.name

/-- How the table writes a symbol: by name if it knows one, by number
otherwise. -/
def label (t : SymbolTable) (s : Symbol) : String :=
  (t.name? s).getD s.label

/-- **The number of children of terms headed by a symbol.** The bounds of
the order have none. A tag of boxed scalars has no such number, and
neither has a symbol the table does not know. -/
def arity? (t : SymbolTable) (s : Symbol) : Option Nat :=
  if s.isSentinel then some 0
  else if s.isBuiltin then s.builtinArity?
  else (t.entry? s).map Entry.arity

/-- The registrations with their symbols, in the order of both. -/
def toList (t : SymbolTable) : List (Symbol × Entry) :=
  t.entries.toList.zipIdx.map fun (e, i) => (symbolAt i, e)

/-! ## Registration -/

/-- The table with one more registration. -/
def register (t : SymbolTable) (e : Entry)
    (isFree : Symbol.builtin? e.name = none) (isNew : t.index? e.name = none)
    (room : Symbol.firstFree + t.size < Symbol.maxTag.toNat) : SymbolTable where
  entries := t.entries.push e
  nodup := by
    have absent : e.name ∉ t.entries.toList.map Entry.name := by
      intro mem
      obtain ⟨d, hd, same⟩ := List.mem_map.mp mem
      have := Array.findFinIdx?_eq_none_iff.mp isNew d (Array.mem_toList_iff.mp hd)
      simp [same] at this
    rw [Array.toList_push, List.map_append, List.map_singleton]
    refine List.nodup_append.mpr ⟨t.nodup, by simp, ?_⟩
    intro a ha b hb
    rw [List.mem_singleton.mp hb]
    rintro rfl
    exact absent ha
  free := by
    intro d hd
    rcases Array.mem_push.mp hd with old | rfl
    · exact t.free d old
    · exact isFree
  fits := by
    rw [Array.size_push]
    exact room

/-- **Registration of a name.** A built-in constructor answers with its
own symbol when the number of children agrees; the other built-in names
are set aside. A name already registered answers with its symbol, again
when the number of children agrees. A new name is given the next
number, if there is one. -/
def intern (t : SymbolTable) (name : String) (arity : Nat) :
    Except TermError (Symbol × SymbolTable) :=
  match isFree : Symbol.builtin? name with
  | some s =>
    match s.builtinArity? with
    | some fixed =>
      if fixed = arity then .ok (s, t)
      else .error (.arityConflict name fixed arity)
    | none => .error (.reservedSymbol name)
  | none =>
    match isNew : t.index? name with
    | some i =>
      if t.entries[i].arity = arity then .ok (symbolAt i, t)
      else .error (.arityConflict name t.entries[i].arity arity)
    | none =>
      if room : Symbol.firstFree + t.size < Symbol.maxTag.toNat then
        .ok (symbolAt t.size, t.register ⟨name, arity⟩ isFree isNew room)
      else .error .tableFull

@[simp] theorem entries_register (t : SymbolTable) (e : Entry)
    (isFree : Symbol.builtin? e.name = none) (isNew : t.index? e.name = none)
    (room : Symbol.firstFree + t.size < Symbol.maxTag.toNat) :
    (t.register e isFree isNew room).entries = t.entries.push e := rfl

/-- Two tables with the same registrations are the same table. -/
theorem eq_of_entries_eq {t u : SymbolTable} (h : t.entries = u.entries) :
    t = u := by
  cases t; cases u; cases h; rfl

end SymbolTable

end TermGraph
