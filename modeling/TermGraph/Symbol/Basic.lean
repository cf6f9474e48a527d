/-!
# Symbols

A symbol is the tag a term carries: a 32-bit number, and nothing else.
Symbols are ordered by their numbers, and the numbers are laid out so
that this one order puts the kinds of tag in a useful sequence:

* the least symbol, below everything;
* the five tags of boxed scalars;
* the built-in constructors;
* the names a symbol table registers, in the order of registration;
* the greatest symbol, above everything.

The first three stretches are spelt out in `Symbol.reserved`, whose
positions *are* the numbers; a table starts numbering where that list
ends. The greatest symbol sits at the far end of the number space, so
that no table can reach it.

A symbol need not have a name: any 32-bit number is one, registered or
not, and `Symbol.label` still writes it.
-/

namespace TermGraph

/-- **A symbol**: the tag of a term. -/
structure Symbol where
  /-- The place of the symbol in the layout, which is also its rank. -/
  id : UInt32
deriving DecidableEq

/-- A symbol with a fixed place at the bottom of the layout. -/
structure Reserved where
  /-- The name it goes by in every table. -/
  name : String
  /-- The number of children it always has; absent for the least symbol
  and for the tags of boxed scalars, which head no built term. -/
  arity : Option Nat

namespace Symbol

/-- **The reserved stretch of the layout**: position `i` describes the
symbol numbered `i`. -/
def reserved : List Reserved :=
  [⟨"min_term", none⟩,
   ⟨"boxed_i32", none⟩,
   ⟨"boxed_i64", none⟩,
   ⟨"boxed_fp32", none⟩,
   ⟨"boxed_fp64", none⟩,
   ⟨"boxed_string", none⟩,
   ⟨"nil", some 0⟩,
   ⟨"cons", some 2⟩,
   ⟨"none", some 0⟩,
   ⟨"some", some 1⟩,
   ⟨"true", some 0⟩,
   ⟨"false", some 0⟩,
   ⟨"cmp_lt", some 0⟩,
   ⟨"cmp_eq", some 0⟩,
   ⟨"cmp_gt", some 0⟩]

/-- The number of the first name a table registers: just past the
reserved stretch. -/
def firstFree : Nat := reserved.length

/-- The name of the greatest symbol. -/
def maxName : String := "max_term"

/-! ## The symbols with a fixed number -/

/-- The tag of the term below all others. -/
def minTag : Symbol := ⟨0⟩
/-- The tag of a boxed 32-bit integer. -/
def int32Tag : Symbol := ⟨1⟩
/-- The tag of a boxed 64-bit integer. -/
def int64Tag : Symbol := ⟨2⟩
/-- The tag of a boxed single-precision float. -/
def float32Tag : Symbol := ⟨3⟩
/-- The tag of a boxed double-precision float. -/
def float64Tag : Symbol := ⟨4⟩
/-- The tag of a boxed text. -/
def textTag : Symbol := ⟨5⟩
/-- The empty list. -/
def nilTag : Symbol := ⟨6⟩
/-- A list cell: first element and remaining list. -/
def consTag : Symbol := ⟨7⟩
/-- An absent value. -/
def noneTag : Symbol := ⟨8⟩
/-- A present value. -/
def someTag : Symbol := ⟨9⟩
/-- The truth value "true". -/
def trueTag : Symbol := ⟨10⟩
/-- The truth value "false". -/
def falseTag : Symbol := ⟨11⟩
/-- The verdict "less". -/
def ltTag : Symbol := ⟨12⟩
/-- The verdict "equal". -/
def eqTag : Symbol := ⟨13⟩
/-- The verdict "greater". -/
def gtTag : Symbol := ⟨14⟩
/-- The tag of the term above all others. -/
def maxTag : Symbol := ⟨0xffffffff⟩

/-- The symbol numbered `n`, counted modulo the 32 bits there are. -/
def ofNat (n : Nat) : Symbol := ⟨UInt32.ofNat n⟩

/-- The number of a symbol. -/
def toNat (s : Symbol) : Nat := s.id.toNat

/-- The tag that states a verdict. -/
def ofOrdering : Ordering → Symbol
  | .lt => ltTag
  | .eq => eqTag
  | .gt => gtTag

/-- Symbols are ordered by number. -/
instance : Ord Symbol where
  compare a b := compare a.toNat b.toNat

theorem compare_def (a b : Symbol) :
    compare a b = compare a.toNat b.toNat := rfl

/-- Symbols with the same number are the same symbol. -/
theorem eq_of_toNat_eq {a b : Symbol} (h : a.toNat = b.toNat) : a = b := by
  cases a; cases b
  exact congrArg Symbol.mk (UInt32.toNat_inj.mp h)

@[simp] theorem compare_eq_eq_iff {a b : Symbol} :
    compare a b = .eq ↔ a = b := by
  rw [compare_def, Nat.compare_eq_eq]
  exact ⟨eq_of_toNat_eq, congrArg toNat⟩

/-! ## Kinds of symbol -/

/-- Whether the symbol tags a boxed scalar. -/
def isBoxed (s : Symbol) : Bool :=
  int32Tag.toNat ≤ s.toNat && s.toNat ≤ textTag.toNat

/-- Whether the symbol is one of the two bounds of the order. -/
def isSentinel (s : Symbol) : Bool :=
  s == minTag || s == maxTag

/-- Whether the symbol has a place of its own, whatever a table
registers. -/
def isBuiltin (s : Symbol) : Bool :=
  s.toNat < firstFree || s == maxTag

/-- The fixed name of a built-in symbol. -/
def builtinName? (s : Symbol) : Option String :=
  if s = maxTag then some maxName else reserved[s.toNat]?.map Reserved.name

/-- The fixed number of children of a built-in constructor. -/
def builtinArity? (s : Symbol) : Option Nat :=
  reserved[s.toNat]?.bind Reserved.arity

/-- The built-in symbol of a given name. -/
def builtin? (name : String) : Option Symbol :=
  if name = maxName then some maxTag
  else (reserved.findIdx? (·.name == name)).map ofNat

/-- **How a symbol is written without a table**: by its fixed name if it
has one, by its number otherwise. -/
def label (s : Symbol) : String :=
  s.builtinName?.getD ("sym#" ++ toString s.toNat)

/-- A symbol written so that it cannot be taken for a name. -/
def debugLabel (s : Symbol) : String := "Symbol(" ++ s.label ++ ")"

example : builtin? "cons" = some consTag := by decide
example : consTag.builtinName? = some "cons" := by decide
example : (ofNat 15).label = "sym#15" := by decide

end Symbol

end TermGraph
