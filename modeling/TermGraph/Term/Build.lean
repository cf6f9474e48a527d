import TermGraph.Symbol.Table
import TermGraph.Term.Basic

/-!
# Building terms

Terms of the built-in constructors are built outright: the constructor
fixes the number of children. A term of any other head is checked first.
The checks come in a fixed order, and the first that fails is the error;
only an application that passes them all takes a serial number.

Every check stands between a request and a computation in `Fresh`, so the
type of a checked constructor is `Except TermError (Fresh Term)`: whether
a term can be built is decided without building it.
-/

namespace TermGraph

namespace Term

/-! ## Built-in constructors -/

/-- A new instance of the empty list. -/
def newNil : Fresh Term := newNode .nilTag []

/-- A new list cell. -/
def newCons (head tail : Term) : Fresh Term := newNode .consTag [head, tail]

/-- **A new list**, built from the end to the front. -/
def newList (ts : List Term) : Fresh Term := do
  ts.reverse.foldlM (fun tail head => newCons head tail) (← newNil)

/-- A new instance of the absent value. -/
def newNone : Fresh Term := newNode .noneTag []

/-- A new present value. -/
def newSome (value : Term) : Fresh Term := newNode .someTag [value]

/-- A new truth value. -/
def newBool (b : Bool) : Fresh Term :=
  newNode (if b then .trueTag else .falseTag) []

/-- A new instance of the verdict on a comparison. -/
def newOrdering (verdict : Ordering) : Fresh Term :=
  newNode (.ofOrdering verdict) []

/-! ## Reading a term apart -/

/-- What the term is, where something else was asked for. -/
def unexpected (t : Term) (expected : Kind) : TermError :=
  .unexpectedKind expected t.kind

/-- The value of a boxed 32-bit integer. -/
def int32? : Term → Except TermError Int32
  | boxed _ (.int32 v) => .ok v
  | t => .error (t.unexpected .int32)

/-- The value of a boxed 64-bit integer. -/
def int64? : Term → Except TermError Int64
  | boxed _ (.int64 v) => .ok v
  | t => .error (t.unexpected .int64)

/-- The value of a boxed single-precision float. -/
def float32? : Term → Except TermError (Binary .single)
  | boxed _ (.float32 v) => .ok v
  | t => .error (t.unexpected .float32)

/-- The value of a boxed double-precision float. -/
def float64? : Term → Except TermError (Binary .double)
  | boxed _ (.float64 v) => .ok v
  | t => .error (t.unexpected .float64)

/-- The value of a boxed text. -/
def text? : Term → Except TermError String
  | boxed _ (.text v) => .ok v
  | t => .error (t.unexpected .text)

/-- The head and the children of a term that has them. -/
def node? : Term → Except TermError (Symbol × List Term)
  | node _ s ts => .ok (s, ts)
  | t => .error (t.unexpected .complex)

end Term

/-! ## Checked constructors -/

/-- Building that may be refused part of the way. -/
abbrev Checked := StateT Supply (Except TermError)

/-- Builds what was checked, or refuses. -/
def Checked.build {α : Type} (request : Except TermError (Fresh α)) :
    Checked α := fun supply =>
  request.map fun fresh => fresh.run supply

namespace Symbol

/-- **Why a symbol does not apply to children**, if it does not, when it
is taken to have the given arity. A tag of boxed scalars heads no node
and the bounds of the order are not built; a built-in constructor insists
on its own arity; and the children have to be as many as the arity
says. -/
def applyError? (s : Symbol) (arity found : Nat) : Option TermError :=
  if s.isBoxed then some (.boxedSymbol s)
  else if s.isSentinel then some (.reservedSymbol s.label)
  else
    let fixed := s.builtinArity?.getD arity
    if fixed ≠ arity then some (.arityMismatch s fixed arity)
    else if found ≠ arity then some (.arityMismatch s arity found)
    else none

/-- **Application of a symbol** taken to have the given arity. -/
def apply (s : Symbol) (arity : Nat) (ts : List Term) :
    Except TermError (Fresh Term) :=
  match s.applyError? arity ts.length with
  | some e => .error e
  | none => .ok (Term.newNode s ts)

end Symbol

namespace SymbolTable

/-- **Application of a symbol with the arity the table has for it.** -/
def apply (t : SymbolTable) (s : Symbol) (ts : List Term) :
    Except TermError (Fresh Term) :=
  if s.isBoxed then .error (.boxedSymbol s)
  else
    match t.arity? s with
    | none => .error (.unknownSymbol s)
    | some arity => s.apply arity ts

/-- A term without children. -/
def atom (t : SymbolTable) (s : Symbol) : Except TermError (Fresh Term) :=
  t.apply s []

/-- **Repeated application**: from `x`, the symbol is applied `n` times to
the children that `args` makes of the term so far. -/
def applyTimes (t : SymbolTable) (s : Symbol) (args : Term → List Term) :
    Nat → Term → Checked Term
  | 0, x => return x
  | n + 1, x => do
    let y ← Checked.build (t.apply s (args x))
    t.applyTimes s args n y

end SymbolTable

namespace Term

/-- **A new term with other children** under the same head, as many as
before. -/
def withChildren (t : Term) (ts : List Term) : Except TermError (Fresh Term) :=
  match t with
  | node _ s old => s.apply old.length ts
  | boxed _ _ => .error (t.unexpected .complex)

end Term

end TermGraph
