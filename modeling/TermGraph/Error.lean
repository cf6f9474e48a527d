import TermGraph.Kind
import TermGraph.Symbol.Basic

/-!
# What can go wrong with terms and tables

One constructor per cause. The wording is in `TermError.message` and
nowhere else; a symbol is named there by `Symbol.label`, so a message
never depends on the table that refused.
-/

namespace TermGraph

/-- **Why a term was not built, a name not registered or a value not
read.** -/
inductive TermError where
  /-- The symbol takes another number of children. -/
  | arityMismatch (symbol : Symbol) (expected found : Nat)
  /-- The symbol is the tag of boxed scalars. -/
  | boxedSymbol (symbol : Symbol)
  /-- The name, or the symbol of that name, is set aside. -/
  | reservedSymbol (name : String)
  /-- The name is taken with another number of children. -/
  | arityConflict (name : String) (existing requested : Nat)
  /-- The table has no entry for the symbol. -/
  | unknownSymbol (symbol : Symbol)
  /-- The table has no number left to give. -/
  | tableFull
  /-- The term is not of the kind asked for. -/
  | unexpectedKind (expected found : Kind)
deriving DecidableEq

namespace TermError

/-- The wording of an error. -/
def message : TermError → String
  | arityMismatch symbol expected found =>
    "Arity mismatch for " ++ symbol.label ++ ": expected "
      ++ toString expected ++ ", found " ++ toString found
  | boxedSymbol symbol =>
    "Symbol " ++ symbol.label ++ " is boxed and cannot head a complex term"
  | reservedSymbol name => "Reserved symbol " ++ name
  | arityConflict name existing requested =>
    "Symbol " ++ name ++ " already declared with arity "
      ++ toString existing ++ ", requested " ++ toString requested
  | unknownSymbol symbol => "Unknown symbol " ++ symbol.label
  | tableFull => "Symbol table is full"
  | unexpectedKind expected found =>
    "Type mismatch: expected " ++ expected.name ++ ", found " ++ found.name

end TermError

end TermGraph
