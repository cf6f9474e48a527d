import TermGraph.Script.Shelf
import TermGraph.Term.Build

/-!
# Expressions for terms

A script says which term it means by an expression: the name of a saved
term, a scalar, or a constructor with expressions for its parts. Parts
are evaluated from left to right, and the symbol of a constructor is
looked up before its children are evaluated, so the first thing that is
wrong, read from left to right, is what the evaluation reports.

A name stands for the very term that was saved, and a child taken from a
term is the child itself; every constructor builds a new instance. So an
expression determines not only the structure of a term but also what it
shares.
-/

namespace TermGraph.Script

/-- **Why a step of a script fails.** -/
inductive Fault where
  /-- A term was refused, or a name was. -/
  | term (e : TermError)
  /-- No term is saved under the name. -/
  | noTerm (name : String)
  /-- The table has no symbol of the name. -/
  | noSymbol (name : String)
  /-- There is no table of the name. -/
  | noTable (name : String)
  /-- There is no sampler of the name. -/
  | noSampler (name : String)
  /-- The term has no child at the position. -/
  | noChild (index : Nat)
deriving DecidableEq

/-- The wording of a fault. -/
def Fault.message : Fault → String
  | .term e => e.message
  | .noTerm name => name
  | .noSymbol name => name
  | .noTable name => name
  | .noSampler name => name
  | .noChild index => toString index

/-- A symbol, by number or by the name a table has for it. -/
inductive SymbolRef where
  /-- The symbol of a number, known to the table or not. -/
  | id (s : Symbol)
  /-- The symbol of a name. -/
  | name (s : String)

/-- The constants among terms. -/
inductive Constant where
  /-- The empty list. -/
  | nil
  /-- The absent value. -/
  | absent
  /-- A truth value. -/
  | truth (b : Bool)
  /-- The least term. -/
  | least
  /-- The greatest term. -/
  | greatest
  /-- A verdict. -/
  | verdict (o : Ordering)

/-- **An expression for a term.** -/
inductive Expr where
  /-- A saved term. -/
  | saved (name : String)
  /-- A boxed scalar. -/
  | scalar (value : Scalar)
  /-- A boxed text that repeats another. -/
  | repeated (s : String) (times : Nat)
  /-- A constant. -/
  | constant (c : Constant)
  /-- A list cell. -/
  | cons (head tail : Expr)
  /-- A present value. -/
  | present (value : Expr)
  /-- A list. -/
  | list (items : List Expr)
  /-- The list of the 32-bit integers from `low` up to, but not
  including, `high`. -/
  | range (low high : Int)
  /-- A symbol applied with the arity the table has for it. -/
  | apply (head : SymbolRef) (args : List Expr)
  /-- A symbol applied to nothing. -/
  | atom (head : SymbolRef)
  /-- A symbol applied with an arity given on the spot. -/
  | applyAs (head : SymbolRef) (arity : Nat) (args : List Expr)
  /-- A symbol over children, unchecked. -/
  | unchecked (head : SymbolRef) (args : List Expr)
  /-- A new instance of a term. -/
  | copy (term : Expr)
  /-- A term with other children. -/
  | withChildren (term : Expr) (args : List Expr)
  /-- The child of a term at a position, and of that the child at the
  same position, and so on. -/
  | descend (term : Expr) (index times : Nat)
  /-- Repeated application to the term so far. -/
  | chain (head : SymbolRef) (times : Nat) (start : Expr)
  /-- Repeated application to several times the term so far. -/
  | dag (head : SymbolRef) (width times : Nat) (start : Expr)
  /-- Repeated application to the term so far and one other. -/
  | spine (head : SymbolRef) (times : Nat) (start other : Expr)
  /-- A symbol applied to several times one term. -/
  | wide (head : SymbolRef) (width : Nat) (term : Expr)

/-- What the names of an expression refer to. -/
structure Scope where
  /-- The table that names symbols and fixes their arities. -/
  table : SymbolTable
  /-- The saved terms. -/
  saved : Shelf Term

/-- Evaluation builds terms and may fail. -/
abbrev Evaluation := StateT Supply (Except Fault)

namespace Evaluation

/-- Building that is never refused. -/
def fresh {α : Type} (f : Fresh α) : Evaluation α := fun supply =>
  .ok (f.run supply)

/-- Building that may be refused. -/
def checked {α : Type} (c : Checked α) : Evaluation α := fun supply =>
  (c.run supply).mapError .term

/-- A constructor that checks. -/
def build (request : Except TermError (Fresh Term)) : Evaluation Term :=
  checked (Checked.build request)

end Evaluation

namespace Scope

/-- The symbol that is meant. -/
def symbol (scope : Scope) : SymbolRef → Except Fault Symbol
  | .id s => .ok s
  | .name n =>
    match scope.table.find? n with
    | some s => .ok s
    | none => .error (.noSymbol n)

/-- The term saved under a name. -/
def term (scope : Scope) (name : String) : Except Fault Term :=
  match scope.saved.find? name with
  | some t => .ok t
  | none => .error (.noTerm name)

end Scope

/-- The child of a term at a position. -/
def child (t : Term) (index : Nat) : Except Fault Term :=
  match t.node? with
  | .error e => .error (.term e)
  | .ok (_, ts) =>
    match ts[index]? with
    | some u => .ok u
    | none => .error (.noChild index)

/-- The child at a position, taken a number of times. -/
def descend (index : Nat) : Nat → Term → Except Fault Term
  | 0, t => .ok t
  | n + 1, t =>
    match child t index with
    | .ok u => descend index n u
    | .error e => .error e

namespace Constant

/-- The term of a constant. The bounds of the order are there already;
everything else is a new instance. -/
def build : Constant → Fresh Term
  | nil => Term.newNil
  | absent => Term.newNone
  | truth b => Term.newBool b
  | least => pure Term.least
  | greatest => pure Term.greatest
  | verdict o => Term.newOrdering o

end Constant

/-- The 32-bit integers from `low` up to, but not including, `high`. -/
def integers (low high : Int) : List Scalar :=
  (List.range (high - low).toNat).map fun i : Nat =>
    .int32 (.ofInt (low + i))

/-- A text repeated. -/
def repeatText (s : String) (times : Nat) : String :=
  Nat.repeat (· ++ s) times ""

mutual

/-- **The term an expression stands for.** -/
def Expr.eval (scope : Scope) : Expr → Evaluation Term
  | .saved name => scope.term name
  | .scalar v => .fresh (Term.newBoxed v)
  | .repeated s times => .fresh (Term.newBoxed (.text (repeatText s times)))
  | .constant c => .fresh c.build
  | .cons head tail => do
    let t ← head.eval scope
    let u ← tail.eval scope
    .fresh (Term.newCons t u)
  | .present value => do .fresh (Term.newSome (← value.eval scope))
  | .list items => do .fresh (Term.newList (← evalAll scope items))
  | .range low high => .fresh do
    Term.newList (← (integers low high).mapM Term.newBoxed)
  | .apply head args => do
    let s ← scope.symbol head
    let ts ← evalAll scope args
    .build (scope.table.apply s ts)
  | .atom head => do
    let s ← scope.symbol head
    .build (scope.table.atom s)
  | .applyAs head arity args => do
    let s ← scope.symbol head
    let ts ← evalAll scope args
    .build (s.apply arity ts)
  | .unchecked head args => do
    let s ← scope.symbol head
    let ts ← evalAll scope args
    .fresh (Term.newNode s ts)
  | .copy term => do .fresh (← term.eval scope).copy
  | .withChildren term args => do
    let t ← term.eval scope
    let ts ← evalAll scope args
    .build (t.withChildren ts)
  | .descend term index times => do
    let t ← term.eval scope
    descend index times t
  | .chain head times start => do
    let s ← scope.symbol head
    let t ← start.eval scope
    .checked (scope.table.applyTimes s (fun x => [x]) times t)
  | .dag head width times start => do
    let s ← scope.symbol head
    let t ← start.eval scope
    .checked (scope.table.applyTimes s (List.replicate width) times t)
  | .spine head times start other => do
    let s ← scope.symbol head
    let t ← start.eval scope
    let u ← other.eval scope
    .checked (scope.table.applyTimes s (fun x => [x, u]) times t)
  | .wide head width term => do
    let s ← scope.symbol head
    let t ← term.eval scope
    .build (scope.table.apply s (List.replicate width t))

/-- The terms of several expressions, from left to right. -/
def evalAll (scope : Scope) : List Expr → Evaluation (List Term)
  | [] => return []
  | e :: es => do
    let t ← e.eval scope
    let ts ← evalAll scope es
    return t :: ts

end

end TermGraph.Script
