import TermGraph.Sampler.Generate
import TermGraph.Script.Excerpt
import TermGraph.Script.Expr
import TermGraph.Term.Batch
import TermGraph.Term.Text

/-!
# Scripts

A script is a list of commands. It works in a session, which holds symbol
tables, saved terms and samplers under names, and of the tables one that
is current: it names symbols for all commands until another takes its
place.

A command answers with a report or fails. Most are *actions*, which
happen as a whole or not at all: one that fails leaves the session as it
found it. Registering many names is not one of them. It stops at the
first name that is refused, and the names before it stay registered.

A sampler can ask for more memory than can be asked for. Then the program
stops, without an answer to the command, and with it the script.
-/

namespace TermGraph.Script

/-- What a term can be taken apart as. -/
inductive Unpacking where
  /-- A boxed 32-bit integer. -/
  | int32
  /-- A boxed 64-bit integer. -/
  | int64
  /-- A boxed single-precision float. -/
  | float32
  /-- A boxed double-precision float. -/
  | float64
  /-- A boxed text. -/
  | text
  /-- A head with children. -/
  | node

/-- **An action.** -/
inductive Action where
  /-- Makes a new table current. -/
  | newTable (name : String)
  /-- Makes a table current. -/
  | useTable (name : String)
  /-- Keeps a copy of the current table. -/
  | copyTable (name : String)
  /-- Registers a name. -/
  | intern (name : String) (arity : Nat)
  /-- Looks up a name. -/
  | lookup (name : String)
  /-- Lists the current table. -/
  | listTable
  /-- Describes a symbol. -/
  | describeSymbol (s : SymbolRef)
  /-- Compares two symbols. -/
  | compareSymbols (a b : SymbolRef)
  /-- Saves a term. -/
  | save (name : String) (term : Expr)
  /-- Forgets a saved term. -/
  | discard (name : String)
  /-- Describes a term. -/
  | describe (term : Expr)
  /-- Writes a term with the names of the current table. -/
  | write (term : Expr)
  /-- Writes a term without a table. -/
  | writeBare (term : Expr)
  /-- Opens a term. -/
  | view (term : Expr)
  /-- Takes a term apart as something definite. -/
  | unpack (unpacking : Unpacking) (term : Expr)
  /-- Compares two terms. -/
  | compare (a b : Expr)
  /-- Asks whether two terms are one instance. -/
  | same (a b : Expr)
  /-- Sorts terms. -/
  | sort (terms : List Expr)
  /-- Spells out a term as bytes. -/
  | stream (term : Expr)
  /-- Sets up a sampler over the current table. -/
  | newSampler (name : String) (seed : UInt64) (heads : List SymbolRef)
    (config : Config)
  /-- Takes samples, and saves them if a stem is given. -/
  | sample (sampler : String) (count : Nat) (stem : Option String)

/-- **A command.** -/
inductive Command where
  /-- An action, which changes nothing when it fails. -/
  | action (a : Action)
  /-- Registers the names that a stem forms with `0`, `1`, … -/
  | internMany (stem : String) (count arity : Nat)

/-- **The report of a command.** -/
inductive Reply where
  /-- The number of names in a table. -/
  | size (n : Nat)
  /-- A symbol, if there is one, and the number of names in the table. -/
  | interned (s : Option Symbol) (size : Nat)
  /-- A symbol, if there is one. -/
  | found (s : Option Symbol)
  /-- The registrations of a table. -/
  | listing (entries : List (Symbol × Entry))
  /-- A symbol with the name and arity the table has for it. -/
  | symbol (s : Symbol) (name : Option String) (arity : Option Nat)
  /-- The order of two symbols. -/
  | symbolOrder (verdict : Ordering)
  /-- A term to describe. -/
  | term (t : Term)
  /-- Whether a name held a term. -/
  | discarded (held : Bool)
  /-- A text. -/
  | text (excerpt : Excerpt)
  /-- A term to open. -/
  | opened (t : Term)
  /-- The value of a boxed scalar. -/
  | scalar (value : Scalar)
  /-- A head and the number of its children. -/
  | head (s : Symbol) (children : Nat)
  /-- The order of two terms, the order the other way round, and what the
  first comparison cost. -/
  | comparison (verdict reverse : Ordering) (tally : Tally)
  /-- Whether two terms are one instance. -/
  | same (yes : Bool)
  /-- The positions of terms in order, those of the distinct ones, and
  the number of the distinct ones. -/
  | sorted (positions distinct : List Nat) (count : Nat)
  /-- A byte stream. -/
  | stream (excerpt : StreamExcerpt)
  /-- The settings of a sampler. -/
  | config (config : Config)
  /-- The texts of samples. -/
  | samples (excerpts : List Excerpt)

/-- **A session.** -/
structure Session where
  /-- The name of the current table. -/
  tableName : String := "main"
  /-- The current table. -/
  table : SymbolTable := ∅
  /-- The tables that are not current. -/
  others : Shelf SymbolTable := {}
  /-- The saved terms. -/
  saved : Shelf Term := {}
  /-- The samplers. -/
  samplers : Shelf Sampler := {}
  /-- The serial numbers not given out. -/
  supply : Supply := .initial

namespace Session

/-- What the names of expressions refer to. -/
def scope (s : Session) : Scope := ⟨s.table, s.saved⟩

/-- Makes a table current under a name, in place of any table of that
name; the table that was current is put aside. -/
def withTable (s : Session) (name : String) (table : SymbolTable) : Session :=
  { s with
    tableName := name
    table
    others := (s.others.put s.tableName s.table).remove name }

/-- The table of a name. -/
def tableOf? (s : Session) (name : String) : Option SymbolTable :=
  if name = s.tableName then some s.table else s.others.find? name

/-- Saves terms under a stem with `0`, `1`, … -/
def saveAll (s : Session) (stem : String) (ts : List Term) : Session :=
  { s with
    saved := ts.zipIdx.foldl
      (fun shelf (t, i) => shelf.put (stem ++ toString i) t) s.saved }

end Session

/-! ## Actions -/

/-- A computation in a session that may fail, and may stop the program. -/
abbrev Running := StateT Session (ExceptT Fault Option)

namespace Running

/-- Evaluates in the current scope. -/
def evaluate {α : Type} (f : Scope → Evaluation α) : Running α := fun s => do
  let (a, supply) ← (f s.scope).run s.supply
  return (a, { s with supply })

/-- Builds with the supply, as long as there is memory. -/
def building {α : Type} (f : StateT Supply Option α) : Running α := fun s => do
  let (a, supply) ← f.run s.supply
  return (a, { s with supply })

/-- The term an expression stands for. -/
def term (e : Expr) : Running Term := evaluate fun scope => e.eval scope

/-- The symbol that is meant. -/
def symbol (r : SymbolRef) : Running Symbol := do
  (← get).scope.symbol r

/-- What was asked of a term or a table. -/
def ofTerm {α : Type} (r : Except TermError α) : Running α :=
  liftExcept (r.mapError Fault.term)

/-- A text, as a report shows it. -/
def excerpt (t : Term) : Running Excerpt := do
  return .ofText (t.text (← get).table)

end Running

/-- A term taken apart. -/
def Unpacking.apply (u : Unpacking) (t : Term) : Except TermError Reply :=
  match u with
  | .int32 => t.int32?.map fun v => .scalar (.int32 v)
  | .int64 => t.int64?.map fun v => .scalar (.int64 v)
  | .float32 => t.float32?.map fun v => .scalar (.float32 v)
  | .float64 => t.float64?.map fun v => .scalar (.float64 v)
  | .text => t.text?.map fun v => .scalar (.text v)
  | .node => t.node?.map fun (s, ts) => .head s ts.length

open Running in
/-- **What an action does.** -/
def Action.perform : Action → Running Reply
  | newTable name => do
    modify fun s => s.withTable name ∅
    return .size 0
  | useTable name => do
    match (← get).tableOf? name with
    | none => throw (.noTable name)
    | some table =>
      modify fun s => s.withTable name table
      return .size table.size
  | copyTable name => do
    let session ← get
    unless name = session.tableName do
      set { session with others := session.others.put name session.table }
    return .size session.table.size
  | intern name arity => do
    let (s, table) ← ofTerm ((← get).table.intern name arity)
    modify fun session => { session with table }
    return .interned (some s) table.size
  | lookup name => do return .found ((← get).table.find? name)
  | listTable => do return .listing (← get).table.toList
  | describeSymbol r => do
    let s ← symbol r
    let table := (← get).table
    return .symbol s (table.name? s) (table.arity? s)
  | compareSymbols a b => do
    let s ← symbol a
    let t ← symbol b
    return .symbolOrder (Ord.compare s t)
  | save name e => do
    let t ← term e
    modify fun s => { s with saved := s.saved.put name t }
    return .term t
  | discard name => do
    let held := ((← get).saved.find? name).isSome
    modify fun s => { s with saved := s.saved.remove name }
    return .discarded held
  | describe e => do return .term (← term e)
  | write e => do return .text (← excerpt (← term e))
  | writeBare e => do return .text (.ofText (← term e).debugText)
  | view e => do return .opened (← term e)
  | unpack u e => do ofTerm (u.apply (← term e))
  | compare a b => do
    let t ← term a
    let u ← term b
    let tally := (t.compareTally? u).elim {} Prod.snd
    return .comparison (t.order u) (u.order t) tally
  | same a b => do
    let t ← term a
    let u ← term b
    return .same (t.same u)
  | sort es => do
    let ts ← evaluate fun scope => evalAll scope es
    return .sorted (Batch.positions ts) (Batch.distinctPositions ts)
      (Batch.countHashed ts)
  | stream e => do return .stream (.ofBytes (← term e).stream)
  | newSampler name seed heads config => do
    let symbols ← heads.mapM symbol
    let made ← Sampler.ofSeed? seed (← get).table symbols config
    let sampler ← ofTerm made
    modify fun s => { s with samplers := s.samplers.put name sampler }
    return .config config
  | sample name count stem => do
    match (← get).samplers.find? name with
    | none => throw (.noSampler name)
    | some sampler =>
      let (ts, sampler) ← building (sampler.samples? count)
      modify fun s =>
        { s with samplers := s.samplers.put name sampler }
      if let some stem := stem then modify fun s => s.saveAll stem ts
      return .samples (← ts.mapM excerpt)

/-! ## Scripts -/

namespace Session

/-- Tries an action. There is no outcome if it stops the program. -/
def attempt (s : Session) (a : Action) :
    Option (Except Fault Reply × Session) :=
  match (a.perform.run s).run with
  | none => none
  | some (.ok (reply, s)) => some (.ok reply, s)
  | some (.error fault) => some (.error fault, s)

/-- Registers names until one is refused; `last` is the symbol of the
name before. -/
def internNames (arity : Nat) :
    List String → Option Symbol → Session → Except Fault Reply × Session
  | [], last, s => (.ok (.interned last s.table.size), s)
  | name :: names, _, s =>
    match s.table.intern name arity with
    | .ok (symbol, table) => internNames arity names symbol { s with table }
    | .error e => (.error (.term e), s)

/-- **Runs a command.** There is no outcome if it stops the program. -/
def run (s : Session) : Command → Option (Except Fault Reply × Session)
  | .action a => s.attempt a
  | .internMany stem count arity =>
    some (internNames arity
      ((List.range count).map fun i => stem ++ toString i) none s)

/-- **The answers of a script**, in the order of its commands. They end
before a command that stops the program, if there is one. -/
def answers (s : Session) : List Command → List (Except Fault Reply)
  | [] => []
  | c :: cs =>
    match s.run c with
    | none => []
    | some (answer, s) => answer :: s.answers cs

end Session

end TermGraph.Script
