import TermGraph.CommandLine.Arguments
import TermGraph.Sampler.Generate
import TermGraph.Term.Batch
import TermGraph.Term.Text

/-!
# The command line

Two commands exercise terms from outside. `sort` takes samples over a
small fixed vocabulary and prints the distinct ones in order; `chain`
builds two equal chains, which may share their lower half, and prints the
verdict on comparing them.

An invocation is first read into `Invocation`, and only what was read
runs. A request that cannot be read ends with code `2` and prints
nothing; a term that is refused ends with code `1`, and a request for more
memory than can be asked for with code `101`.

There is a third command, `sizes`, which reports how many bytes values of
some types take. It is left out, and what asks for it ends like a request
that cannot be read.
-/

namespace TermGraph.CommandLine

/-- **The options of `sort`.** -/
structure SortOptions where
  /-- The number of samples. -/
  count : Nat := 20
  /-- The greatest depth of a sample. -/
  depth : Nat := 3
  /-- The seed of the sampler. -/
  seed : UInt64 := 0
  /-- The probability of reusing a part. -/
  reuse : Binary .double := .ofNat .double 0x3fc999999999999a

/-- **The options of `chain`.** -/
structure ChainOptions where
  /-- The length of each chain. -/
  depth : Nat := 100000
  /-- Whether the second chain is built on the lower half of the first. -/
  shared : Bool := false

/-- What the command line asks for. -/
inductive Invocation where
  /-- Sample, sort and print. -/
  | sort (options : SortOptions)
  /-- Compare two chains. -/
  | chain (options : ChainOptions)

/-- How a run ends. -/
structure Outcome where
  /-- The exit code. -/
  code : UInt32
  /-- The lines printed. -/
  lines : List String
deriving DecidableEq

/-! ## Reading an invocation -/

/-- Reads a number of 64 bits: digits after an optional plus sign. -/
def word64? (s : String) : Option Nat :=
  let digits :=
    match s.toList with
    | '+' :: cs => cs
    | cs => cs
  (Decimal.natural? digits).filter (· < UInt64.size)

def countSwitch : Switch := ⟨'c', "count", true⟩
def depthSwitch : Switch := ⟨'d', "depth", true⟩
def seedSwitch : Switch := ⟨'s', "seed", true⟩
def reuseSwitch : Switch := ⟨'r', "reuse", true⟩
def sharedSwitch : Switch := ⟨'s', "shared", false⟩

/-- Reads the options of `sort`. -/
def SortOptions.ofArguments? (args : List String) : Option SortOptions := do
  let uses ← options? [countSwitch, depthSwitch, seedSwitch, reuseSwitch] args
  let absent : SortOptions := {}
  let count ← readOr uses countSwitch absent.count word64?
  let depth ← readOr uses depthSwitch absent.depth word64?
  let seed ← readOr uses seedSwitch absent.seed fun s =>
    (word64? s).map UInt64.ofNat
  let reuse ← readOr uses reuseSwitch absent.reuse (Binary.ofText? .double)
  return { count, depth, seed, reuse }

/-- Reads the options of `chain`. -/
def ChainOptions.ofArguments? (args : List String) :
    Option ChainOptions := do
  let uses ← options? [depthSwitch, sharedSwitch] args
  let absent : ChainOptions := {}
  let depth ← readOr uses depthSwitch absent.depth word64?
  return { depth, shared := (valueOf? uses sharedSwitch).isSome }

/-- **Reads the arguments of the program**: a command and its options. -/
def Invocation.ofArguments? : List String → Option Invocation
  | "sort" :: args => (SortOptions.ofArguments? args).map .sort
  | "chain" :: args => (ChainOptions.ofArguments? args).map .chain
  | _ => none

/-! ## Sorting samples -/

/-- The names of the vocabulary, with their numbers of children. -/
def vocabulary : List Entry := [⟨"a", 0⟩, ⟨"f", 1⟩, ⟨"g", 2⟩]

/-- Registers entries one after another. -/
def internAll (table : SymbolTable) :
    List Entry → Except TermError (List Symbol × SymbolTable)
  | [] => return ([], table)
  | e :: es => do
    let (s, table) ← table.intern e.name e.arity
    let (rest, table) ← internAll table es
    return (s :: rest, table)

namespace SortOptions

/-- The settings of the sampler. -/
def config (o : SortOptions) : Config where
  maxDepth := o.depth
  reuse := o.reuse

/-- The table of the vocabulary and a sampler over it, which also uses
lists and present values. Its pool has the usual size, for which there is
memory. -/
def sampler (o : SortOptions) :
    Except TermError (SymbolTable × Sampler) := do
  let (symbols, table) ← internAll ∅ vocabulary
  let heads := symbols ++ [.consTag, .nilTag, .someTag]
  return (table, ← Sampler.ofSeed o.seed table heads o.config)

/-- **The lines of `sort`**: the distinct samples, ascending. Memory is asked
for all samples before the first of them is taken; where there is not so
much, the program stops, and nothing is printed. -/
def lines (o : SortOptions) : Option (Except TermError (List String)) :=
  match o.sampler with
  | .error e => some (.error e)
  | .ok (table, sampler) => do
    guard (o.count ≤ Term.capacity)
    let ((samples, _), _) ← (sampler.samples? o.count).run .initial
    return .ok ((Batch.distinctBy id samples).map fun t => t.text table)

end SortOptions

/-! ## Comparing chains -/

/-- The term reached by going to the first child a number of times. -/
def descend : Nat → Term → Except TermError Term
  | 0, t => return t
  | n + 1, t => do
    match ← t.node? with
    | (_, child :: _) => descend n child
    | (s, []) => throw (.arityMismatch s 1 0)

namespace ChainOptions

/-- **The two chains.** The second ends either in a leaf of its own or in
the lower half of the first. -/
def pair (o : ChainOptions) (table : SymbolTable) (s : Symbol) :
    Checked (Term × Term) := do
  let link (t : Term) : List Term := [t]
  let leaf ← Checked.build (.ok (Term.newBoxed (.int32 0)))
  let first ← table.applyTimes s link o.depth leaf
  let second ←
    if o.shared then do
      let tail ← descend (o.depth / 2) first
      table.applyTimes s link (o.depth / 2) tail
    else do
      let leaf ← Checked.build (.ok (Term.newBoxed (.int32 0)))
      table.applyTimes s link o.depth leaf
  return (first, second)

/-- **The lines of `chain`**: the verdict on the two chains. The time the
comparison took, which stands in the parentheses as well, is left out. -/
def lines (o : ChainOptions) : Except TermError (List String) := do
  let (s, table) ← SymbolTable.intern ∅ "s" 1
  let ((first, second), supply) ← (o.pair table s).run .initial
  let (verdict, _) := (Term.newOrdering (first.order second)).run supply
  return ["compare = " ++ verdict.text table ++ " (shared tail: "
    ++ toString o.shared ++ ")"]

end ChainOptions

/-- The lines an invocation prints, unless it stops the program. -/
def Invocation.lines : Invocation → Option (Except TermError (List String))
  | .sort options => options.lines
  | .chain options => some options.lines

/-- **Runs the program on its arguments.** -/
def run (args : List String) : Outcome :=
  match Invocation.ofArguments? args with
  | none => ⟨2, []⟩
  | some invocation =>
    match invocation.lines with
    | none => ⟨101, []⟩
    | some (.ok lines) => ⟨0, lines⟩
    | some (.error _) => ⟨1, []⟩

end TermGraph.CommandLine
