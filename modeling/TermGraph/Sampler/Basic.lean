import TermGraph.Random.Draw
import TermGraph.Symbol.Table
import TermGraph.Term.Build

/-!
# Samplers

A sampler produces random terms over a fixed choice of heads. What never
changes is its `Plan`: the heads with their numbers of children, and the
settings. What does change is its `State`: the place in the stream of
random words, the pool of terms kept for reuse, and the supply of serial
numbers, from which every new part of a term takes its identity. A part
taken from the pool keeps the identity it has, and that is how samples
come to share parts.

The numbers of children are read from a symbol table once, when the plan
is made. What the table learns later changes nothing for the sampler.

Memory is asked for ahead, for the pool when a sampler is set up and for all
children of a head when it is chosen. There is a limit to what can be asked
for at once (`Term.capacity`), and whoever asks for more stops the program.
-/

namespace TermGraph

/-- **The most terms that memory can be asked for at once**, one less than
`2 ^ 60`. A block of memory has fewer than `2 ^ 63` bytes, and a term takes
eight of them. Up to this limit memory is taken to be unbounded: what is asked
for is there. -/
def Term.capacity : Nat := (UInt64.size / 2 - 1) / 8

/-- **The settings of a sampler.** -/
structure Config where
  /-- How deep a term nests at most. -/
  maxDepth : Nat := 3
  /-- The probability of a boxed scalar where a head could stand. -/
  leaf : Binary .double := .ofNat .double 0x3fd999999999999a
  /-- The probability of taking a term from the pool. -/
  reuse : Binary .double := .ofNat .double 0
  /-- The greatest absolute value of the integers behind scalars; a
  negative setting counts as `0`. -/
  intRange : Int32 := 4
  /-- The number of terms the pool holds. -/
  poolSize : Nat := 256
deriving DecidableEq

/-- A head a sampler may use, with its number of children. -/
structure Former where
  /-- The head. -/
  head : Symbol
  /-- The number of children. -/
  arity : Nat
deriving DecidableEq

/-- **What a sampler is set up with.** -/
structure Plan where
  /-- The heads to choose from. -/
  formers : Array Former
  /-- The settings. -/
  config : Config

namespace SymbolTable

/-- **The former of a symbol**, if terms headed by it can be built: it is
not a tag of boxed scalars, not a bound of the order, and the table knows
it. -/
def former (t : SymbolTable) (s : Symbol) : Except TermError Former :=
  if s.isBoxed then .error (.boxedSymbol s)
  else if s.isSentinel then .error (.reservedSymbol s.label)
  else
    match t.arity? s with
    | none => .error (.unknownSymbol s)
    | some arity => .ok ⟨s, arity⟩

/-- The formers of several symbols, or the error of the first that has
none. -/
def formers (t : SymbolTable) (symbols : List Symbol) :
    Except TermError (List Former) :=
  symbols.mapM t.former

end SymbolTable

/-- **What changes while a sampler works.** -/
structure State where
  /-- The place in the stream of random words. -/
  stream : Keystream
  /-- The terms kept for reuse. -/
  pool : Array Term
  /-- The serial numbers not given out. -/
  supply : Supply

/-- A computation of a sampler. -/
abbrev Sampling := StateM State

namespace Sampling

theorem bind_apply {α β : Type} (x : Sampling α) (f : α → Sampling β)
    (s : State) : (x >>= f) s = f (x s).1 (x s).2 := rfl

theorem pure_apply {α : Type} (a : α) (s : State) :
    (pure a : Sampling α) s = (a, s) := rfl

/-- Draws from the stream. -/
def draw {α : Type} (d : Draw α) : Sampling α := fun s =>
  let (a, stream) := d.run s.stream
  (a, { s with stream })

/-- Builds with the supply. -/
def build {α : Type} (f : Fresh α) : Sampling α := fun s =>
  let (a, supply) := f.run s.supply
  (a, { s with supply })

/-- **Keeps a term for reuse**, if the pool holds anything at all. A full
pool gives up one of its terms, drawn at random. -/
def remember (poolSize : Nat) (t : Term) : Sampling Unit := fun s =>
  if s.pool.size < poolSize then
    ((), { s with pool := s.pool.push t })
  else if full : 0 < poolSize ∧ 0 < s.pool.size then
    let (i, stream) := (Draw.index s.pool.size full.2).run s.stream
    ((), { s with stream, pool := s.pool.set i t })
  else ((), s)

/-- A term of the pool, with the probability of reuse. An empty pool
draws nothing. -/
def reused? (reuse : Binary .double) : Sampling (Option Term) := do
  let pool := (← get).pool
  if filled : 0 < pool.size then
    if ← draw (.chance reuse) then
      let i ← draw (.index pool.size filled)
      return some pool[i]
    else return none
  else return none

end Sampling

/-! ## Leaves -/

/-- The texts a leaf can carry. -/
def leafWords : Vector String 5 := #v["", "a", "apple", "banana", "b\"q"]

/-- **The scalar for an integer**, in one of five forms. -/
def leafScalar (form : Fin 5) (v : Int) : Scalar :=
  match form with
  | 0 => .int32 (.ofInt v)
  | 1 => .int64 (.ofInt (3000000000 * v))
  | 2 => .float32 (.ofScaledInt .single v 1)
  | 3 => .float64 (.ofScaledInt .double v 2)
  | 4 => .text (leafWords.get (Fin.ofNat 5 v.natAbs))

namespace Config

/-- The bound on the integers behind scalars. -/
def intBound (c : Config) : Nat := c.intRange.toInt.toNat

end Config

namespace Plan

/-- **A new leaf**: an integer, and then the form it takes. -/
def newLeaf (plan : Plan) : Sampling Term := do
  let v ← Sampling.draw (.around plan.config.intBound)
  let form ← Sampling.draw (.index 5 (by decide))
  Sampling.build (Term.newBoxed (leafScalar form v))

/-- Keeps a term for reuse. -/
def remember (plan : Plan) (t : Term) : Sampling Unit :=
  Sampling.remember plan.config.poolSize t

/-- **A new node that is complete**: built, and kept for reuse. -/
def finish (plan : Plan) (head : Symbol) (children : List Term) :
    Sampling Term := do
  let t ← Sampling.build (Term.newNode head children)
  plan.remember t
  return t

/-- A former to continue with, or none where a leaf has to stand: no
former to choose from, no room below, or the chance of a leaf. -/
def former? (plan : Plan) (room : Nat) : Sampling (Option Former) := do
  if choice : 0 < plan.formers.size ∧ 0 < room then
    if ← Sampling.draw (.chance plan.config.leaf) then return none
    else
      let i ← Sampling.draw (.index plan.formers.size choice.1)
      return some plan.formers[i]
  else return none

end Plan

/-- What a sampler decides for one place of a term. -/
inductive Start where
  /-- The whole term that stands there. -/
  | done (t : Term)
  /-- A head with `more + 1` children to come. -/
  | opened (head : Symbol) (more : Nat)

/-- **Whether what was decided fits into memory**, which is asked for all the
children to come at once. -/
def Start.fits : Start → Bool
  | done _ => true
  | opened _ more => more + 1 ≤ Term.capacity

/-- **The decision for one place**, with room for `room` levels at and
below it: a term of the pool, a leaf, an atom, or the head of a term
whose children come next. -/
def Plan.start (plan : Plan) (room : Nat) : Sampling Start := do
  match ← Sampling.reused? plan.config.reuse with
  | some t => return .done t
  | none =>
    match ← plan.former? room with
    | none =>
      let t ← plan.newLeaf
      plan.remember t
      return .done t
    | some ⟨head, 0⟩ => return .done (← plan.finish head [])
    | some ⟨head, more + 1⟩ => return .opened head more

end TermGraph
