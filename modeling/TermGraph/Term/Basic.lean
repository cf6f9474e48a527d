import TermGraph.Scalar

/-!
# Terms

A term is a boxed scalar or a head symbol with a list of children, and it
never changes once it is there. The same term may stand under any number
of parents and at any number of places, and an operation that meets it
twice may know that it met the same one: terms have an *identity* besides
their structure.

Identity is a **serial number**. Every term that is built receives the
next number from a `Supply`, and a term that is used again keeps the one
it has, so two terms are the same instance exactly when their numbers
agree. The number is a label on the tree and not an address into a store:
terms stay an inductive type, functions on them recurse on their children,
and what looks at structure alone never mentions the labels.

The two bounds of the order exist once. Their numbers, `0` and `1`, are
below every supply, so nothing built can be taken for them.
-/

namespace TermGraph

/-- **A term.** -/
inductive Term where
  /-- A boxed scalar. -/
  | boxed (serial : Nat) (value : Scalar)
  /-- A head applied to children. -/
  | node (serial : Nat) (head : Symbol) (children : List Term)

namespace Term

/-- The number that identifies the instance. -/
def serial : Term → Nat
  | boxed n _ => n
  | node n _ _ => n

/-- **Whether two terms are one instance.** -/
def same (a b : Term) : Bool := a.serial == b.serial

/-- The least term. -/
def least : Term := node 0 .minTag []

/-- The greatest term. -/
def greatest : Term := node 1 .maxTag []

/-- The symbol that comes first in the comparison of terms. -/
def tag : Term → Symbol
  | boxed _ v => v.tag
  | node _ s _ => s

/-- The children; a boxed scalar has none. -/
def children : Term → List Term
  | boxed _ _ => []
  | node _ _ ts => ts

/-- The number of children. -/
def arity (t : Term) : Nat := t.children.length

/-- Whether the term is a head with children, none included. -/
def isComplex : Term → Bool
  | boxed _ _ => false
  | node _ _ _ => true

/-- Whether the term is a boxed scalar. -/
def isBoxed (t : Term) : Bool := !t.isComplex

/-- Whether the tag is that of a bound of the order. -/
def isSentinel (t : Term) : Bool := t.tag.isSentinel

/-- The kind of a term. -/
def kind : Term → Kind
  | boxed _ v => v.kind
  | node _ s _ => if s.isSentinel then .sentinel else .complex

mutual

/-- **The number of places in a term**, shared parts counted at each. -/
def size : Term → Nat
  | boxed _ _ => 1
  | node _ _ ts => sizes ts + 1

/-- The number of places in a list of terms. -/
def sizes : List Term → Nat
  | [] => 0
  | t :: ts => t.size + sizes ts

end

theorem size_pos (t : Term) : 0 < t.size := by
  cases t <;> simp [size]

@[simp] theorem sizes_nil : sizes [] = 0 := rfl

@[simp] theorem sizes_cons (t : Term) (ts : List Term) :
    sizes (t :: ts) = t.size + sizes ts := rfl

@[simp] theorem sizes_append (ts us : List Term) :
    sizes (ts ++ us) = sizes ts + sizes us := by
  induction ts with
  | nil => simp
  | cons t ts ih => simp [ih, Nat.add_assoc]

end Term

/-! ## New instances -/

/-- **A supply of serial numbers**, past those of the two bounds. -/
structure Supply where
  /-- The number the next instance receives. -/
  next : Nat
  /-- The bounds of the order keep theirs. -/
  two_le : 2 ≤ next

/-- The supply from which nothing has been taken. -/
def Supply.initial : Supply := ⟨2, Nat.le_refl 2⟩

/-- What builds terms: a computation that takes numbers from a supply. -/
abbrev Fresh := StateM Supply

/-- The next serial number. -/
def Fresh.serial : Fresh Nat := fun s =>
  (s.next, ⟨s.next + 1, Nat.le_succ_of_le s.two_le⟩)

namespace Term

/-- **A new boxed scalar.** -/
def newBoxed (value : Scalar) : Fresh Term := do
  return boxed (← Fresh.serial) value

/-- **A new term with a head and children.** The head may be any symbol;
`Symbol.apply` and `SymbolTable.apply` are the constructors that check. -/
def newNode (head : Symbol) (children : List Term) : Fresh Term := do
  return node (← Fresh.serial) head children

/-- A new instance of a term over the same children. -/
def copy : Term → Fresh Term
  | boxed _ v => newBoxed v
  | node _ s ts => newNode s ts

end Term

end TermGraph
