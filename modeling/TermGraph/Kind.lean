/-!
# Kinds of term

What a term can be asked to be: a boxed scalar of one of five types, or
a node with a head and children. The two bounds of the order are nodes
without children, and are told apart from the rest because no operation
builds them.
-/

namespace TermGraph

/-- **The kind of a term.** -/
inductive Kind where
  /-- A boxed 32-bit integer. -/
  | int32
  /-- A boxed 64-bit integer. -/
  | int64
  /-- A boxed single-precision float. -/
  | float32
  /-- A boxed double-precision float. -/
  | float64
  /-- A boxed text. -/
  | text
  /-- A head with children. -/
  | complex
  /-- The least or the greatest term. -/
  | sentinel
deriving DecidableEq

/-- The word for a kind in messages. -/
def Kind.name : Kind → String
  | .int32 => "i32"
  | .int64 => "i64"
  | .float32 => "fp32"
  | .float64 => "fp64"
  | .text => "string"
  | .complex => "complex"
  | .sentinel => "sentinel"

end TermGraph
