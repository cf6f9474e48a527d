import TermGraph.Term.Basic

/-!
# The byte stream of a term

A term is spelt out as bytes for hashing: its tag, then the bytes of its
value, or the number of its children and the children one after another.
Every part says where it ends – numbers by their tag, texts by their last
byte, nodes by the number of children – so the stream needs no
delimiters.

The stream looks at structure alone. A part that occurs twice is spelt
out twice.
-/

namespace TermGraph

/-- The bytes of a tag. -/
def Symbol.bytes (s : Symbol) : List UInt8 := littleEndian 4 s.toNat

namespace Term

/-- The bytes of a term up to its children. -/
def header : Term → List UInt8
  | boxed _ v => v.tag.bytes ++ v.bytes
  | node _ s ts => s.bytes ++ littleEndian 8 ts.length

theorem sizes_children_append_lt (t : Term) (rest : List Term) :
    sizes (t.children ++ rest) < sizes (t :: rest) := by
  cases t <;> simp [children, size]

/-- **The stream of pending terms**, appended to the bytes so far. Each
term is replaced by its children, so the pending terms are always what is
left to spell out, in order. -/
def emit : List Term → Array UInt8 → Array UInt8
  | [], out => out
  | t :: rest, out => emit (t.children ++ rest) (out ++ t.header)
termination_by work => sizes work
decreasing_by exact sizes_children_append_lt t rest

/-- **The bytes of a term.** -/
def stream (t : Term) : Array UInt8 := emit [t] #[]

end Term

end TermGraph
