import TermGraph.Binary.Text
import TermGraph.Kind
import TermGraph.Symbol.Basic

/-!
# Boxed scalars

The values a term can carry besides children: integers and floats of two
widths each, and texts. The type of the value fixes the tag of the term,
so a tag of boxed scalars never meets a value of another type.

Each type has its own order – integers by value, floats by rank, texts
by their bytes – and values of different types are ordered by tag. Each
value also has a byte string, of a length its tag determines for numbers;
a text is closed by a byte that no text contains.
-/

namespace TermGraph

/-- The UTF-8 bytes of a text. -/
def utf8 (s : String) : List UInt8 := s.toByteArray.data.toList

/-- The lowest `k` bytes of a number, lowest first. -/
def littleEndian : (k : Nat) → Nat → List UInt8
  | 0, _ => []
  | k + 1, n => UInt8.ofNat n :: littleEndian k (n / 256)

/-- **A boxed value.** -/
inductive Scalar where
  /-- A 32-bit integer. -/
  | int32 (value : Int32)
  /-- A 64-bit integer. -/
  | int64 (value : Int64)
  /-- A single-precision float. -/
  | float32 (value : Binary .single)
  /-- A double-precision float. -/
  | float64 (value : Binary .double)
  /-- A text. -/
  | text (value : String)
deriving DecidableEq

namespace Scalar

/-- The tag of a term that carries the value. -/
def tag : Scalar → Symbol
  | int32 _ => .int32Tag
  | int64 _ => .int64Tag
  | float32 _ => .float32Tag
  | float64 _ => .float64Tag
  | text _ => .textTag

/-- The kind of a term that carries the value. -/
def kind : Scalar → Kind
  | int32 _ => .int32
  | int64 _ => .int64
  | float32 _ => .float32
  | float64 _ => .float64
  | text _ => .text

/-- **The order of values**: within a type its own, between types that of
the tags. -/
def order : Scalar → Scalar → Ordering
  | int32 v, int32 w => compare v w
  | int64 v, int64 w => compare v w
  | float32 v, float32 w => compare v w
  | float64 v, float64 w => compare v w
  | text v, text w => compare (utf8 v) (utf8 w)
  | v, w => compare v.tag w.tag

instance : Ord Scalar := ⟨order⟩

/-- How a value is written. A text stands between quotes as it is. -/
def render : Scalar → String
  | int32 v => toString v.toInt
  | int64 v => toString v.toInt
  | float32 v => v.text
  | float64 v => v.text
  | text v => "\"" ++ v ++ "\""

/-- **The bytes of a value**: a number's bits, lowest byte first, or the
bytes of a text closed by `0xff`. -/
def bytes : Scalar → List UInt8
  | int32 v => littleEndian 4 v.toBitVec.toNat
  | int64 v => littleEndian 8 v.toBitVec.toNat
  | float32 v => littleEndian 4 v.toNat
  | float64 v => littleEndian 8 v.toNat
  | text v => utf8 v ++ [0xff]

theorem isBoxed_tag (v : Scalar) : v.tag.isBoxed = true := by
  cases v <;> rfl

theorem tag_ne_of_isBoxed_eq_false {s : Symbol} (h : s.isBoxed = false)
    (v : Scalar) : v.tag ≠ s := by
  rintro rfl
  simp [isBoxed_tag] at h

end Scalar

end TermGraph
