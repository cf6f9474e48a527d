import TermGraph.Fingerprint

/-!
# Excerpts

A report shows a text or a byte stream whole while it is short. Of a long
one it shows the length, where it begins (and, of a text, where it ends),
and a fingerprint of all of it.
-/

namespace TermGraph.Script

/-- The greatest number of bytes of a text that is shown whole. -/
def wholeLimit : Nat := 1000

/-- The number of characters shown of either end of a long text. -/
def endLength : Nat := 20

/-- The number of bytes shown of a stream. -/
def leadingBytes : Nat := 300

/-- **A text in a report.** -/
inductive Excerpt where
  /-- A short text. -/
  | whole (s : String)
  /-- A long text: its length in bytes, its two ends and the fingerprint
  of its bytes. -/
  | ends (bytes : Nat) (head tail : String) (fingerprint : UInt64)

/-- The excerpt of a text. -/
def Excerpt.ofText (s : String) : Excerpt :=
  if s.utf8ByteSize ≤ wholeLimit then .whole s
  else
    let cs := s.toList
    .ends s.utf8ByteSize (String.ofList (cs.take endLength))
      (String.ofList (cs.drop (cs.length - endLength)))
      (fingerprint s.toByteArray.data)

/-- **A byte stream in a report.** -/
structure StreamExcerpt where
  /-- The number of bytes. -/
  length : Nat
  /-- The first bytes. -/
  head : List UInt8
  /-- The fingerprint of all bytes. -/
  fingerprint : UInt64

/-- The excerpt of a stream. -/
def StreamExcerpt.ofBytes (bytes : Array UInt8) : StreamExcerpt where
  length := bytes.size
  head := (bytes.take leadingBytes).toList
  fingerprint := TermGraph.fingerprint bytes

end TermGraph.Script
