/-!
# Fingerprints of bytes

A 64-bit fingerprint: each byte is mixed into the low end of the state,
which is then multiplied by a fixed prime. It stands for long byte
strings in reports, and it is the first thing looked at when a set asks
whether it already holds a term.
-/

namespace TermGraph

/-- The state before any byte, and the multiplier. -/
def fingerprintOffset : UInt64 := 0xcbf29ce484222325
def fingerprintPrime : UInt64 := 0x100000001b3

/-- **The fingerprint of a byte string.** -/
def fingerprint (bytes : Array UInt8) : UInt64 :=
  bytes.foldl (fun state b => (state ^^^ b.toUInt64) * fingerprintPrime)
    fingerprintOffset

end TermGraph
