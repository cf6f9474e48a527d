/-!
# Decimal numbers as text

A decimal is a whole number of powers of ten. It is written positionally,
without an exponent however large or small it is: a power that is not
negative appends zeros, a negative one places a point, and at least one
digit stands before the point.

Reading is more liberal than writing. Digits with an optional point,
at least one digit in all, may be followed by a power of ten after an
`e` of either case, itself with an optional sign.
-/

namespace TermGraph

/-- **A decimal number**: `coefficient * 10 ^ exponent`. -/
structure Decimal where
  /-- The digits, as a number. -/
  coefficient : Nat
  /-- The power of ten they are multiplied by. -/
  exponent : Int
deriving DecidableEq

namespace Decimal

/-- The digits of a number, with zeros in front up to a length. -/
def paddedDigits (length n : Nat) : List Char :=
  let ds := Nat.toDigits 10 n
  List.replicate (length - ds.length) '0' ++ ds

/-- **Positional notation.** -/
def positional (d : Decimal) : List Char :=
  match d.exponent with
  | .ofNat zeros =>
    Nat.toDigits 10 d.coefficient ++ List.replicate zeros '0'
  | .negSucc k =>
    let places := k + 1
    let ds := paddedDigits (places + 1) d.coefficient
    let whole := ds.length - places
    ds.take whole ++ '.' :: ds.drop whole

/-- The number of digits up to the units' place: the decimal lies below
`10 ^ order`. -/
def order (d : Decimal) : Int :=
  (Nat.toDigits 10 d.coefficient).length + d.exponent

/-! ## Reading -/

/-- Reads digits, at least one, and nothing else. -/
def natural? (cs : List Char) : Option Nat :=
  if cs.isEmpty || !cs.all Char.isDigit then none
  else some (Nat.ofDigitChars 10 cs 0)

/-- Reads digits after an optional sign. -/
def integer? : List Char → Option Int
  | '-' :: cs => (natural? cs).map fun n => -(n : Int)
  | '+' :: cs => (natural? cs).map fun n => (n : Int)
  | cs => (natural? cs).map fun n => (n : Int)

/-- Reads the power of ten at the end of a decimal; none is the zeroth. -/
def power? : List Char → Option Int
  | [] => some 0
  | c :: cs => if c = 'e' ∨ c = 'E' then integer? cs else none

/-- **Reads a decimal without a sign.** -/
def ofChars? (cs : List Char) : Option Decimal :=
  let (whole, afterWhole) := cs.span Char.isDigit
  let (places, rest) :=
    match afterWhole with
    | '.' :: afterPoint => afterPoint.span Char.isDigit
    | _ => ([], afterWhole)
  let ds := whole ++ places
  if ds.isEmpty then none
  else (power? rest).map fun e =>
    ⟨Nat.ofDigitChars 10 ds 0, e - places.length⟩

end Decimal

end TermGraph
