/-!
# A stream of random words

A seed of 64 bits determines an endless stream of 32-bit words. The
stream is produced in blocks of sixteen words by a cipher: a block holds
four constants, a key of eight words and the number of the block, and six
double rounds of adding, rotating and mixing, with the starting block
added at the end, turn it into sixteen words that look like nothing in
particular.

The eight words of the key come from the seed by a congruential step and
a rotation whose amount is taken from the state itself.

A `Keystream` is a place in the stream: the key, how many blocks have
been produced, and the words of the last one that are still unused.
-/

namespace TermGraph

/-- Sixteen words. -/
abbrev Block := Vector UInt32 16

namespace Block

/-- Rotation of a word towards its high end. -/
def rotate (w : UInt32) (k : UInt32) : UInt32 :=
  w <<< k ||| w >>> (32 - k)

/-- **A quarter round** on the words at four places. -/
def quarterRound (s : Block) (i j k l : Fin 16) : Block :=
  let a := s[i] + s[j]
  let d := rotate (s[l] ^^^ a) 16
  let c := s[k] + d
  let b := rotate (s[j] ^^^ c) 12
  let a := a + b
  let d := rotate (d ^^^ a) 8
  let c := c + d
  let b := rotate (b ^^^ c) 7
  (((s.set i a).set j b).set k c).set l d

/-- A double round: the four columns of the block read as a square, then
its four diagonals. -/
def doubleRound (s : Block) : Block :=
  let s := s.quarterRound 0 4 8 12
  let s := s.quarterRound 1 5 9 13
  let s := s.quarterRound 2 6 10 14
  let s := s.quarterRound 3 7 11 15
  let s := s.quarterRound 0 5 10 15
  let s := s.quarterRound 1 6 11 12
  let s := s.quarterRound 2 7 8 13
  s.quarterRound 3 4 9 14

/-- The block the rounds start from. -/
def initial (key : Vector UInt32 8) (number : UInt64) : Block :=
  #v[0x61707865, 0x3320646e, 0x79622d32, 0x6b206574,
    key[0], key[1], key[2], key[3], key[4], key[5], key[6], key[7],
    number.toUInt32, (number >>> 32).toUInt32, 0, 0]

/-- **The block of a given number**: six double rounds, and the starting
block added. -/
def generate (key : Vector UInt32 8) (number : UInt64) : Block :=
  let start := initial key number
  start.zipWith (· + ·) (Nat.repeat doubleRound 6 start)

end Block

/-- **A place in a stream of words.** -/
structure Keystream where
  /-- The key of the stream. -/
  key : Vector UInt32 8
  /-- The number of blocks produced so far. -/
  blocks : UInt64 := 0
  /-- The unused words of the last block. -/
  unused : List UInt32 := []

namespace Keystream

/-- One congruential step of the state that yields the key. -/
def advance (s : UInt64) : UInt64 :=
  s * 6364136223846793005 + 11634580027462260723

/-- The word a state yields: some of its high bits, rotated towards the
low end by as many places as its highest five bits say. -/
def keyWord (s : UInt64) : UInt32 :=
  let w := (((s >>> 18) ^^^ s) >>> 27).toUInt32
  let k := (s >>> 59).toUInt32
  w >>> k ||| w <<< (32 - k)

/-- **The stream of a seed**, at its beginning. -/
def ofSeed (seed : UInt64) : Keystream where
  key := Vector.ofFn fun i => keyWord (Nat.repeat advance (i + 1) seed)

/-- **The next word**, and the place behind it. -/
def next (s : Keystream) : UInt32 × Keystream :=
  match s.unused with
  | w :: rest => (w, { s with unused := rest })
  | [] =>
    let block := Block.generate s.key s.blocks
    (block[0],
      { s with blocks := s.blocks + 1, unused := block.toList.tail })

end Keystream

end TermGraph
