/-! Pseudo-random 32-bit words: the key stream of the ChaCha cipher with eight
rounds, under a key that is expanded from a 64-bit seed. -/
namespace DeltaMatch
namespace Random

/-- The sixteen words that a block is computed from and consists of. -/
abbrev Block := Vector UInt32 16

/-- Moves the bits of a word to the left, those that fall out coming back. -/
def rotateLeft (x : UInt32) (n : UInt32) : UInt32 := (x <<< n) ||| (x >>> (32 - n))

/-- Mixes four words of a block. -/
def quarterRound (s : Block) (a b c d : Fin 16) : Block :=
  let s := s.set a (s[a] + s[b])
  let s := s.set d (rotateLeft (s[d] ^^^ s[a]) 16)
  let s := s.set c (s[c] + s[d])
  let s := s.set b (rotateLeft (s[b] ^^^ s[c]) 12)
  let s := s.set a (s[a] + s[b])
  let s := s.set d (rotateLeft (s[d] ^^^ s[a]) 8)
  let s := s.set c (s[c] + s[d])
  s.set b (rotateLeft (s[b] ^^^ s[c]) 7)

/-- Mixes the four columns of a block and then its four diagonals. -/
def doubleRound (s : Block) : Block :=
  let s := quarterRound s 0 4 8 12
  let s := quarterRound s 1 5 9 13
  let s := quarterRound s 2 6 10 14
  let s := quarterRound s 3 7 11 15
  let s := quarterRound s 0 5 10 15
  let s := quarterRound s 1 6 11 12
  let s := quarterRound s 2 7 8 13
  quarterRound s 3 4 9 14

/-- The block before mixing: four constants, the key, the number of the block in two
words, and a stream number of zero. -/
def initialBlock (key : Vector UInt32 8) (number : UInt64) : Block :=
  (#v[0x61707865, 0x3320646e, 0x79622d32, 0x6b206574] : Vector UInt32 4) ++ key ++
    (#v[number.toUInt32, (number >>> 32).toUInt32, 0, 0] : Vector UInt32 4)

/-- A block of the key stream. -/
def block (key : Vector UInt32 8) (number : UInt64) : Block :=
  let start := initialBlock key number
  let mixed := doubleRound (doubleRound (doubleRound (doubleRound start)))
  start.zipWith (· + ·) mixed

/-- The next state of the seed expansion. -/
def nextSeed (s : UInt64) : UInt64 := s * 6364136223846793005 + 11634580027462260723

/-- The word that a state of the seed expansion yields: some of its bits, rotated by
its uppermost ones. -/
def seedWord (s : UInt64) : UInt32 :=
  let x := (((s >>> 18) ^^^ s) >>> 27).toUInt32
  let n := (s >>> 59).toUInt32
  (x >>> n) ||| (x <<< (32 - n))

/-- The words that follow a state of the seed expansion. -/
def seedWords : Nat → UInt64 → List UInt32
  | 0, _ => []
  | n + 1, s => seedWord (nextSeed s) :: seedWords n (nextSeed s)

/-- The key of a seed. -/
def keyOf (seed : UInt64) : Vector UInt32 8 :=
  Vector.ofFn fun i => (seedWords 8 seed).getD i 0

/-- A position in the stream of words: the words left of the last block and the
number of the next one. -/
structure Stream where
  key : Vector UInt32 8
  next : UInt64
  left : List UInt32

namespace Stream

/-- The start of the stream of a seed. -/
def ofSeed (seed : UInt64) : Stream := ⟨keyOf seed, 0, []⟩

/-- The next word of the stream. -/
def word (s : Stream) : UInt32 × Stream :=
  match s.left with
  | w :: rest => (w, { s with left := rest })
  | [] =>
    let words := block s.key s.next
    (words[0], { s with next := s.next + 1, left := words.toList.tail })

end Stream
end Random
end DeltaMatch
