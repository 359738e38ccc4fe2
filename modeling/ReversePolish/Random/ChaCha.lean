/-
The ChaCha stream with twelve rounds, as a source of random words.

A block of sixteen words is made of four constants, a key of eight words, a
64-bit number of the block and two zero words: mixed, and then added to what it
was before.  The stream is the words of the blocks 0, 1, 2, … in order, and a
request for 64 bits takes two words, the lower half first.

A key is made from a 64-bit seed by a linear congruential generator whose states
are scrambled into one word each.
-/
import ReversePolish.Random.Source

namespace ReversePolish

namespace ChaCha

abbrev Block := Vector UInt32 16

abbrev Key := Vector UInt32 8

def rotateLeft (x n : UInt32) : UInt32 := (x <<< n) ||| (x >>> (32 - n))

def rotateRight (x n : UInt32) : UInt32 := (x >>> n) ||| (x <<< (32 - n))

/-- Mixes four words of a block. -/
def quarterRound (a b c d : Fin 16) (s : Block) : Block :=
  let s := s.set a (s[a] + s[b])
  let s := s.set d (rotateLeft (s[d] ^^^ s[a]) 16)
  let s := s.set c (s[c] + s[d])
  let s := s.set b (rotateLeft (s[b] ^^^ s[c]) 12)
  let s := s.set a (s[a] + s[b])
  let s := s.set d (rotateLeft (s[d] ^^^ s[a]) 8)
  let s := s.set c (s[c] + s[d])
  s.set b (rotateLeft (s[b] ^^^ s[c]) 7)

/-- Mixes the four columns of a block, seen as a square, and then its four diagonals. -/
def doubleRound (s : Block) : Block :=
  let s := quarterRound 0 4 8 12 s
  let s := quarterRound 1 5 9 13 s
  let s := quarterRound 2 6 10 14 s
  let s := quarterRound 3 7 11 15 s
  let s := quarterRound 0 5 10 15 s
  let s := quarterRound 1 6 11 12 s
  let s := quarterRound 2 7 8 13 s
  quarterRound 3 4 9 14 s

/-- A block before it is mixed.  Its constants spell `expand 32-byte k`. -/
def unmixed (key : Key) (number : UInt64) : Block :=
  #v[0x61707865, 0x3320646e, 0x79622d32, 0x6b206574,
    key[0], key[1], key[2], key[3], key[4], key[5], key[6], key[7],
    number.toUInt32, (number >>> 32).toUInt32, 0, 0]

/-- One block of the stream, after six double rounds. -/
def block (key : Key) (number : UInt64) : Block :=
  (Nat.repeat doubleRound 6 (unmixed key number)).zipWith (· + ·) (unmixed key number)

/-! ### Keys from seeds -/

def nextState (s : UInt64) : UInt64 := s * 6364136223846793005 + 11634580027462260723

/-- The word that a state is scrambled into. -/
def scramble (s : UInt64) : UInt32 :=
  rotateRight (((s >>> 18) ^^^ s) >>> 27).toUInt32 (s >>> 59).toUInt32

/-- The word of the state that comes `n` steps behind the seed. -/
def seedWord (seed : UInt64) (n : Nat) : UInt32 := scramble (Nat.repeat nextState n seed)

/-- The words of a key come from the eight states that follow the seed. -/
def keyOfSeed (seed : UInt64) : Key :=
  #v[seedWord seed 1, seedWord seed 2, seedWord seed 3, seedWord seed 4,
    seedWord seed 5, seedWord seed 6, seedWord seed 7, seedWord seed 8]

end ChaCha

/-- A place in a ChaCha stream. -/
structure ChaCha where
  key : ChaCha.Key
  /-- The number of the next block. -/
  number : UInt64
  /-- The words that are left of the block before it. -/
  pending : List UInt32
  deriving DecidableEq, Repr

namespace ChaCha

/-- The start of the stream of a seed. -/
def ofSeed (seed : UInt64) : ChaCha := ⟨keyOfSeed seed, 0, []⟩

def next32 (s : ChaCha) : UInt32 × ChaCha :=
  match s.pending with
  | w :: rest => (w, { s with pending := rest })
  | [] =>
    let words := block s.key s.number
    (words[0], { s with number := s.number + 1, pending := words.toList.tail })

def next64 (s : ChaCha) : UInt64 × ChaCha :=
  let (low, s) := s.next32
  let (high, s) := s.next32
  (low.toUInt64 ||| (high.toUInt64 <<< 32), s)

/-- There are as many blocks as 64-bit numbers, with sixteen words each, so that many requests of
either width go through the whole stream, and then it begins again. -/
instance : Source ChaCha where
  next32 := next32
  next64 := next64
  patience _ := 16 * UInt64.size

end ChaCha

end ReversePolish
