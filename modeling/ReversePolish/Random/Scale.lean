/-
From a random word to a number below a bound, each number being equally likely.

A word times the bound, divided by the number of all words, has a quotient below
the bound.  Each quotient comes with the same number of remainders once the
remainders above a certain limit, the zone, are turned away.

Two zones are in use.  The one for weights turns away as few words as can be.
The one for ranges is found without a division and may turn away nearly half of
them.
-/

namespace ReversePolish.Scale

/-- The number below `bound` that a word is accepted for, if its remainder lies in the zone.  There
are `size` words in all. -/
def scaled? (size bound zone word : Nat) : Option Nat :=
  if word * bound % size ≤ zone then some (word * bound / size) else none

/-- The zone for 32-bit words and a total of weights. -/
def weightZone (total : Nat) : Nat := (UInt32.size - 1) - (UInt32.size - total) % total

/-- The number below `total` for a 32-bit word. -/
def below32? (total : Nat) (word : UInt32) : Option Nat :=
  scaled? UInt32.size total (weightZone total) word.toNat

/-- The number of zeros before the first 1 of a 64-bit number. -/
def leadingZeros (n : Nat) : Nat := 63 - n.log2

/-- The zone for 64-bit words and a range of `count` numbers: the largest multiple of `count` by a
power of two that has 64 bits, less one. -/
def rangeZone (count : Nat) : Nat := (count <<< leadingZeros count) - 1

/-- The number below `count` for a 64-bit word. -/
def below64? (count : Nat) (word : UInt64) : Option Nat :=
  scaled? UInt64.size count (rangeZone count) word.toNat

/-- The number from 0 to `max` for a 64-bit word.  If every word is in the range, each stands for
itself. -/
def upTo? (max : UInt64) (word : UInt64) : Option Nat :=
  if max.toNat + 1 = UInt64.size then some word.toNat else below64? (max.toNat + 1) word

end ReversePolish.Scale
