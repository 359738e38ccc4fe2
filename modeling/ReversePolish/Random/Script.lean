/-
A source that reads its answers from a list.

Each request takes one word off the list, a request for 32 bits the lower half of
it; behind the end of the list every answer is 0.  The source counts its requests.
-/
import ReversePolish.Random.Source

namespace ReversePolish

structure Script where
  /-- The words that are left. -/
  words : List UInt64
  /-- The number of requests so far, those behind the end of the list among them. -/
  used : Nat
  deriving DecidableEq, Repr

namespace Script

/-- A script of which nothing has been read. -/
def ofWords (words : List UInt64) : Script := ⟨words, 0⟩

def next64 (s : Script) : UInt64 × Script := (s.words.headD 0, ⟨s.words.tail, s.used + 1⟩)

def next32 (s : Script) : UInt32 × Script := (s.next64.1.toUInt32, s.next64.2)

/-- Behind the end all answers are 0, so the first of them is the last that can be new. -/
instance : Source Script where
  next32 := next32
  next64 := next64
  patience s := s.words.length + 1

end Script

end ReversePolish
