/-
What random trees are to look like: how deep, how large the numbers in them, and
how often each kind of node comes up.

The default weights favour numbers, so that trees stay small.
-/
import ReversePolish.NodeKind

namespace ReversePolish

/-- The relative odds of each kind of node above the deepest level. -/
structure Weights where
  unaryMinus : UInt32 := 1
  unaryPlus : UInt32 := 1
  add : UInt32 := 2
  subtract : UInt32 := 2
  multiply : UInt32 := 2
  divide : UInt32 := 2
  power : UInt32 := 2
  number : UInt32 := 7
  call : UInt32 := 1
  deriving DecidableEq, Repr

namespace Weights

/-- The weight of a kind. -/
def weight (w : Weights) : NodeKind → UInt32
  | .sign .minus => w.unaryMinus
  | .sign .plus => w.unaryPlus
  | .bin .add => w.add
  | .bin .subtract => w.subtract
  | .bin .multiply => w.multiply
  | .bin .divide => w.divide
  | .bin .power => w.power
  | .number => w.number
  | .call => w.call

/-- Each kind with its weight, in the order of the kinds. -/
def table (w : Weights) : List (NodeKind × UInt32) := NodeKind.all.map fun k => (k, w.weight k)

/-- The sum of the weights in a table. -/
def sumOf {κ : Type} : List (κ × UInt32) → Nat
  | [] => 0
  | (_, w) :: rest => w.toNat + sumOf rest

/-- The sum of the nine weights.  Weights are meant to have a sum of 32 bits at most. -/
def total (w : Weights) : Nat := sumOf w.table

end Weights

structure Config where
  /-- The level at which only numbers are left; a tree has one level more at most. -/
  maxDepth : UInt64 := 10
  /-- The largest number in a tree. -/
  maxNumber : UInt64 := 9
  weights : Weights := {}
  deriving DecidableEq, Repr

end ReversePolish
