/-
Random trees.

Above the deepest level a kind of node is drawn by weight, and then what the node
needs, from left to right: a number, an operand or two, or a built-in function
and as many arguments as it takes.  On the deepest level there are only numbers,
so a tree comes to an end whatever is drawn.
-/
import ReversePolish.Builtin
import ReversePolish.Config
import ReversePolish.Expr.Readable
import ReversePolish.Log
import ReversePolish.Random.Scale
import ReversePolish.Random.Source

namespace ReversePolish

/-- A configuration under which some kind of node can be drawn. -/
structure Generator where
  config : Config
  total_pos : 0 < config.weights.total

namespace Generator

/-- Why a configuration does not do. -/
inductive Fault where
  | allWeightsZero
  deriving DecidableEq, Repr

def Fault.message : Fault → String
  | allWeightsZero => "Invalid node weights: All weights are zero in distribution"

/-- The generator of a configuration, for weights that have a sum of 32 bits at most. -/
def ofConfig (c : Config) : Except Fault Generator :=
  if h : 0 < c.weights.total then .ok ⟨c, h⟩ else .error .allWeightsZero

/-- The entry of a table of weights that covers the number `z`, if the entries take up as many
numbers as their weights, one behind the other from 0. -/
def covering? {κ : Type} : List (κ × UInt32) → Nat → Option κ
  | [], _ => none
  | (k, w) :: rest, z => if z < w.toNat then some k else covering? rest (z - w.toNat)

/-- The kind of node that a 32-bit word is accepted for. -/
def kindOf? (w : Weights) (word : UInt32) : Option NodeKind :=
  Scale.below32? w.total word >>= covering? w.table

/-- The function that a 64-bit word is accepted for. -/
def functionOf? (word : UInt64) : Option Builtin :=
  Scale.below64? Builtin.all.length word >>= fun i => Builtin.all[i]?

variable {σ : Type} [Source σ]

/-- Draws a kind of node by weight. -/
def kind (g : Generator) : Draw σ NodeKind := Draw.from32 (kindOf? g.config.weights)

/-- Draws a number. -/
def number (g : Generator) : Draw σ Expr := .num <$> Draw.from64 (Scale.upTo? g.config.maxNumber)

/-- Draws a built-in function. -/
def function : Draw σ Builtin := Draw.from64 functionOf?

/-- Draws a tree with so many levels above the deepest one. -/
def treeBelow (g : Generator) : Nat → Draw σ Expr
  | 0 => g.number
  | levels + 1 => do
    match ← g.kind with
    | .sign s => return .sign s (← treeBelow g levels)
    | .bin op =>
      let left ← treeBelow g levels
      let right ← treeBelow g levels
      return .bin left op right
    | .number => g.number
    | .call =>
      let f ← function
      return .call f.name (← Draw.times f.arity (treeBelow g levels))

/-- Draws a tree. -/
def tree (g : Generator) : Draw σ Expr := g.treeBelow g.config.maxDepth.toNat

/-! ### Sessions -/

/-- What a generator can be asked for. -/
inductive Request where
  | kind
  | tree
  | config
  deriving DecidableEq, Repr

inductive Reply where
  | kind (k : NodeKind)
  | tree (e : Expr)
  | config (c : Config)
  deriving DecidableEq, Repr

/-- The answer to one request. -/
def answer (g : Generator) : Request → Draw σ Reply
  | .kind => .kind <$> g.kind
  | .tree => .tree <$> g.tree
  | .config => pure (.config g.config)

/-- The answers to the requests in order, each with the source as it is left. -/
def session (g : Generator) : List Request → Draw σ (List (Reply × σ))
  | [] => pure []
  | r :: rs => do
    let reply ← g.answer r
    let source ← get
    let replies ← session g rs
    return (reply, source) :: replies

/-- What is logged with a reply: a line for a tree. -/
def Reply.log : Reply → List LogLine
  | .tree e => [⟨.debug, "generated tree of depth " ++ e.depth.repr ++ ": " ++ e.toInfix⟩]
  | .kind _ | .config _ => []

end Generator

end ReversePolish
