/-
The kinds of node a random tree is made of.
-/
import ReversePolish.Operator

namespace ReversePolish

inductive NodeKind where
  | sign (s : Sign)
  | bin (op : BinOp)
  | number
  | call
  deriving DecidableEq, Repr

namespace NodeKind

/-- The nine kinds in their fixed order. -/
def all : List NodeKind :=
  [sign .minus, sign .plus, bin .add, bin .subtract, bin .multiply, bin .divide, bin .power,
   number, call]

/-- The name of a kind in a configuration. -/
def key : NodeKind → String
  | sign .minus => "unary_minus"
  | sign .plus => "unary_plus"
  | bin .add => "add"
  | bin .subtract => "subtract"
  | bin .multiply => "multiply"
  | bin .divide => "divide"
  | bin .power => "power"
  | number => "number"
  | call => "function_call"

theorem mem_all (k : NodeKind) : k ∈ all := by
  cases k with
  | sign s => cases s <;> decide
  | bin op => cases op <;> decide
  | number | call => decide

/-- No two kinds have the same name. -/
theorem nodup_keys : (all.map key).Nodup := by decide

end NodeKind

end ReversePolish
