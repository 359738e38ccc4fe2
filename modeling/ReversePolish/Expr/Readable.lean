/-
Expressions as one would write them, with parentheses where they are needed.

A tree stands in parentheses exactly if the place it stands in binds at least as
tightly as it does itself.  The operands of an operator stand in a place as tight
as the operator, so neighbours of equal precedence are always parenthesized: both
`(1 - 2) - 3` and `1 - (2 - 3)` keep their parentheses, and associativity never
has to be looked at.  Arguments stand in a place that binds nothing.
-/
import ReversePolish.Conversion
import ReversePolish.Expr.Rpn

namespace ReversePolish.Expr

/-- The text in parentheses if `needed`. -/
def parenIf (needed : Bool) (text : String) : String :=
  if needed then "(" ++ text ++ ")" else text

mutual

/-- The tree written in a place that binds as tightly as `outside`. -/
def readable (outside : Nat) : Expr → String
  | num n => n.repr
  | e@(sign s operand) =>
    parenIf (e.priority ≤ outside) (s.symbol ++ operand.readable e.priority)
  | e@(bin left op right) =>
    parenIf (e.priority ≤ outside)
      (left.readable e.priority ++ " " ++ op.symbol ++ " " ++ right.readable e.priority)
  | call f args => f ++ "(" ++ ", ".intercalate (readableArgs args) ++ ")"

/-- The arguments of a call, each in a place that binds nothing. -/
def readableArgs : List Expr → List String
  | [] => []
  | a :: as => a.readable 0 :: readableArgs as

end

/-- The tree in infix notation. -/
def toInfix (e : Expr) : String := e.readable 0

instance : ToString Expr := ⟨toInfix⟩

/-- Whether converting the infix notation of the tree gives its reverse Polish notation. -/
def roundTrips (e : Expr) : Bool :=
  match ReversePolish.toRpn .byPosition e.toInfix with
  | .ok rpn => rpn == e.toRpn
  | .error _ => false

end ReversePolish.Expr
