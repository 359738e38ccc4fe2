/-
Expressions in reverse Polish notation: operands from left to right, and each
operator or function name behind its operands.
-/
import ReversePolish.Expr
import ReversePolish.Token

namespace ReversePolish.Expr

mutual

/-- The tokens of a tree behind each other, operands first. -/
def rpn : Expr → List Token
  | num n => [.number n.repr]
  | sign s operand => operand.rpn ++ [.sign s]
  | bin left op right => left.rpn ++ right.rpn ++ [.op op]
  | call f args => rpnOfArgs args ++ [.name f]

/-- The tokens of the arguments, one argument behind the other. -/
def rpnOfArgs : List Expr → List Token
  | [] => []
  | a :: as => a.rpn ++ rpnOfArgs as

end

/-- The tree in reverse Polish notation. -/
def toRpn (e : Expr) : String := Token.joined e.rpn

end ReversePolish.Expr
