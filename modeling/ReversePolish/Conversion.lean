/-
From infix to reverse Polish: a run over the tokens with one stack.

Numbers go straight to the output.  Names, signs, `(` and operators wait on the
stack until the token that releases them:

  * an operator releases what binds tighter, and what binds as tightly and groups
    to the left (`BinOp.releases`);
  * a `)` releases everything down to its `(`, then drops the `(`, and then
    releases a function name if one lies right below;
  * a `,` releases everything down to the `(` around the arguments, which stays;
  * the end of the tokens releases the rest.

A sign has no operand on its left and so releases nothing: in `2 ^ -3` the power
keeps waiting for its right operand.  A name is not checked against any list of
functions, and no operator is checked for its operands.
-/
import ReversePolish.Token.Sign

namespace ReversePolish

/-- A conversion under way: what is waiting, the top of the stack first, and what has been
written. -/
structure Conversion where
  stack : List Token
  output : Array Token
  deriving DecidableEq, Repr

namespace Conversion

/-- Why tokens cannot be converted. -/
inductive Fault where
  /-- A `(` is still open at the end. -/
  | unclosedParen
  /-- A `)` comes where no `(` is open. -/
  | unmatchedParen
  /-- A `,` comes where no `(` is open. -/
  | strayComma
  /-- A token that no expression has in it. -/
  | unknownToken (fragment : String)
  deriving DecidableEq, Repr

def Fault.message : Fault → String
  | unclosedParen => "Unbalanced parentheses: '(' is never closed"
  | unmatchedParen => "Unbalanced parentheses: ')' has no matching '('"
  | strayComma => "Unbalanced parentheses: ',' outside of parentheses"
  | unknownToken fragment => "Unknown token: '" ++ fragment ++ "'"

/-- How tightly a waiting token binds. -/
def waitingPrecedence : Token → Nat
  | .name _ => callPrecedence
  | t => (t.operator?.map Operator.precedence).getD parenPrecedence

/-- How a waiting token groups; names and parentheses do not group. -/
def waitingAssoc? (t : Token) : Option Assoc := t.operator?.map Operator.assoc

/-- Whether a waiting token goes to the output before the operator `o` is put on the stack. -/
def releases (o : BinOp) (waiting : Token) : Bool :=
  o.precedence < waitingPrecedence waiting ||
    (waitingPrecedence waiting == o.precedence && waitingAssoc? waiting == some .left)

/-- Nothing waiting and nothing written. -/
def start : Conversion := ⟨[], #[]⟩

/-- Writes one token. -/
def write (c : Conversion) (t : Token) : Conversion := { c with output := c.output.push t }

/-- Lets one token wait. -/
def wait (c : Conversion) (t : Token) : Conversion := { c with stack := t :: c.stack }

/-- Writes waiting tokens from the top down, as long as they satisfy `p`. -/
def release (c : Conversion) (p : Token → Bool) : Conversion :=
  ⟨c.stack.dropWhile p, c.output ++ c.stack.takeWhile p⟩

/-- Writes what waits above the innermost `(`. -/
def releaseGroup (c : Conversion) : Conversion := c.release (· ≠ .lparen)

/-- Drops the `(` on top, and writes the name below it if there is one. -/
def closeGroup (c : Conversion) : Except Fault Conversion :=
  match c.stack with
  | [] => .error .unmatchedParen
  | _ :: .name f :: rest => .ok ⟨rest, c.output.push (.name f)⟩
  | _ :: rest => .ok ⟨rest, c.output⟩

/-- Goes on behind a `,`, with the `(` of the arguments on top. -/
def nextArgument (c : Conversion) : Except Fault Conversion :=
  match c.stack with
  | [] => .error .strayComma
  | _ :: _ => .ok c

/-- One token. -/
def take (c : Conversion) (t : Token) : Except Fault Conversion :=
  match t with
  | .number _ => .ok (c.write t)
  | .name _ | .sign _ | .lparen => .ok (c.wait t)
  | .op o => .ok ((c.release (releases o)).wait t)
  | .rparen => c.releaseGroup.closeGroup
  | .comma => c.releaseGroup.nextArgument
  | .eof => .error (.unknownToken t.text)
  | .illegal fragment => .error (.unknownToken fragment)

/-- The tokens in order, up to the first fault. -/
def takeAll (c : Conversion) (ts : List Token) : Except Fault Conversion := ts.foldlM take c

/-- The whole output, once the tokens have come to their end. -/
def finish (c : Conversion) : Except Fault (List Token) :=
  match c.releaseGroup with
  | ⟨[], output⟩ => .ok output.toList
  | ⟨_ :: _, _⟩ => .error .unclosedParen

end Conversion

/-- The tokens in reverse Polish order. -/
def convert (ts : List Token) : Except Conversion.Fault (List Token) :=
  Conversion.start.takeAll ts >>= Conversion.finish

/-- An expression in reverse Polish notation, its tokens divided by single spaces. -/
def toRpn (reading : SignReading) (text : String) : Except Conversion.Fault String :=
  Token.joined <$> convert (Token.ofText reading text)

end ReversePolish
