/-
Telling signs from binary operators.

A `+` or `-` is a sign exactly where an operand may start: at the beginning,
behind `(` and `,`, and behind an operator or another sign.  Behind a number, a
name or `)` it is binary.  One look at the token before it decides.
-/
import ReversePolish.Token.Lexer

namespace ReversePolish

/-- How a `+` or `-` is read where an operand may start. -/
inductive SignReading where
  /-- It is a sign. -/
  | byPosition
  /-- It is a binary operator, as everywhere else: `-5` becomes `5 -`. -/
  | alwaysBinary
  deriving DecidableEq, Repr

/-- Signs are read by their position unless something else is asked for. -/
instance : Inhabited SignReading := ⟨.byPosition⟩

namespace Token

/-- Whether an operand may start right behind the token. -/
def opensOperand : Token → Bool
  | lparen | comma => true
  | t => t.isOperator

/-- The token as a sign, if it can be one. -/
def asSign? : Token → Option Sign
  | op .add => some .plus
  | op .subtract => some .minus
  | _ => none

/-- Turns `+` and `-` into signs where an operand may start; `start` says whether one may here.
A sign opens an operand in its turn, so `---5` is three signs before a number. -/
def markSigns (start : Bool) : List Token → List Token
  | [] => []
  | t :: ts =>
    match start, t.asSign? with
    | true, some s => sign s :: markSigns true ts
    | _, _ => t :: markSigns t.opensOperand ts

/-- The tokens of a text under a reading of its signs. -/
def ofText (reading : SignReading) (text : String) : List Token :=
  match reading with
  | .byPosition => markSigns true (scan text.toList)
  | .alwaysBinary => scan text.toList

end Token

end ReversePolish
