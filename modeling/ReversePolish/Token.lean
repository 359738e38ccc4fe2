/-
Tokens: the words of an expression, before and after conversion.

A number keeps its digits as they were written, so `007` stays `007`, and any
identifier is a name.  A fragment that is neither is carried along as `illegal`
and refused later by the conversion, so cutting a text into tokens never fails.
-/
import ReversePolish.Operator

namespace ReversePolish

inductive Token where
  /-- Digits, as written. -/
  | number (digits : String)
  /-- An identifier, which names a function. -/
  | name (ident : String)
  | op (o : BinOp)
  | sign (s : Sign)
  | lparen
  | rparen
  | comma
  /-- The end of the text. -/
  | eof
  /-- A fragment that is neither a number nor an identifier. -/
  | illegal (fragment : String)
  deriving DecidableEq, Repr

namespace Token

/-- The operator that a token stands for, if it stands for one. -/
def operator? : Token → Option Operator
  | op o => some (.binary o)
  | sign s => some (.sign s)
  | _ => none

def isOperator (t : Token) : Bool := t.operator?.isSome

/-- The text of a token in the output and in the log. -/
def text : Token → String
  | number digits => digits
  | name ident => ident
  | op o => o.symbol
  | sign s => s.rpnSymbol
  | lparen => "("
  | rparen => ")"
  | comma => ","
  | eof => "EOF"
  | illegal fragment => "ILLEGAL(" ++ fragment ++ ")"

/-- The texts of the tokens in order, one space between each two. -/
def joined (ts : List Token) : String := " ".intercalate (ts.map text)

/-! ### Fragments -/

/-- A number is a run of ASCII digits. -/
def isNumber (cs : List Char) : Bool := !cs.isEmpty && cs.all Char.isDigit

/-- An identifier starts with an ASCII letter or `_`. -/
def isNameStart (c : Char) : Bool := c.isAlpha || c = '_'

/-- An identifier goes on with ASCII letters, digits and `_`. -/
def isNamePart (c : Char) : Bool := c.isAlphanum || c = '_'

def isIdentifier : List Char → Bool
  | [] => false
  | c :: cs => isNameStart c && cs.all isNamePart

/-- The token of a fragment that has no delimiter in it. -/
def ofFragment (cs : List Char) : Token :=
  if isNumber cs then number (String.ofList cs)
  else if isIdentifier cs then name (String.ofList cs)
  else illegal (String.ofList cs)

end Token

end ReversePolish
