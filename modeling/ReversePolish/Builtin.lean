/-
The six built-in functions, their names and how many arguments each takes.

Conversion takes any identifier for a function.  The list matters only where
calls are made up at random, and where a finished expression is checked.
-/

namespace ReversePolish

inductive Builtin where
  | sin
  | cos
  | exp
  | ln
  | pow
  | iff
  deriving DecidableEq, Repr

namespace Builtin

/-- The functions in their fixed order. -/
def all : List Builtin := [sin, cos, exp, ln, pow, iff]

/-- The name in a call, in upper case. -/
def name : Builtin → String
  | sin => "SIN"
  | cos => "COS"
  | exp => "EXP"
  | ln => "LN"
  | pow => "POW"
  | iff => "IFF"

def arity : Builtin → Nat
  | sin | cos | exp | ln => 1
  | pow => 2
  | iff => 3

/-- The function that a name stands for.  Upper and lower case of an ASCII letter count as the
same letter, and no other letters do. -/
def ofName? (ident : String) : Option Builtin :=
  all.find? fun f => f.name.toList = ident.toList.map Char.toUpper

end Builtin

end ReversePolish
