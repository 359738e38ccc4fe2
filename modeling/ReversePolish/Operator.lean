/-
The operators, how tightly they bind and how they are spelled.

There are five binary operators and two signs.  A sign sits between a product
and a power, so `-2^2` is `-(2^2)` while `-2*3` is `(-2)*3`.  Conversion and
rendering both read the one table `Operator.binding`, which is what makes them
agree on where parentheses are needed.

| operator      | precedence | associativity |
|---------------|------------|---------------|
| `^`           | 20         | right         |
| `un+` `un-`   | 15         | right         |
| `*` `/`       | 10         | left          |
| `+` `-`       | 5          | left          |

A function name outranks all of them, and a parenthesis ranks below them all.
-/

namespace ReversePolish

/-- The binary operators. -/
inductive BinOp where
  | add
  | subtract
  | multiply
  | divide
  | power
  deriving DecidableEq, Repr

/-- The signs, which stand before their one operand. -/
inductive Sign where
  | plus
  | minus
  deriving DecidableEq, Repr

/-- Which of two neighbours of equal precedence takes the operand between them. -/
inductive Assoc where
  | left
  | right
  deriving DecidableEq, Repr

/-- How tightly an operator binds. -/
structure Binding where
  precedence : Nat
  assoc : Assoc
  deriving DecidableEq, Repr

/-- An operator of either kind. -/
inductive Operator where
  | binary (op : BinOp)
  | sign (s : Sign)
  deriving DecidableEq, Repr

/-- The table of precedence and associativity. -/
def Operator.binding : Operator → Binding
  | .binary .add | .binary .subtract => ⟨5, .left⟩
  | .binary .multiply | .binary .divide => ⟨10, .left⟩
  | .sign .plus | .sign .minus => ⟨15, .right⟩
  | .binary .power => ⟨20, .right⟩

def Operator.precedence (o : Operator) : Nat := o.binding.precedence

def Operator.assoc (o : Operator) : Assoc := o.binding.assoc

def BinOp.precedence (op : BinOp) : Nat := (Operator.binary op).precedence

def BinOp.assoc (op : BinOp) : Assoc := (Operator.binary op).assoc

def Sign.precedence (s : Sign) : Nat := (Operator.sign s).precedence

def Sign.assoc (s : Sign) : Assoc := (Operator.sign s).assoc

/-- A pending function name outranks every operator. -/
def callPrecedence : Nat := 100

/-- A pending parenthesis ranks below every operator, so no operator takes it off the stack. -/
def parenPrecedence : Nat := 0

/-! ### Spelling -/

/-- A binary operator is one character, the same in both notations. -/
def BinOp.symbol : BinOp → String
  | .add => "+"
  | .subtract => "-"
  | .multiply => "*"
  | .divide => "/"
  | .power => "^"

/-- A sign as it is written before its operand. -/
def Sign.symbol : Sign → String
  | .plus => "+"
  | .minus => "-"

/-- A sign as it is written behind its operand, where `+` and `-` are the binary operators. -/
def Sign.rpnSymbol : Sign → String
  | .plus => "un+"
  | .minus => "un-"

/-- The spelling of an operator before or between its operands. -/
def Operator.symbol : Operator → String
  | .binary op => op.symbol
  | .sign s => s.symbol

/-- The spelling of an operator behind its operands. -/
def Operator.rpnSymbol : Operator → String
  | .binary op => op.symbol
  | .sign s => s.rpnSymbol

end ReversePolish
