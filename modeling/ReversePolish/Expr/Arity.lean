/-
Checking calls of built-in functions for the number of their arguments.

The first wrong call is reported, a call being looked at before its arguments and
operands from left to right.  A name that is not built in may be called with any
number of arguments, but what stands in the arguments is still checked.
-/
import ReversePolish.Builtin
import ReversePolish.Expr

namespace ReversePolish

/-- A call of a built-in function with the wrong number of arguments. -/
structure ArityFault where
  /-- The name as it stands in the call. -/
  name : String
  expected : Nat
  found : Nat
  deriving DecidableEq, Repr

def ArityFault.message (f : ArityFault) : String :=
  "Function " ++ f.name ++ " expects " ++ f.expected.repr ++ " argument(s), found " ++ f.found.repr

namespace Expr

/-- What is wrong with a call of `name` with `count` arguments, whatever they are. -/
def callFault? (name : String) (count : Nat) : Option ArityFault :=
  match Builtin.ofName? name with
  | some f => if f.arity = count then none else some ⟨name, f.arity, count⟩
  | none => none

mutual

/-- The first call in the tree that has the wrong number of arguments. -/
def arityFault? : Expr → Option ArityFault
  | num _ => none
  | sign _ operand => operand.arityFault?
  | bin left _ right => left.arityFault?.or right.arityFault?
  | call f args => (callFault? f args.length).or (arityFaultOfArgs? args)

/-- The first such call in a list of arguments. -/
def arityFaultOfArgs? : List Expr → Option ArityFault
  | [] => none
  | a :: as => a.arityFault?.or (arityFaultOfArgs? as)

end

/-- Checks the tree; the fault is the first there is. -/
def validate (e : Expr) : Except ArityFault Unit :=
  match e.arityFault? with
  | none => .ok ()
  | some fault => .error fault

theorem validate_eq_ok_iff {e : Expr} : e.validate = .ok () ↔ e.arityFault? = none := by
  unfold validate
  cases e.arityFault? <;> simp

theorem validate_eq_error_iff {e : Expr} {fault : ArityFault} :
    e.validate = .error fault ↔ e.arityFault? = some fault := by
  unfold validate
  cases e.arityFault? <;> simp

end Expr

end ReversePolish
