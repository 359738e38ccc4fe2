/-
Expressions as trees.

A call may carry any name and any number of arguments.  Literals are natural
numbers.  Functions on trees come in pairs, one for a tree and one for the list
of a call's arguments, and each is defined by recursion on the tree.
-/
import ReversePolish.Operator

namespace ReversePolish

inductive Expr where
  | num (n : Nat)
  | sign (s : Sign) (operand : Expr)
  | bin (left : Expr) (op : BinOp) (right : Expr)
  | call (name : String) (args : List Expr)
  deriving Repr

namespace Expr

/-- How tightly numbers and calls hold together: more than any operator does. -/
def atomicPriority : Nat := 255

/-- How tightly the top of the tree holds together. -/
def priority : Expr → Nat
  | num _ | call _ _ => atomicPriority
  | sign s _ => s.precedence
  | bin _ op _ => op.precedence

mutual

/-- The number of levels of the tree; a lone number has one. -/
def depth : Expr → Nat
  | num _ => 1
  | sign _ operand => 1 + operand.depth
  | bin left _ right => 1 + max left.depth right.depth
  | call _ args => 1 + depthOfArgs args

/-- The depth of the deepest argument, 0 if there is none. -/
def depthOfArgs : List Expr → Nat
  | [] => 0
  | a :: as => max a.depth (depthOfArgs as)

end

/-! ### Equality -/

mutual

/-- Two trees are equal if they have the same shape and the same labels. -/
def decEq : (a b : Expr) → Decidable (a = b)
  | num m, num n =>
    if h : m = n then isTrue (h ▸ rfl) else isFalse fun e => h (Expr.num.inj e)
  | sign s a, sign t b =>
    if h : s = t then
      match decEq a b with
      | isTrue e => isTrue (h ▸ e ▸ rfl)
      | isFalse e => isFalse fun he => e (Expr.sign.inj he).2
    else isFalse fun he => h (Expr.sign.inj he).1
  | bin a o b, bin c p d =>
    if h : o = p then
      match decEq a c, decEq b d with
      | isTrue e, isTrue e' => isTrue (h ▸ e ▸ e' ▸ rfl)
      | isFalse e, _ => isFalse fun he => e (Expr.bin.inj he).1
      | _, isFalse e => isFalse fun he => e (Expr.bin.inj he).2.2
    else isFalse fun he => h (Expr.bin.inj he).2.1
  | call f as, call g bs =>
    if h : f = g then
      match decEqArgs as bs with
      | isTrue e => isTrue (h ▸ e ▸ rfl)
      | isFalse e => isFalse fun he => e (Expr.call.inj he).2
    else isFalse fun he => h (Expr.call.inj he).1
  | num _, sign _ _ | num _, bin _ _ _ | num _, call _ _
  | sign _ _, num _ | sign _ _, bin _ _ _ | sign _ _, call _ _
  | bin _ _ _, num _ | bin _ _ _, sign _ _ | bin _ _ _, call _ _
  | call _ _, num _ | call _ _, sign _ _ | call _ _, bin _ _ _ => isFalse nofun

/-- Two argument lists are equal if they agree place by place. -/
def decEqArgs : (as bs : List Expr) → Decidable (as = bs)
  | [], [] => isTrue rfl
  | [], _ :: _ | _ :: _, [] => isFalse nofun
  | a :: as, b :: bs =>
    match decEq a b, decEqArgs as bs with
    | isTrue e, isTrue e' => isTrue (e ▸ e' ▸ rfl)
    | isFalse e, _ => isFalse fun he => e (List.cons.inj he).1
    | _, isFalse e => isFalse fun he => e (List.cons.inj he).2

end

instance : DecidableEq Expr := decEq

end Expr

end ReversePolish
