/-
The reverse Polish notation of a tree determines the tree, once it is known how many
arguments each name takes.

Without that it does not: `1 f g` is both `g(1, f())` and `g(f(1))`.  With it, the tree can
be rebuilt on a stack, as one works out a value by hand: a number is put on the stack, and
everything else takes as many trees off the top as it has operands.  What a tree's tokens
do to any stack is to put the tree on top of it (`builds_rpn`), so there is one tree left
at the end, and it is the one that was written.

The text shows the tokens (`Token.ofJoined_joined`) if the names are identifiers, and so it
shows the tree as well.
-/
import ReversePolish.Expr.Rpn
import ReversePolish.Proofs.Expr.Arity
import ReversePolish.Proofs.Token.Joined

namespace ReversePolish

open Token (IsWritten isIdentifier)

/-! ### Rebuilding a tree -/

namespace Expr

variable {arity : String → Nat}

/-- What one token does to a stack of trees, the last of them on top. -/
def rebuild (arity : String → Nat) (stack : List Expr) (t : Token) : Option (List Expr) :=
  match t, stack with
  | .number digits, stack => some (num (Nat.ofDigitChars 10 digits.toList 0) :: stack)
  | .sign s, operand :: rest => some (sign s operand :: rest)
  | .op o, right :: left :: rest => some (bin left o right :: rest)
  | .name f, stack =>
    if arity f ≤ stack.length then
      some (call f (stack.take (arity f)).reverse :: stack.drop (arity f))
    else none
  | _, _ => none

/-- The tokens take one stack to the other. -/
def Builds (arity : String → Nat) (stack : List Expr) (ts : List Token) (stack' : List Expr) :
    Prop :=
  ts.foldlM (rebuild arity) stack = some stack'

section Builds

variable {stack stack' stack'' : List Expr} {ts us : List Token}

theorem builds_token {t : Token} (h : rebuild arity stack t = some stack') :
    Builds arity stack [t] stack' := by
  rw [Builds, List.foldlM_cons, h]
  rfl

theorem Builds.append (h : Builds arity stack ts stack') (h' : Builds arity stack' us stack'') :
    Builds arity stack (ts ++ us) stack'' := by
  rw [Builds, List.foldlM_append, show ts.foldlM (rebuild arity) stack = some stack' from h]
  exact h'

theorem builds_number (n : Nat) (stack : List Expr) :
    Builds arity stack [.number n.repr] (num n :: stack) := by
  refine builds_token ?_
  rw [rebuild, Nat.toList_repr, Nat.ofDigitChars_ten_toDigits]

/-- A name takes its arguments, the last of which is on top. -/
theorem builds_name {f : String} {args : List Expr} (h : args.length = arity f)
    (stack : List Expr) :
    Builds arity (args.reverse ++ stack) [.name f] (call f args :: stack) := by
  have hlength : args.reverse.length = arity f := by rw [List.length_reverse, h]
  refine builds_token ?_
  rw [rebuild, if_pos (by simp [h]), List.take_left' hlength, List.drop_left' hlength,
    List.reverse_reverse]

end Builds

mutual

/-- **The tokens of a tree put the tree on the stack**, whatever is on it already. -/
theorem builds_rpn : (e : Expr) → (∀ c ∈ e.calls, c.2 = arity c.1) → (stack : List Expr) →
    Builds arity stack e.rpn (e :: stack)
  | num n, _, stack => builds_number n stack
  | sign s operand, h, stack => (builds_rpn operand h stack).append (builds_token rfl)
  | bin left op right, h, stack => by
      obtain ⟨hleft, hright⟩ := List.forall_mem_append.mp h
      have hoperands := (builds_rpn left hleft stack).append (builds_rpn right hright (left :: stack))
      exact hoperands.append (builds_token rfl)
  | call f args, h, stack => by
      obtain ⟨hcount, hargs⟩ := List.forall_mem_cons.mp h
      exact (builds_rpnOfArgs args hargs stack).append (builds_name hcount stack)

theorem builds_rpnOfArgs : (as : List Expr) → (∀ c ∈ callsOfArgs as, c.2 = arity c.1) →
    (stack : List Expr) → Builds arity stack (rpnOfArgs as) (as.reverse ++ stack)
  | [], _, _ => rfl
  | a :: as, h, stack => by
      obtain ⟨ha, has⟩ := List.forall_mem_append.mp h
      rw [List.reverse_cons, List.append_assoc]
      exact (builds_rpn a ha stack).append (builds_rpnOfArgs as has (a :: stack))

end

/-! ### The text -/

mutual

/-- All tokens of a tree can stand in an output, if its names are identifiers. -/
theorem isWritten_rpn : (e : Expr) → (∀ c ∈ e.calls, isIdentifier c.1.toList = true) →
    ∀ t ∈ e.rpn, t.IsWritten
  | num n, _ => List.forall_mem_singleton.mpr (Token.isNumber_repr n)
  | sign s operand, h =>
      List.forall_mem_append.mpr ⟨isWritten_rpn operand h, List.forall_mem_singleton.mpr trivial⟩
  | bin left op right, h => by
      obtain ⟨hleft, hright⟩ := List.forall_mem_append.mp h
      have hoperands := List.forall_mem_append.mpr
        ⟨isWritten_rpn left hleft, isWritten_rpn right hright⟩
      exact List.forall_mem_append.mpr ⟨hoperands, List.forall_mem_singleton.mpr trivial⟩
  | call f args, h => by
      obtain ⟨hf, hargs⟩ := List.forall_mem_cons.mp h
      exact List.forall_mem_append.mpr
        ⟨isWritten_rpnOfArgs args hargs, List.forall_mem_singleton.mpr hf⟩

theorem isWritten_rpnOfArgs :
    (as : List Expr) → (∀ c ∈ callsOfArgs as, isIdentifier c.1.toList = true) →
      ∀ t ∈ rpnOfArgs as, t.IsWritten
  | [], _ => by simp [rpnOfArgs]
  | a :: as, h => by
      obtain ⟨ha, has⟩ := List.forall_mem_append.mp h
      exact List.forall_mem_append.mpr ⟨isWritten_rpn a ha, isWritten_rpnOfArgs as has⟩

end

/-- Every call has an identifier for its name and the arguments that its name takes. -/
def CallsBy (arity : String → Nat) (e : Expr) : Prop :=
  ∀ c ∈ e.calls, isIdentifier c.1.toList = true ∧ c.2 = arity c.1

/-- The tree that an output was written for. -/
def ofRpn? (arity : String → Nat) (text : String) : Option Expr :=
  match (Token.ofJoined text.toList).foldlM (rebuild arity) [] with
  | some [e] => some e
  | _ => none

/-- **A tree is read back from its reverse Polish notation.** -/
theorem ofRpn?_toRpn {e : Expr} (h : e.CallsBy arity) : ofRpn? arity e.toRpn = some e := by
  have hwritten := isWritten_rpn e fun c hc => (h c hc).1
  have hbuilds : e.rpn.foldlM (rebuild arity) [] = some [e] :=
    builds_rpn e (fun c hc => (h c hc).2) []
  rw [ofRpn?, toRpn, Token.ofJoined_joined hwritten, hbuilds]

theorem toRpn_inj_of_callsBy {e e' : Expr} (h : e.CallsBy arity) (h' : e'.CallsBy arity) :
    e.toRpn = e'.toRpn ↔ e = e' := by
  refine ⟨fun heq => ?_, congrArg toRpn⟩
  have hread := ofRpn?_toRpn h
  rw [heq, ofRpn?_toRpn h'] at hread
  exact (Option.some.inj hread).symm

end Expr

/-! ### The built-in functions -/

namespace Builtin

/-- In whatever case it is written, the name of a function is an identifier. -/
theorem IsNamed.isIdentifier {f : Builtin} {ident : String} (h : f.IsNamed ident) :
    isIdentifier ident.toList = true := by
  have hupper : ident.toList.map Char.toUpper = f.name.toList := (isNamed_iff.mp h).symm
  have hletters : ∀ c ∈ ident.toList, c.isAlpha = true := by
    have hcapitals : f.name.toList.all Char.isUpper = true := by cases f <;> rfl
    intro c hc
    refine isAlpha_of_isUpper_toUpper ?_
    exact List.all_eq_true.mp hcapitals _ (hupper ▸ List.mem_map_of_mem hc)
  cases hchars : ident.toList with
  | nil =>
      rw [hchars] at hupper
      cases f <;> exact absurd hupper (by decide)
  | cons c cs =>
      rw [hchars] at hletters
      obtain ⟨hc, hcs⟩ := List.forall_mem_cons.mp hletters
      simp only [Token.isIdentifier, Token.isNameStart, Token.isNamePart, Char.isAlphanum,
        Bool.and_eq_true, List.all_eq_true, Bool.or_eq_true]
      exact ⟨Or.inl hc, fun d hd => Or.inl (Or.inl (hcs d hd))⟩

/-- How many arguments a name takes, if it is that of a built-in function. -/
def arityOfName (ident : String) : Nat := ((ofName? ident).map arity).getD 0

end Builtin

namespace Expr

/-- All calls in the tree are calls of built-in functions. -/
def CallsBuiltins (e : Expr) : Prop := ∀ c ∈ e.calls, ∃ f : Builtin, f.IsNamed c.1

/-- In a valid tree such calls have the arguments that the functions take. -/
theorem CallsBuiltins.callsBy {e : Expr} (h : e.CallsBuiltins) (hvalid : e.validate = .ok ()) :
    e.CallsBy Builtin.arityOfName := by
  intro c hc
  obtain ⟨f, hf⟩ := h c hc
  have hright := arityFault?_eq_none_iff.mp (validate_eq_ok_iff.mp hvalid) c hc
  refine ⟨hf.isIdentifier, ?_⟩
  rw [Builtin.arityOfName, Builtin.ofName?_eq_some_iff.mpr hf]
  exact hright _ (mem_signatures_iff.mpr ⟨f, rfl⟩) hf

/--
**Reverse Polish notation loses nothing of a tree if names have fixed numbers of arguments.**

Which numbers these are makes no difference, and some may be 0.  Valid trees that call
built-in functions only are a case of it, the number of arguments being the function's own
whatever the case of its name.
-/
theorem toRpn_eq_iff :
    (∀ (arity : String → Nat) (e e' : Expr), e.CallsBy arity → e'.CallsBy arity →
        (e.toRpn = e'.toRpn ↔ e = e')) ∧
      ∀ e e' : Expr, e.validate = .ok () → e'.validate = .ok () →
        e.CallsBuiltins → e'.CallsBuiltins → (e.toRpn = e'.toRpn ↔ e = e') :=
  ⟨fun _ _ _ h h' => toRpn_inj_of_callsBy h h',
    fun _ _ hvalid hvalid' h h' => toRpn_inj_of_callsBy (h.callsBy hvalid) (h'.callsBy hvalid')⟩

/-- A name without arguments in two places, and two calls of built-in functions in each other's
arguments. -/
theorem toRpn_eq_iff_places :
    (Expr.call "g" [.call "h" [], .call "f" [.num 1]]).toRpn
        ≠ (Expr.call "g" [.call "f" [.call "h" []], .num 1]).toRpn ∧
      (Expr.call "pow" [.call "Sin" [.num 1], .num 2]).toRpn
        ≠ (Expr.call "pow" [.num 1, .call "Sin" [.num 2]]).toRpn := by
  let arity (f : String) : Nat := if f = "g" then 2 else if f = "f" then 1 else 0
  have hfree := toRpn_eq_iff.1 arity (.call "g" [.call "h" [], .call "f" [.num 1]])
    (.call "g" [.call "f" [.call "h" []], .num 1]) (by unfold CallsBy; decide)
    (by unfold CallsBy; decide)
  have hpow : Builtin.pow.IsNamed "pow" := Builtin.isNamed_iff.mpr (by decide)
  have hsin : Builtin.sin.IsNamed "Sin" := Builtin.isNamed_iff.mpr (by decide)
  have hbuiltin := toRpn_eq_iff.2 (.call "pow" [.call "Sin" [.num 1], .num 2])
    (.call "pow" [.num 1, .call "Sin" [.num 2]]) (by decide) (by decide)
    (List.forall_mem_cons.mpr ⟨⟨_, hpow⟩, List.forall_mem_singleton.mpr ⟨_, hsin⟩⟩)
    (List.forall_mem_cons.mpr ⟨⟨_, hpow⟩, List.forall_mem_singleton.mpr ⟨_, hsin⟩⟩)
  exact ⟨fun h => absurd (hfree.mp h) (by decide), fun h => absurd (hbuiltin.mp h) (by decide)⟩

/-- If a name may take one argument here and none there, two trees are written alike. -/
example :
    (Expr.call "g" [.num 1, .call "f" []]).toRpn = (Expr.call "g" [.call "f" [.num 1]]).toRpn := rfl

end Expr

end ReversePolish
