/-
The infix notation of a tree converts to the reverse Polish notation of the tree.

`Expr.tokens` is the infix notation as tokens, with parentheses by the same rule as in
`Expr.readable`.  Both halves of the argument meet there.  The text that `readable`
gives writes these tokens, whatever the names in it are.  And if the names are
identifiers, then the tokens are a phrase, and the grammar has just the tree's reverse
Polish notation for it.

What makes them a phrase is that precedences name nonterminals.  A place that binds as
tightly as `+` takes a term, one as tightly as `*` a factor, one as tightly as a sign a
power, and one as tightly as `^` only an atom.  The grammar would take more than that
on one side of every operator, which is why a tree is never short of parentheses.
-/
import ReversePolish.Expr.Readable
import ReversePolish.Proofs.Phrase.Conversion

namespace ReversePolish

open Token (Writes writes_cons writes_token isNumber_repr isIdentifier)

namespace Expr

mutual

/-- The names of all calls in the tree, a call's before those in its arguments. -/
def callNames : Expr → List String
  | num _ => []
  | sign _ operand => operand.callNames
  | bin left _ right => left.callNames ++ right.callNames
  | call f args => f :: callNamesOfArgs args

/-- The names of all calls in the arguments, from left to right. -/
def callNamesOfArgs : List Expr → List String
  | [] => []
  | a :: as => a.callNames ++ callNamesOfArgs as

end

mutual

/-- Whether there is a sign in the tree. -/
def hasSign : Expr → Bool
  | num _ => false
  | sign _ _ => true
  | bin left _ right => left.hasSign || right.hasSign
  | call _ args => hasSignOfArgs args

/-- Whether there is a sign in one of the arguments. -/
def hasSignOfArgs : List Expr → Bool
  | [] => false
  | a :: as => a.hasSign || hasSignOfArgs as

end

/-- The tokens in parentheses if `needed`. -/
def parens (needed : Bool) (ts : List Token) : List Token :=
  if needed then .lparen :: (ts ++ [.rparen]) else ts

mutual

/-- The tokens of the tree in a place that binds as tightly as `outside`. -/
def tokens (outside : Nat) : Expr → List Token
  | num n => [.number n.repr]
  | sign s operand => parens (s.precedence ≤ outside) (.sign s :: operand.tokens s.precedence)
  | bin left op right =>
    parens (op.precedence ≤ outside)
      (left.tokens op.precedence ++ .op op :: right.tokens op.precedence)
  | call f args => .name f :: .lparen :: (tokensOfArgs args ++ [.rparen])

/-- The tokens of the arguments of a call, with commas between them. -/
def tokensOfArgs : List Expr → List Token
  | [] => []
  | [a] => a.tokens 0
  | a :: b :: bs => a.tokens 0 ++ .comma :: tokensOfArgs (b :: bs)

end

/-! ### The text writes the tokens -/

theorem writes_parenIf {needed : Bool} {ts : List Token} {text : String}
    (h : Writes ts text.toList) : Writes (parens needed ts) (parenIf needed text).toList := by
  cases needed with
  | false => exact h
  | true =>
      show Writes (.lparen :: (ts ++ [.rparen])) ("(" ++ text ++ ")").toList
      rw [String.toList_append, String.toList_append, List.append_assoc]
      exact writes_cons .lparen (h.append (writes_token .rparen))

mutual

/-- **The infix notation of a tree writes its tokens.** -/
theorem writes_readable (outside : Nat) :
    (e : Expr) → Writes (e.tokens outside) (e.readable outside).toList
  | num n => writes_token (.number n.repr)
  | sign s operand => by
      refine writes_parenIf ?_
      rw [String.toList_append]
      exact writes_cons (.sign s) (writes_readable s.precedence operand)
  | bin left op right => by
      refine writes_parenIf ?_
      simp only [String.toList_append, List.append_assoc]
      refine (writes_readable op.precedence left).append ?_
      refine (writes_cons (.op op) ?_).gap_append (isGap_singleton rfl)
      exact (writes_readable op.precedence right).gap_append (isGap_singleton rfl)
  | call f args => by
      show Writes (.name f :: .lparen :: (tokensOfArgs args ++ [.rparen]))
        (f ++ "(" ++ ", ".intercalate (readableArgs args) ++ ")").toList
      simp only [String.toList_append, List.append_assoc]
      refine writes_cons (.name f) (writes_cons .lparen ?_)
      exact (writes_readableArgs args).append (writes_token .rparen)

theorem writes_readableArgs :
    (as : List Expr) → Writes (tokensOfArgs as) (", ".intercalate (readableArgs as)).toList
  | [] => .nil isGap_nil
  | [a] => by
      rw [readableArgs, readableArgs, String.intercalate_singleton]
      exact writes_readable 0 a
  | a :: b :: bs => by
      have hrest := writes_readableArgs (b :: bs)
      rw [readableArgs, readableArgs, String.intercalate_cons_cons, ← readableArgs]
      simp only [String.toList_append, List.append_assoc]
      refine (writes_readable 0 a).append ?_
      exact writes_cons .comma (hrest.gap_append (isGap_singleton rfl))

end

end Expr

/-! ### The tokens are a phrase -/

/-- The loosest phrase that needs no parentheses in a place that binds as tightly as `outside`. -/
def Nonterminal.ofPlace (outside : Nat) : Nonterminal :=
  if outside < BinOp.add.precedence then sum
  else if outside < BinOp.multiply.precedence then term
  else if outside < Sign.minus.precedence then factor
  else if outside < BinOp.power.precedence then power
  else atom

namespace Phrase

open Nonterminal

variable {outside : Nat} {ts out : List Token}

theorem ofPlace_sum (ho : outside < BinOp.add.precedence) (h : Phrase .sum ts out) :
    Phrase (ofPlace outside) ts out := by
  unfold ofPlace
  rwa [if_pos ho]

theorem ofPlace_term (ho : outside < BinOp.multiply.precedence) (h : Phrase .term ts out) :
    Phrase (ofPlace outside) ts out := by
  unfold ofPlace
  split_ifs
  · exact .term h
  · exact h

theorem ofPlace_factor (ho : outside < Sign.minus.precedence) (h : Phrase .factor ts out) :
    Phrase (ofPlace outside) ts out := by
  unfold ofPlace
  split_ifs
  · exact .term (.factor h)
  · exact .factor h
  · exact h

theorem ofPlace_power (ho : outside < BinOp.power.precedence) (h : Phrase .power ts out) :
    Phrase (ofPlace outside) ts out := by
  unfold ofPlace
  split_ifs
  · exact .term (.factor (.unsigned h))
  · exact .factor (.unsigned h)
  · exact .unsigned h
  · exact h

theorem ofPlace_atom (h : Phrase .atom ts out) : Phrase (ofPlace outside) ts out := by
  unfold ofPlace
  split_ifs
  · exact .term (.factor (.unsigned (.atom h)))
  · exact .factor (.unsigned (.atom h))
  · exact .unsigned (.atom h)
  · exact .atom h
  · exact h

/-- Whatever the place, what stands there is a sum on its own. -/
theorem sum_of_ofPlace (h : Phrase (ofPlace outside) ts out) : Phrase .sum ts out := by
  unfold ofPlace at h
  split_ifs at h
  · exact h
  · exact .term h
  · exact .term (.factor h)
  · exact .term (.factor (.unsigned h))
  · exact .term (.factor (.unsigned (.atom h)))

/-- In parentheses anything can stand anywhere. -/
theorem ofPlace_parens {tightness : Nat} (hpos : 0 < tightness)
    (h : ∀ place, place < tightness → Phrase (ofPlace place) ts out) :
    Phrase (ofPlace outside) (Expr.parens (tightness ≤ outside) ts) out := by
  unfold Expr.parens
  by_cases hparens : tightness ≤ outside
  · rw [if_pos (decide_eq_true hparens)]
    exact ofPlace_atom (.group (h 0 hpos))
  · rw [if_neg (by simp [hparens])]
    exact h outside (Nat.lt_of_not_le hparens)

theorem ofPlace_sign (s : Sign) (h : Phrase (ofPlace s.precedence) ts out)
    (ho : outside < s.precedence) : Phrase (ofPlace outside) (.sign s :: ts) (out ++ [.sign s]) := by
  cases s with
  | plus | minus => exact ofPlace_factor ho (.sign _ (.unsigned h))

theorem ofPlace_bin (o : BinOp) {ls l rs r : List Token} (hl : Phrase (ofPlace o.precedence) ls l)
    (hr : Phrase (ofPlace o.precedence) rs r) (ho : outside < o.precedence) :
    Phrase (ofPlace outside) (ls ++ .op o :: rs) (l ++ r ++ [.op o]) := by
  cases o with
  | add => exact ofPlace_sum ho (.sum (Or.inl rfl) (.term hl) hr)
  | subtract => exact ofPlace_sum ho (.sum (Or.inr rfl) (.term hl) hr)
  | multiply => exact ofPlace_term ho (.product (Or.inl rfl) (.factor hl) hr)
  | divide => exact ofPlace_term ho (.product (Or.inr rfl) (.factor hl) hr)
  | power => exact ofPlace_power ho (.power hl (.unsigned (.atom hr)))

end Phrase

namespace Expr

mutual

/-- **The tokens of a tree are a phrase**, and one that fits in its place. -/
theorem phrase_tokens (outside : Nat) :
    (e : Expr) → (∀ f ∈ e.callNames, isIdentifier f.toList = true) →
      Phrase (.ofPlace outside) (e.tokens outside) e.rpn
  | num n, _ => .ofPlace_atom (.number (isNumber_repr n))
  | sign s operand, hnames => by
      have hpos : 0 < s.precedence := by cases s <;> decide
      refine .ofPlace_parens hpos fun place hplace => ?_
      exact .ofPlace_sign s (phrase_tokens s.precedence operand hnames) hplace
  | bin left op right, hnames => by
      have hpos : 0 < op.precedence := by cases op <;> decide
      obtain ⟨hleft, hright⟩ := List.forall_mem_append.mp hnames
      refine .ofPlace_parens hpos fun place hplace => ?_
      exact .ofPlace_bin op (phrase_tokens op.precedence left hleft)
        (phrase_tokens op.precedence right hright) hplace
  | call f [], hnames => .ofPlace_atom (.emptyCall (hnames f List.mem_cons_self))
  | call f (a :: as), hnames => by
      obtain ⟨hf, hargs⟩ := List.forall_mem_cons.mp hnames
      exact .ofPlace_atom (.call hf (phrase_tokensOfArgs (a :: as) (List.cons_ne_nil a as) hargs))

theorem phrase_tokensOfArgs :
    (as : List Expr) → as ≠ [] → (∀ f ∈ callNamesOfArgs as, isIdentifier f.toList = true) →
      Phrase .arguments (tokensOfArgs as) (rpnOfArgs as)
  | [], hne, _ => absurd rfl hne
  | [a], _, hnames => by
      obtain ⟨ha, -⟩ := List.forall_mem_append.mp hnames
      show Phrase .arguments (a.tokens 0) (a.rpn ++ [])
      rw [List.append_nil]
      exact .argument (phrase_tokens 0 a ha)
  | a :: b :: bs, _, hnames => by
      obtain ⟨ha, hargs⟩ := List.forall_mem_append.mp hnames
      have hrest := phrase_tokensOfArgs (b :: bs) (List.cons_ne_nil b bs) hargs
      exact .arguments (phrase_tokens 0 a ha) hrest

end

/-! ### Conversion -/

mutual

theorem sign_notMem_rpn (s : Sign) : (e : Expr) → e.hasSign = false → .sign s ∉ e.rpn
  | num n, _ => by simp [rpn]
  | bin left op right, h => by
      obtain ⟨hleft, hright⟩ := Bool.or_eq_false_iff.mp h
      simp [rpn, sign_notMem_rpn s left hleft, sign_notMem_rpn s right hright]
  | call f args, h => by simp [rpn, sign_notMem_rpnOfArgs s args h]

theorem sign_notMem_rpnOfArgs (s : Sign) :
    (as : List Expr) → hasSignOfArgs as = false → .sign s ∉ rpnOfArgs as
  | [], _ => by simp [rpnOfArgs]
  | a :: as, h => by
      obtain ⟨ha, has⟩ := Bool.or_eq_false_iff.mp h
      simp [rpnOfArgs, sign_notMem_rpn s a ha, sign_notMem_rpnOfArgs s as has]

end

theorem toRpn_byPosition_readable (e : Expr) (outside : Nat)
    (hnames : ∀ f ∈ e.callNames, isIdentifier f.toList = true) :
    ReversePolish.toRpn .byPosition (e.readable outside) = .ok e.toRpn :=
  (phrase_tokens outside e hnames).sum_of_ofPlace.toRpn_eq (writes_readable outside e)

theorem toRpn_alwaysBinary_readable (e : Expr) (outside : Nat)
    (hnames : ∀ f ∈ e.callNames, isIdentifier f.toList = true) (hsign : e.hasSign = false) :
    ReversePolish.toRpn .alwaysBinary (e.readable outside) = .ok e.toRpn :=
  (phrase_tokens outside e hnames).sum_of_ofPlace.toRpn_alwaysBinary_eq
    (writes_readable outside e) fun s => sign_notMem_rpn s e hsign

/--
**The infix notation of a tree converts to the tree's reverse Polish notation.**

That holds for whatever place the infix notation is made for, since the parentheses
it may have around it make no difference.  A tree without signs converts to the same
if no signs are read.
-/
theorem toRpn_readable (e : Expr) (outside : Nat)
    (hnames : ∀ f ∈ e.callNames, isIdentifier f.toList = true) :
    ReversePolish.toRpn .byPosition (e.readable outside) = .ok e.toRpn ∧
      ReversePolish.toRpn .byPosition e.toInfix = .ok e.toRpn ∧
      (e.hasSign = false →
        ReversePolish.toRpn .alwaysBinary (e.readable outside) = .ok e.toRpn) :=
  ⟨toRpn_byPosition_readable e outside hnames, toRpn_byPosition_readable e 0 hnames,
    toRpn_alwaysBinary_readable e outside hnames⟩

/-- A sign below a power below a sign below a product, and a call without arguments; then a tree
without signs. -/
theorem toRpn_readable_signs :
    ReversePolish.toRpn .byPosition "(-(-2) ^ f() * g(+3, 1))"
        = .ok "2 un- f ^ un- 3 un+ 1 g *" ∧
      ReversePolish.toRpn .alwaysBinary "(1 - 2) - f(3)" = .ok "1 2 - 3 f -" := by
  have hsigned := (toRpn_readable
    (.bin (.sign .minus (.bin (.sign .minus (.num 2)) .power (.call "f" []))) .multiply
      (.call "g" [.sign .plus (.num 3), .num 1])) 15 (by decide)).1
  have hunsigned := (toRpn_readable
    (.bin (.bin (.num 1) .subtract (.num 2)) .subtract (.call "f" [.num 3])) 0 (by decide)).2.2 rfl
  exact ⟨hsigned, hunsigned⟩

end Expr

end ReversePolish
