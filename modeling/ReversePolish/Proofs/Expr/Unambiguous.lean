/-
The infix notation of a tree determines the tree.

The converse of `Proofs/Expr/Readable.lean` does not follow from the conversion, since
the reverse Polish notation of a call does not show how many arguments it has.  What
shows it is the infix notation itself, and the proof is to read it back.

`Reads` is how one reads a tree from left to right: an operand first (`ReadsOperand`),
and then operators with the operands on their right, for as long as they bind more
tightly than the place one reads in (`Continues`).  At most one of its rules applies to
any tokens, so what is read is unique (`Reads.unique`).  And the tokens of a tree are
read as just that tree (`readsTo_tokens`).  The operand on the left of an operator is
met before the operator is, so that induction says of a tree not that one reads it, but
that one comes to it and goes on from there (`ReadsTo`).
-/
import ReversePolish.Proofs.Expr.Readable

namespace ReversePolish.Expr

open Token (isIdentifier)

/-! ### Reading a tree from left to right -/

/-- An operator in front of the tokens binds no more tightly than the place. -/
def Stops (place : Nat) (ts : List Token) : Prop :=
  ∀ o, ts.head? = some (.op o) → o.precedence ≤ place

theorem Stops.mono {place place' : Nat} {ts : List Token} (h : Stops place ts)
    (hle : place ≤ place') : Stops place' ts := fun o ho => Nat.le_trans (h o ho) hle

theorem stops_cons {t : Token} (place : Nat) (ts : List Token) (h : ∀ o, t ≠ .op o) :
    Stops place (t :: ts) := fun o ho => absurd (Option.some.inj ho) (h o)

mutual

/-- In a place that binds as tightly as `place`, the tokens start with a tree, and the rest of them
follows it. -/
inductive Reads : Nat → List Token → Expr → List Token → Prop
  | tree {place : Nat} {ts mid rest : List Token} {first e : Expr}
      (hfirst : ReadsOperand ts first mid) (hmore : Continues place first mid e rest) :
      Reads place ts e rest

/-- The tokens start with a tree that needs no operator behind it. -/
inductive ReadsOperand : List Token → Expr → List Token → Prop
  | num (n : Nat) (rest : List Token) : ReadsOperand (.number n.repr :: rest) (.num n) rest
  | sign (s : Sign) {ts rest : List Token} {e : Expr} (h : Reads s.precedence ts e rest) :
      ReadsOperand (.sign s :: ts) (.sign s e) rest
  | group {ts rest : List Token} {e : Expr} (h : Reads 0 ts e (.rparen :: rest)) :
      ReadsOperand (.lparen :: ts) e rest
  | emptyCall (f : String) (rest : List Token) :
      ReadsOperand (.name f :: .lparen :: .rparen :: rest) (.call f []) rest
  | call (f : String) {ts rest : List Token} {args : List Expr} (h : ReadsArgs ts args rest) :
      ReadsOperand (.name f :: .lparen :: ts) (.call f args) rest

/-- Behind a first tree, the tokens go on to a larger one or leave it as it is. -/
inductive Continues : Nat → Expr → List Token → Expr → List Token → Prop
  | stop {place : Nat} {ts : List Token} (e : Expr) (h : Stops place ts) : Continues place e ts e ts
  | operator {place : Nat} {o : BinOp} {ts mid rest : List Token} {left right e : Expr}
      (ho : place < o.precedence) (hright : Reads o.precedence ts right mid)
      (hmore : Continues place (.bin left o right) mid e rest) :
      Continues place left (.op o :: ts) e rest

/-- The tokens start with the arguments of a call, one at least, and the `)` behind them. -/
inductive ReadsArgs : List Token → List Expr → List Token → Prop
  | last {ts rest : List Token} {a : Expr} (h : Reads 0 ts a (.rparen :: rest)) :
      ReadsArgs ts [a] rest
  | more {ts mid rest : List Token} {a : Expr} {as : List Expr} (h : Reads 0 ts a (.comma :: mid))
      (hrest : ReadsArgs mid as rest) : ReadsArgs ts (a :: as) rest

end

theorem eq_of_repr_eq {m n : Nat} (h : m.repr = n.repr) : m = n := by
  have hdigits : Nat.toDigits 10 m = Nat.toDigits 10 n := by
    rw [← Nat.toList_repr, h, Nat.toList_repr]
  rw [← Nat.ofDigitChars_ten_toDigits (n := m), hdigits, Nat.ofDigitChars_ten_toDigits]

theorem not_readsArgs_rparen {ts rest : List Token} {args : List Expr} :
    ¬ ReadsArgs (.rparen :: ts) args rest := by
  rintro (⟨⟨hfirst, -⟩⟩ | ⟨⟨hfirst, -⟩, -⟩)
  · cases hfirst
  · cases hfirst

mutual

/-- **What is read in a place is unique.** -/
theorem Reads.unique {place : Nat} {ts rest rest' : List Token} {e e' : Expr}
    (h : Reads place ts e rest) (h' : Reads place ts e' rest') : e = e' ∧ rest = rest' :=
  match h with
  | .tree hfirst hmore => by
      obtain ⟨hfirst', hmore'⟩ := h'
      obtain ⟨rfl, rfl⟩ := ReadsOperand.unique hfirst hfirst'
      exact Continues.unique hmore hmore'
termination_by structural h

/-- The first token decides what operand is read, and behind `f (` the next one does. -/
theorem ReadsOperand.unique {ts rest rest' : List Token} {e e' : Expr}
    (h : ReadsOperand ts e rest) (h' : ReadsOperand ts e' rest') : e = e' ∧ rest = rest' :=
  match h with
  | .num n rest => by
      generalize hts : Token.number n.repr :: rest = ts at h'
      cases h' with
      | num m rest' =>
          obtain ⟨hrepr, rfl⟩ := List.cons.inj hts
          exact ⟨congrArg num (eq_of_repr_eq (Token.number.inj hrepr)), rfl⟩
      | sign _ _ | group _ | emptyCall _ _ | call _ _ => simp at hts
  | .sign s h => by
      cases h' with
      | sign _ h' =>
          obtain ⟨rfl, rfl⟩ := Reads.unique h h'
          exact ⟨rfl, rfl⟩
  | .group h => by
      cases h' with
      | group h' =>
          obtain ⟨rfl, hrest⟩ := Reads.unique h h'
          exact ⟨rfl, (List.cons.inj hrest).2⟩
  | .emptyCall f rest => by
      cases h' with
      | emptyCall => exact ⟨rfl, rfl⟩
      | call _ h' => exact absurd h' not_readsArgs_rparen
  | .call f h => by
      cases h' with
      | emptyCall => exact absurd h not_readsArgs_rparen
      | call _ h' =>
          obtain ⟨rfl, rfl⟩ := ReadsArgs.unique h h'
          exact ⟨rfl, rfl⟩
termination_by structural h

/-- The operator that comes next decides whether one goes on. -/
theorem Continues.unique {place : Nat} {ts rest rest' : List Token} {first e e' : Expr}
    (h : Continues place first ts e rest) (h' : Continues place first ts e' rest') :
    e = e' ∧ rest = rest' :=
  match h with
  | .stop _ hstop => by
      cases h' with
      | stop => exact ⟨rfl, rfl⟩
      | operator ho _ _ => exact absurd ho (Nat.not_lt.mpr (hstop _ rfl))
  | .operator ho hright hmore => by
      cases h' with
      | stop _ hstop => exact absurd ho (Nat.not_lt.mpr (hstop _ rfl))
      | operator _ hright' hmore' =>
          obtain ⟨rfl, rfl⟩ := Reads.unique hright hright'
          exact Continues.unique hmore hmore'
termination_by structural h

/-- What stands behind an argument decides whether it is the last one. -/
theorem ReadsArgs.unique {ts rest rest' : List Token} {args args' : List Expr}
    (h : ReadsArgs ts args rest) (h' : ReadsArgs ts args' rest') : args = args' ∧ rest = rest' :=
  match h with
  | .last h => by
      cases h' with
      | last h' =>
          obtain ⟨rfl, hrest⟩ := Reads.unique h h'
          exact ⟨rfl, (List.cons.inj hrest).2⟩
      | more h' _ => exact absurd (List.cons.inj (Reads.unique h h').2).1 (by simp)
  | .more h hargs => by
      cases h' with
      | last h' => exact absurd (List.cons.inj (Reads.unique h h').2).1 (by simp)
      | more h' hargs' =>
          obtain ⟨rfl, hmid⟩ := Reads.unique h h'
          obtain ⟨-, rfl⟩ := List.cons.inj hmid
          obtain ⟨rfl, rfl⟩ := ReadsArgs.unique hargs hargs'
          exact ⟨rfl, rfl⟩
termination_by structural h

end

/-! ### Reading the tokens of a tree -/

/-- Tokens that were written for the place `p`: reading them in a looser place one comes to `e`, and
goes on with what follows them. -/
def ReadsTo (p : Nat) (ts : List Token) (e : Expr) : Prop :=
  ∀ place rest e' rest', place ≤ p → Stops p rest → Continues place e rest e' rest' →
    Reads place (ts ++ rest) e' rest'

section ReadsTo

variable {p : Nat} {ts : List Token} {e : Expr}

/-- Going no further, one reads the tree itself. -/
theorem ReadsTo.reads (h : ReadsTo p ts e) {rest : List Token} (hstop : Stops p rest) :
    Reads p (ts ++ rest) e rest := h p rest e rest (Nat.le_refl p) hstop (.stop e hstop)

theorem readsTo_operand (h : ∀ rest, ReadsOperand (ts ++ rest) e rest) : ReadsTo p ts e :=
  fun _ rest _ _ _ _ hmore => .tree (h rest) hmore

theorem readsTo_parens {tightness : Nat} (hpos : 0 < tightness)
    (h : ∀ place, place < tightness → ReadsTo place ts e) :
    ReadsTo p (parens (tightness ≤ p) ts) e := by
  unfold parens
  by_cases hparens : tightness ≤ p
  · rw [if_pos (decide_eq_true hparens)]
    refine readsTo_operand fun rest => ?_
    have hclose : Stops 0 (.rparen :: rest) := stops_cons 0 rest (by simp)
    have hinner := (h 0 hpos).reads hclose
    rw [List.cons_append, List.append_assoc]
    exact .group hinner
  · rw [if_neg (by simp [hparens])]
    exact h p (Nat.lt_of_not_le hparens)

/-- The operand of a sign ends where the sign's own place ends. -/
theorem readsTo_sign {s : Sign} (h : ReadsTo s.precedence ts e) (hp : p < s.precedence) :
    ReadsTo p (.sign s :: ts) (.sign s e) := by
  intro place rest e' rest' _ hstop hmore
  exact .tree (.sign s (h.reads (hstop.mono (Nat.le_of_lt hp)))) hmore

/-- One comes to the left operand, stops before the operator because the operand was written for its
place, and goes on over the operator because the whole was written for a looser one. -/
theorem readsTo_bin {o : BinOp} {ls rs : List Token} {l r : Expr} (hl : ReadsTo o.precedence ls l)
    (hr : ReadsTo o.precedence rs r) (hp : p < o.precedence) :
    ReadsTo p (ls ++ .op o :: rs) (.bin l o r) := by
  intro place rest e' rest' hplace hstop hmore
  have hlt : place < o.precedence := Nat.lt_of_le_of_lt hplace hp
  have hright : Reads o.precedence (rs ++ rest) r rest := hr.reads (hstop.mono (Nat.le_of_lt hp))
  have hstop' : Stops o.precedence (.op o :: (rs ++ rest)) := by
    intro o' ho'
    obtain rfl := Token.op.inj (Option.some.inj ho')
    exact Nat.le_refl _
  rw [List.append_assoc]
  exact hl place _ e' rest' (Nat.le_of_lt hlt) hstop' (.operator hlt hright hmore)

end ReadsTo

mutual

/-- **The tokens of a tree are read as the tree.** -/
theorem readsTo_tokens (p : Nat) : (e : Expr) → ReadsTo p (e.tokens p) e
  | num n => readsTo_operand fun rest => .num n rest
  | sign s operand => by
      have hpos : 0 < s.precedence := by cases s <;> decide
      refine readsTo_parens hpos fun place hplace => ?_
      exact readsTo_sign (readsTo_tokens s.precedence operand) hplace
  | bin left op right => by
      have hpos : 0 < op.precedence := by cases op <;> decide
      refine readsTo_parens hpos fun place hplace => ?_
      exact readsTo_bin (readsTo_tokens op.precedence left) (readsTo_tokens op.precedence right)
        hplace
  | call f [] => readsTo_operand fun rest => .emptyCall f rest
  | call f (a :: as) => by
      refine readsTo_operand fun rest => ?_
      show ReadsOperand (.name f :: .lparen :: (tokensOfArgs (a :: as) ++ [.rparen] ++ rest)) _ _
      rw [List.append_assoc]
      exact .call f (readsArgs_tokensOfArgs (a :: as) (List.cons_ne_nil a as) rest)

theorem readsArgs_tokensOfArgs :
    (as : List Expr) → as ≠ [] → ∀ rest, ReadsArgs (tokensOfArgs as ++ .rparen :: rest) as rest
  | [], hne, _ => absurd rfl hne
  | [a], _, rest => .last ((readsTo_tokens 0 a).reads (stops_cons 0 rest (by simp)))
  | a :: b :: bs, _, rest => by
      have hrest := readsArgs_tokensOfArgs (b :: bs) (List.cons_ne_nil b bs) rest
      have hcomma : Stops 0 (.comma :: (tokensOfArgs (b :: bs) ++ .rparen :: rest)) :=
        stops_cons 0 _ (by simp)
      show ReadsArgs ((a.tokens 0 ++ .comma :: tokensOfArgs (b :: bs)) ++ .rparen :: rest) _ _
      rw [List.append_assoc]
      exact .more ((readsTo_tokens 0 a).reads hcomma) hrest

end

theorem tokens_injective {p : Nat} {e e' : Expr} (h : e.tokens p = e'.tokens p) : e = e' := by
  have hend : Stops p [] := fun o ho => by simp at ho
  have hread := (readsTo_tokens p e).reads hend
  have hread' := (readsTo_tokens p e').reads hend
  rw [h] at hread
  exact (hread.unique hread').1

/-! ### Infix notation -/

theorem ofText_readable {e : Expr} (outside : Nat)
    (hnames : ∀ f ∈ e.callNames, isIdentifier f.toList = true) :
    Token.ofText .byPosition (e.readable outside) = e.tokens outside :=
  (phrase_tokens outside e hnames).sum_of_ofPlace.ofText_eq (writes_readable outside e)

theorem eq_of_readable_eq {e e' : Expr} {outside : Nat}
    (hnames : ∀ f ∈ e.callNames, isIdentifier f.toList = true)
    (hnames' : ∀ f ∈ e'.callNames, isIdentifier f.toList = true)
    (h : e.readable outside = e'.readable outside) : e = e' := by
  have htokens : e.tokens outside = e'.tokens outside := by
    rw [← ofText_readable outside hnames, ← ofText_readable outside hnames', h]
  exact tokens_injective htokens

/--
**Infix notation loses nothing of a tree.**

Whatever place the notation is made for, two trees are written alike only if they are
the same: they have the same operators in the same nesting, the same literals and names,
and their calls have the same arguments in the same order.
-/
theorem readable_eq_iff (e e' : Expr) (outside : Nat)
    (hnames : ∀ f ∈ e.callNames, isIdentifier f.toList = true)
    (hnames' : ∀ f ∈ e'.callNames, isIdentifier f.toList = true) :
    (e.readable outside = e'.readable outside ↔ e = e') ∧ (e.toInfix = e'.toInfix ↔ e = e') := by
  refine ⟨⟨eq_of_readable_eq hnames hnames', ?_⟩, ⟨eq_of_readable_eq hnames hnames', ?_⟩⟩
  · rintro rfl
    rfl
  · rintro rfl
    rfl

/-- A sign of a power and a power of a sign; then two trees whose calls take different arguments,
which their reverse Polish notation does not show. -/
theorem readable_eq_iff_calls :
    (Expr.sign .minus (.bin (.num 2) .power (.call "f" [.num 1]))).readable 0
        ≠ (Expr.bin (.sign .minus (.num 2)) .power (.call "f" [.num 1])).readable 0 ∧
      (Expr.call "g" [.num 1, .call "f" []]).toInfix
        ≠ (Expr.call "g" [.call "f" [.num 1]]).toInfix := by
  have hsign := readable_eq_iff (.sign .minus (.bin (.num 2) .power (.call "f" [.num 1])))
    (.bin (.sign .minus (.num 2)) .power (.call "f" [.num 1])) 0 (by decide) (by decide)
  have hcall := readable_eq_iff (.call "g" [.num 1, .call "f" []])
    (.call "g" [.call "f" [.num 1]]) 0 (by decide) (by decide)
  exact ⟨fun h => absurd (hsign.1.mp h) (by decide), fun h => absurd (hcall.2.mp h) (by decide)⟩

end ReversePolish.Expr
