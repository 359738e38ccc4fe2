/-
The grammar of infix expressions.

    atom      = number | name | name ( [arguments] ) | ( sum )
    arguments = sum | sum , arguments
    power     = atom | atom ^ factor
    factor    = sign factor | power
    term      = factor | term * factor | term / factor
    sum       = term | sum + term | sum - term

`Phrase` has one constructor for each of these productions.  It relates the tokens
of a phrase to the same phrase in reverse Polish notation: operands from left to
right, and every operator, sign or function name behind what it applies to.  So `+ -
* /` group to the left because their left operand is of their own level, `^` groups
to the right because a power can be a factor, and a sign binds more loosely than `^`
and more tightly than `*`.

What a phrase needs of a text is proved here: its tokens are ones that a text can
have in it, no two fragments are neighbours, and its signs stand where an operand may
start.  What the conversion makes of a phrase is in `Proofs/Phrase/Conversion.lean`.
-/
import ReversePolish.Proofs.Token.Sign

namespace ReversePolish

/-- What a phrase can be, from the tightest to the loosest. -/
inductive Nonterminal where
  | atom
  | power
  | factor
  | term
  | sum
  | arguments
  deriving DecidableEq, Repr

open Token in
/-- The tokens of a phrase, and the phrase in reverse Polish notation. -/
inductive Phrase : Nonterminal → List Token → List Token → Prop
  | number {digits : String} (h : isNumber digits.toList = true) :
      Phrase .atom [number digits] [number digits]
  | name {f : String} (h : isIdentifier f.toList = true) : Phrase .atom [name f] [name f]
  | emptyCall {f : String} (h : isIdentifier f.toList = true) :
      Phrase .atom [name f, lparen, rparen] [name f]
  | call {f : String} {ts out : List Token} (h : isIdentifier f.toList = true)
      (hargs : Phrase .arguments ts out) :
      Phrase .atom (name f :: lparen :: (ts ++ [rparen])) (out ++ [name f])
  | group {ts out : List Token} (h : Phrase .sum ts out) :
      Phrase .atom (lparen :: (ts ++ [rparen])) out
  | argument {ts out : List Token} (h : Phrase .sum ts out) : Phrase .arguments ts out
  | arguments {ts out us out' : List Token} (h : Phrase .sum ts out)
      (h' : Phrase .arguments us out') : Phrase .arguments (ts ++ comma :: us) (out ++ out')
  | atom {ts out : List Token} (h : Phrase .atom ts out) : Phrase .power ts out
  | power {ls l rs r : List Token} (hl : Phrase .atom ls l) (hr : Phrase .factor rs r) :
      Phrase .power (ls ++ op .power :: rs) (l ++ r ++ [op .power])
  | sign (s : Sign) {ts out : List Token} (h : Phrase .factor ts out) :
      Phrase .factor (sign s :: ts) (out ++ [sign s])
  | unsigned {ts out : List Token} (h : Phrase .power ts out) : Phrase .factor ts out
  | factor {ts out : List Token} (h : Phrase .factor ts out) : Phrase .term ts out
  | product {o : BinOp} {ls l rs r : List Token} (ho : o = .multiply ∨ o = .divide)
      (hl : Phrase .term ls l) (hr : Phrase .factor rs r) :
      Phrase .term (ls ++ op o :: rs) (l ++ r ++ [op o])
  | term {ts out : List Token} (h : Phrase .term ts out) : Phrase .sum ts out
  | sum {o : BinOp} {ls l rs r : List Token} (ho : o = .add ∨ o = .subtract)
      (hl : Phrase .sum ls l) (hr : Phrase .term rs r) :
      Phrase .sum (ls ++ op o :: rs) (l ++ r ++ [op o])

namespace Phrase

open Token

variable {n : Nonterminal} {ts out : List Token}

/-! ### The tokens of a phrase -/

/-- Each token of a phrase can stand in a text, signs as the operators they look like. -/
theorem isLexical (h : Phrase n ts out) : ∀ t ∈ ts, t.unsigned.IsLexical := by
  induction h with
  | number h => simpa [Token.unsigned, IsLexical] using h
  | name h => simpa [Token.unsigned, IsLexical] using h
  | emptyCall h => simpa [Token.unsigned, IsLexical] using h
  | call h hargs ih =>
      intro t ht
      simp only [List.mem_cons, List.mem_append, List.not_mem_nil, or_false] at ht
      rcases ht with rfl | rfl | ht | rfl
      · exact h
      · trivial
      · exact ih t ht
      · trivial
  | group h ih =>
      intro t ht
      simp only [List.mem_cons, List.mem_append, List.not_mem_nil, or_false] at ht
      rcases ht with rfl | ht | rfl
      · trivial
      · exact ih t ht
      · trivial
  | argument h ih | atom h ih | unsigned h ih | factor h ih | term h ih => exact ih
  | sign s h ih =>
      intro t ht
      rcases List.mem_cons.mp ht with rfl | ht
      · cases s <;> trivial
      · exact ih t ht
  | arguments hl hr ihl ihr | power hl hr ihl ihr | product _ hl hr ihl ihr
  | sum _ hl hr ihl ihr =>
      intro t ht
      rcases List.mem_append.mp ht with ht | ht
      · exact ihl t ht
      · rcases List.mem_cons.mp ht with rfl | ht
        · trivial
        · exact ihr t ht

/-! ### No two fragments are neighbours -/

theorem isChain_delimiter {t : Token} {us : List Token} (ht : t.isWord = false)
    (h : ts.IsChain Separate) (h' : us.IsChain Separate) :
    (ts ++ t :: us).IsChain Separate := by
  refine h.append (h'.cons fun _ _ => Or.inl ht) fun x _ y hy => Or.inr ?_
  obtain rfl : t = y := by simpa using hy
  exact ht

theorem isChain_parens (h : ts.IsChain Separate) :
    (lparen :: (ts ++ [rparen])).IsChain Separate := by
  have h' : (ts ++ [rparen]).IsChain Separate := isChain_delimiter rfl h .nil
  exact h'.cons fun _ _ => Or.inl rfl

theorem isChain (h : Phrase n ts out) : ts.IsChain Separate := by
  induction h with
  | number _ | name _ => exact .singleton _
  | emptyCall _ => simp [Separate, isWord]
  | call h hargs ih =>
      refine (isChain_parens ih).cons fun y hy => Or.inr ?_
      obtain rfl : lparen = y := by simpa using hy
      rfl
  | group h ih => exact isChain_parens ih
  | argument h ih | atom h ih | unsigned h ih | factor h ih | term h ih => exact ih
  | sign s h ih => exact ih.cons fun _ _ => Or.inl rfl
  | arguments hl hr ihl ihr | power hl hr ihl ihr | product _ hl hr ihl ihr
  | sum _ hl hr ihl ihr => exact isChain_delimiter rfl ihl ihr

/-! ### Its signs are where an operand may start -/

/-- The tokens of an operand: they start where an operand may start and end where none may, and
all signs in between are read back. -/
def MarksBack (ts : List Token) : Prop :=
  ∀ rest, markSigns true (ts.map Token.unsigned ++ rest) = ts ++ markSigns false rest

/-- In parentheses an operand may start anew, wherever the parentheses stand. -/
theorem markSigns_parens (start : Bool) (h : MarksBack ts) (rest : List Token) :
    markSigns start ((lparen :: (ts ++ [rparen])).map Token.unsigned ++ rest)
      = lparen :: (ts ++ [rparen]) ++ markSigns false rest := by
  have hopen : ∀ us, markSigns start (lparen :: us) = lparen :: markSigns true us := by
    intro us
    cases start <;> rfl
  have hclose := h (rparen :: rest)
  rw [markSigns_false_cons] at hclose
  rw [List.map_cons, List.map_append, List.cons_append, List.append_assoc]
  show markSigns start (lparen :: (ts.map Token.unsigned ++ rparen :: rest)) = _
  rw [hopen, hclose, List.cons_append, List.append_assoc]
  rfl

/-- Behind what ends an operand, `o` is an operator or a comma and another operand follows. -/
theorem marksBack_append {o : Token} {us : List Token} (ho : o.opensOperand = true)
    (hsame : o.unsigned = o) (h : MarksBack ts) (h' : MarksBack us) :
    MarksBack (ts ++ o :: us) := by
  intro rest
  rw [List.map_append, List.append_assoc, h, List.map_cons, List.cons_append, hsame,
    markSigns_false_cons, ho, h', List.append_assoc, List.cons_append]

theorem marksBack (h : Phrase n ts out) : MarksBack ts := by
  induction h with
  | number _ | name _ => exact fun rest => markSigns_true_cons rest rfl
  | emptyCall _ => exact fun rest => rfl
  | @call f ts out h hargs ih =>
      intro rest
      show markSigns true (.name f :: ((lparen :: (ts ++ [rparen])).map Token.unsigned ++ rest)) = _
      rw [markSigns_true_cons _ rfl, markSigns_parens _ ih]
      rfl
  | group h ih => exact markSigns_parens true ih
  | argument h ih | atom h ih | unsigned h ih | factor h ih | term h ih => exact ih
  | sign s h ih =>
      intro rest
      rw [List.map_cons, List.cons_append, markSigns_true_sign, ih]
      rfl
  | arguments hl hr ihl ihr | power hl hr ihl ihr | product _ hl hr ihl ihr
  | sum _ hl hr ihl ihr => exact marksBack_append rfl rfl ihl ihr

theorem scan_eq {cs : List Char} (h : Phrase n ts out) (hw : Writes ts cs) :
    scan cs = ts.map Token.unsigned := by
  refine scan_of_writes hw.unsigned ?_ ?_
  · intro t ht
    obtain ⟨u, hu, rfl⟩ := List.mem_map.mp ht
    exact h.isLexical u hu
  · refine List.isChain_map_of_isChain _ ?_ h.isChain
    intro t u hsep
    rwa [Separate, isWord_unsigned, isWord_unsigned]

/-- **A text that writes a phrase is cut into just its tokens.** -/
theorem ofText_eq {text : String} (h : Phrase n ts out) (hw : Writes ts text.toList) :
    ofText .byPosition text = ts := by
  have hmark := h.marksBack []
  rw [List.append_nil, ← h.scan_eq hw] at hmark
  rw [ofText, hmark]
  exact List.append_nil ts

end Phrase

end ReversePolish
