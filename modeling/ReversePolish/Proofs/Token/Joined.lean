/-
What the text of an output shows of its tokens.

An output is written as the texts of its tokens with single spaces between them.  What can
stand in an output is a number, a name, an operator or a sign (`IsWritten`), and no text of
these has a space in it, so that splitting at the spaces gives the texts back.  And each
text shows its token: digits are a number, `un-` is no identifier, and an operator is one
character that neither a number nor a name has in it.  `ofJoined` puts the two together,
and it reads the tokens back from any output.
-/
import ReversePolish.Proofs.Token.Spelling

namespace ReversePolish.Token

/-- What a token has to be to stand in an output. -/
def IsWritten : Token → Prop
  | number digits => isNumber digits.toList = true
  | name ident => isIdentifier ident.toList = true
  | op _ | sign _ => True
  | lparen | rparen | comma | eof | illegal _ => False

/-! ### One token -/

/-- The token that has this text in an output. -/
def ofWritten (cs : List Char) : Token :=
  match cs with
  | ['+'] => op .add
  | ['-'] => op .subtract
  | ['*'] => op .multiply
  | ['/'] => op .divide
  | ['^'] => op .power
  | ['u', 'n', '+'] => sign .plus
  | ['u', 'n', '-'] => sign .minus
  | cs => ofFragment cs

theorem ofWritten_of_isNamePart {cs : List Char} (h : ∀ c ∈ cs, isNamePart c = true) :
    ofWritten cs = ofFragment cs := by
  have hall : cs.all isNamePart = true := List.all_eq_true.mpr h
  unfold ofWritten
  split
  case h_8 => rfl
  all_goals exact absurd hall (by decide)

/-- **The text of a token shows the token.** -/
theorem ofWritten_text {t : Token} (h : t.IsWritten) : ofWritten t.text.toList = t := by
  cases t with
  | number digits =>
      have hdigits : isNumber digits.toList = true := h
      show ofWritten digits.toList = number digits
      rw [ofWritten_of_isNamePart (isNamePart_of_isNumber hdigits)]
      simp [ofFragment, hdigits]
  | name ident =>
      have hident : isIdentifier ident.toList = true := h
      show ofWritten ident.toList = name ident
      rw [ofWritten_of_isNamePart (isNamePart_of_isIdentifier hident)]
      simp [ofFragment, hident, isNumber_of_isIdentifier hident]
  | op o => cases o <;> rfl
  | sign s => cases s <;> rfl
  | lparen | rparen | comma | eof | illegal _ => exact h.elim

theorem IsWritten.space_notMem {t : Token} (h : t.IsWritten) :
    t.text.toList ≠ [] ∧ ' ' ∉ t.text.toList := by
  have hspace : isNamePart ' ' ≠ true := by decide
  cases t with
  | number digits =>
      exact ⟨(isFragment_of_isNumber h).ne_nil, fun hmem => hspace (isNamePart_of_isNumber h _ hmem)⟩
  | name ident =>
      exact ⟨(isFragment_of_isIdentifier h).ne_nil,
        fun hmem => hspace (isNamePart_of_isIdentifier h _ hmem)⟩
  | op o => cases o <;> decide
  | sign s => cases s <;> decide
  | lparen | rparen | comma | eof | illegal _ => exact h.elim

/-! ### All tokens -/

variable {ts us : List Token}

theorem toList_joined (ts : List Token) :
    (joined ts).toList = [' '].intercalate (ts.map fun t => t.text.toList) := by
  rw [joined, String.toList_intercalate, List.map_map]
  rfl

/-- **Splitting an output at its spaces gives the texts of its tokens.** -/
theorem splitOn_joined (h : ∀ t ∈ ts, t.IsWritten) (hne : ts ≠ []) :
    (joined ts).toList.splitOn ' ' = ts.map fun t => t.text.toList := by
  rw [toList_joined]
  refine List.splitOn_intercalate ' ' ?_ (by simpa using hne)
  intro cs hcs
  obtain ⟨t, ht, rfl⟩ := List.mem_map.mp hcs
  exact (h t ht).space_notMem.2

theorem joined_eq_empty_iff (h : ∀ t ∈ ts, t.IsWritten) : (joined ts).toList = [] ↔ ts = [] := by
  constructor
  · intro hempty
    by_contra hne
    -- One empty text is what an empty output is split into.
    have hsplit := splitOn_joined h hne
    rw [hempty] at hsplit
    obtain ⟨t, us, rfl⟩ := List.exists_cons_of_ne_nil hne
    have htext : t.text.toList = [] := (List.cons.inj hsplit).1.symm
    exact (h t List.mem_cons_self).space_notMem.1 htext
  · rintro rfl
    rfl

/-- The tokens of an output. -/
def ofJoined (cs : List Char) : List Token :=
  if cs = [] then [] else (cs.splitOn ' ').map ofWritten

/-- **The tokens of an output are read back from its text.** -/
theorem ofJoined_joined (h : ∀ t ∈ ts, t.IsWritten) : ofJoined (joined ts).toList = ts := by
  unfold ofJoined
  by_cases hne : ts = []
  · rw [if_pos ((joined_eq_empty_iff h).mpr hne), hne]
  · rw [if_neg (mt (joined_eq_empty_iff h).mp hne), splitOn_joined h hne, List.map_map]
    refine (List.map_congr_left fun t ht => ?_).trans (List.map_id ts)
    exact ofWritten_text (h t ht)

end ReversePolish.Token
