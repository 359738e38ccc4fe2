/-
What becomes of a tree with names that are no identifiers.

A name that has no delimiter in it, no blanks at its ends and not only digits is cut out of
the infix notation in one piece, but if it is no identifier then what is cut out is an
illegal fragment.  `Token.shown` is a token as a text shows it, and up to that the text is
cut into the tokens of the tree as before (`scan_readable`).

Conversion refuses an illegal fragment, and what has to be seen is that it refuses nothing
before it.  In front of the fragment there is only a part of the tree's tokens, with
parentheses still open; so the depth is counted from left to right through the tree, and
`Refuses` says of each part of it that one gets through at any depth, or else stops at the
first name in it that is no identifier.
-/
import ReversePolish.Proofs.Conversion.Readings
import ReversePolish.Proofs.Expr.Readable

namespace ReversePolish

namespace Token

/-! ### Tokens as a text shows them -/

/-- The token that is cut out of a text in which this token is written. -/
def shown : Token → Token
  | name ident => ofFragment ident.toList
  | t => t.unsigned

theorem spelling_shown (t : Token) : t.shown.spelling = t.spelling := by
  cases t with
  | name ident => exact String.toList_inj.mp (spelling_ofFragment ident.toList)
  | sign s => exact spelling_unsigned (sign s)
  | number _ | op _ | lparen | rparen | comma | eof | illegal _ => rfl

theorem isWord_ofFragment (cs : List Char) : (ofFragment cs).isWord = true := by
  unfold ofFragment
  split
  · rfl
  · split <;> rfl

theorem isWord_shown (t : Token) : t.shown.isWord = t.isWord := by
  cases t with
  | name ident => exact isWord_ofFragment ident.toList
  | sign s => exact isWord_unsigned (sign s)
  | number _ | op _ | lparen | rparen | comma | eof | illegal _ => rfl

end Token

namespace Expr

open Token (shown spelling_shown isWord_shown scan Separate IsFragment isNumber isIdentifier)

/-! ### The text is cut into the tokens of the tree -/

theorem forall_mem_parens {p : Token → Prop} {ts : List Token} (needed : Bool) (hl : p .lparen)
    (hr : p .rparen) (h : ∀ t ∈ ts, p t) : ∀ t ∈ parens needed ts, p t := by
  cases needed with
  | false => exact h
  | true =>
      exact List.forall_mem_cons.mpr
        ⟨hl, List.forall_mem_append.mpr ⟨h, List.forall_mem_singleton.mpr hr⟩⟩

mutual

/-- If the names are fragments, then each token can be read back from a text as it is shown. -/
theorem isLexical_tokens (outside : Nat) :
    (e : Expr) → (∀ f ∈ e.callNames, IsFragment f.toList) →
      ∀ t ∈ e.tokens outside, t.shown.IsLexical
  | num n, _ => List.forall_mem_singleton.mpr (Token.isNumber_repr n)
  | sign s operand, h => by
      refine forall_mem_parens _ trivial trivial (List.forall_mem_cons.mpr ⟨?_, ?_⟩)
      · cases s <;> trivial
      · exact isLexical_tokens s.precedence operand h
  | bin left op right, h => by
      obtain ⟨hleft, hright⟩ := List.forall_mem_append.mp h
      refine forall_mem_parens _ trivial trivial (List.forall_mem_append.mpr ⟨?_, ?_⟩)
      · exact isLexical_tokens op.precedence left hleft
      · exact List.forall_mem_cons.mpr ⟨trivial, isLexical_tokens op.precedence right hright⟩
  | call f args, h => by
      obtain ⟨hf, hargs⟩ := List.forall_mem_cons.mp h
      refine List.forall_mem_cons.mpr ⟨hf.isLexical_ofFragment, ?_⟩
      exact forall_mem_parens true trivial trivial (isLexical_tokensOfArgs args hargs)

theorem isLexical_tokensOfArgs :
    (as : List Expr) → (∀ f ∈ callNamesOfArgs as, IsFragment f.toList) →
      ∀ t ∈ tokensOfArgs as, t.shown.IsLexical
  | [], _ => by simp [tokensOfArgs]
  | [a], h => isLexical_tokens 0 a (List.forall_mem_append.mp h).1
  | a :: b :: bs, h => by
      obtain ⟨ha, hrest⟩ := List.forall_mem_append.mp h
      refine List.forall_mem_append.mpr ⟨isLexical_tokens 0 a ha, ?_⟩
      exact List.forall_mem_cons.mpr ⟨trivial, isLexical_tokensOfArgs (b :: bs) hrest⟩

end

theorem isChain_parens {ts : List Token} (needed : Bool) (h : ts.IsChain Separate) :
    (parens needed ts).IsChain Separate := by
  cases needed with
  | false => exact h
  | true => exact Phrase.isChain_parens h

mutual

/-- No two fragments of a tree are neighbours, whatever its names are. -/
theorem isChain_tokens (outside : Nat) : (e : Expr) → (e.tokens outside).IsChain Separate
  | num n => .singleton _
  | sign s operand =>
      isChain_parens _ ((isChain_tokens s.precedence operand).cons fun _ _ => Or.inl rfl)
  | bin left op right =>
      isChain_parens _ (Phrase.isChain_delimiter rfl (isChain_tokens op.precedence left)
        (isChain_tokens op.precedence right))
  | call f args => by
      refine (Phrase.isChain_parens (isChain_tokensOfArgs args)).cons fun t ht => Or.inr ?_
      obtain rfl := Option.some.inj ht
      rfl

theorem isChain_tokensOfArgs : (as : List Expr) → (tokensOfArgs as).IsChain Separate
  | [] => .nil
  | [a] => isChain_tokens 0 a
  | a :: b :: bs =>
      Phrase.isChain_delimiter rfl (isChain_tokens 0 a) (isChain_tokensOfArgs (b :: bs))

end

/-- **The infix notation is cut into the tokens of the tree, as a text shows them.** -/
theorem scan_readable {e : Expr} (outside : Nat) (h : ∀ f ∈ e.callNames, IsFragment f.toList) :
    scan (e.readable outside).toList = (e.tokens outside).map shown := by
  refine Token.scan_of_writes ((writes_readable outside e).map spelling_shown) ?_ ?_
  · exact List.forall_mem_map.mpr (isLexical_tokens outside e h)
  · refine List.isChain_map_of_isChain _ ?_ (isChain_tokens outside e)
    intro t u hsep
    rwa [Separate, isWord_shown, isWord_shown]

/-! ### Counting up to the first name that is no identifier -/

open Conversion

/-- The first of the names that is no identifier is refused, and else the depth is kept. -/
def refuse (names : List String) (depth : Nat) : Except Fault Nat :=
  match names.find? fun f => !isIdentifier f.toList with
  | none => .ok depth
  | some f => .error (.unknownToken f)

theorem refuse_append (names more : List String) (depth : Nat) :
    refuse (names ++ more) depth = refuse names depth >>= refuse more := by
  unfold refuse
  rw [List.find?_append]
  cases names.find? fun f => !isIdentifier f.toList <;> rfl

/-- Counting on from `depth`, one refuses the tokens for the sake of these names only, and comes
back to `depth` if none of them is refused. -/
def Refuses (depth : Nat) (ts : List Token) (names : List String) : Prop :=
  (ts.map shown).foldlM countDepth depth = refuse names depth

section Refuses

variable {depth : Nat} {ts us : List Token} {names more : List String}

theorem refuses_nil (depth : Nat) : Refuses depth [] [] := rfl

theorem refuses_token {t : Token} (h : countDepth depth t.shown = .ok depth) :
    Refuses depth [t] [] := by
  rw [Refuses, List.map_singleton, List.foldlM_cons, h]
  rfl

theorem Refuses.append (h : Refuses depth ts names) (h' : Refuses depth us more) :
    Refuses depth (ts ++ us) (names ++ more) := by
  rw [Refuses, List.map_append, List.foldlM_append, h, refuse_append]
  unfold refuse
  cases names.find? fun f => !isIdentifier f.toList with
  | none => exact h'
  | some f => rfl

theorem refuses_name {f : String} (h : isNumber f.toList = false) (depth : Nat) :
    Refuses depth [.name f] [f] := by
  rw [Refuses, List.map_singleton, List.foldlM_cons]
  cases hf : isIdentifier f.toList with
  | true => simp [shown, Token.ofFragment, refuse, h, hf, countDepth]
  | false => simp [shown, Token.ofFragment, refuse, h, hf, countDepth]

/-- In parentheses one counts one level deeper. -/
theorem Refuses.group (h : Refuses (depth + 1) ts names) :
    Refuses depth (.lparen :: (ts ++ [.rparen])) names := by
  rw [Refuses, List.map_cons, List.map_append, List.foldlM_cons]
  show (ts.map shown ++ [Token.rparen]).foldlM countDepth (depth + 1) = refuse names depth
  rw [List.foldlM_append, h]
  unfold refuse
  cases names.find? fun f => !isIdentifier f.toList <;> rfl

theorem Refuses.parens (needed : Bool) (h : ∀ depth, Refuses depth ts names) :
    Refuses depth (parens needed ts) names := by
  cases needed with
  | false => exact h depth
  | true => exact (h (depth + 1)).group

end Refuses

mutual

/-- **A tree is refused for the sake of its names only**, at any depth. -/
theorem refuses_tokens (outside : Nat) :
    (e : Expr) → (∀ f ∈ e.callNames, isNumber f.toList = false) →
      ∀ depth, Refuses depth (e.tokens outside) e.callNames
  | num n, _ => fun depth => refuses_token rfl
  | sign s operand, h => fun depth => by
      refine .parens _ fun depth => ?_
      have hsign : countDepth depth (Token.sign s).shown = .ok depth := by cases s <;> rfl
      exact (refuses_token hsign).append (refuses_tokens s.precedence operand h depth)
  | bin left op right, h => fun depth => by
      obtain ⟨hleft, hright⟩ := List.forall_mem_append.mp h
      refine .parens _ fun depth => ?_
      have hop : Refuses depth [.op op] [] := refuses_token rfl
      exact (refuses_tokens op.precedence left hleft depth).append
        (hop.append (refuses_tokens op.precedence right hright depth))
  | call f args, h => fun depth => by
      obtain ⟨hf, hargs⟩ := List.forall_mem_cons.mp h
      exact (refuses_name hf depth).append (refuses_tokensOfArgs args hargs depth).group

/-- The commas between arguments find the parenthesis of the call open. -/
theorem refuses_tokensOfArgs :
    (as : List Expr) → (∀ f ∈ callNamesOfArgs as, isNumber f.toList = false) →
      ∀ depth, Refuses (depth + 1) (tokensOfArgs as) (callNamesOfArgs as)
  | [], _ => fun depth => refuses_nil (depth + 1)
  | [a], h => fun depth => by
      rw [callNamesOfArgs, callNamesOfArgs, List.append_nil]
      exact refuses_tokens 0 a (List.forall_mem_append.mp h).1 (depth + 1)
  | a :: b :: bs, h => fun depth => by
      obtain ⟨ha, hrest⟩ := List.forall_mem_append.mp h
      have hcomma : Refuses (depth + 1) [.comma] [] := refuses_token rfl
      exact (refuses_tokens 0 a ha (depth + 1)).append
        (hcomma.append (refuses_tokensOfArgs (b :: bs) hrest depth))

end

/-! ### The fault -/

/-- The marks on the signs make no difference to the depth. -/
theorem checkDepth_ofText (reading : SignReading) (text : String) :
    checkDepth (Token.ofText reading text) = checkDepth (scan text.toList) := by
  cases reading with
  | byPosition =>
      have hunmarked := checkDepth_map_unsigned (Token.ofText .byPosition text)
      rw [map_unsigned_ofText] at hunmarked
      exact hunmarked.symm
  | alwaysBinary => rfl

theorem toRpn_eq_error {reading : SignReading} {text : String} {fault : Fault}
    (h : checkDepth (scan text.toList) = .error fault) :
    ReversePolish.toRpn reading text = .error fault := by
  have hrun := map_run start (Token.ofText reading text)
  rw [ReversePolish.toRpn, convert]
  rw [show start.depth = 0 from rfl, ← checkDepth, checkDepth_ofText, h] at hrun
  cases hresult : start.takeAll (Token.ofText reading text) >>= finish with
  | error fault' =>
      rw [hresult] at hrun
      rw [Except.error.inj hrun]
      rfl
  | ok out =>
      rw [hresult] at hrun
      cases hrun

theorem toRpn_readable_of_find {e : Expr} {f : String}
    (hnames : ∀ g ∈ e.callNames, IsFragment g.toList ∧ isNumber g.toList = false)
    (hf : (e.callNames.find? fun g => !isIdentifier g.toList) = some f) (reading : SignReading)
    (outside : Nat) :
    ReversePolish.toRpn reading (e.readable outside) = .error (.unknownToken f) := by
  refine toRpn_eq_error ?_
  have hcount := refuses_tokens outside e (fun g hg => (hnames g hg).2) 0
  rw [scan_readable outside fun g hg => (hnames g hg).1, checkDepth, hcount, refuse, hf]
  rfl

/--
**The first name that is no identifier is the fault**, verbatim.

First in the order in which one reads: a name before those in its arguments, operands and
arguments from left to right.  What stands before the name is taken without a fault, so no
parenthesis and no comma is ever reported.  The place that the infix notation is made for
and the reading of its signs make no difference.
-/
theorem toRpn_readable_unknownName {e : Expr}
    (hnames : ∀ f ∈ e.callNames, IsFragment f.toList ∧ isNumber f.toList = false)
    (hunknown : ∃ f ∈ e.callNames, isIdentifier f.toList = false) :
    ∃ f, (e.callNames.find? fun g => !isIdentifier g.toList) = some f ∧
      ReversePolish.toRpn .byPosition e.toInfix = .error (.unknownToken f) ∧
      ∀ reading outside,
        ReversePolish.toRpn reading (e.readable outside) = .error (.unknownToken f) := by
  obtain ⟨g, hg, hgunknown⟩ := hunknown
  have hsome : (e.callNames.find? fun f => !isIdentifier f.toList).isSome = true :=
    List.find?_isSome.mpr ⟨g, hg, by simp [hgunknown]⟩
  obtain ⟨f, hf⟩ := Option.isSome_iff_exists.mp hsome
  exact ⟨f, hf, toRpn_readable_of_find hnames hf .byPosition 0, toRpn_readable_of_find hnames hf⟩

/-- The first name is an identifier, the second has a blank inside, and the third would be refused
as well. -/
theorem toRpn_readable_unknownName_nested :
    (∀ f ∈ ["f", "x\u00a0y", "2x"], IsFragment f.toList ∧ isNumber f.toList = false) ∧
      ReversePolish.toRpn .byPosition "(f(1) + 2) ^ (-x\u00a0y(3, 2x(4)))"
        = .error (.unknownToken "x\u00a0y") := by
  have hfragment {cs : List Char} (hinner : cs.all Token.isInner = true)
      (hfirst : cs.head?.any (!Text.isBlank ·) = true)
      (hlast : cs.getLast?.any (!Text.isBlank ·) = true) : IsFragment cs :=
    ⟨List.all_eq_true.mp hinner, by simpa [Option.any_eq_true] using hfirst,
      by simpa [Option.any_eq_true] using hlast⟩
  have hnames : ∀ f ∈ ["f", "x\u00a0y", "2x"], IsFragment f.toList ∧ isNumber f.toList = false := by
    simp only [List.forall_mem_cons, List.not_mem_nil, false_implies, implies_true, and_true]
    exact ⟨⟨hfragment rfl rfl rfl, rfl⟩, ⟨hfragment rfl rfl rfl, rfl⟩, ⟨hfragment rfl rfl rfl, rfl⟩⟩
  obtain ⟨f, hf, hfault, -⟩ := toRpn_readable_unknownName
    (e := .bin (.bin (.call "f" [.num 1]) .add (.num 2)) .power
      (.sign .minus (.call "x\u00a0y" [.num 3, .call "2x" [.num 4]])))
    hnames ⟨"x\u00a0y", by decide, by decide⟩
  obtain rfl : "x\u00a0y" = f := Option.some.inj hf
  exact ⟨hnames, hfault⟩

end Expr

end ReversePolish
