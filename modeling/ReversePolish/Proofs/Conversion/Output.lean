/-
What the text of an output tells about the output.

An output is a list of tokens, and what a caller gets is their texts with single spaces
between them.  Nothing is lost by that, but only because of three things which happen in
three places: cutting a text gives numbers and names no other payloads than digits and
identifiers (`isLexical_unsigned`), parentheses and commas never reach the output, and a
fragment that is neither a number nor a name is refused before anything is returned
(`Reaches.illegal_notMem`).  Together they say that every token of an output can stand in an
output (`isWritten_of_convert`), whatever the text was, and from then on the tokens are read
back from the text alone (`ofJoined_joined`).
-/
import ReversePolish.Proofs.Conversion.Readings
import ReversePolish.Proofs.Token.Joined

namespace ReversePolish

namespace Token

/-! ### The pieces of a text -/

/-- What a text is split into at its spaces; the empty text has nothing in it. -/
def pieces (rpn : String) : List String :=
  if rpn = "" then [] else (rpn.toList.splitOn ' ').map String.ofList

/-- What may stand between two spaces of an output. -/
def IsPiece (piece : String) : Prop :=
  isNumber piece.toList = true ∨ isIdentifier piece.toList = true ∨
    piece ∈ ["+", "-", "*", "/", "^", "un+", "un-"]

theorem IsWritten.isPiece {t : Token} (h : t.IsWritten) : IsPiece t.text := by
  cases t with
  | number digits => exact Or.inl h
  | name ident => exact Or.inr (Or.inl h)
  | op o => cases o <;> exact Or.inr (Or.inr (by decide))
  | sign s => cases s <;> exact Or.inr (Or.inr (by decide))
  | lparen | rparen | comma | eof | illegal _ => exact h.elim

theorem clean_of_isNamePart {c : Char} (h : isNamePart c = true) :
    Text.isBlank c = false ∧ c ∉ ['(', ')', ','] := by
  refine ⟨isBlank_of_isNamePart h, ?_⟩
  intro hmem
  simp only [List.mem_cons, List.not_mem_nil, or_false] at hmem
  rcases hmem with rfl | rfl | rfl <;> exact absurd h (by decide)

/-- A piece is not empty, and it could not be taken for two pieces or for a grouping token. -/
theorem IsPiece.clean {piece : String} (h : IsPiece piece) :
    piece ≠ "" ∧ ∀ c ∈ piece.toList, Text.isBlank c = false ∧ c ∉ ['(', ')', ','] := by
  rcases h with hnumber | hident | hmem
  · refine ⟨?_, fun c hc => clean_of_isNamePart (isNamePart_of_isNumber hnumber c hc)⟩
    rintro rfl
    exact absurd hnumber (by decide)
  · refine ⟨?_, fun c hc => clean_of_isNamePart (isNamePart_of_isIdentifier hident c hc)⟩
    rintro rfl
    exact absurd hident (by decide)
  · have hall : ∀ spelling ∈ ["+", "-", "*", "/", "^", "un+", "un-"], spelling ≠ "" ∧
        (spelling.toList.all fun c => !Text.isBlank c && c ∉ ['(', ')', ',']) = true := by decide
    obtain ⟨hne, hchars⟩ := hall piece hmem
    refine ⟨hne, ?_⟩
    intro c hc
    simpa using List.all_eq_true.mp hchars c hc

variable {ts us : List Token}

/-- **The pieces of an output are the texts of its tokens**, one piece for each token. -/
theorem pieces_joined (h : ∀ t ∈ ts, t.IsWritten) : pieces (joined ts) = ts.map text := by
  have hempty : joined ts = "" ↔ ts = [] := by
    rw [← joined_eq_empty_iff h, String.toList_eq_nil_iff]
  unfold pieces
  by_cases hne : ts = []
  · rw [if_pos (hempty.mpr hne), hne]
    rfl
  · rw [if_neg (mt hempty.mp hne), splitOn_joined h hne, List.map_map]
    simp [Function.comp_def]

theorem joined_eq_joined_iff (h : ∀ t ∈ ts, t.IsWritten) (h' : ∀ t ∈ us, t.IsWritten) :
    joined ts = joined us ↔ ts = us := by
  constructor
  · intro heq
    rw [← ofJoined_joined h, heq, ofJoined_joined h']
  · intro heq
    rw [heq]

/-! ### The tokens of a text -/

/-- What a text is cut into carries what it has to, and a sign carries nothing. -/
theorem isLexical_unsigned {reading : SignReading} {text : String} {t : Token}
    (h : t ∈ ofText reading text) : t.unsigned.IsLexical := by
  have hmem : t.unsigned ∈ (ofText reading text).map unsigned := List.mem_map_of_mem h
  cases reading with
  | byPosition =>
      rw [Conversion.map_unsigned_ofText] at hmem
      exact isLexical_scan text.toList _ hmem
  | alwaysBinary =>
      have hlex := isLexical_scan text.toList t h
      rw [unsigned_of_ne_sign]
      · exact hlex
      · rintro s rfl
        exact hlex

/-- What neither groups nor is refused can stand in an output. -/
theorem isWritten_of_isLexical {t : Token} (h : t.unsigned.IsLexical)
    (hgroup : t.isGrouping = false) (hillegal : ∀ fragment, t ≠ illegal fragment) :
    t.IsWritten := by
  cases t with
  | number _ | name _ => exact h
  | op _ | sign _ => trivial
  | lparen | rparen | comma => exact absurd hgroup (by decide)
  | eof => exact h.elim
  | illegal fragment => exact absurd rfl (hillegal fragment)

end Token

namespace Conversion

open Token

/-! ### The tokens of an output -/

theorem Step.ne_illegal {c c' : Conversion} {t : Token} (h : Step c t c') (fragment : String) :
    t ≠ .illegal fragment := by
  rintro rfl
  exact absurd h.take_eq (by simp [take])

theorem Reaches.illegal_notMem {ts : List Token} {c : Conversion} (h : Reaches ts c)
    (fragment : String) : Token.illegal fragment ∉ ts := by
  induction h with
  | start => exact List.not_mem_nil
  | step _ hs ih =>
      intro hmem
      rcases List.mem_append.mp hmem with hmem | hmem
      · exact ih hmem
      · exact hs.ne_illegal fragment (List.mem_singleton.mp hmem).symm

/-- **Whatever a text is, its output has nothing in it but numbers, names, operators and signs.** -/
theorem isWritten_of_convert {reading : SignReading} {text : String} {out : List Token}
    (h : convert (ofText reading text) = .ok out) : ∀ t ∈ out, t.IsWritten := by
  intro t ht
  obtain ⟨c, hrun, -, -⟩ := convert_eq_ok_iff.mp h
  have hmem := (perm_of_convert h).mem_iff.mp ht
  obtain ⟨hinput, hgroup⟩ := List.mem_filter.mp hmem
  refine isWritten_of_isLexical (isLexical_unsigned hinput) (by simpa using hgroup) ?_
  rintro fragment rfl
  exact hrun.illegal_notMem fragment hinput

theorem toRpn_eq_ok_iff {reading : SignReading} {text rpn : String} :
    toRpn reading text = .ok rpn ↔
      ∃ out, convert (ofText reading text) = .ok out ∧ rpn = joined out := by
  unfold toRpn
  cases convert (ofText reading text) with
  | error fault => simp [Functor.map, Except.map]
  | ok out => simp [Functor.map, Except.map, eq_comm]

/--
**The text of an output shows the output.**

Two texts that convert, under whatever readings, have the same output if what is returned for
them is the same.  What is returned splits at its spaces into the texts of the tokens, each of
which is a number, a name, an operator or a sign, without a blank, a parenthesis or a comma in
it.
-/
theorem toRpn_shows_tokens {reading reading' : SignReading} {text text' rpn rpn' : String}
    (h : toRpn reading text = .ok rpn) (h' : toRpn reading' text' = .ok rpn') :
    ∃ out out', convert (ofText reading text) = .ok out ∧
      convert (ofText reading' text') = .ok out' ∧
      (rpn = rpn' ↔ out = out') ∧
      pieces rpn = out.map Token.text ∧
      ∀ piece ∈ pieces rpn, IsPiece piece ∧ piece ≠ "" ∧
        ∀ c ∈ piece.toList, Text.isBlank c = false ∧ c ∉ ['(', ')', ','] := by
  obtain ⟨out, hout, rfl⟩ := toRpn_eq_ok_iff.mp h
  obtain ⟨out', hout', rfl⟩ := toRpn_eq_ok_iff.mp h'
  have hwritten := isWritten_of_convert hout
  have hpieces := pieces_joined hwritten
  refine ⟨out, out', hout, hout', joined_eq_joined_iff hwritten (isWritten_of_convert hout'),
    hpieces, ?_⟩
  intro piece hpiece
  rw [hpieces] at hpiece
  obtain ⟨t, ht, rfl⟩ := List.mem_map.mp hpiece
  have hpiece := (hwritten t ht).isPiece
  exact ⟨hpiece, hpiece.clean⟩

/-- A sign and the name `un` before an operator, in texts that are no expressions. -/
theorem toRpn_shows_tokens_malformed :
    toRpn .byPosition "(2) un -" = .ok "2 un -" ∧ toRpn .byPosition "2 - -" = .ok "2 un- -" ∧
      convert (ofText .byPosition "(2) un -") ≠ convert (ofText .byPosition "2 - -") ∧
      pieces "2 un -" = ["2", "un", "-"] ∧ ∀ piece ∈ ["2", "un", "-"], IsPiece piece := by
  have hname : toRpn .byPosition "(2) un -" = .ok "2 un -" := by decide +kernel
  have hsign : toRpn .byPosition "2 - -" = .ok "2 un- -" := by decide +kernel
  obtain ⟨out, out', hout, hout', hiff, -, hpiece⟩ := toRpn_shows_tokens hname hsign
  have hpieces : pieces "2 un -" = ["2", "un", "-"] := by decide
  refine ⟨hname, hsign, ?_, hpieces, ?_⟩
  · rw [hout, hout']
    intro heq
    exact absurd (hiff.mpr (Except.ok.inj heq)) (by decide)
  · intro piece hmem
    rw [← hpieces] at hmem
    exact (hpiece piece hmem).1

end Conversion

end ReversePolish
