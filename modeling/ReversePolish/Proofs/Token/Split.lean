/-
Cutting a text is splitting it at the delimiters.

The tokens of a text are taken off its front one by one, each with the blanks before it.
There is another way to say what they are, for the text as a whole: split it at every
delimiter, keep the delimiters, trim the pieces between them at both ends, drop those that
are empty, and look at the characters of each of the others to tell what it is.
`splitTokens` is this description, and it gives the same tokens for every text.

What the two have in common is that a delimiter parts a text in two that have nothing to do
with each other (`scan_append_delimiter`, `splitTokens_append`).  So it remains to see what
a piece without a delimiter is cut into (`scan_piece`), and that is at most one token.
-/
import Mathlib.Data.List.DropRight
import ReversePolish.Proofs.Token.Lexing

namespace ReversePolish.Token

open Text

/-! ### Splitting and trimming -/

/-- The delimiters and their tokens. -/
def delimiterTokens : List (Char × Token) :=
  [('+', op .add), ('-', op .subtract), ('*', op .multiply), ('/', op .divide), ('^', op .power),
    ('(', lparen), (')', rparen), (',', comma)]

def isDecimal (c : Char) : Bool := '0' ≤ c && c ≤ '9'

def isLetter (c : Char) : Bool := 'a' ≤ c && c ≤ 'z' || 'A' ≤ c && c ≤ 'Z' || c = '_'

/-- The token of a piece in which there is something: a number has decimals only, and a name
letters and decimals with a letter first. -/
def pieceToken (piece : List Char) : Token :=
  if piece.all isDecimal then number (String.ofList piece)
  else if piece.head?.any isLetter && piece.all (fun c => isLetter c || isDecimal c) then
    name (String.ofList piece)
  else illegal (String.ofList piece)

/-- The tokens of a piece between two delimiters: one, or none if nothing is left of it. -/
def pieceTokens (piece : List Char) : List Token :=
  match (piece.dropWhile isBlank).rdropWhile isBlank with
  | [] => []
  | c :: cs => [pieceToken (c :: cs)]

/-- The tokens of the pieces of a text, with the delimiters between them. -/
def splitTokens (cs : List Char) : List Token :=
  let pieces := cs.splitOnP fun c => (delimiterTokens.lookup c).isSome
  let between := cs.filterMap fun c => delimiterTokens.lookup c
  (List.zipWith (· ++ ·) (pieces.map pieceTokens) (between.map ([·]) ++ [[]])).flatten

/-! ### The characters -/

theorem lookup_delimiterTokens (c : Char) : delimiterTokens.lookup c = delimiter? c := by
  unfold delimiter?
  split
  case h_9 =>
    rw [List.lookup_eq_none_iff]
    simp_all [delimiterTokens]
  all_goals rfl

theorem delimiter?_of_mem : ∀ entry ∈ delimiterTokens, delimiter? entry.1 = some entry.2 := by
  decide

theorem isDecimal_eq (c : Char) : isDecimal c = c.isDigit := by
  simp [isDecimal, Char.isDigit, Char.le_def]

theorem isLetter_eq (c : Char) : isLetter c = isNameStart c := by
  unfold isLetter isNameStart Char.isAlpha Char.isUpper Char.isLower
  simp only [Char.le_def, ge_iff_le, Bool.decide_and]
  rw [Bool.or_comm (decide _ && decide _)]

theorem isLetter_or_isDecimal (c : Char) : (isLetter c || isDecimal c) = isNamePart c := by
  rw [isLetter_eq, isDecimal_eq, Bool.eq_iff_iff, isNamePart_iff, Bool.or_eq_true]

theorem pieceToken_cons (c : Char) (cs : List Char) :
    pieceToken (c :: cs) = ofFragment (c :: cs) := by
  have hnumber : (c :: cs).all isDecimal = isNumber (c :: cs) := by
    simp [isNumber, funext isDecimal_eq]
  have hname : ((c :: cs).head?.any isLetter && (c :: cs).all fun d => isLetter d || isDecimal d)
      = isIdentifier (c :: cs) := by
    rw [funext isLetter_or_isDecimal, List.head?_cons, Option.any_some, List.all_cons,
      isLetter_eq, isIdentifier]
    by_cases hstart : isNameStart c = true
    · simp [hstart, isNamePart_iff.mpr (Or.inl hstart)]
    · simp [hstart]
  unfold pieceToken ofFragment
  rw [hnumber, hname]

/-! ### A text without delimiters -/

theorem delimiter?_of_isInner {c : Char} (h : isInner c = true) : delimiter? c = none := by
  simpa [isInner] using h

theorem splitTokens_piece {piece : List Char} (h : ∀ c ∈ piece, isInner c = true) :
    splitTokens piece = pieceTokens piece := by
  have hnone : ∀ c ∈ piece, delimiter? c = none := fun c hc => delimiter?_of_isInner (h c hc)
  have hsplit : piece.splitOnP (fun c => (delimiter? c).isSome) = [piece] := by
    refine List.splitOnP_eq_singleton fun c hc => ?_
    simp [hnone c hc]
  have hbetween : piece.filterMap (fun c => delimiter? c) = [] := by
    simpa using hnone
  simp [splitTokens, lookup_delimiterTokens, hsplit, hbetween]

/-- **A text without delimiters is at most one token**, and what is trimmed does not belong to it. -/
theorem scan_piece {piece : List Char} (h : ∀ c ∈ piece, isInner c = true) :
    scan piece = pieceTokens piece := by
  obtain ⟨gap, text, rfl, hgap, htext⟩ := exists_cut isBlank piece
  have htrim : ((gap ++ text).dropWhile isBlank).rdropWhile isBlank = trimEnd text := by
    rw [dropWhile_cut hgap htext]
    rfl
  rw [scan_gap_append text hgap]
  unfold pieceTokens
  rw [htrim]
  cases text with
  | nil => exact scan_gap isGap_nil
  | cons c cs =>
      have hinner : ∀ d ∈ c :: cs, isInner d = true := by
        intro d hd
        exact h d (List.mem_append_right gap hd)
      obtain ⟨gap', hcut, hgap', hfrag⟩ :=
        exists_gap_of_trimEnd hinner ⟨c, rfl, htext c rfl⟩
      have hend : ∀ d ∈ ([] : List Char).head?, isInner d = false := by simp
      have hnext := next_fragment hfrag hgap' hend
      rw [List.append_nil, ← hcut] at hnext
      rw [scan_of_next hnext hfrag.isLexical_ofFragment.ne_eof, scan_gap isGap_nil]
      obtain ⟨d, ds, hd⟩ : ∃ d ds, trimEnd (c :: cs) = d :: ds := by
        obtain ⟨d, hd, -⟩ := hfrag.first
        obtain ⟨ds, hds⟩ := List.head?_eq_some_iff.mp hd
        exact ⟨d, ds, hds⟩
      simp only [hd, pieceToken_cons]

/-! ### A delimiter in a text -/

section Delimiter

variable {c : Char} {t : Token}

theorem splitTokens_append {piece : List Char} (rest : List Char)
    (h : ∀ d ∈ piece, isInner d = true) (hc : delimiter? c = some t) :
    splitTokens (piece ++ c :: rest) = pieceTokens piece ++ t :: splitTokens rest := by
  have hnone : ∀ d ∈ piece, delimiter? d = none := fun d hd => delimiter?_of_isInner (h d hd)
  have hsplit : (piece ++ c :: rest).splitOnP (fun c => (delimiter? c).isSome)
      = piece :: rest.splitOnP fun c => (delimiter? c).isSome := by
    refine List.splitOnP_append_cons_of_forall_mem (fun d hd => ?_) c (by simp [hc]) rest
    simp [hnone d hd]
  have hbetween : (piece ++ c :: rest).filterMap (fun c => delimiter? c)
      = t :: rest.filterMap fun c => delimiter? c := by
    have hpiece : piece.filterMap (fun c => delimiter? c) = [] := by
      simpa using hnone
    simp [hpiece, hc]
  simp [splitTokens, lookup_delimiterTokens, hsplit, hbetween]

/-- **A delimiter parts a text in two**, which are cut on their own. -/
theorem scan_append_delimiter (before behind : List Char) (hc : delimiter? c = some t) :
    scan (before ++ c :: behind) = scan before ++ t :: scan behind := by
  obtain ⟨hlex, hword, hspelling⟩ := isLexical_of_delimiter hc
  have hwrites := (writes_scan before).append (writes_cons t (writes_scan behind))
  rw [hspelling, List.singleton_append] at hwrites
  refine scan_of_writes hwrites ?_ ?_
  · intro u hu
    rcases List.mem_append.mp hu with hu | hu
    · exact isLexical_scan before u hu
    · rcases List.mem_cons.mp hu with rfl | hu
      · exact hlex
      · exact isLexical_scan behind u hu
  · refine List.isChain_append.mpr ⟨isChain_scan before, ?_, ?_⟩
    · exact List.isChain_cons.mpr ⟨fun u _ => Or.inl hword, isChain_scan behind⟩
    · intro u _ v hv
      rw [List.head?_cons, Option.mem_some_iff] at hv
      exact Or.inr (hv ▸ hword)

end Delimiter

/-! ### All tokens -/

/-- Piece after piece, both ways of cutting give the same. -/
theorem scan_eq_splitTokens (cs : List Char) : scan cs = splitTokens cs := by
  induction hn : cs.length using Nat.strong_induction_on generalizing cs with
  | _ n ih =>
      obtain ⟨piece, rest, rfl, hpiece, hrest⟩ := exists_cut isInner cs
      cases rest with
      | nil => rw [List.append_nil, scan_piece hpiece, splitTokens_piece hpiece]
      | cons c rest =>
          obtain ⟨t, hc⟩ : ∃ t, delimiter? c = some t := by
            refine Option.isSome_iff_exists.mp ?_
            simpa [isInner] using hrest c rfl
          have hlength : rest.length < n := by
            simp only [List.length_append, List.length_cons] at hn
            omega
          rw [scan_append_delimiter piece rest hc, splitTokens_append rest hpiece hc,
            scan_piece hpiece, ih rest.length hlength rest rfl]

/--
**The tokens of a text are what is left of its pieces**, and the delimiters between them.

In particular a text with a delimiter in it has the tokens of what stands before the
delimiter, then the delimiter, and then the tokens of what stands behind it.
-/
theorem ofText_eq_splitTokens :
    (∀ text : String, ofText .alwaysBinary text = splitTokens text.toList) ∧
      ∀ before behind : String, ∀ entry ∈ delimiterTokens,
        ofText .alwaysBinary (before ++ String.singleton entry.1 ++ behind)
          = ofText .alwaysBinary before ++ entry.2 :: ofText .alwaysBinary behind := by
  refine ⟨fun text => scan_eq_splitTokens text.toList, fun before behind entry hentry => ?_⟩
  have hscan := scan_append_delimiter before.toList behind.toList (delimiter?_of_mem entry hentry)
  show scan (before ++ String.singleton entry.1 ++ behind).toList
    = scan before.toList ++ entry.2 :: scan behind.toList
  simpa using hscan

/-- Blanks that are not ASCII are trimmed, the ones inside a piece stay, and empty pieces go. -/
theorem ofText_eq_splitTokens_blanks :
    (',', Token.comma) ∈ delimiterTokens ∧
      ofText .alwaysBinary ("\u00a0x1 *( 3\u20284 " ++ String.singleton ',' ++ " \t-007")
        = [.name "x1", .op .multiply, .lparen, .illegal "3\u20284", .comma, .op .subtract,
          .number "007"] := by
  have hcomma : (',', Token.comma) ∈ delimiterTokens := by decide
  refine ⟨hcomma, ?_⟩
  rw [ofText_eq_splitTokens.2 _ _ _ hcomma, ofText_eq_splitTokens.1, ofText_eq_splitTokens.1]
  decide

end ReversePolish.Token
