/-
How the tokens of JSON are spelled, and which texts are cut into given tokens.

A mark or a literal has one spelling and a number brings its own along, but a string
has many, since any character of it may be escaped.  `Writes ts cs` says that the text
`cs` spells the tokens `ts` in order, with blanks anywhere around them, and
`scan?_of_writes` that such a text is cut into just these tokens.

A number or a literal goes on as long as there are characters that it could have in it,
so two of them must not be neighbours.  What stops them is a border: a blank, a mark or
the end of the text.
-/
import Mathlib.Data.List.Chain
import ReversePolish.Json.Lexer
import ReversePolish.Proofs.Cut

namespace ReversePolish.Json

/-! ### The characters of numbers -/

/-- The text goes on with `rest` behind some characters of a number. -/
def GoesOn (cs rest : List Char) : Prop :=
  ∃ part, cs = part ++ rest ∧ ∀ c ∈ part, isNumberChar c = true

theorem GoesOn.refl (cs : List Char) : GoesOn cs cs := ⟨[], rfl, by simp⟩

theorem GoesOn.cons {c : Char} {cs rest : List Char} (hc : isNumberChar c = true)
    (h : GoesOn cs rest) : GoesOn (c :: cs) rest := by
  obtain ⟨part, rfl, hpart⟩ := h
  exact ⟨c :: part, rfl, List.forall_mem_cons.mpr ⟨hc, hpart⟩⟩

theorem GoesOn.trans {cs ds es : List Char} (h : GoesOn cs ds) (h' : GoesOn ds es) :
    GoesOn cs es := by
  obtain ⟨part, rfl, hpart⟩ := h
  obtain ⟨part', rfl, hpart'⟩ := h'
  exact ⟨part ++ part', (List.append_assoc ..).symm, List.forall_mem_append.mpr ⟨hpart, hpart'⟩⟩

theorem isNumberChar_of_isDigit {c : Char} (h : c.isDigit = true) : isNumberChar c = true := by
  rw [isNumberChar, h, Bool.true_or]

theorem goesOn_afterDigits {cs rest : List Char} (h : afterDigits? cs = some rest) :
    GoesOn cs rest := by
  cases cs with
  | nil => exact absurd h.symm (Option.some_ne_none _)
  | cons c cs =>
      simp only [afterDigits?] at h
      split at h
      case isFalse => exact absurd h.symm (Option.some_ne_none _)
      case isTrue hc =>
        obtain rfl := Option.some.inj h
        refine .cons (isNumberChar_of_isDigit hc) ⟨cs.takeWhile Char.isDigit, ?_, fun d hd => ?_⟩
        · exact List.takeWhile_append_dropWhile.symm
        · exact isNumberChar_of_isDigit (List.all_eq_true.mp List.all_takeWhile d hd)

theorem goesOn_afterMinus (cs : List Char) : GoesOn cs (afterMinus cs) := by
  unfold afterMinus
  split
  · exact .cons rfl (.refl _)
  · exact .refl _

theorem goesOn_afterWhole {cs rest : List Char} (h : afterWhole? cs = some rest) :
    GoesOn cs rest := by
  unfold afterWhole? at h
  split at h
  · obtain rfl := Option.some.inj h
    exact .cons rfl (.refl _)
  · exact goesOn_afterDigits h

theorem goesOn_afterFraction {cs rest : List Char} (h : afterFraction? cs = some rest) :
    GoesOn cs rest := by
  unfold afterFraction? at h
  split at h
  · exact .cons rfl (goesOn_afterDigits h)
  · obtain rfl := Option.some.inj h
    exact .refl _

theorem goesOn_afterSign (cs : List Char) : GoesOn cs (afterSign cs) := by
  unfold afterSign
  split
  · exact .cons rfl (.refl _)
  · exact .cons rfl (.refl _)
  · exact .refl _

theorem goesOn_afterExponent {cs rest : List Char} (h : afterExponent? cs = some rest) :
    GoesOn cs rest := by
  unfold afterExponent? at h
  split at h
  · exact .cons rfl ((goesOn_afterSign _).trans (goesOn_afterDigits h))
  · exact .cons rfl ((goesOn_afterSign _).trans (goesOn_afterDigits h))
  · obtain rfl := Option.some.inj h
    exact .refl _

theorem isNumberChar_of_isNumber {cs : List Char} (h : isNumber cs = true) :
    ∀ c ∈ cs, isNumberChar c = true := by
  simp only [isNumber, beq_iff_eq, Option.bind_eq_bind, Option.bind_eq_some_iff] at h
  obtain ⟨fraction, ⟨whole, hwhole, hfraction⟩, hexponent⟩ := h
  obtain ⟨part, rfl, hpart⟩ := (((goesOn_afterMinus cs).trans (goesOn_afterWhole hwhole)).trans
    (goesOn_afterFraction hfraction)).trans (goesOn_afterExponent hexponent)
  rwa [List.append_nil]

/-! ### Spellings -/

/-- The characters that one place of a string may be spelled with. -/
inductive Piece.Spelled : Piece → List Char → Prop
  | plain {c : Char} (hquote : c ≠ '"') (hslash : c ≠ '\\') (hspace : ¬ c < ' ') :
      Spelled (.char c) [c]
  | escape {e c : Char} (h : escape? e = some c) : Spelled (.char c) ['\\', e]
  | code {x y z w : Char} {n : Nat} (h : code? x y z w = some n) :
      Spelled (.ofCode n) ['\\', 'u', x, y, z, w]

/-- The characters that a string may be spelled with, between its quotes. -/
inductive Content : List Piece → List Char → Prop
  | nil : Content [] []
  | cons {p : Piece} {ps : List Piece} {cs ds : List Char} (hp : p.Spelled cs)
      (h : Content ps ds) : Content (p :: ps) (cs ++ ds)

namespace Token

/-- Whether a token is a mark: a bracket, a comma or a colon. -/
def isMark : Token → Bool
  | openArray | closeArray | openObject | closeObject | comma | colon => true
  | null | bool _ | number _ | string _ => false

/-- The characters that a token may be spelled with. -/
inductive Spelled : Token → List Char → Prop
  | mark {t : Token} (h : t.isMark = true) : Spelled t t.spelling
  | null : Spelled null (spelling null)
  | bool (b : Bool) : Spelled (bool b) (spelling (bool b))
  | number {cs : List Char} (h : isNumber cs = true) : Spelled (number cs) cs
  | string {content : List Piece} {body : List Char} (h : Content content body) :
      Spelled (string content) ('"' :: (body ++ ['"']))

/-- Two tokens that may stand side by side. -/
def Separate (t u : Token) : Prop := t.isMark = true ∨ u.isMark = true

end Token

/-- The text spells the tokens in order, with gaps before, between and behind them. -/
inductive Writes : List Token → List Char → Prop
  | nil {gap : List Char} (hgap : IsGap isSpace gap) : Writes [] gap
  | cons {gap cs ds : List Char} {t : Token} {ts : List Token} (hgap : IsGap isSpace gap)
      (ht : t.Spelled cs) (h : Writes ts ds) : Writes (t :: ts) (gap ++ (cs ++ ds))

theorem writes_flatMap (l : List (List Char × Token))
    (h : ∀ p ∈ l, IsGap isSpace p.1 ∧ p.2.Spelled p.2.spelling) :
    Writes (l.map (·.2)) (l.flatMap fun p => p.1 ++ p.2.spelling) := by
  induction l with
  | nil => exact .nil isGap_nil
  | cons p rest ih =>
      obtain ⟨⟨hgap, ht⟩, hrest⟩ := List.forall_mem_cons.mp h
      rw [List.map_cons, List.flatMap_cons, List.append_assoc]
      exact .cons hgap ht (ih hrest)

/-! ### The next token -/

/-- What stops a number or a literal. -/
def isBorder (c : Char) : Bool := isSpace c || c ∈ ['[', ']', '\x7b', '\x7d', ',', ':']

theorem isBorder_of_isSpace {c : Char} (h : isSpace c = true) : isBorder c = true := by
  rw [isBorder, h, Bool.true_or]

theorem isNumberChar_of_isBorder {c : Char} (h : isBorder c = true) :
    isNumberChar c = false ∧ c.isAlpha = false := by
  simp only [isBorder, isSpace, Bool.or_eq_true, decide_eq_true_eq, List.mem_cons,
    List.not_mem_nil, or_false] at h
  rcases h with (((rfl | rfl) | rfl) | rfl) | rfl | rfl | rfl | rfl | rfl | rfl <;> decide

theorem Token.exists_border {t : Token} (h : t.isMark = true) :
    ∃ c, t.spelling = [c] ∧ isBorder c = true ∧ isSpace c = false ∧
      ∀ rest, next? c rest = some (t, rest) := by
  cases t with
  | openArray | closeArray | openObject | closeObject | comma | colon =>
      exact ⟨_, rfl, rfl, rfl, fun _ => rfl⟩
  | null | bool _ | number _ | string _ => exact absurd h nofun

section String

variable {rest tail : List Char} {ps : List Piece}

theorem string?_quote (rest : List Char) : string? ('"' :: rest) = some ([], rest) := by
  unfold string?
  rw [if_pos rfl]

theorem string?_plain {c : Char} (hquote : c ≠ '"') (hslash : c ≠ '\\') (hspace : ¬ c < ' ')
    (h : string? rest = some (ps, tail)) : string? (c :: rest) = some (.char c :: ps, tail) := by
  unfold string?
  rw [if_neg hquote, if_neg hslash, if_neg hspace, h]
  rfl

theorem string?_escape {e c : Char} (he : escape? e = some c)
    (h : string? rest = some (ps, tail)) :
    string? ('\\' :: e :: rest) = some (.char c :: ps, tail) := by
  have hu : e ≠ 'u' := by
    rintro rfl
    exact absurd he nofun
  rw [string?, if_neg (by decide), if_pos rfl, he, h]
  · rfl
  · intro x y z w rest' hcode
    exact absurd hcode hu

theorem string?_code {x y z w : Char} {n : Nat} (hcode : code? x y z w = some n)
    (h : string? rest = some (ps, tail)) :
    string? ('\\' :: 'u' :: x :: y :: z :: w :: rest) = some (.ofCode n :: ps, tail) := by
  rw [string?, if_neg (by decide), if_pos rfl, hcode, h]
  rfl

end String

theorem string?_of_content {ps : List Piece} {body : List Char} (h : Content ps body)
    (rest : List Char) : string? (body ++ '"' :: rest) = some (ps, rest) := by
  induction h with
  | nil => exact string?_quote rest
  | cons hp _ ih =>
      cases hp with
      | plain hquote hslash hspace => exact string?_plain hquote hslash hspace ih
      | escape he => exact string?_escape he ih
      | code hcode => exact string?_code hcode ih

/-- A number is read up to a border. -/
theorem next?_number {c : Char} {cs rest : List Char} (h : isNumber (c :: cs) = true)
    (hrest : ∀ d ∈ rest.head?, isBorder d = true) :
    next? c (cs ++ rest) = some (.number (c :: cs), rest) := by
  obtain ⟨hc, hcs⟩ := List.forall_mem_cons.mp (isNumberChar_of_isNumber h)
  have hend : ∀ d ∈ rest.head?, isNumberChar d = false :=
    fun d hd => (isNumberChar_of_isBorder (hrest d hd)).1
  unfold next?
  split
  case h_8 =>
    rw [if_pos hc, takeWhile_cut hcs hend, dropWhile_cut hcs hend, number?, if_pos h]
    rfl
  all_goals exact absurd hc (by decide)

theorem next?_literal {t : Token} {c : Char} {cs rest : List Char}
    (hliteral : literal? (c :: cs) = some t) (hc : c ∈ ['n', 't', 'f'])
    (hcs : cs.all Char.isAlpha = true) (hrest : ∀ d ∈ rest.head?, isBorder d = true) :
    next? c (cs ++ rest) = some (t, rest) := by
  have hletters : ∀ d ∈ cs, d.isAlpha = true := List.all_eq_true.mp hcs
  have hend : ∀ d ∈ rest.head?, d.isAlpha = false :=
    fun d hd => (isNumberChar_of_isBorder (hrest d hd)).2
  have hnumber : isNumberChar c = false := by
    simp only [List.mem_cons, List.not_mem_nil, or_false] at hc
    rcases hc with rfl | rfl | rfl <;> rfl
  unfold next?
  split
  case h_8 =>
    rw [hnumber, if_neg Bool.false_ne_true, takeWhile_cut hletters hend,
      dropWhile_cut hletters hend, hliteral]
    rfl
  all_goals exact absurd hc (by decide)

/-- **A token is read off the front of a text**, if nothing follows that it could go on with. -/
theorem Token.Spelled.next? {t : Token} {cs rest : List Char} (h : t.Spelled cs)
    (hrest : t.isMark = false → ∀ c ∈ rest.head?, isBorder c = true) :
    ∃ c tail, cs = c :: tail ∧ isSpace c = false ∧
      Json.next? c (tail ++ rest) = some (t, rest) := by
  cases h with
  | mark hmark =>
      obtain ⟨c, hc, -, hspace, hnext⟩ := Token.exists_border hmark
      exact ⟨c, [], hc, hspace, hnext rest⟩
  | null =>
      exact ⟨'n', ['u', 'l', 'l'], rfl, rfl,
        next?_literal rfl (by decide) rfl (hrest rfl)⟩
  | bool b =>
      cases b with
      | true =>
          exact ⟨'t', ['r', 'u', 'e'], rfl, rfl,
            next?_literal rfl (by decide) rfl (hrest rfl)⟩
      | false =>
          exact ⟨'f', ['a', 'l', 's', 'e'], rfl, rfl,
            next?_literal rfl (by decide) rfl (hrest rfl)⟩
  | number hnumber =>
      cases cs with
      | nil => exact absurd hnumber (by decide)
      | cons c tail =>
          refine ⟨c, tail, rfl, ?_, next?_number hnumber (hrest rfl)⟩
          have hc := isNumberChar_of_isNumber hnumber c List.mem_cons_self
          by_contra hspace
          have hborder := isBorder_of_isSpace (Bool.not_eq_false _ ▸ hspace)
          rw [(isNumberChar_of_isBorder hborder).1] at hc
          exact Bool.noConfusion hc
  | @string content body hbody =>
      refine ⟨'"', body ++ ['"'], rfl, rfl, ?_⟩
      have hread := string?_of_content hbody rest
      rw [List.append_assoc]
      show (string? (body ++ '"' :: rest) >>= _) = _
      rw [hread]
      rfl

/-! ### All tokens -/

theorem scan?_space {c : Char} (rest : List Char) (h : isSpace c = true) :
    scan? (c :: rest) = scan? rest := by
  rw [scan?, if_pos h]

theorem scan?_of_next {c : Char} {rest rest' : List Char} {t : Token} (hspace : isSpace c = false)
    (h : next? c rest = some (t, rest')) :
    scan? (c :: rest) = (t :: ·) <$> scan? rest' := by
  rw [scan?, hspace, if_neg Bool.false_ne_true]
  split
  · rename_i hnone
    exact absurd (h.symm.trans hnone) (Option.some_ne_none _)
  · rename_i t' rest'' hsome
    obtain ⟨rfl, rfl⟩ := Prod.mk.inj (Option.some.inj (h.symm.trans hsome))
    rfl

theorem scan?_gap_append {gap : List Char} (cs : List Char) (hgap : IsGap isSpace gap) :
    scan? (gap ++ cs) = scan? cs := by
  induction gap with
  | nil => rfl
  | cons c gap ih =>
      obtain ⟨hc, hgap'⟩ := List.forall_mem_cons.mp hgap
      rw [List.cons_append, scan?_space _ hc, ih hgap']

/-- Where a mark or nothing comes next, there is a border. -/
theorem Writes.head_isBorder {ts : List Token} {cs : List Char} (h : Writes ts cs)
    (hhead : ∀ t ∈ ts.head?, t.isMark = true) : ∀ c ∈ cs.head?, isBorder c = true := by
  cases h with
  | nil hgap => exact fun c hc => isBorder_of_isSpace (hgap c (List.mem_of_mem_head? hc))
  | @cons gap cs ds t ts hgap ht h =>
      intro c hc
      cases gap with
      | cons d gap =>
          obtain rfl := Option.some.inj hc
          exact isBorder_of_isSpace (hgap _ List.mem_cons_self)
      | nil =>
          cases ht with
          | mark hmark =>
              obtain ⟨d, hd, hborder, -, -⟩ := Token.exists_border hmark
              rw [hd] at hc
              obtain rfl := Option.some.inj hc
              exact hborder
          | null | bool | number | string => exact absurd (hhead _ rfl) nofun

/-- **A text that spells tokens is cut into just these tokens.** -/
theorem scan?_of_writes {ts : List Token} {cs : List Char} (h : Writes ts cs)
    (hsep : ts.IsChain Token.Separate) : scan? cs = some ts := by
  induction h with
  | @nil gap hgap =>
      have hscan := scan?_gap_append [] hgap
      rw [List.append_nil] at hscan
      rw [hscan, scan?]
  | @cons gap cs ds t ts hgap ht h ih =>
      obtain ⟨hnext, hsep'⟩ := List.isChain_cons.mp hsep
      have hborder : t.isMark = false → ∀ c ∈ ds.head?, isBorder c = true := by
        intro hmark
        refine h.head_isBorder fun u hu => ?_
        rcases hnext u hu with htrue | htrue
        · rw [hmark] at htrue
          exact Bool.noConfusion htrue
        · exact htrue
      obtain ⟨c, tail, rfl, hspace, hread⟩ := ht.next? hborder
      rw [scan?_gap_append _ hgap, List.cons_append, scan?_of_next hspace hread, ih hsep']
      rfl

end ReversePolish.Json
