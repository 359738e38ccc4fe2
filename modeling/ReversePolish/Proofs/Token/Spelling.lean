/-
What a text that writes given tokens is cut into.

`Writes ts cs` says that the text `cs` is the tokens `ts` in order, each as it is
spelled, with any blanks before, between and behind them.  One list of tokens has
many such texts, and `scan` takes them all back to the list (`scan_of_writes`), as
long as the tokens are ones that a text can have in it and no two fragments are
neighbours: `3` and `4` side by side are `34`, or with a blank between them the one
illegal fragment `3 4`.

A sign is spelled like the operator it looks like, so what `scan` gives back of a
text with signs is `unsigned`; the signs are told apart later.
-/
import Mathlib.Data.List.Chain
import ReversePolish.Proofs.Cut
import ReversePolish.Token.Sign

namespace ReversePolish.Token

open Text

/-- The token as it stands in a text. -/
def spelling : Token → String
  | number digits => digits
  | name ident => ident
  | op o => o.symbol
  | sign s => s.symbol
  | lparen => "("
  | rparen => ")"
  | comma => ","
  | eof => ""
  | illegal fragment => fragment

/-- The text is the tokens in order, with gaps before, between and behind them. -/
inductive Writes : List Token → List Char → Prop
  | nil {gap : List Char} (hgap : IsGap isBlank gap) : Writes [] gap
  | cons {gap cs : List Char} {ts : List Token} (t : Token) (hgap : IsGap isBlank gap)
      (h : Writes ts cs) : Writes (t :: ts) (gap ++ t.spelling.toList ++ cs)

theorem Writes.gap_append {gap cs : List Char} {ts : List Token} (hgap : IsGap isBlank gap)
    (h : Writes ts cs) : Writes ts (gap ++ cs) := by
  cases h with
  | nil hgap' => exact .nil (hgap.append hgap')
  | @cons gap' cs ts t hgap' h =>
      rw [← List.append_assoc, ← List.append_assoc]
      exact .cons t (hgap.append hgap') h

theorem Writes.append {ts us : List Token} {cs ds : List Char} (h : Writes ts cs)
    (h' : Writes us ds) : Writes (ts ++ us) (cs ++ ds) := by
  induction h with
  | nil hgap => exact h'.gap_append hgap
  | cons t hgap _ ih =>
      rw [List.append_assoc]
      exact .cons t hgap ih

/-- A text does not show which of two tokens that are spelled alike it has in it. -/
theorem Writes.map {g : Token → Token} (hg : ∀ t, (g t).spelling = t.spelling) {ts : List Token}
    {cs : List Char} (h : Writes ts cs) : Writes (ts.map g) cs := by
  induction h with
  | nil hgap => exact .nil hgap
  | cons t hgap _ ih =>
      rw [← hg t]
      exact .cons (g t) hgap ih

theorem writes_cons (t : Token) {ts : List Token} {cs : List Char} (h : Writes ts cs) :
    Writes (t :: ts) (t.spelling.toList ++ cs) := .cons t isGap_nil h

theorem writes_token (t : Token) : Writes [t] t.spelling.toList := by
  have h := writes_cons t (.nil isGap_nil)
  rwa [List.append_nil] at h

theorem writes_flatMap (l : List (List Char × Token)) (h : ∀ p ∈ l, IsGap isBlank p.1) :
    Writes (l.map (·.2)) (l.flatMap fun p => p.1 ++ p.2.spelling.toList) := by
  induction l with
  | nil => exact .nil isGap_nil
  | cons p rest ih =>
      exact .cons p.2 (h p List.mem_cons_self) (ih fun q hq => h q (List.mem_cons_of_mem p hq))

/-! ### Characters -/

/-- The characters that are tokens on their own. -/
def delimiters : List Char := ['+', '-', '*', '/', '^', '(', ')', ',']

theorem isInner_of_notMem {c : Char} (h : c ∉ delimiters) : isInner c = true := by
  unfold isInner delimiter?
  split <;> simp_all [delimiters]

theorem isInner_of_class {p : Char → Bool} {c : Char} (hp : delimiters.any p = false)
    (h : p c = true) : isInner c = true := by
  refine isInner_of_notMem fun hc => ?_
  exact List.any_eq_false.mp hp c hc h

theorem isInner_of_isBlank {c : Char} (h : isBlank c = true) : isInner c = true :=
  isInner_of_class rfl h

theorem isInner_of_isNamePart {c : Char} (h : isNamePart c = true) : isInner c = true :=
  isInner_of_class rfl h

theorem toNat_of_isNameStart {c : Char} (h : isNameStart c = true) :
    (65 ≤ c.toNat ∧ c.toNat ≤ 90) ∨ (97 ≤ c.toNat ∧ c.toNat ≤ 122) ∨ c.toNat = 95 := by
  unfold isNameStart at h
  rcases Bool.or_eq_true_iff.mp h with halpha | hunderscore
  · rcases Bool.or_eq_true_iff.mp halpha with hupper | hlower
    · exact Or.inl (of_decide_eq_true hupper)
    · obtain ⟨hlow, hhigh⟩ := Bool.and_eq_true_iff.mp hlower
      exact Or.inr (Or.inl ⟨of_decide_eq_true hlow, of_decide_eq_true hhigh⟩)
  · rw [of_decide_eq_true hunderscore]
    exact Or.inr (Or.inr rfl)

theorem toNat_of_isDigit {c : Char} (h : c.isDigit = true) : 48 ≤ c.toNat ∧ c.toNat ≤ 57 :=
  Char.isDigit_iff_toNat.mp h

theorem isNamePart_iff {c : Char} :
    isNamePart c = true ↔ isNameStart c = true ∨ c.isDigit = true := by
  simp only [isNamePart, isNameStart, Char.isAlphanum, Bool.or_eq_true]
  tauto

theorem isBlank_of_isNamePart {c : Char} (h : isNamePart c = true) : isBlank c = false := by
  by_contra hblank
  have hrange : c.toNat ≤ 32 ∨ 133 ≤ c.toNat := by
    simp [isBlank, blankRanges] at hblank
    omega
  rcases isNamePart_iff.mp h with h | h
  · have hletter := toNat_of_isNameStart h
    omega
  · have hdigit := toNat_of_isDigit h
    omega

theorem isDigit_of_isNameStart {c : Char} (h : isNameStart c = true) : c.isDigit = false := by
  by_contra hdigit
  have hletter := toNat_of_isNameStart h
  have hrange := toNat_of_isDigit (Bool.not_eq_false _ ▸ hdigit)
  omega

/-! ### Fragments -/

/-- What may stand between two delimiters, without the blanks around it. -/
structure IsFragment (cs : List Char) : Prop where
  /-- It has no delimiter in it. -/
  inner : ∀ c ∈ cs, isInner c = true
  /-- It is not empty, and does not start with a blank. -/
  first : ∃ c ∈ cs.head?, isBlank c = false
  /-- It does not end with a blank. -/
  last : ∃ c ∈ cs.getLast?, isBlank c = false

theorem IsFragment.ne_nil {cs : List Char} (h : IsFragment cs) : cs ≠ [] := by
  rintro rfl
  obtain ⟨c, hc, -⟩ := h.first
  exact absurd hc nofun

theorem isFragment_of_isNamePart {cs : List Char} (hne : cs ≠ [])
    (h : ∀ c ∈ cs, isNamePart c = true) : IsFragment cs where
  inner c hc := isInner_of_isNamePart (h c hc)
  first := ⟨cs.head hne, List.head?_eq_some_head hne,
    isBlank_of_isNamePart (h _ (List.head_mem hne))⟩
  last := ⟨cs.getLast hne, List.getLast?_eq_some_getLast hne,
    isBlank_of_isNamePart (h _ (List.getLast_mem hne))⟩

theorem isNumber_repr (n : Nat) : isNumber n.repr.toList = true := by
  rw [Nat.toList_repr]
  unfold isNumber
  rw [Bool.and_eq_true, Bool.not_eq_true', List.isEmpty_eq_false_iff, List.all_eq_true]
  refine ⟨Nat.toDigits_ne_nil, ?_⟩
  intro c hc
  exact Nat.isDigit_of_mem_toDigits (by decide) (by decide) hc

theorem isNamePart_of_isNumber {cs : List Char} (h : isNumber cs = true) :
    ∀ c ∈ cs, isNamePart c = true := by
  simp only [isNumber, Bool.and_eq_true, List.all_eq_true] at h
  exact fun c hc => isNamePart_iff.mpr (Or.inr (h.2 c hc))

theorem isNamePart_of_isIdentifier {cs : List Char} (h : isIdentifier cs = true) :
    ∀ c ∈ cs, isNamePart c = true := by
  cases cs with
  | nil => simp [isIdentifier] at h
  | cons c cs =>
      simp only [isIdentifier, Bool.and_eq_true, List.all_eq_true] at h
      exact List.forall_mem_cons.mpr ⟨isNamePart_iff.mpr (Or.inl h.1), h.2⟩

theorem isFragment_of_isNumber {cs : List Char} (h : isNumber cs = true) : IsFragment cs := by
  refine isFragment_of_isNamePart ?_ (isNamePart_of_isNumber h)
  rintro rfl
  exact absurd h (by decide)

theorem isFragment_of_isIdentifier {cs : List Char} (h : isIdentifier cs = true) :
    IsFragment cs := by
  refine isFragment_of_isNamePart ?_ (isNamePart_of_isIdentifier h)
  rintro rfl
  exact absurd h (by decide)

theorem isNumber_of_isIdentifier {cs : List Char} (h : isIdentifier cs = true) :
    isNumber cs = false := by
  cases cs with
  | nil => rfl
  | cons c cs =>
      simp only [isIdentifier, Bool.and_eq_true] at h
      simp [isNumber, isDigit_of_isNameStart h.1]

/-! ### Tokens that a text can have in it -/

/-- What a token has to carry if it is to be read back from a text. -/
def IsLexical : Token → Prop
  | number digits => isNumber digits.toList = true
  | name ident => isIdentifier ident.toList = true
  | illegal fragment =>
      IsFragment fragment.toList ∧ isNumber fragment.toList = false ∧
        isIdentifier fragment.toList = false
  | op _ | lparen | rparen | comma => True
  | sign _ | eof => False

/-- Whether a token is a fragment, and not a delimiter. -/
def isWord : Token → Bool
  | number _ | name _ | illegal _ => true
  | _ => false

/-- A fragment is read as the token that it spells. -/
theorem IsLexical.ofFragment_spelling {t : Token} (h : t.IsLexical) (hword : t.isWord = true) :
    IsFragment t.spelling.toList ∧ ofFragment t.spelling.toList = t := by
  cases t with
  | number digits =>
      have hnum : isNumber digits.toList = true := h
      exact ⟨isFragment_of_isNumber hnum, by simp [ofFragment, spelling, hnum]⟩
  | name ident =>
      have hid : isIdentifier ident.toList = true := h
      have hnum := isNumber_of_isIdentifier hid
      exact ⟨isFragment_of_isIdentifier hid, by simp [ofFragment, spelling, hid, hnum]⟩
  | illegal fragment =>
      obtain ⟨hfrag, hnum, hid⟩ := h
      exact ⟨hfrag, by simp [ofFragment, spelling, hid, hnum]⟩
  | op _ | sign _ | lparen | rparen | comma | eof => simp [isWord] at hword

theorem IsLexical.exists_delimiter {t : Token} (h : t.IsLexical) (hword : t.isWord = false) :
    ∃ c, t.spelling.toList = [c] ∧ delimiter? c = some t := by
  cases t with
  | op o => cases o <;> exact ⟨_, rfl, rfl⟩
  | lparen | rparen | comma => exact ⟨_, rfl, rfl⟩
  | sign _ | eof => exact absurd h id
  | number _ | name _ | illegal _ => simp [isWord] at hword

theorem IsLexical.ne_eof {t : Token} (h : t.IsLexical) : t ≠ eof := by
  rintro rfl
  exact h

/-! ### The next token -/

theorem next_gap_append {gap : List Char} (cs : List Char) (hgap : IsGap isBlank gap) :
    next (gap ++ cs) = next cs := by
  rw [next, List.dropWhile_append_of_pos hgap, ← next]

theorem next_delimiter {c : Char} {t : Token} (cs : List Char) (h : delimiter? c = some t) :
    next (c :: cs) = (t, cs) := by
  have hblank : isBlank c = false := by
    by_contra hc
    have hinner := isInner_of_isBlank (Bool.not_eq_false _ ▸ hc)
    simp [isInner, h] at hinner
  rw [next, List.dropWhile_cons_of_neg (by simp [hblank])]
  simp [h]

/-- The blanks behind a fragment do not belong to it. -/
theorem trimEnd_append {cs gap : List Char} (hcs : IsFragment cs) (hgap : IsGap isBlank gap) :
    trimEnd (cs ++ gap) = cs := by
  obtain ⟨c, hc, hblank⟩ := hcs.last
  rw [trimEnd, List.reverse_append, dropWhile_cut, List.reverse_reverse]
  · exact fun d hd => hgap d (List.mem_reverse.mp hd)
  · intro d hd
    rw [List.head?_reverse] at hd
    obtain rfl := Option.mem_unique hd hc
    exact hblank

/-- **A fragment is read up to the next delimiter, or the end of the text.** -/
theorem next_fragment {cs gap rest : List Char} (hcs : IsFragment cs) (hgap : IsGap isBlank gap)
    (hrest : ∀ c ∈ rest.head?, isInner c = false) :
    next (cs ++ (gap ++ rest)) = (ofFragment cs, rest) := by
  have hinner : ∀ c ∈ cs ++ gap, isInner c = true := by
    intro c hc
    rcases List.mem_append.mp hc with hc | hc
    · exact hcs.inner c hc
    · exact isInner_of_isBlank (hgap c hc)
  obtain ⟨c, hc, hblank⟩ := hcs.first
  obtain ⟨tail, rfl⟩ := List.head?_eq_some_iff.mp hc
  have htake := takeWhile_cut hinner hrest
  have hdrop := dropWhile_cut hinner hrest
  have hdelim : delimiter? c = none := Option.isNone_iff_eq_none.mp (hcs.inner c (by simp))
  rw [List.append_assoc] at htake hdrop
  rw [next, List.cons_append, List.dropWhile_cons_of_neg (by simp [hblank])]
  simp only [hdelim]
  rw [← List.cons_append, htake, hdrop, trimEnd_append hcs hgap]

/-! ### All tokens -/

theorem scan_of_next {cs rest : List Char} {t : Token} (h : next cs = (t, rest)) (ht : t ≠ eof) :
    scan cs = t :: scan rest := by
  rw [scan]
  split
  rename_i t' rest' h'
  obtain ⟨rfl, rfl⟩ := Prod.mk.inj (h'.symm.trans h)
  rw [dif_neg ht]

theorem scan_of_next_eof {cs rest : List Char} (h : next cs = (eof, rest)) : scan cs = [] := by
  rw [scan]
  split
  rename_i t' rest' h'
  obtain ⟨rfl, rfl⟩ := Prod.mk.inj (h'.symm.trans h)
  rw [dif_pos rfl]

theorem scan_gap_append {gap : List Char} (cs : List Char) (hgap : IsGap isBlank gap) :
    scan (gap ++ cs) = scan cs := by
  by_cases hend : (next cs).1 = eof
  · have hnext : next cs = (eof, (next cs).2) := Prod.ext hend rfl
    rw [scan_of_next_eof hnext, scan_of_next_eof ((next_gap_append cs hgap).trans hnext)]
  · rw [scan_of_next rfl hend, scan_of_next (next_gap_append cs hgap) hend]

theorem scan_gap {gap : List Char} (hgap : IsGap isBlank gap) : scan gap = [] := by
  have h := scan_gap_append [] hgap
  rw [List.append_nil] at h
  rw [h]
  exact scan_of_next_eof rfl

/-- Two tokens that may stand side by side. -/
def Separate (t u : Token) : Prop := t.isWord = false ∨ u.isWord = false

/-- Behind a fragment there are blanks, and then a delimiter or nothing. -/
theorem Writes.exists_gap {ts : List Token} {cs : List Char} (h : Writes ts cs)
    (hlex : ∀ t ∈ ts, t.IsLexical) (hhead : ∀ t ∈ ts.head?, t.isWord = false) :
    ∃ gap rest, cs = gap ++ rest ∧ IsGap isBlank gap ∧ ∀ c ∈ rest.head?, isInner c = false := by
  cases h with
  | nil hgap => exact ⟨cs, [], (List.append_nil cs).symm, hgap, by simp⟩
  | @cons gap cs ts t hgap h =>
      obtain ⟨c, hc, hdelim⟩ := (hlex t (by simp)).exists_delimiter (hhead t rfl)
      refine ⟨gap, c :: cs, by simp [hc], hgap, ?_⟩
      intro d hd
      obtain rfl : c = d := by simpa using hd
      simp [isInner, hdelim]

/-- **A text that writes tokens is cut into just these tokens.** -/
theorem scan_of_writes {ts : List Token} {cs : List Char} (h : Writes ts cs)
    (hlex : ∀ t ∈ ts, t.IsLexical) (hsep : ts.IsChain Separate) : scan cs = ts := by
  induction h with
  | nil hgap => exact scan_gap hgap
  | @cons gap cs ts t hgap h ih =>
      have hlex' : ∀ u ∈ ts, u.IsLexical := fun u hu => hlex u (List.mem_cons_of_mem _ hu)
      have ht : t.IsLexical := hlex t List.mem_cons_self
      obtain ⟨hnext, hsep'⟩ := List.isChain_cons.mp hsep
      have hscan := ih hlex' hsep'
      rw [List.append_assoc, scan_gap_append _ hgap]
      by_cases hword : t.isWord = true
      · -- The fragment runs on over the blanks behind it, up to the delimiter of the next token.
        obtain ⟨hfrag, hof⟩ := ht.ofFragment_spelling hword
        have hhead : ∀ u ∈ ts.head?, u.isWord = false := by
          intro u hu
          rcases hnext u hu with h | h
          · simp [hword] at h
          · exact h
        obtain ⟨gap', rest, rfl, hgap', hrest⟩ := h.exists_gap hlex' hhead
        rw [scan_gap_append _ hgap'] at hscan
        rw [scan_of_next (next_fragment hfrag hgap' hrest) (by rw [hof]; exact ht.ne_eof), hof,
          hscan]
      · obtain ⟨c, hc, hdelim⟩ := ht.exists_delimiter (Bool.not_eq_true _ ▸ hword)
        rw [hc, List.singleton_append, scan_of_next (next_delimiter cs hdelim) ht.ne_eof, hscan]

end ReversePolish.Token
