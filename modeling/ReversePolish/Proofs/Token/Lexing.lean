/-
What any text is cut into, and which lists of tokens come out of it.

`Writes` says which texts stand for given tokens, and cutting such a text gives the
tokens back.  Here is the other direction: whatever a text holds, it writes the
tokens it is cut into, each of these carries what a token of its kind has to carry,
and no two fragments end up side by side.  The two directions together say exactly
which lists a text can have (`exists_ofText_iff`) and which texts have a given list.

`next` skips, reads and trims.  `Cuts` says the same of a text that is already taken
apart, in three ways: nothing but blanks, a delimiter, or a fragment with blanks
around it that ends at a delimiter or at the end.
-/
import ReversePolish.Proofs.Token.Spelling

namespace ReversePolish.Token

open Text

/-! ### Fragments are trimmed -/

/-- What is trimmed away are blanks, and what is left of an inner run is a fragment. -/
theorem exists_gap_of_trimEnd {cs : List Char} (hinner : ∀ c ∈ cs, isInner c = true)
    (hfirst : ∃ c ∈ cs.head?, isBlank c = false) :
    ∃ gap, cs = trimEnd cs ++ gap ∧ IsGap isBlank gap ∧ IsFragment (trimEnd cs) := by
  obtain ⟨blanks, kept, hcut, hblanks, hkept⟩ := exists_cut isBlank cs.reverse
  have htrim : trimEnd cs = kept.reverse := by
    rw [trimEnd, hcut, dropWhile_cut hblanks hkept]
  have hcs : cs = kept.reverse ++ blanks.reverse := by
    rw [← List.reverse_append, ← hcut, List.reverse_reverse]
  obtain ⟨c, hc, hblank⟩ := hfirst
  have hne : kept ≠ [] := by
    rintro rfl
    rw [hcs] at hc
    have hmem : c ∈ blanks := by simpa using List.mem_of_mem_head? hc
    rw [hblanks c hmem] at hblank
    exact Bool.noConfusion hblank
  refine ⟨blanks.reverse, by rw [htrim, ← hcs], fun d hd => hblanks d (List.mem_reverse.mp hd), ?_⟩
  rw [htrim]
  refine ⟨fun d hd => hinner d ?_, ⟨c, ?_, hblank⟩, ⟨kept.head hne, ?_, hkept _ ?_⟩⟩
  · rw [hcs]
    exact List.mem_append_left _ hd
  · rwa [hcs, List.head?_append_of_ne_nil _ (by simpa using hne)] at hc
  · rw [List.getLast?_reverse]
    exact List.head?_eq_some_head hne
  · exact List.head?_eq_some_head hne

/-! ### The token of a fragment -/

theorem spelling_ofFragment (cs : List Char) : (ofFragment cs).spelling.toList = cs := by
  unfold ofFragment
  split
  · exact String.toList_ofList
  · split <;> exact String.toList_ofList

theorem IsFragment.isLexical_ofFragment {cs : List Char} (h : IsFragment cs) :
    (ofFragment cs).IsLexical := by
  unfold ofFragment
  split
  case isTrue hnum => simpa [IsLexical] using hnum
  case isFalse hnum =>
    split
    case isTrue hid => simpa [IsLexical] using hid
    case isFalse hid => simp [IsLexical, h, hnum, hid]

theorem isLexical_of_delimiter {c : Char} {t : Token} (h : delimiter? c = some t) :
    t.IsLexical ∧ t.isWord = false ∧ t.spelling.toList = [c] := by
  unfold delimiter? at h
  split at h
  case h_9 => exact absurd h (by simp)
  all_goals
    obtain rfl := Option.some.inj h
    exact ⟨trivial, rfl, rfl⟩

/-! ### One token -/

/-- The token at the front of a text, and the text behind it. -/
inductive Cuts : List Char → Token → List Char → Prop
  | finish {gap : List Char} (hgap : IsGap isBlank gap) : Cuts gap eof []
  | delimiter {gap : List Char} {c : Char} {t : Token} (rest : List Char) (hgap : IsGap isBlank gap)
      (h : delimiter? c = some t) : Cuts (gap ++ c :: rest) t rest
  | fragment {gap cs gap' rest : List Char} (hgap : IsGap isBlank gap) (hcs : IsFragment cs)
      (hgap' : IsGap isBlank gap') (hrest : ∀ c ∈ rest.head?, isInner c = false) :
      Cuts (gap ++ (cs ++ (gap' ++ rest))) (ofFragment cs) rest

/-- **A text is cut in one of the three ways.** -/
theorem cuts_next (cs : List Char) : Cuts cs (next cs).1 (next cs).2 := by
  obtain ⟨gap, text, rfl, hgap, htext⟩ := exists_cut isBlank cs
  rw [next_gap_append text hgap]
  cases text with
  | nil =>
      rw [List.append_nil]
      exact .finish hgap
  | cons c tail =>
      have hblank : isBlank c = false := htext c rfl
      cases hdelim : delimiter? c with
      | some t =>
          rw [next_delimiter tail hdelim]
          exact .delimiter tail hgap hdelim
      | none =>
          obtain ⟨run, rest, hcut, hrun, hrest⟩ := exists_cut isInner (c :: tail)
          -- The run starts with `c`, since `c` is no delimiter.
          have hfirst : ∃ d ∈ run.head?, isBlank d = false := by
            cases run with
            | nil =>
                have hc := hrest c (by rw [List.nil_append] at hcut; rw [← hcut]; rfl)
                simp [isInner, hdelim] at hc
            | cons d run =>
                obtain ⟨rfl, -⟩ := List.cons.inj hcut
                exact ⟨c, rfl, hblank⟩
          obtain ⟨gap', hrun', hgap', hfrag⟩ := exists_gap_of_trimEnd hrun hfirst
          have htail : c :: tail = trimEnd run ++ (gap' ++ rest) := by
            rw [← List.append_assoc, ← hrun', hcut]
          rw [htail, next_fragment hfrag hgap' hrest]
          exact .fragment hgap hfrag hgap' hrest

section Cuts

variable {cs rest : List Char} {t : Token}

theorem Cuts.isGap (h : Cuts cs t rest) (ht : t = eof) : IsGap isBlank cs := by
  cases h with
  | finish hgap => exact hgap
  | delimiter rest hgap hdelim => exact absurd ht (isLexical_of_delimiter hdelim).1.ne_eof
  | fragment hgap hfrag hgap' hrest => exact absurd ht hfrag.isLexical_ofFragment.ne_eof

theorem Cuts.isLexical (h : Cuts cs t rest) (ht : t ≠ eof) : t.IsLexical := by
  cases h with
  | finish hgap => exact absurd rfl ht
  | delimiter rest hgap hdelim => exact (isLexical_of_delimiter hdelim).1
  | fragment hgap hfrag hgap' hrest => exact hfrag.isLexical_ofFragment

/-- What is cut off a text is written at its front. -/
theorem Cuts.writes {ts : List Token} (h : Cuts cs t rest) (ht : t ≠ eof) (hrest : Writes ts rest) :
    Writes (t :: ts) cs := by
  cases h with
  | finish hgap => exact absurd rfl ht
  | @delimiter gap c t rest hgap hdelim =>
      have hw := Writes.cons t hgap hrest
      rwa [(isLexical_of_delimiter hdelim).2.2, List.append_assoc] at hw
  | @fragment gap cs gap' rest hgap hfrag hgap' hend =>
      have hw := Writes.cons (ofFragment cs) hgap (hrest.gap_append hgap')
      rwa [spelling_ofFragment, List.append_assoc] at hw

/-- Behind a fragment the text goes on with a delimiter, if it goes on at all. -/
theorem Cuts.head_isInner (h : Cuts cs t rest) (ht : t.isWord = true) :
    ∀ c ∈ rest.head?, isInner c = false := by
  cases h with
  | finish hgap => exact Bool.noConfusion ht
  | delimiter rest hgap hdelim =>
      rw [(isLexical_of_delimiter hdelim).2.1] at ht
      exact Bool.noConfusion ht
  | fragment hgap hfrag hgap' hrest => exact hrest

end Cuts

/-! ### All tokens -/

/-- A text that starts with a delimiter starts with a token that is no fragment. -/
theorem isWord_head_scan {cs : List Char} (h : ∀ c ∈ cs.head?, isInner c = false) :
    ∀ t ∈ (scan cs).head?, t.isWord = false := by
  cases cs with
  | nil =>
      rw [scan_gap isGap_nil]
      simp
  | cons c rest =>
      have hc : isInner c = false := h c rfl
      obtain ⟨t, ht⟩ := Option.isSome_iff_exists.mp (by simpa [isInner] using hc)
      obtain ⟨hlex, hword, -⟩ := isLexical_of_delimiter ht
      rw [scan_of_next (next_delimiter rest ht) hlex.ne_eof]
      rintro u hu
      obtain rfl := Option.some.inj hu
      exact hword

theorem writes_scan (cs : List Char) : Writes (scan cs) cs := by
  fun_induction scan cs with
  | case1 cs rest hnext =>
      have hcut := cuts_next cs
      rw [hnext] at hcut
      exact .nil (hcut.isGap rfl)
  | case2 cs t rest hnext ht ih =>
      have hcut := cuts_next cs
      rw [hnext] at hcut
      exact hcut.writes ht ih

theorem isLexical_scan (cs : List Char) : ∀ t ∈ scan cs, t.IsLexical := by
  fun_induction scan cs with
  | case1 cs rest hnext => simp
  | case2 cs t rest hnext ht ih =>
      have hcut := cuts_next cs
      rw [hnext] at hcut
      exact List.forall_mem_cons.mpr ⟨hcut.isLexical ht, ih⟩

theorem isChain_scan (cs : List Char) : (scan cs).IsChain Separate := by
  fun_induction scan cs with
  | case1 cs rest hnext => exact .nil
  | case2 cs t rest hnext ht ih =>
      have hcut := cuts_next cs
      rw [hnext] at hcut
      refine List.isChain_cons.mpr ⟨fun u hu => ?_, ih⟩
      by_cases hword : t.isWord = true
      · exact Or.inr (isWord_head_scan (hcut.head_isInner hword) u hu)
      · exact Or.inl (Bool.not_eq_true _ ▸ hword)

/-- **Being cut into tokens and writing them are the same**, for tokens that a text can have. -/
theorem scan_eq_iff {cs : List Char} {ts : List Token} :
    scan cs = ts ↔ ((∀ t ∈ ts, t.IsLexical) ∧ ts.IsChain Separate) ∧ Writes ts cs := by
  constructor
  · rintro rfl
    exact ⟨⟨isLexical_scan cs, isChain_scan cs⟩, writes_scan cs⟩
  · rintro ⟨⟨hlex, hsep⟩, hw⟩
    exact scan_of_writes hw hlex hsep

theorem exists_writes (ts : List Token) : ∃ text : String, Writes ts text.toList := by
  have hw := writes_flatMap (ts.map fun t => ([], t)) (by simp [isGap_nil])
  rw [List.map_map, show (Prod.snd ∘ fun t => (([] : List Char), t)) = id from rfl,
    List.map_id] at hw
  exact ⟨String.ofList _, by rwa [String.toList_ofList]⟩

/--
**Which lists of tokens texts are cut into, and which texts are cut into a given list.**

If every `+` and `-` is an operator, a list of tokens comes out of some text exactly
if its numbers, names and illegal fragments are what they have to be and no two of
them are neighbours; and then it comes out of just those texts that write the tokens
in order, with any blanks before, between and behind them.
-/
theorem exists_ofText_iff (ts : List Token) :
    ((∃ text, ofText .alwaysBinary text = ts) ↔
        (∀ t ∈ ts, t.IsLexical) ∧ ts.IsChain Separate) ∧
      ∀ text, ofText .alwaysBinary text = ts ↔
        ((∀ t ∈ ts, t.IsLexical) ∧ ts.IsChain Separate) ∧ Writes ts text.toList := by
  have htexts (text : String) : ofText .alwaysBinary text = ts ↔
      ((∀ t ∈ ts, t.IsLexical) ∧ ts.IsChain Separate) ∧ Writes ts text.toList := scan_eq_iff
  refine ⟨⟨?_, ?_⟩, htexts⟩
  · rintro ⟨text, htext⟩
    exact ((htexts text).mp htext).1
  · intro hts
    obtain ⟨text, hw⟩ := exists_writes ts
    exact ⟨text, (htexts text).mpr ⟨hts, hw⟩⟩

/-- A no-break space inside a fragment stays and a line break around it goes; two fragments side
by side are not what any text is cut into. -/
theorem exists_ofText_iff_blanks :
    ofText .alwaysBinary "\n x1-3\u00a04 ,("
        = [.name "x1", .op .subtract, .illegal "3\u00a04", .comma, .lparen] ∧
      ¬ ∃ text, ofText .alwaysBinary text = [.number "3", .number "4"] := by
  have hlex : ∀ t ∈ [Token.name "x1", .op .subtract, .illegal "3\u00a04", .comma, .lparen],
      t.IsLexical := by
    have hfrag : IsFragment ['3', '\u00a0', '4'] :=
      ⟨List.all_eq_true.mp rfl, ⟨'3', rfl, rfl⟩, ⟨'4', rfl, rfl⟩⟩
    simp only [List.forall_mem_cons, IsLexical, List.not_mem_nil, false_implies, implies_true]
    exact ⟨by decide, trivial, ⟨hfrag, by decide, by decide⟩, trivial, trivial, trivial⟩
  have hw := writes_flatMap
    [(['\n', ' '], .name "x1"), ([], .op .subtract), ([], .illegal "3\u00a04"), ([' '], .comma),
      ([], .lparen)] (by simp [IsGap]; decide)
  refine ⟨((exists_ofText_iff _).2 _).mpr ⟨⟨hlex, ?_⟩, hw⟩, fun h => ?_⟩
  · simp [Separate, isWord]
  · have hsep := ((exists_ofText_iff _).1.mp h).2
    simp [Separate, isWord] at hsep

end ReversePolish.Token
