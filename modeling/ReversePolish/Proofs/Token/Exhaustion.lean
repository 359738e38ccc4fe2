/-
A text is used up token by token, and then for good.

Taking a token off a text skips the blanks before it and reads on from there, so it might
come to nothing and leave the text as it was.  It does not: a delimiter is a character, and
a fragment starts with one that is neither blank nor a delimiter, so that neither reading it
nor trimming it can leave it empty (`Cuts.exists_taken`).  Only where nothing but blanks is
left there is no token, and behind that there never is one again.

So the number of tokens is bounded by the number of characters, and whoever asks for more
tokens than there are gets `eof` for each of them, but not before (`firstTokens_eq`).
-/
import ReversePolish.Proofs.Token.Lexing

namespace ReversePolish.Token

open Text

/-! ### One token -/

/-- What is cut off a text has a character in it. -/
theorem Cuts.exists_taken {cs rest : List Char} {t : Token} (h : Cuts cs t rest) (ht : t ≠ eof) :
    ∃ taken, taken ≠ [] ∧ cs = taken ++ rest := by
  cases h with
  | finish hgap => exact absurd rfl ht
  | @delimiter gap c t rest hgap hdelim => exact ⟨gap ++ [c], by simp, by simp⟩
  | @fragment gap cs gap' rest hgap hfrag hgap' hrest =>
      refine ⟨gap ++ (cs ++ gap'), ?_, by simp⟩
      intro hnil
      obtain ⟨hcs, -⟩ := List.append_eq_nil_iff.mp (List.append_eq_nil_iff.mp hnil).2
      exact hfrag.ne_nil hcs

theorem next_gap {gap : List Char} (hgap : IsGap isBlank gap) : next gap = (eof, []) := by
  have hnext := next_gap_append [] hgap
  rw [List.append_nil] at hnext
  exact hnext.trans rfl

theorem next_eq_eof_iff {cs : List Char} : (next cs).1 = eof ↔ IsGap isBlank cs := by
  constructor
  · intro h
    exact (cuts_next cs).isGap h
  · intro hgap
    rw [next_gap hgap]

/-- What taking a token leaves of a text. -/
structure Advances (left : List Char) : Prop where
  /-- A token takes at least one character with it, from the front of the text. -/
  consumes : (next left).1 ≠ eof → ∃ taken, taken ≠ [] ∧ left = taken ++ (next left).2
  /-- There is no token only if there are only blanks. -/
  exhausted : (next left).1 = eof ↔ ∀ c ∈ left, isBlank c = true
  /-- Then nothing is left. -/
  ended : (next left).1 = eof → (next left).2 = []

theorem advances (left : List Char) : Advances left where
  consumes := (cuts_next left).exists_taken
  exhausted := next_eq_eof_iff
  ended h := by rw [next_gap (next_eq_eof_iff.mp h)]

/-! ### All tokens, and what comes behind them -/

theorem eof_notMem_scan (cs : List Char) : eof ∉ scan cs := by
  intro hmem
  exact (isLexical_scan cs eof hmem).ne_eof rfl

theorem length_scan_le (cs : List Char) : (scan cs).length ≤ cs.length := by
  fun_induction scan cs with
  | case1 cs rest hnext => exact Nat.zero_le _
  | case2 cs t rest hnext ht ih =>
      have hlt := length_next_lt hnext ht
      rw [List.length_cons]
      omega

theorem firstTokens_gap (n : Nat) {gap : List Char} (hgap : IsGap isBlank gap) :
    firstTokens n gap = List.replicate n eof := by
  induction n generalizing gap with
  | zero => rfl
  | succ n ih =>
      rw [firstTokens, next_gap hgap, ih isGap_nil]
      rfl

/-- **The tokens come in their order, and then the end as often as it is asked for.** -/
theorem firstTokens_eq (n : Nat) (cs : List Char) :
    firstTokens n cs = (scan cs).take n ++ List.replicate (n - (scan cs).length) eof := by
  induction n generalizing cs with
  | zero => simp [firstTokens]
  | succ n ih =>
      by_cases hend : (next cs).1 = eof
      · have hgap := next_eq_eof_iff.mp hend
        rw [firstTokens_gap (n + 1) hgap, scan_gap hgap]
        rfl
      · rw [firstTokens, ih (next cs).2, scan_of_next rfl hend, List.take_succ_cons,
          List.length_cons, Nat.add_sub_add_right]
        rfl

/--
**A text is used up by taking its tokens, and no token comes out of it afterwards.**

Each token but the end takes at least one character, and the end means that nothing but blanks
is left.  So there are at most as many tokens as characters, and any number of tokens taken in
a row are those of the text and then `eof`, which is none of them.
-/
theorem text_is_exhausted :
    (∀ left : List Char, Advances left) ∧
    ∀ text : String, (ofText .alwaysBinary text).length ≤ text.length ∧
      eof ∉ ofText .alwaysBinary text ∧
      ∀ n, firstTokens n text.toList = (ofText .alwaysBinary text).take n ++
        List.replicate (n - (ofText .alwaysBinary text).length) eof := by
  refine ⟨advances, fun text => ⟨?_, eof_notMem_scan text.toList, ?_⟩⟩
  · rw [← String.length_toList]
    exact length_scan_le text.toList
  · intro n
    exact firstTokens_eq n text.toList

/-- A no-break space at the end is no token, and a zero-width space is one. -/
theorem text_is_exhausted_blanks :
    firstTokens 5 " f(\u00a0".toList = [.name "f", .lparen, .eof, .eof, .eof] ∧
      (next "\u00a0".toList).1 = eof ∧
      ∃ taken, taken ≠ [] ∧ "\u200b".toList = taken ++ (next "\u200b".toList).2 := by
  have hblank : ∀ c ∈ "\u00a0".toList, isBlank c = true :=
    List.forall_mem_singleton.mpr (by decide)
  have htokens : ofText .alwaysBinary " f(\u00a0" = [.name "f", .lparen] := by decide +kernel
  obtain ⟨-, -, hcalls⟩ := text_is_exhausted.2 " f(\u00a0"
  refine ⟨?_, (text_is_exhausted.1 _).exhausted.mpr hblank,
    (text_is_exhausted.1 _).consumes (by decide +kernel)⟩
  rw [hcalls 5, htokens]
  rfl

end ReversePolish.Token
