/-
The compact text of a value spells the value.

The compact text has no blanks, digits without leading zeros and as few escapes as
there can be.  For values made of numbers and named members, which is what records are
written as, it is one of the texts that spell their tokens, and so it can be read.
-/
import ReversePolish.Proofs.Json.Spelling

namespace ReversePolish.Json

/-! ### Decimal digits -/

theorem isDigit_of_mem_toDigits {n : Nat} : ∀ c ∈ Nat.toDigits 10 n, c.isDigit = true :=
  fun _ hc => Nat.isDigit_of_mem_toDigits (by decide) (by decide) hc

theorem head_toDigits_ne_zero (n : Nat) (hn : n ≠ 0) : '0' ∉ (Nat.toDigits 10 n).head? := by
  induction n using Nat.strongRecOn with
  | ind n ih =>
      rw [Nat.toDigits_eq_if (by decide)]
      by_cases hlt : n < 10
      · rw [if_pos hlt]
        simpa using hn
      · rw [if_neg hlt, List.head?_append_of_ne_nil _ Nat.toDigits_ne_nil]
        exact ih (n / 10) (by omega) (by omega)

theorem isNumber_toDigits (n : Nat) : isNumber (Nat.toDigits 10 n) = true := by
  by_cases hn : n = 0
  · rw [hn]
    decide
  · have hzero := head_toDigits_ne_zero n hn
    have hdigits := isDigit_of_mem_toDigits (n := n)
    cases h : Nat.toDigits 10 n with
    | nil => exact absurd h Nat.toDigits_ne_nil
    | cons c cs =>
        rw [h] at hzero hdigits
        obtain ⟨hc, hcs⟩ := List.forall_mem_cons.mp hdigits
        have hminus : afterMinus (c :: cs) = c :: cs := by
          unfold afterMinus
          split
          · rename_i heq
            obtain ⟨rfl, -⟩ := List.cons.inj heq
            exact absurd hc (by decide)
          · rfl
        have hwhole : afterWhole? (c :: cs) = some [] := by
          unfold afterWhole?
          split
          · rename_i heq
            obtain ⟨rfl, -⟩ := List.cons.inj heq
            exact absurd rfl hzero
          · have hend : (cs ++ []).dropWhile Char.isDigit = [] := dropWhile_cut hcs (by simp)
            rw [List.append_nil] at hend
            rw [afterDigits?, if_pos hc, hend]
        rw [isNumber, hminus, hwhole]
        rfl

theorem nat?_ofNat (n : Nat) : (ofNat n).nat? = some n := by
  have hdigits : (Nat.toDigits 10 n).all Char.isDigit = true :=
    List.all_eq_true.mpr isDigit_of_mem_toDigits
  rw [ofNat, nat?, if_pos hdigits, Nat.ofDigitChars_ten_toDigits]

/-! ### Strings -/

/-- The code of a control character is spelled with two zeros and two more digits. -/
theorem codeEscape_eq {n : Nat} (h : n < 32) :
    codeEscape n = ['\\', 'u', '0', '0', Nat.digitChar (n / 16), Nat.digitChar (n % 16)] := by
  revert n
  decide

theorem code?_digits {n : Nat} (h : n < 32) :
    code? '0' '0' (Nat.digitChar (n / 16)) (Nat.digitChar (n % 16)) = some n := by
  revert n
  decide

theorem ofCode_toNat {c : Char} (h : c.toNat < 32) : Piece.ofCode c.toNat = .char c := by
  rw [Piece.ofCode, Char.ofNat_toNat, if_neg]
  simp [Piece.isHigh, Piece.isLow]
  omega

/-- A character is spelled as itself or escaped, as it has to be. -/
theorem spelled_char (c : Char) : (Piece.char c).Spelled (Piece.char c).spelling := by
  simp only [Piece.spelling]
  by_cases hquote : c = '"'
  · rw [if_pos hquote, hquote]
    exact .escape rfl
  by_cases hslash : c = '\\'
  · rw [if_neg hquote, if_pos hslash, hslash]
    exact .escape rfl
  by_cases hspace : c < ' '
  · have hlt : c.toNat < 32 := hspace
    rw [if_neg hquote, if_neg hslash, if_pos hspace, codeEscape_eq hlt, ← ofCode_toNat hlt]
    exact .code (code?_digits hlt)
  · rw [if_neg hquote, if_neg hslash, if_neg hspace]
    exact .plain hquote hslash hspace

theorem content_ofText (text : String) :
    Content (Piece.ofText text) ((Piece.ofText text).flatMap Piece.spelling) := by
  rw [Piece.ofText]
  induction text.toList with
  | nil => exact .nil
  | cons c cs ih => exact .cons (spelled_char c) ih

/-! ### Values -/

/-- Every token of the value may be spelled as it is in the compact text. -/
def IsPlain (j : Json) : Prop := ∀ t ∈ j.tokens, t.Spelled t.spelling

theorem isPlain_ofNat (n : Nat) : (ofNat n).IsPlain := by
  intro t ht
  obtain rfl := List.mem_singleton.mp ht
  exact .number (isNumber_toDigits n)

theorem isPlain_string (text : String) : (string (Piece.ofText text)).IsPlain :=
  List.forall_mem_singleton.mpr (.string (content_ofText text))

theorem spelled_moreMembers {ms : List (String × Json)} (h : ∀ m ∈ ms, m.2.IsPlain) :
    ∀ t ∈ moreMembers (ms.map fun m => (Piece.ofText m.1, m.2)), t.Spelled t.spelling := by
  induction ms with
  | nil =>
      intro t ht
      obtain rfl := List.mem_singleton.mp ht
      exact .mark rfl
  | cons m ms ih =>
      obtain ⟨hm, hms⟩ := List.forall_mem_cons.mp h
      rw [List.map_cons, moreMembers]
      refine List.forall_mem_cons.mpr ⟨.mark rfl, List.forall_mem_cons.mpr ⟨?_, ?_⟩⟩
      · exact .string (content_ofText m.1)
      · exact List.forall_mem_cons.mpr ⟨.mark rfl, List.forall_mem_append.mpr ⟨hm, ih hms⟩⟩

theorem isPlain_ofMembers {ms : List (String × Json)} (h : ∀ m ∈ ms, m.2.IsPlain) :
    (ofMembers ms).IsPlain := by
  cases ms with
  | nil => exact List.forall_mem_cons.mpr ⟨.mark rfl, List.forall_mem_singleton.mpr (.mark rfl)⟩
  | cons m ms =>
      -- But for the first token, these are the tokens of a member behind another one.
      obtain ⟨-, htail⟩ := List.forall_mem_cons.mp (spelled_moreMembers h)
      exact List.forall_mem_cons.mpr ⟨.mark rfl, htail⟩

theorem spelled_moreItems {items : List Json} (h : ∀ i ∈ items, i.IsPlain) :
    ∀ t ∈ moreItems items, t.Spelled t.spelling := by
  induction items with
  | nil =>
      intro t ht
      obtain rfl := List.mem_singleton.mp ht
      exact .mark rfl
  | cons i items ih =>
      obtain ⟨hi, hitems⟩ := List.forall_mem_cons.mp h
      rw [moreItems]
      exact List.forall_mem_cons.mpr ⟨.mark rfl, List.forall_mem_append.mpr ⟨hi, ih hitems⟩⟩

theorem isPlain_array {items : List Json} (h : ∀ i ∈ items, i.IsPlain) :
    (array items).IsPlain := by
  cases items with
  | nil => exact List.forall_mem_cons.mpr ⟨.mark rfl, List.forall_mem_singleton.mpr (.mark rfl)⟩
  | cons i items =>
      -- But for the first token, these are the tokens of an item behind another one.
      obtain ⟨-, htail⟩ := List.forall_mem_cons.mp (spelled_moreItems h)
      exact List.forall_mem_cons.mpr ⟨.mark rfl, htail⟩

/-- The text of a plain value with a gap before each token. -/
theorem IsPlain.writes_flatMap {j : Json} {gap : Token → List Char} (h : j.IsPlain)
    (hgap : ∀ t, IsGap isSpace (gap t)) :
    Writes j.tokens (j.tokens.flatMap fun t => gap t ++ t.spelling) := by
  have hw := Json.writes_flatMap (j.tokens.map fun t => (gap t, t)) fun p hp => by
    obtain ⟨t, ht, rfl⟩ := List.mem_map.mp hp
    exact ⟨hgap t, h t ht⟩
  rwa [List.map_map, List.flatMap_map, Function.comp_def, List.map_id'] at hw

/-- **The compact text spells the tokens of its value.** -/
theorem IsPlain.writes_compact {j : Json} (h : j.IsPlain) : Writes j.tokens j.compact.toList := by
  have hw := h.writes_flatMap fun _ => isGap_nil
  rwa [compact, String.toList_ofList]

end ReversePolish.Json
