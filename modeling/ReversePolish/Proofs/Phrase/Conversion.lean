/-
A phrase converts to what the grammar says it is in reverse Polish notation.

The precedences on the stack do not rise from the bottom up, since a sign comes to
lie on a `^` without releasing it, so that is not the invariant.  What holds is
weaker and enough.  `Fits` says what the stack below a phrase must be like: no
operator that can come in the phrase releases its top.  `Leaves` says what is on top
of it when the phrase has been taken: tokens which, once written from the top down
behind the output, complete the phrase, and which every operator that can follow
releases.  For a factor that operator is `*`, and a pending `^`, sign or name all bind
more tightly than that.

A lone name waits like a function without arguments.  It is released by whatever
comes next, since a name outranks every operator.
-/
import ReversePolish.Proofs.Conversion.Conservation
import ReversePolish.Proofs.Conversion.Nesting
import ReversePolish.Proofs.Phrase

namespace ReversePolish

open Conversion

/-! ### What operators release -/

/-- An operator that binds more loosely releases more. -/
theorem releases_of_precedence_lt {o o' : BinOp} {t : Token} (h : o'.precedence < o.precedence)
    (ht : releases o t = true) : releases o' t = true := by
  simp only [releases, Bool.or_eq_true, Bool.and_eq_true, decide_eq_true_eq, beq_iff_eq] at ht ⊢
  omega

theorem releases_congr {o o' : BinOp} (h : o.precedence = o'.precedence) (t : Token) :
    releases o t = releases o' t := by
  simp only [releases, h]

/-- What the operator `o` would release does not lie on top. -/
def Keeps (o : BinOp) (waiting : List Token) : Prop := ∀ t ∈ waiting.head?, releases o t = false

theorem keeps_cons {o : BinOp} {t : Token} (below : List Token) (h : releases o t = false) :
    Keeps o (t :: below) := by
  rintro u ⟨⟩
  exact h

theorem Keeps.of_precedence_lt {o o' : BinOp} {waiting : List Token}
    (h : o'.precedence < o.precedence) (hk : Keeps o' waiting) : Keeps o waiting := by
  intro t ht
  by_contra hc
  have hreleases := releases_of_precedence_lt h (Bool.not_eq_false _ ▸ hc)
  rw [hk t ht] at hreleases
  exact Bool.noConfusion hreleases

/-- A stack that an operator leaves alone has no name on top. -/
theorem Keeps.ne_name {o : BinOp} {waiting : List Token} (h : Keeps o waiting) (f : String) :
    waiting.head? ≠ some (.name f) := by
  intro hf
  have hkept := h _ hf
  rw [releases_name] at hkept
  exact Bool.noConfusion hkept

/-! ### What a phrase leaves on the stack -/

/-- The tokens `ts`, taken above `waiting`, leave on it what still has to be written of `out`,
and the operator `next` would release all of that. -/
def Leaves (next : BinOp) (waiting ts out : List Token) : Prop :=
  ∀ written, ∃ above last,
    (of waiting written).takeAll ts = .ok (of (above ++ waiting) last) ∧
      last ++ above = written ++ out ∧ ∀ t ∈ above, releases next t = true

namespace Leaves

variable {next : BinOp} {waiting ts us out out' : List Token}

theorem of_written
    (h : ∀ written, (of waiting written).takeAll ts = .ok (of waiting (written ++ out))) :
    Leaves next waiting ts out :=
  fun written => ⟨[], written ++ out, h written, List.append_nil _, by simp⟩

theorem of_precedence_lt {o : BinOp} (h : next.precedence < o.precedence)
    (hl : Leaves o waiting ts out) : Leaves next waiting ts out := by
  intro written
  obtain ⟨above, last, hrun, hout, habove⟩ := hl written
  exact ⟨above, last, hrun, hout, fun t ht => releases_of_precedence_lt h (habove t ht)⟩

theorem congr {o : BinOp} (h : next.precedence = o.precedence) (hl : Leaves o waiting ts out) :
    Leaves next waiting ts out := by
  intro written
  obtain ⟨above, last, hrun, hout, habove⟩ := hl written
  exact ⟨above, last, hrun, hout, fun t ht => (releases_congr h t).trans (habove t ht)⟩

theorem name (next : BinOp) (waiting : List Token) (f : String) :
    Leaves next waiting [.name f] [.name f] := by
  intro written
  refine ⟨[.name f], written, takeAll_cons_of_ok [] (take_of_waits waiting written rfl), rfl, ?_⟩
  intro t ht
  rw [List.mem_singleton.mp ht]
  exact releases_name next f

/-- A sign waits below what its operand leaves. -/
theorem sign {s : Sign} (hs : releases next (.sign s) = true)
    (h : Leaves next (.sign s :: waiting) ts out) :
    Leaves next waiting (.sign s :: ts) (out ++ [.sign s]) := by
  intro written
  obtain ⟨above, last, hrun, hout, habove⟩ := h written
  refine ⟨above ++ [.sign s], last, ?_, ?_, ?_⟩
  · rw [takeAll_cons_of_ok ts (take_of_waits waiting written rfl), hrun, List.append_assoc]
    rfl
  · rw [← List.append_assoc, hout, List.append_assoc]
  · intro t ht
    rcases List.mem_append.mp ht with ht | ht
    · exact habove t ht
    · rw [List.mem_singleton.mp ht]
      exact hs

/-- An operator releases what its left operand leaves, and nothing else, and waits below what its
right operand leaves. -/
theorem binary {o : BinOp} (hl : Leaves o waiting ts out)
    (hr : Leaves next (.op o :: waiting) us out') (hkeeps : Keeps o waiting)
    (ho : releases next (.op o) = true) :
    Leaves next waiting (ts ++ .op o :: us) (out ++ out' ++ [.op o]) := by
  intro written
  obtain ⟨above, last, hrun, hout, habove⟩ := hl written
  obtain ⟨above', last', hrun', hout', habove'⟩ := hr (last ++ above)
  refine ⟨above' ++ [.op o], last', ?_, ?_, ?_⟩
  · rw [takeAll_append_of_ok _ hrun, takeAll_cons_of_ok us (take_op last habove hkeeps), hrun',
      List.append_assoc]
    rfl
  · rw [← List.append_assoc, hout', hout, List.append_assoc, List.append_assoc, List.append_assoc]
  · intro t ht
    rcases List.mem_append.mp ht with ht | ht
    · exact habove' t ht
    · rw [List.mem_singleton.mp ht]
      exact ho

theorem comma (hl : Leaves .add (.lparen :: waiting) ts out)
    (hr : Leaves .add (.lparen :: waiting) us out') :
    Leaves .add (.lparen :: waiting) (ts ++ .comma :: us) (out ++ out') := by
  intro written
  obtain ⟨above, last, hrun, hout, habove⟩ := hl written
  obtain ⟨above', last', hrun', hout', habove'⟩ := hr (last ++ above)
  refine ⟨above', last', ?_, ?_, habove'⟩
  · rw [takeAll_append_of_ok _ hrun,
      takeAll_cons_of_ok us (take_comma last (lparen_notMem_of_releases habove)), hrun']
  · rw [hout', hout, List.append_assoc]

/-- In parentheses, what is left is what waits above the `(`. -/
theorem fills (h : Leaves .add (.lparen :: waiting) ts out) : Fills waiting ts out := by
  intro written
  obtain ⟨above, last, hrun, hout, habove⟩ := h written
  exact ⟨above, last, hrun, hout, lparen_notMem_of_releases habove⟩

theorem group (h : Leaves .add (.lparen :: waiting) ts out)
    (hname : ∀ f, waiting.head? ≠ some (.name f)) :
    Leaves next waiting (.lparen :: (ts ++ [.rparen])) out :=
  of_written (h.fills.takeAll_group hname)

theorem call {f : String} (h : Leaves .add (.lparen :: .name f :: waiting) ts out) :
    Leaves next waiting (.name f :: .lparen :: (ts ++ [.rparen])) (out ++ [.name f]) := by
  refine of_written fun written => ?_
  rw [← List.append_assoc]
  exact h.fills.takeAll_call written

end Leaves

/-! ### Phrases -/

/-- What the stack below a phrase has to be like. -/
def Nonterminal.Fits : Nonterminal → List Token → Prop
  | atom, waiting | power, waiting | factor, waiting => Keeps .power waiting
  | term, waiting => Keeps .multiply waiting
  | sum, waiting => Keeps .add waiting
  | arguments, waiting => ∃ below, waiting = .lparen :: below

/-- The tightest operator that can come right behind a phrase. -/
def Nonterminal.next : Nonterminal → BinOp
  | atom => .power
  | power | factor | term => .multiply
  | sum | arguments => .add

namespace Phrase

variable {n : Nonterminal} {ts out : List Token}

/-- **What a phrase leaves on a stack that it fits on completes it.** -/
theorem leaves (h : Phrase n ts out) :
    ∀ waiting, n.Fits waiting → Leaves n.next waiting ts out := by
  induction h with
  | @number digits h =>
      intro waiting _
      refine .of_written fun written => ?_
      exact takeAll_cons_of_ok [] (Step.number digits waiting written).take_eq
  | @name f h =>
      intro waiting _
      exact .name .power waiting f
  | @emptyCall f h =>
      intro waiting _
      have hnone : Leaves .add (.lparen :: .name f :: waiting) [] [] := by
        refine .of_written fun written => ?_
        rw [takeAll_nil, List.append_nil]
      exact hnone.call
  | call h hargs ih =>
      intro waiting _
      exact (ih _ ⟨_, rfl⟩).call
  | group h ih =>
      intro waiting hfits
      exact (ih (.lparen :: waiting) (keeps_cons waiting (releases_lparen .add))).group
        (Keeps.ne_name hfits)
  | argument h ih =>
      rintro waiting ⟨below, rfl⟩
      exact ih _ (keeps_cons below (releases_lparen .add))
  | arguments hl hr ihl ihr =>
      rintro waiting ⟨below, rfl⟩
      exact (ihl _ (keeps_cons below (releases_lparen .add))).comma
        (ihr _ ⟨below, rfl⟩)
  | atom h ih =>
      intro waiting hfits
      exact (ih waiting hfits).of_precedence_lt (by decide)
  | power hl hr ihl ihr =>
      intro waiting hfits
      exact (ihl waiting hfits).binary (ihr _ (keeps_cons waiting rfl)) hfits rfl
  | sign s h ih =>
      intro waiting hfits
      refine (ih (.sign s :: waiting) (keeps_cons waiting ?_)).sign ?_
      · cases s <;> rfl
      · cases s <;> rfl
  | unsigned h ih => exact ih
  | factor h ih =>
      intro waiting hfits
      exact ih waiting (Keeps.of_precedence_lt (by decide) hfits)
  | @product o ls l rs r ho hl hr ihl ihr =>
      intro waiting hfits
      -- `*` and `/` release the same, and neither is released by a `^`.
      have hprec : o.precedence = BinOp.multiply.precedence := by rcases ho with rfl | rfl <;> rfl
      refine ((ihl waiting hfits).congr hprec).binary (ihr _ (keeps_cons waiting ?_)) ?_ ?_
      · rcases ho with rfl | rfl <;> rfl
      · exact fun t ht => (releases_congr hprec t).trans (hfits t ht)
      · rcases ho with rfl | rfl <;> rfl
  | term h ih =>
      intro waiting hfits
      exact (ih waiting (Keeps.of_precedence_lt (by decide) hfits)).of_precedence_lt (by decide)
  | @sum o ls l rs r ho hl hr ihl ihr =>
      intro waiting hfits
      have hprec : o.precedence = BinOp.add.precedence := by rcases ho with rfl | rfl <;> rfl
      have hright : Leaves .add (.op o :: waiting) rs r := by
        refine (ihr _ (keeps_cons waiting ?_)).of_precedence_lt (by decide)
        rcases ho with rfl | rfl <;> rfl
      refine ((ihl waiting hfits).congr hprec).binary hright ?_ ?_
      · exact fun t ht => (releases_congr hprec t).trans (hfits t ht)
      · rcases ho with rfl | rfl <;> rfl

/-- **A sum converts to its reverse Polish notation.** -/
theorem convert_eq (h : Phrase .sum ts out) : convert ts = .ok out := by
  obtain ⟨above, last, hrun, hout, habove⟩ := h.leaves [] (fun t ht => by simp at ht) []
  refine convert_eq_ok_iff.mpr ⟨of (above ++ []) last, reaches_iff.mpr hrun, ?_, ?_⟩
  · rw [stack_of, List.append_nil]
    exact lparen_notMem_of_releases habove
  · rw [output_of, stack_of, List.append_nil, hout, List.nil_append]

/-- **A text that writes a sum converts to its reverse Polish notation.** -/
theorem toRpn_eq {text : String} (h : Phrase .sum ts out) (hw : Token.Writes ts text.toList) :
    toRpn .byPosition text = .ok (Token.joined out) := by
  rw [toRpn, h.ofText_eq hw, h.convert_eq]
  rfl

/-- A sum whose reverse Polish notation has no signs converts the same if no signs are read. -/
theorem toRpn_alwaysBinary_eq {text : String} (h : Phrase .sum ts out)
    (hw : Token.Writes ts text.toList) (hsign : ∀ s, .sign s ∉ out) :
    toRpn .alwaysBinary text = .ok (Token.joined out) := by
  -- The conversion keeps signs, so the sum has none either.
  have hnone : ∀ s, .sign s ∉ ts := by
    intro s hs
    refine hsign s ((perm_of_convert h.convert_eq).mem_iff.mpr ?_)
    exact List.mem_filter.mpr ⟨hs, rfl⟩
  have hsame : ts.map Token.unsigned = ts := by
    refine (List.map_congr_left fun t ht => ?_).trans (List.map_id ts)
    refine Token.unsigned_of_ne_sign fun s hs => ?_
    rw [hs] at ht
    exact hnone s ht
  have htext : Token.ofText .alwaysBinary text = ts := (h.scan_eq hw).trans hsame
  rw [toRpn, htext, h.convert_eq]
  rfl

end Phrase

/--
**The infix language is converted by its grammar.**

A text that writes the tokens of a sum, with blanks anywhere around them or nowhere,
is cut into these tokens, and is converted to what the grammar says it is in reverse
Polish notation.
-/
theorem toRpn_of_phrase {ts out : List Token} {text : String} (h : Phrase .sum ts out)
    (hw : Token.Writes ts text.toList) :
    Token.ofText .byPosition text = ts ∧ toRpn .byPosition text = .ok (Token.joined out) :=
  ⟨h.ofText_eq hw, h.toRpn_eq hw⟩

/-- Signs before a power and inside it, a call, and a gap that is not made of spaces. -/
theorem toRpn_of_phrase_signs :
    Token.ofText .byPosition "-2 ^-f(1,\tx)*3"
        = [.sign .minus, .number "2", .op .power, .sign .minus, .name "f", .lparen, .number "1",
          .comma, .name "x", .rparen, .op .multiply, .number "3"] ∧
      toRpn .byPosition "-2 ^-f(1,\tx)*3" = .ok "2 1 x f un- ^ un- 3 *" := by
  have hargs : Phrase .arguments [.number "1", .comma, .name "x"] [.number "1", .name "x"] :=
    .arguments (.term (.factor (.unsigned (.atom (.number rfl)))))
      (.argument (.term (.factor (.unsigned (.atom (.name rfl))))))
  have hcall : Phrase .factor
      [.sign .minus, .name "f", .lparen, .number "1", .comma, .name "x", .rparen]
      [.number "1", .name "x", .name "f", .sign .minus] :=
    .sign .minus (.unsigned (.atom (.call rfl hargs)))
  have hpower : Phrase .factor
      [.sign .minus, .number "2", .op .power, .sign .minus, .name "f", .lparen, .number "1",
        .comma, .name "x", .rparen]
      [.number "2", .number "1", .name "x", .name "f", .sign .minus, .op .power, .sign .minus] :=
    .sign .minus (.unsigned (.power (.number rfl) hcall))
  have hthree : Phrase .factor [.number "3"] [.number "3"] := .unsigned (.atom (.number rfl))
  have hphrase : Phrase .sum _ _ := .term (.product (Or.inl rfl) (.factor hpower) hthree)
  have hw := Token.writes_flatMap
    [([], .sign .minus), ([], .number "2"), ([' '], .op .power), ([], .sign .minus),
      ([], .name "f"), ([], .lparen), ([], .number "1"), ([], .comma), (['\t'], .name "x"),
      ([], .rparen), ([], .op .multiply), ([], .number "3")] (by simp [IsGap]; decide)
  exact toRpn_of_phrase hphrase hw

end ReversePolish
