/-
A name that is not called is converted like a number.

The conversion lets every name wait, in case a `(` follows.  If none does, the name has
waited in vain: whatever comes next releases it first of all, be it an operator, a `)`, a
`,` or the end of the tokens, and so it might have been written at once
(`takeAll_name_cons`).  That one of these comes next is what cutting a text into tokens
guarantees, for malformed texts as well: neither a number nor a name nor a sign stands right
behind a name.

Written at once, a name differs from a number in nothing but its kind, and no token is
looked at again after it has been written.  So a run with names and a run with numbers in
their place have the same stack at every lone name (`SameTexts.run`).
-/
import ReversePolish.Proofs.Conversion.Faults
import ReversePolish.Proofs.Token.Lexing
import ReversePolish.Proofs.Token.Sign

namespace ReversePolish

/-- The tokens with a number in the place of each name that no `(` follows. -/
def Token.loneNamesAsNumbers : List Token → List Token
  | [] => []
  | .name ident :: ts =>
    (if ts.head? = some .lparen then .name ident else .number ident) :: loneNamesAsNumbers ts
  | t :: ts => t :: loneNamesAsNumbers ts

namespace Conversion

open Token

/-! ### What comes behind a name -/

/-- Whether a token can stand right behind a name. -/
def followsName : Token → Bool
  | .op _ | .lparen | .rparen | .comma => true
  | _ => false

/-- If the first of two neighbours is a name, the second is one that can stand there. -/
def EndsName (t u : Token) : Prop := ∀ ident, t = .name ident → followsName u = true

theorem isChain_endsName {ts : List Token} (hlex : ∀ t ∈ ts, t.IsLexical)
    (hsep : ts.IsChain Separate) : ts.IsChain EndsName := by
  induction ts with
  | nil => exact .nil
  | cons t ts ih =>
      obtain ⟨hnext, hsep⟩ := List.isChain_cons.mp hsep
      obtain ⟨_, hlex⟩ := List.forall_mem_cons.mp hlex
      refine List.isChain_cons.mpr ⟨fun u hu ident ht => ?_, ih hlex hsep⟩
      have hword : u.isWord = false := by
        rcases hnext u hu with h | h
        · simp [ht, isWord] at h
        · exact h
      have hu := hlex u (List.mem_of_mem_head? hu)
      cases u with
      | op _ | lparen | rparen | comma => rfl
      | number _ | name _ | illegal _ => simp [isWord] at hword
      | sign _ | eof => exact absurd hu id

/-- Behind a name nothing is marked as a sign. -/
theorem isChain_endsName_markSigns (start : Bool) {ts : List Token} (h : ts.IsChain EndsName) :
    (markSigns start ts).IsChain EndsName := by
  induction ts generalizing start with
  | nil => exact .nil
  | cons t ts ih =>
      obtain ⟨hnext, hchain⟩ := List.isChain_cons.mp h
      rw [markSigns_cons]
      refine List.isChain_cons.mpr ⟨fun u hu ident ht => ?_, ih _ hchain⟩
      have hname : t = .name ident := by
        rcases marked_eq_self_or start t with h | ⟨s, h⟩
        · exact h.symm.trans ht
        · rw [h] at ht
          exact absurd ht (by simp)
      rw [hname] at hu
      cases ts with
      | nil => simp [markSigns] at hu
      | cons v rest =>
          rw [show opensOperand (.name ident) = false from rfl, markSigns_false_cons,
            List.head?_cons, Option.mem_some_iff] at hu
          exact hnext u (by simp [hu]) ident hname

theorem isChain_endsName_ofText (reading : SignReading) (text : String) :
    (ofText reading text).IsChain EndsName := by
  have hscan := isChain_endsName (isLexical_scan text.toList) (isChain_scan text.toList)
  cases reading with
  | byPosition => exact isChain_endsName_markSigns true hscan
  | alwaysBinary => exact hscan

/-! ### A name that waits in vain -/

theorem release_wait {p : Token → Bool} {t : Token} (c : Conversion) (h : p t = true) :
    (c.wait t).release p = (c.write t).release p := by
  simp [release, wait, write, h]

theorem releaseGroup_wait (c : Conversion) (ident : String) :
    (c.wait (.name ident)).releaseGroup = (c.write (.name ident)).releaseGroup :=
  release_wait c (by simp)

/-- **What follows a name, unless it is a `(`, writes the name first.** -/
theorem take_wait_name (c : Conversion) (ident : String) {t : Token} (ht : followsName t = true)
    (hlparen : t ≠ .lparen) :
    (c.wait (.name ident)).take t = (c.write (.name ident)).take t := by
  cases t with
  | op o =>
      show Except.ok (((c.wait _).release _).wait _) = Except.ok (((c.write _).release _).wait _)
      rw [release_wait c (releases_name o ident)]
  | rparen =>
      show (c.wait _).releaseGroup.closeGroup = (c.write _).releaseGroup.closeGroup
      rw [releaseGroup_wait]
  | comma =>
      show (c.wait _).releaseGroup.nextArgument = (c.write _).releaseGroup.nextArgument
      rw [releaseGroup_wait]
  | lparen => exact absurd rfl hlparen
  | number _ | name _ | sign _ | eof | illegal _ => simp [followsName] at ht

theorem finish_wait_name (c : Conversion) (ident : String) :
    (c.wait (.name ident)).finish = (c.write (.name ident)).finish := by
  unfold finish
  rw [releaseGroup_wait]

/-- The rest of a conversion that has a name before it: the name might have been written. -/
theorem takeAll_name_cons (c : Conversion) (ident : String) {ts : List Token}
    (hends : ∀ t ∈ ts.head?, followsName t = true) (hlone : ts.head? ≠ some .lparen) :
    c.takeAll (.name ident :: ts) >>= finish = (c.write (.name ident)).takeAll ts >>= finish := by
  have hwait : c.take (.name ident) = .ok (c.wait (.name ident)) := rfl
  rw [takeAll_cons_of_ok ts hwait]
  cases ts with
  | nil => exact finish_wait_name c ident
  | cons t ts =>
      have hlparen : t ≠ .lparen := by
        intro h
        exact hlone (by rw [h, List.head?_cons])
      rw [takeAll_cons, takeAll_cons, take_wait_name c ident (hends t rfl) hlparen]

/-! ### What has been written is not looked at again -/

/-- Two conversions wait for the same and have written the same texts. -/
structure SameTexts (c c' : Conversion) : Prop where
  stack : c.stack = c'.stack
  texts : c.output.toList.map text = c'.output.toList.map text

/-- Two conversions have the same fault, or outputs with the same texts, place by place. -/
inductive SameOutcome : Except Fault (List Token) → Except Fault (List Token) → Prop
  | error (fault : Fault) : SameOutcome (.error fault) (.error fault)
  | ok {out out' : List Token} (h : out.map text = out'.map text) : SameOutcome (.ok out) (.ok out')

namespace SameTexts

variable {c c' : Conversion}

/-- The same token leads to the same again. -/
theorem take (h : SameTexts c c') (t : Token) :
    (∃ fault, c.take t = .error fault ∧ c'.take t = .error fault) ∨
      ∃ next next', c.take t = .ok next ∧ c'.take t = .ok next' ∧ SameTexts next next' := by
  have hc' : c' = of c.stack c'.output.toList := by
    rw [h.stack]
    exact eq_of c'
  rcases step_or_fails c t with ⟨next, hs⟩ | ⟨fault, hf⟩
  · obtain ⟨more, hmore, hstep⟩ := hs.of_stack
    have hstep' := (hstep c'.output.toList).take_eq
    rw [← hc'] at hstep'
    refine Or.inr ⟨next, _, hs.take_eq, hstep', rfl, ?_⟩
    rw [output_of, hmore, List.map_append, List.map_append, h.texts]
  · refine Or.inl ⟨fault, hf.take_eq, ?_⟩
    rw [hc']
    exact (hf.of_stack c'.output.toList).take_eq

theorem finish (h : SameTexts c c') : SameOutcome c.finish c'.finish := by
  rw [eq_of c, eq_of c', ← h.stack]
  by_cases hmem : Token.lparen ∈ c.stack
  · rw [finish_of_mem _ hmem, finish_of_mem _ hmem]
    exact .error _
  · rw [finish_of_notMem _ hmem, finish_of_notMem _ hmem]
    refine .ok ?_
    rw [List.map_append, List.map_append, h.texts]

theorem write_number (h : SameTexts c c') (ident : String) :
    SameTexts (c.write (.name ident)) (c'.write (.number ident)) where
  stack := h.stack
  texts := by simp [write, h.texts, text]

end SameTexts

/-! ### The whole conversion -/

theorem loneNamesAsNumbers_cons_lone (ident : String) {ts : List Token}
    (h : ts.head? ≠ some .lparen) :
    loneNamesAsNumbers (.name ident :: ts) = .number ident :: loneNamesAsNumbers ts := by
  simp [loneNamesAsNumbers, h]

theorem loneNamesAsNumbers_cons {t : Token} {ts : List Token}
    (h : ∀ ident, t = .name ident → ts.head? = some .lparen) :
    loneNamesAsNumbers (t :: ts) = t :: loneNamesAsNumbers ts := by
  cases t with
  | name ident => simp [loneNamesAsNumbers, h ident rfl]
  | number _ | op _ | sign _ | lparen | rparen | comma | eof | illegal _ => rfl

/-- **The run with numbers keeps in step with the run with names.** -/
theorem SameTexts.run {c c' : Conversion} {ts : List Token} (hc : SameTexts c c')
    (h : ts.IsChain EndsName) :
    SameOutcome (c.takeAll ts >>= Conversion.finish)
      (c'.takeAll (loneNamesAsNumbers ts) >>= Conversion.finish) := by
  induction ts generalizing c c' with
  | nil => exact hc.finish
  | cons t ts ih =>
      obtain ⟨hnext, hchain⟩ := List.isChain_cons.mp h
      by_cases hlone : ∃ ident, t = .name ident ∧ ts.head? ≠ some .lparen
      · obtain ⟨ident, rfl, hhead⟩ := hlone
        have hends : ∀ u ∈ ts.head?, followsName u = true := fun u hu => hnext u hu ident rfl
        have hnumber : c'.take (.number ident) = .ok (c'.write (.number ident)) := rfl
        rw [takeAll_name_cons c ident hends hhead, loneNamesAsNumbers_cons_lone ident hhead,
          takeAll_cons_of_ok _ hnumber]
        exact ih (hc.write_number ident) hchain
      · have hcall : ∀ ident, t = .name ident → ts.head? = some .lparen := by
          intro ident ht
          by_contra hhead
          exact hlone ⟨ident, ht, hhead⟩
        rw [loneNamesAsNumbers_cons hcall]
        rcases hc.take t with ⟨fault, ht, ht'⟩ | ⟨next, next', ht, ht', hsame⟩
        · rw [takeAll_cons, takeAll_cons, ht, ht']
          exact .error fault
        · rw [takeAll_cons_of_ok _ ht, takeAll_cons_of_ok _ ht']
          exact ih hsame hchain

/--
**A lone name is converted exactly like a number.**

If each name of a text that no `(` follows were a number with the same text, the conversion
would have the same fault, or the same texts in its output one after the other.
-/
theorem convert_loneNamesAsNumbers (reading : SignReading) (text : String) :
    (∃ fault, convert (ofText reading text) = .error fault ∧
      convert (loneNamesAsNumbers (ofText reading text)) = .error fault) ∨
    ∃ out out', convert (ofText reading text) = .ok out ∧
      convert (loneNamesAsNumbers (ofText reading text)) = .ok out' ∧
      out.map Token.text = out'.map Token.text := by
  have hstart : SameTexts start start := ⟨rfl, rfl⟩
  have hsame := hstart.run (isChain_endsName_ofText reading text)
  unfold convert
  generalize start.takeAll (ofText reading text) >>= finish = result at hsame ⊢
  generalize start.takeAll (loneNamesAsNumbers (ofText reading text)) >>= finish = result'
    at hsame ⊢
  cases hsame with
  | error fault => exact Or.inl ⟨fault, rfl, rfl⟩
  | ok h => exact Or.inr ⟨_, _, rfl, rfl, h⟩

/-- The name of a call stays one, and its argument does not. -/
example : loneNamesAsNumbers [.name "x", .op .power, .name "f", .lparen, .name "y", .rparen]
    = [.number "x", .op .power, .name "f", .lparen, .number "y", .rparen] := rfl

end Conversion

end ReversePolish
