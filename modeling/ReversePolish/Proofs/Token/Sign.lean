/-
How signs are told from operators, from left to right.

`unsigned` is what a sign looks like before it is known to be one.  Where an operand
may start, marking takes a `+` or `-` back to the sign it stands for; anywhere else
it leaves the token as it is.  The lemmas here say so one token at a time, which is
what an induction over a list of tokens goes by (`markSigns_cons`).
-/
import ReversePolish.Proofs.Token.Spelling

namespace ReversePolish.Token

/-- A sign as the operator that is spelled in the same way; other tokens as they are. -/
def unsigned : Token → Token
  | sign .plus => op .add
  | sign .minus => op .subtract
  | t => t

theorem unsigned_of_ne_sign {t : Token} (h : ∀ s, t ≠ sign s) : t.unsigned = t := by
  cases t with
  | sign s => exact absurd rfl (h s)
  | number _ | name _ | op _ | lparen | rparen | comma | eof | illegal _ => rfl

@[simp] theorem unsigned_unsigned (t : Token) : t.unsigned.unsigned = t.unsigned := by
  cases t with
  | sign s => cases s <;> rfl
  | number _ | name _ | op _ | lparen | rparen | comma | eof | illegal _ => rfl

theorem spelling_unsigned (t : Token) : t.unsigned.spelling = t.spelling := by
  cases t with
  | sign s => cases s <;> rfl
  | number _ | name _ | op _ | lparen | rparen | comma | eof | illegal _ => rfl

theorem isWord_unsigned (t : Token) : t.unsigned.isWord = t.isWord := by
  cases t with
  | sign s => cases s <;> rfl
  | number _ | name _ | op _ | lparen | rparen | comma | eof | illegal _ => rfl

/-- A text does not show whether a `+` or `-` is a sign. -/
theorem Writes.unsigned {ts : List Token} {cs : List Char} (h : Writes ts cs) :
    Writes (ts.map Token.unsigned) cs := h.map spelling_unsigned

theorem markSigns_false_cons (t : Token) (ts : List Token) :
    markSigns false (t :: ts) = t :: markSigns t.opensOperand ts := by
  simp [markSigns]

theorem markSigns_true_cons {t : Token} (ts : List Token) (h : t.asSign? = none) :
    markSigns true (t :: ts) = t :: markSigns t.opensOperand ts := by
  simp [markSigns, h]

theorem markSigns_true_sign (s : Sign) (ts : List Token) :
    markSigns true ((sign s).unsigned :: ts) = sign s :: markSigns true ts := by
  cases s <;> rfl

theorem unsigned_of_asSign {t : Token} {s : Sign} (h : t.asSign? = some s) :
    (sign s).unsigned = t := by
  cases t with
  | op o =>
      cases o with
      | add | subtract =>
          obtain rfl := Option.some.inj h
          rfl
      | multiply | divide | power => exact absurd h nofun
  | number _ | name _ | sign _ | lparen | rparen | comma | eof | illegal _ => exact absurd h nofun

/-- A token as it is read where an operand may start, or may not. -/
def marked (start : Bool) (t : Token) : Token :=
  match start, t.asSign? with
  | true, some s => sign s
  | _, _ => t

theorem opensOperand_of_asSign {t : Token} {s : Sign} (h : t.asSign? = some s) :
    t.opensOperand = true := by
  rw [← unsigned_of_asSign h]
  cases s <;> rfl

/-- **One token is marked at a time**, and where the next operand may start depends on nothing but
the token before it. -/
theorem markSigns_cons (start : Bool) (t : Token) (ts : List Token) :
    markSigns start (t :: ts) = t.marked start :: markSigns t.opensOperand ts := by
  by_cases hstart : start = true
  · subst hstart
    cases hsign : t.asSign? with
    | none => simp [markSigns, marked, hsign]
    | some s => simp [markSigns, marked, hsign, opensOperand_of_asSign hsign]
  · simp [markSigns, marked, hstart]

theorem marked_eq_self_or (start : Bool) (t : Token) :
    t.marked start = t ∨ ∃ s, t.marked start = sign s := by
  unfold marked
  split
  · exact Or.inr ⟨_, rfl⟩
  · exact Or.inl rfl

theorem unsigned_marked (start : Bool) {t : Token} (h : ∀ s, t ≠ sign s) :
    (t.marked start).unsigned = t := by
  unfold marked
  split
  · rename_i s hsign
    exact unsigned_of_asSign hsign
  · exact unsigned_of_ne_sign h

/-- **Marking changes nothing but `+` and `-`**: without the marks the tokens are what they were. -/
theorem map_unsigned_markSigns (start : Bool) {ts : List Token} (h : ∀ s, .sign s ∉ ts) :
    (markSigns start ts).map Token.unsigned = ts := by
  induction ts generalizing start with
  | nil => rfl
  | cons t ts ih =>
      have ht : ∀ s, t ≠ sign s := fun s hs => h s (hs ▸ List.mem_cons_self)
      have hts : ∀ s, .sign s ∉ ts := fun s hs => h s (List.mem_cons_of_mem t hs)
      rw [markSigns_cons, List.map_cons, unsigned_marked start ht, ih _ hts]

end ReversePolish.Token
