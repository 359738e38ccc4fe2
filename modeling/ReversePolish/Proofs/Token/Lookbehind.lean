/-
One look at the token before decides whether a `+` or `-` is a sign.

Marking goes from left to right with a flag that says whether an operand may start, and the
flag is left as it is where a sign has been marked.  So at first sight it depends on a whole
chain of signs, as in `3 ^ -+-4`.  But a token is marked only if it is an operator, and an
operand may start behind an operator: leaving the flag set and asking the token that was
there before it was marked come to the same (`markSigns_cons`).  Hence the flag is at every
place what the token before says about it, and only the first place depends on the flag that
marking has begun with.
-/
import ReversePolish.Proofs.Token.Lexing
import ReversePolish.Proofs.Token.Sign

namespace ReversePolish.Token

/-! ### One token -/

theorem marked_eq_sign_iff {start : Bool} {t : Token} {s : Sign} (ht : t ≠ sign s) :
    t.marked start = sign s ↔ t = (sign s).unsigned ∧ start = true := by
  constructor
  · intro h
    unfold marked at h
    split at h
    · rename_i s' hsign
      rw [sign.injEq] at h
      subst h
      exact ⟨(unsigned_of_asSign hsign).symm, rfl⟩
    · exact absurd h ht
  · intro ⟨heq, hstart⟩
    rw [heq, hstart]
    cases s <;> rfl

/-! ### A list of tokens -/

/-- The flag at a place. -/
def flagAt (start : Bool) (ts : List Token) : Nat → Bool
  | 0 => start
  | i + 1 => ts[i]?.any opensOperand

theorem flagAt_cons (start : Bool) (t : Token) (ts : List Token) (i : Nat) :
    flagAt start (t :: ts) (i + 1) = flagAt t.opensOperand ts i := by
  cases i with
  | zero => simp [flagAt]
  | succ i => simp [flagAt]

/-- **Each token is marked according to the flag at its place.** -/
theorem getElem?_markSigns (start : Bool) (ts : List Token) (i : Nat) :
    (markSigns start ts)[i]? = ts[i]?.map (marked (flagAt start ts i)) := by
  induction ts generalizing start i with
  | nil => simp [markSigns]
  | cons t ts ih =>
      rw [markSigns_cons]
      cases i with
      | zero => simp [flagAt]
      | succ i => rw [List.getElem?_cons_succ, List.getElem?_cons_succ, ih, flagAt_cons]

theorem length_markSigns (start : Bool) (ts : List Token) :
    (markSigns start ts).length = ts.length := by
  induction ts generalizing start with
  | nil => rfl
  | cons t ts ih => rw [markSigns_cons, List.length_cons, List.length_cons, ih]

/-- The place is at the beginning, or right behind `(`, `,` or an operator. -/
def StartsOperand (ts : List Token) (i : Nat) : Prop :=
  i = 0 ∨ ts[i - 1]? = some lparen ∨ ts[i - 1]? = some comma ∨ ∃ o, ts[i - 1]? = some (op o)

/-- Among tokens without signs the flag is set exactly at these places. -/
theorem flagAt_iff {ts : List Token} (h : ∀ s, sign s ∉ ts) (i : Nat) :
    flagAt true ts i = true ↔ StartsOperand ts i := by
  cases i with
  | zero => simp [flagAt, StartsOperand]
  | succ i =>
      show ts[i]?.any opensOperand = true ↔ _
      unfold StartsOperand
      rw [Nat.add_sub_cancel]
      cases ht : ts[i]? with
      | none => simp
      | some t =>
          have hmem : t ∈ ts := List.mem_of_getElem? ht
          cases t with
          | sign s => exact absurd hmem (h s)
          | number _ | name _ | op _ | lparen | rparen | comma | eof | illegal _ =>
              simp [opensOperand, isOperator, operator?]

theorem getElem?_markSigns_eq_sign_iff {ts : List Token} (hts : ∀ s, sign s ∉ ts) (i : Nat)
    (s : Sign) :
    (markSigns true ts)[i]? = some (sign s) ↔
      ts[i]? = some (sign s).unsigned ∧ StartsOperand ts i := by
  rw [getElem?_markSigns, ← flagAt_iff hts]
  cases ht : ts[i]? with
  | none => simp
  | some t =>
      have hne : t ≠ sign s := fun h => hts s (h ▸ List.mem_of_getElem? ht)
      rw [Option.map_some, Option.some.injEq, Option.some.injEq]
      exact marked_eq_sign_iff hne

theorem getElem?_markSigns_eq_self_or (start : Bool) (ts : List Token) (i : Nat) :
    (markSigns start ts)[i]? = ts[i]? ∨ ∃ s, (markSigns start ts)[i]? = some (sign s) := by
  rw [getElem?_markSigns]
  cases ts[i]? with
  | none => exact Or.inl rfl
  | some t =>
      rcases marked_eq_self_or (flagAt start ts i) t with h | ⟨s, h⟩
      · exact Or.inl (by rw [Option.map_some, h])
      · exact Or.inr ⟨s, by rw [Option.map_some, h]⟩

/--
**A token of a text is a sign exactly if it looks like one and an operand may start there.**

Reading by position changes no other token.  An operand may start at the beginning, and
right behind a `(`, a `,` or what is an operator if signs are not told apart.
-/
theorem ofText_byPosition_iff (text : String) :
    (ofText .byPosition text).length = (ofText .alwaysBinary text).length ∧
      ∀ i,
        ((ofText .byPosition text)[i]? = some (sign .plus) ↔
          (ofText .alwaysBinary text)[i]? = some (op .add) ∧
            StartsOperand (ofText .alwaysBinary text) i) ∧
        ((ofText .byPosition text)[i]? = some (sign .minus) ↔
          (ofText .alwaysBinary text)[i]? = some (op .subtract) ∧
            StartsOperand (ofText .alwaysBinary text) i) ∧
        ((ofText .byPosition text)[i]? = (ofText .alwaysBinary text)[i]? ∨
          ∃ s, (ofText .byPosition text)[i]? = some (sign s)) := by
  have hts : ∀ s, sign s ∉ ofText .alwaysBinary text := by
    intro s hs
    exact isLexical_scan text.toList (sign s) hs
  have hmarks : ofText .byPosition text = markSigns true (ofText .alwaysBinary text) := rfl
  rw [hmarks]
  refine ⟨length_markSigns _ _, fun i => ⟨?_, ?_, ?_⟩⟩
  · exact getElem?_markSigns_eq_sign_iff hts i .plus
  · exact getElem?_markSigns_eq_sign_iff hts i .minus
  · exact getElem?_markSigns_eq_self_or true _ i

/-- A chain of signs goes back to the operator before it; behind `)` there is no sign. -/
example : markSigns true [.number "3", .op .power, .op .subtract, .op .add, .rparen, .op .subtract]
    = [.number "3", .op .power, .sign .minus, .sign .plus, .rparen, .op .subtract] := rfl

end ReversePolish.Token
