/-
Cutting a text into tokens.

The eight delimiters `+ - * / ^ ( ) ,` are tokens by themselves.  What stands
between two of them is one fragment, with the blanks around it removed and the
blanks inside it kept: `3 4` is one illegal fragment, not two numbers.

`next` takes one token off the front of a text.  Each token but the last costs at
least one character (`length_next_lt`), which is why `scan` ends.  Behind the end
of the text there are only `eof` tokens.

Here a `+` or a `-` is always the binary operator.
-/
import ReversePolish.Text.Blank
import ReversePolish.Token

namespace ReversePolish.Token

open Text

/-- The token of a delimiter. -/
def delimiter? (c : Char) : Option Token :=
  match c with
  | '+' => some (op .add)
  | '-' => some (op .subtract)
  | '*' => some (op .multiply)
  | '/' => some (op .divide)
  | '^' => some (op .power)
  | '(' => some lparen
  | ')' => some rparen
  | ',' => some comma
  | _ => none

/-- Whether `c` can stand in a fragment. -/
def isInner (c : Char) : Bool := (delimiter? c).isNone

/-- The first token of a text and what follows it. -/
def next (cs : List Char) : Token × List Char :=
  match cs.dropWhile isBlank with
  | [] => (eof, [])
  | c :: rest =>
    match delimiter? c with
    | some t => (t, rest)
    | none =>
      (ofFragment (trimEnd ((c :: rest).takeWhile isInner)), (c :: rest).dropWhile isInner)

theorem length_dropWhile_le (p : Char → Bool) (cs : List Char) :
    (cs.dropWhile p).length ≤ cs.length :=
  (List.dropWhile_sublist p).length_le

/-- Every token but the end of the text takes at least one character with it. -/
theorem length_next_lt {cs rest : List Char} {t : Token} (h : next cs = (t, rest)) (ht : t ≠ eof) :
    rest.length < cs.length := by
  unfold next at h
  have hle := length_dropWhile_le isBlank cs
  split at h
  · exact absurd (Prod.mk.inj h).1.symm ht
  · next c tail hcs =>
    rw [hcs, List.length_cons] at hle
    split at h
    · obtain ⟨_, rfl⟩ := Prod.mk.inj h
      omega
    · next hc =>
      obtain ⟨_, rfl⟩ := Prod.mk.inj h
      have hinner : isInner c = true := by simp [isInner, hc]
      rw [List.dropWhile_cons_of_pos hinner]
      have := length_dropWhile_le isInner tail
      omega

/-- All tokens of a text, the end not among them. -/
def scan (cs : List Char) : List Token :=
  match _h : next cs with
  | (t, rest) => if _ht : t = eof then [] else t :: scan rest
termination_by cs.length
decreasing_by exact length_next_lt _h _ht

/-- The first `n` tokens of a text, with `eof` once the text is used up. -/
def firstTokens : Nat → List Char → List Token
  | 0, _ => []
  | n + 1, cs => (next cs).1 :: firstTokens n (next cs).2

end ReversePolish.Token
