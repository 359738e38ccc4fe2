/-
Cutting JSON text into tokens.

Only four characters are blank here.  A number is the longest run of characters
that numbers are spelled with, and a literal the longest run of letters; since
nothing but a blank, a mark or the end can follow either, a run that is longer
than a number or literal has no place in JSON text at all.

A string may hold any character but a quote, a backslash and the control
characters below the space, and the escapes listed in `escape?`.
-/
import ReversePolish.Json.Token

namespace ReversePolish.Json

/-- The blanks of JSON. -/
def isSpace (c : Char) : Bool := c = ' ' || c = '\t' || c = '\n' || c = '\r'

/-! ### Strings -/

/-- The value of a hexadecimal digit, in upper or lower case. -/
def hexValue? (c : Char) : Option Nat :=
  if c.isDigit then some (c.toNat - '0'.toNat)
  else if 'a' ≤ c ∧ c ≤ 'f' then some (c.toNat - 'a'.toNat + 10)
  else if 'A' ≤ c ∧ c ≤ 'F' then some (c.toNat - 'A'.toNat + 10)
  else none

/-- The code that four hexadecimal digits spell. -/
def code? (a b c d : Char) : Option Nat := do
  return (((← hexValue? a) * 16 + (← hexValue? b)) * 16 + (← hexValue? c)) * 16 + (← hexValue? d)

/-- The character of an escape with one letter. -/
def escape? : Char → Option Char
  | '"' => some '"'
  | '\\' => some '\\'
  | '/' => some '/'
  | 'b' => some '\x08'
  | 'f' => some '\x0c'
  | 'n' => some '\n'
  | 'r' => some '\r'
  | 't' => some '\t'
  | _ => none

/-- The content of a string up to its closing quote, and what follows the quote. -/
def string? : List Char → Option (List Piece × List Char)
  | [] => none
  | c :: rest =>
    if c = '"' then some ([], rest)
    else if c = '\\' then
      match rest with
      | 'u' :: x :: y :: z :: w :: rest => do
        let code ← code? x y z w
        let (ps, rest) ← string? rest
        return (.ofCode code :: ps, rest)
      | e :: rest => do
        let c ← escape? e
        let (ps, rest) ← string? rest
        return (.char c :: ps, rest)
      | [] => none
    else if c < ' ' then none
    else do
      let (ps, rest) ← string? rest
      return (.char c :: ps, rest)

/-- A string takes at least its closing quote with it. -/
theorem length_string?_lt {cs rest : List Char} {ps : List Piece}
    (h : string? cs = some (ps, rest)) : rest.length < cs.length := by
  fun_induction string? cs generalizing ps rest with
  | case1 => exact absurd h nofun
  | case2 =>
    obtain ⟨_, rfl⟩ := Prod.mk.inj (Option.some.inj h)
    simp
  | case3 _ x y z w tail ih =>
    simp only [Option.bind_eq_bind, Option.bind_eq_some_iff, Option.pure_def] at h
    obtain ⟨_, _, ⟨qs, tail'⟩, hq, h⟩ := h
    obtain ⟨_, rfl⟩ := Prod.mk.inj (Option.some.inj h)
    have := ih hq
    simp only [List.length_cons]
    omega
  | case4 _ e tail _ ih =>
    simp only [Option.bind_eq_bind, Option.bind_eq_some_iff, Option.pure_def] at h
    obtain ⟨_, _, ⟨qs, tail'⟩, hq, h⟩ := h
    obtain ⟨_, rfl⟩ := Prod.mk.inj (Option.some.inj h)
    have := ih hq
    simp only [List.length_cons]
    omega
  | case5 => exact absurd h nofun
  | case6 => exact absurd h nofun
  | case7 c tail _ _ _ ih =>
    simp only [Option.bind_eq_bind, Option.bind_eq_some_iff, Option.pure_def] at h
    obtain ⟨⟨qs, tail'⟩, hq, h⟩ := h
    obtain ⟨_, rfl⟩ := Prod.mk.inj (Option.some.inj h)
    have := ih hq
    simp only [List.length_cons]
    omega

/-! ### Numbers and literals -/

/-- The characters that numbers are spelled with. -/
def isNumberChar (c : Char) : Bool := c.isDigit || c ∈ ['-', '+', '.', 'e', 'E']

/-- What follows a run of at least one digit. -/
def afterDigits? (cs : List Char) : Option (List Char) :=
  match cs with
  | [] => none
  | c :: rest => if c.isDigit then some (rest.dropWhile Char.isDigit) else none

/-- What follows the minus of a number that has one. -/
def afterMinus : List Char → List Char
  | '-' :: cs => cs
  | cs => cs

/-- What follows the whole part: a zero, or digits that do not start with one. -/
def afterWhole? : List Char → Option (List Char)
  | '0' :: cs => some cs
  | cs => afterDigits? cs

/-- What follows the fraction of a number that has one. -/
def afterFraction? : List Char → Option (List Char)
  | '.' :: cs => afterDigits? cs
  | cs => some cs

/-- What follows the sign of an exponent that has one. -/
def afterSign : List Char → List Char
  | '+' :: cs => cs
  | '-' :: cs => cs
  | cs => cs

/-- What follows the exponent of a number that has one. -/
def afterExponent? : List Char → Option (List Char)
  | 'e' :: cs => afterDigits? (afterSign cs)
  | 'E' :: cs => afterDigits? (afterSign cs)
  | cs => some cs

/-- Whether the characters spell a number. -/
def isNumber (cs : List Char) : Bool :=
  (afterWhole? (afterMinus cs) >>= afterFraction? >>= afterExponent?) == some []

/-- The number with a spelling. -/
def number? (spelling : List Char) : Option Token :=
  if isNumber spelling then some (.number spelling) else none

/-- The literal with a name. -/
def literal? (name : List Char) : Option Token :=
  if name = "null".toList then some .null
  else if name = "true".toList then some (.bool true)
  else if name = "false".toList then some (.bool false)
  else none

/-! ### Tokens -/

/-- The token that starts with `c`, and what follows it. -/
def next? (c : Char) (rest : List Char) : Option (Token × List Char) :=
  match c with
  | '[' => some (.openArray, rest)
  | ']' => some (.closeArray, rest)
  | '\x7b' => some (.openObject, rest)
  | '\x7d' => some (.closeObject, rest)
  | ',' => some (.comma, rest)
  | ':' => some (.colon, rest)
  | '"' => do
    let (content, rest) ← string? rest
    return (.string content, rest)
  | c =>
    if isNumberChar c then do
      let t ← number? (c :: rest.takeWhile isNumberChar)
      return (t, rest.dropWhile isNumberChar)
    else do
      let t ← literal? (c :: rest.takeWhile Char.isAlpha)
      return (t, rest.dropWhile Char.isAlpha)

/-- A token takes nothing back. -/
theorem length_next?_le {c : Char} {rest rest' : List Char} {t : Token}
    (h : next? c rest = some (t, rest')) : rest'.length ≤ rest.length := by
  unfold next? at h
  split at h
  case h_7 =>
    simp only [Option.bind_eq_bind, Option.bind_eq_some_iff, Option.pure_def] at h
    obtain ⟨⟨content, tail⟩, hs, h⟩ := h
    obtain ⟨_, rfl⟩ := Prod.mk.inj (Option.some.inj h)
    exact Nat.le_of_lt (length_string?_lt hs)
  case h_8 =>
    split at h <;>
      · simp only [Option.bind_eq_bind, Option.bind_eq_some_iff, Option.pure_def] at h
        obtain ⟨_, _, h⟩ := h
        obtain ⟨_, rfl⟩ := Prod.mk.inj (Option.some.inj h)
        exact (List.dropWhile_sublist _).length_le
  all_goals
    obtain ⟨_, rfl⟩ := Prod.mk.inj (Option.some.inj h)
    exact Nat.le_refl _

/-- The tokens of a text, if it consists of tokens and blanks. -/
def scan? : List Char → Option (List Token)
  | [] => some []
  | c :: rest =>
    if isSpace c then scan? rest
    else
      match _h : next? c rest with
      | none => none
      | some (t, rest') => (t :: ·) <$> scan? rest'
termination_by cs => cs.length
decreasing_by
  · simp
  · have := length_next?_le _h
    simp only [List.length_cons]
    omega

end ReversePolish.Json
