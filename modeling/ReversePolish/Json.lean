/-
JSON values, kept close enough to their text that nothing a reader may ask about
is lost: a number keeps its spelling, an object keeps all its members in order,
and a string keeps an escaped half of a surrogate pair even if the other half is
missing.  Such a string is well formed but denotes no text (`Piece.text?`).
-/

namespace ReversePolish

namespace Json

/-- What one place of a string holds. -/
inductive Piece where
  | char (c : Char)
  /-- One half of a surrogate pair, written as an escape. -/
  | half (code : Nat)
  deriving DecidableEq, Repr

namespace Piece

/-- The halves of a surrogate pair that may come first. -/
def isHigh (code : Nat) : Bool := 0xD800 ≤ code && code < 0xDC00

/-- The halves of a surrogate pair that may come second. -/
def isLow (code : Nat) : Bool := 0xDC00 ≤ code && code < 0xE000

/-- What an escape with a four-digit code stands for. -/
def ofCode (code : Nat) : Piece :=
  if isHigh code || isLow code then half code else char (Char.ofNat code)

/-- The character of a surrogate pair. -/
def joinHalves (high low : Nat) : Char :=
  Char.ofNat (0x10000 + (high - 0xD800) * 0x400 + (low - 0xDC00))

/-- The text of a string, if each half of a pair in it has its other half right beside it. -/
def text? : List Piece → Option (List Char)
  | [] => some []
  | char c :: ps => (c :: ·) <$> text? ps
  | half high :: half low :: ps =>
    if isHigh high && isLow low then (joinHalves high low :: ·) <$> text? ps else none
  | half _ :: _ => none

/-- A text as the content of a string. -/
def ofText (text : String) : List Piece := text.toList.map char

end Piece

end Json

inductive Json where
  | null
  | bool (b : Bool)
  /-- A number as it is spelled. -/
  | number (spelling : List Char)
  | string (content : List Json.Piece)
  | array (items : List Json)
  /-- Members in order; a name may come more than once. -/
  | object (members : List (List Json.Piece × Json))
  deriving Repr

namespace Json

/-- A natural number, spelled without leading zeros. -/
def ofNat (n : Nat) : Json := number (Nat.toDigits 10 n)

/-- The value of a number that is spelled with digits alone. -/
def nat? : Json → Option Nat
  | number spelling =>
    if spelling.all Char.isDigit then some (Nat.ofDigitChars 10 spelling 0) else none
  | _ => none

/-- An object whose names are texts. -/
def ofMembers (members : List (String × Json)) : Json :=
  object (members.map fun m => (Piece.ofText m.1, m.2))

end Json

end ReversePolish
