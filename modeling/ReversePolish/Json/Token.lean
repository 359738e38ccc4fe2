/-
The tokens of JSON and how they are spelled.

A token is spelled in the shortest way: a string escapes only what has to be
escaped.  Blanks may stand between any two tokens and mean nothing.
-/
import ReversePolish.Json

namespace ReversePolish.Json

inductive Token where
  | openArray
  | closeArray
  | openObject
  | closeObject
  | comma
  | colon
  | null
  | bool (b : Bool)
  | number (spelling : List Char)
  | string (content : List Piece)
  deriving DecidableEq, Repr

/-- The escape with the four-digit code of `code`. -/
def codeEscape (code : Nat) : List Char :=
  let digits := Nat.toDigits 16 code
  '\\' :: 'u' :: (List.replicate (4 - digits.length) '0' ++ digits)

/-- A place of a string: quote, backslash and control characters are escaped. -/
def Piece.spelling : Piece → List Char
  | half code => codeEscape code
  | char c =>
    if c = '"' then ['\\', '"']
    else if c = '\\' then ['\\', '\\']
    else if c < ' ' then codeEscape c.toNat
    else [c]

def Token.spelling : Token → List Char
  | openArray => ['[']
  | closeArray => [']']
  | openObject => ['\x7b']
  | closeObject => ['\x7d']
  | comma => [',']
  | colon => [':']
  | null => "null".toList
  | bool true => "true".toList
  | bool false => "false".toList
  | number spelling => spelling
  | string content => '"' :: content.flatMap Piece.spelling ++ ['"']

/-! ### Writing a value -/

mutual

/-- The tokens of a value. -/
def tokens : Json → List Token
  | null => [.null]
  | bool b => [.bool b]
  | number spelling => [.number spelling]
  | string content => [.string content]
  | array [] => [.openArray, .closeArray]
  | array (i :: is) => .openArray :: (tokens i ++ moreItems is)
  | object [] => [.openObject, .closeObject]
  | object ((name, v) :: ms) =>
    .openObject :: .string name :: .colon :: (tokens v ++ moreMembers ms)

/-- The tokens behind an item of an array, up to the end of the array. -/
def moreItems : List Json → List Token
  | [] => [.closeArray]
  | i :: is => .comma :: (tokens i ++ moreItems is)

/-- The tokens behind a member of an object, up to the end of the object. -/
def moreMembers : List (List Piece × Json) → List Token
  | [] => [.closeObject]
  | (name, v) :: ms => .comma :: .string name :: .colon :: (tokens v ++ moreMembers ms)

end

/-- The value as text, with no blank between two tokens. -/
def compact (j : Json) : String := String.ofList (j.tokens.flatMap Token.spelling)

end ReversePolish.Json
