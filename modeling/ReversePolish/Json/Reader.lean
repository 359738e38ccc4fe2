/-
From the tokens of a JSON text to its value.

Reading is a run over the tokens.  Between two tokens, all that matters is what
may come next (`Place`) and which arrays and objects are open around that place
(`Frame`), so values may be nested to any depth.  A text holds exactly one value,
and a list or an object has no comma behind its last entry.
-/
import ReversePolish.Json.Lexer

namespace ReversePolish.Json

/-- An array or object that is open, with what has been read of it, the last entry first. -/
inductive Frame where
  | array (before : List Json)
  /-- The value of the member `name` is being read. -/
  | object (before : List (List Piece × Json)) (name : List Piece)
  deriving Repr

/-- A place between two tokens. -/
inductive Place where
  /-- A value has to start here. -/
  | value (around : List Frame)
  /-- Behind a `[`. -/
  | firstItem (around : List Frame)
  /-- Behind the brace that opens an object. -/
  | firstName (around : List Frame)
  /-- Behind a `,` in an object. -/
  | name (before : List (List Piece × Json)) (around : List Frame)
  /-- Behind the name of a member. -/
  | colon (before : List (List Piece × Json)) (name : List Piece) (around : List Frame)
  /-- Behind a whole value. -/
  | done (v : Json) (around : List Frame)
  deriving Repr

namespace Place

/-- The place behind the first token of a value. -/
def startValue (around : List Frame) : Token → Option Place
  | .openArray => some (firstItem around)
  | .openObject => some (firstName around)
  | .null => some (done .null around)
  | .bool b => some (done (.bool b) around)
  | .number spelling => some (done (.number spelling) around)
  | .string content => some (done (.string content) around)
  | .closeArray | .closeObject | .comma | .colon => none

/-- The place behind the value `v` and one more token. -/
def goOn (v : Json) : List Frame → Token → Option Place
  | .array before :: around, .comma => some (value (.array (v :: before) :: around))
  | .array before :: around, .closeArray => some (done (.array (v :: before).reverse) around)
  | .object before n :: around, .comma => some (name ((n, v) :: before) around)
  | .object before n :: around, .closeObject =>
    some (done (.object ((n, v) :: before).reverse) around)
  | _, _ => none

/-- The place behind one more token. -/
def step : Place → Token → Option Place
  | value around, t => startValue around t
  | firstItem around, .closeArray => some (done (.array []) around)
  | firstItem around, t => startValue (.array [] :: around) t
  | firstName around, .closeObject => some (done (.object []) around)
  | firstName around, .string n => some (colon [] n around)
  | firstName _, _ => none
  | name before around, .string n => some (colon before n around)
  | name _ _, _ => none
  | colon before n around, .colon => some (value (.object before n :: around))
  | colon _ _ _, _ => none
  | done v around, t => goOn v around t

/-- The value of a text that ends here. -/
def finish? : Place → Option Json
  | done v [] => some v
  | _ => none

end Place

/-- The value that the tokens spell. -/
def ofTokens? (ts : List Token) : Option Json :=
  ts.foldlM Place.step (.value []) >>= Place.finish?

/-- The value of a JSON text. -/
def parse? (text : String) : Option Json := scan? text.toList >>= ofTokens?

end ReversePolish.Json
