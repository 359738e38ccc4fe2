/-
What a conversion says about itself while it runs.

Each token taken is a visit: the token, and the conversion as it stood before.
The visits go up to and including the token that causes a fault, so a log shows
the token that could not be taken and nothing behind it.
-/
import ReversePolish.Conversion
import ReversePolish.Log

namespace ReversePolish.Conversion

/-- A token and the conversion that is about to take it. -/
structure Visit where
  token : Token
  before : Conversion
  deriving DecidableEq, Repr

/-- The visits of a run that goes on from `c`. -/
def visits (c : Conversion) : List Token → List Visit
  | [] => []
  | t :: ts =>
    ⟨t, c⟩ ::
      match c.take t with
      | .ok next => visits next ts
      | .error _ => []

/-- A visit in words: the token, the stack from the bottom up, the output from the start. -/
def Visit.message (v : Visit) : String :=
  "token " ++ v.token.text ++ " | stack [" ++ Token.joined v.before.stack.reverse ++
    "] | output [" ++ Token.joined v.before.output.toList ++ "]"

def Visit.line (v : Visit) : LogLine := ⟨.trace, v.message⟩

/-- What `convert` logs: a line for each token taken. -/
def log (ts : List Token) : List LogLine := (start.visits ts).map Visit.line

/-- The line on how the conversion of a text ended. -/
def outcomeLine (text : String) : Except Fault String → LogLine
  | .ok rpn => ⟨.debug, "converted '" ++ text ++ "' to '" ++ rpn ++ "'"⟩
  | .error fault => ⟨.warn, "failed to convert '" ++ text ++ "': " ++ fault.message⟩

/-- What `toRpn` logs: the lines of the conversion and then one on its outcome. -/
def textLog (reading : SignReading) (text : String) : List LogLine :=
  log (Token.ofText reading text) ++ [outcomeLine text (toRpn reading text)]

end ReversePolish.Conversion
