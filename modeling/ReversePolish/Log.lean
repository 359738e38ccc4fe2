/-
Log lines: a level and a message.
-/

namespace ReversePolish

inductive Level where
  | trace
  | debug
  | warn
  deriving DecidableEq, Repr

/-- The name of a level as it is written. -/
def Level.name : Level → String
  | trace => "TRACE"
  | debug => "DEBUG"
  | warn => "WARN"

/-- One line of the log. -/
structure LogLine where
  level : Level
  message : String
  deriving DecidableEq, Repr

end ReversePolish
