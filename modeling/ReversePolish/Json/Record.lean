/-
Reading a record of named fields from a JSON value.

A record may be given as an object or as an array.  In an object the members may
come in any order, and names that the record does not know are passed over with
whatever they hold; but a known name may come only once, and every name has to be
a text.  In an array the fields come in their own order and the last ones may be
missing.  A field that is not given takes its default.
-/
import ReversePolish.Json

namespace ReversePolish.Json

/-- The members of an object with their names as texts. -/
def named? : List (List Piece × Json) → Option (List (String × Json))
  | [] => some []
  | (name, v) :: ms => do
    let text ← Piece.text? name
    let rest ← named? ms
    return (String.ofList text, v) :: rest

/-- The fields that are given for a record with the field names `names`. -/
def fields? (names : List String) : Json → Option (List (String × Json))
  | array items => if items.length ≤ names.length then some (names.zip items) else none
  | object members => do
    let given ← named? members
    if ((given.map Prod.fst).filter (· ∈ names)).Nodup then some given else none
  | _ => none

/-- The value of one field, `default` if it is not given. -/
def field? {α : Type} (given : List (String × Json)) (name : String) (read : Json → Option α)
    (default : α) : Option α :=
  match given.lookup name with
  | none => some default
  | some v => read v

end ReversePolish.Json
