/-
Configurations as JSON.

Writing gives an object with every field in its fixed order.  Reading takes a
record (see `Json.Record`) at both levels; its integers have to be spelled with
digits alone and fit the width of their field.
-/
import ReversePolish.Config
import ReversePolish.Json.Reader
import ReversePolish.Json.Record

namespace ReversePolish

/-! ### Writing -/

def Weights.toJson (w : Weights) : Json :=
  .ofMembers (w.table.map fun e => (e.1.key, .ofNat e.2.toNat))

def Config.toJson (c : Config) : Json :=
  .ofMembers
    [("max_depth", .ofNat c.maxDepth.toNat), ("max_number", .ofNat c.maxNumber.toNat),
     ("weights", c.weights.toJson)]

/-- The configuration as text, without blanks. -/
def Config.text (c : Config) : String := c.toJson.compact

/-! ### Reading -/

/-- A weight has 32 bits. -/
def readWeight? (j : Json) : Option UInt32 := do
  let n ← j.nat?
  if n < UInt32.size then some (.ofNat n) else none

/-- A limit has 64 bits. -/
def readLimit? (j : Json) : Option UInt64 := do
  let n ← j.nat?
  if n < UInt64.size then some (.ofNat n) else none

/-- The names of the weights in a configuration. -/
def Weights.fieldNames : List String := NodeKind.all.map NodeKind.key

def Weights.ofJson? (j : Json) : Option Weights := do
  let given ← j.fields? fieldNames
  let read (k : NodeKind) : Option UInt32 :=
    Json.field? given k.key readWeight? (weight {} k)
  return {
    unaryMinus := ← read (.sign .minus)
    unaryPlus := ← read (.sign .plus)
    add := ← read (.bin .add)
    subtract := ← read (.bin .subtract)
    multiply := ← read (.bin .multiply)
    divide := ← read (.bin .divide)
    power := ← read (.bin .power)
    number := ← read .number
    call := ← read .call }

/-- The names of the fields of a configuration. -/
def Config.fieldNames : List String := ["max_depth", "max_number", "weights"]

def Config.ofJson? (j : Json) : Option Config := do
  let given ← j.fields? fieldNames
  let standard : Config := {}
  return {
    maxDepth := ← Json.field? given "max_depth" readLimit? standard.maxDepth
    maxNumber := ← Json.field? given "max_number" readLimit? standard.maxNumber
    weights := ← Json.field? given "weights" Weights.ofJson? standard.weights }

/-- The configuration that a text gives, if it gives one. -/
def Config.ofText? (text : String) : Option Config := Json.parse? text >>= ofJson?

end ReversePolish
