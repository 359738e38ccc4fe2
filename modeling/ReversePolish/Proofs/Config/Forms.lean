/-
The two forms of a configuration: an array of its values, and an object that names them.

The names of the fields are all different, so the object that names the values of an array in
the order of the fields is never refused for a name that comes twice.  A field that the array
does not reach is not named in the object, and both leave it to its default.

A configuration is a record in which a record stands.  That arrays are read as objects is a
fact about records (`Json.fields?_array`), and so it holds of the outer one and of the inner
one each for itself.  To have it of weights within a configuration, it has to be said in
addition that a configuration reads its weights as weights and looks at nothing else of them,
in whichever form it is given itself and whatever members stand around them
(`WeightsPlace.exists_reading`).
-/
import ReversePolish.Proofs.Config.Json
import ReversePolish.Proofs.Json.Compact

namespace ReversePolish

open Json (Piece text?_ofText isPlain_ofNat isPlain_array isPlain_ofMembers)

/-! ### Weights -/

namespace Weights

theorem ofJson?_array {ws : List Json} (h : ws.length ≤ 9) :
    ofJson? (.array ws) = ofJson? (.ofMembers (fieldNames.zip ws)) := by
  have hgiven : (Json.array ws).fields? fieldNames
      = (Json.ofMembers (fieldNames.zip ws)).fields? fieldNames :=
    Json.fields?_array NodeKind.nodup_keys h
  rw [ofJson?, ofJson?, hgiven]

theorem ofJson?_array_eq_none {ws : List Json} (h : 9 < ws.length) :
    ofJson? (.array ws) = none := by
  have hgiven : (Json.array ws).fields? fieldNames = none := Json.fields?_array_eq_none h
  rw [ofJson?, hgiven]
  rfl

end Weights

/-! ### Configurations -/

namespace Config

theorem ofJson?_array {vs : List Json} (h : vs.length ≤ 3) :
    ofJson? (.array vs) = ofJson? (.ofMembers (fieldNames.zip vs)) := by
  have hgiven : (Json.array vs).fields? fieldNames
      = (Json.ofMembers (fieldNames.zip vs)).fields? fieldNames :=
    Json.fields?_array (by decide) h
  rw [ofJson?, ofJson?, hgiven]

theorem ofJson?_array_eq_none {vs : List Json} (h : 3 < vs.length) :
    ofJson? (.array vs) = none := by
  have hgiven : (Json.array vs).fields? fieldNames = none := Json.fields?_array_eq_none h
  rw [ofJson?, hgiven]
  rfl

/-- Where the weights may stand in a configuration: behind the two limits of an array, or under
their name in an object, with any members before and behind them. -/
inductive WeightsPlace : (Json → Json) → Prop
  | item (depth number : Json) : WeightsPlace fun w => .array [depth, number, w]
  | member (before after : List (List Piece × Json)) {name : List Piece}
      (hname : Piece.text? name = some "weights".toList) :
      WeightsPlace fun w => .object (before ++ (name, w) :: after)

namespace WeightsPlace

variable {place : Json → Json}

theorem exists_given (h : WeightsPlace place) :
    (∀ w, (place w).fields? fieldNames = none) ∨
      ∃ above below, "weights" ∉ above.map Prod.fst ∧
        ∀ w, (place w).fields? fieldNames = some (above ++ ("weights", w) :: below) := by
  cases h with
  | item depth number =>
      refine Or.inr ⟨[("max_depth", depth), ("max_number", number)], [], ?_, fun w => rfl⟩
      simp
  | member before after hname =>
      exact Json.exists_given_of_member hname (by decide) before after

/-- **A configuration reads its weights as weights**, and the limits do not depend on them. -/
theorem exists_reading (h : WeightsPlace place) :
    ∃ limits : Option (UInt64 × UInt64), ∀ w, ofJson? (place w)
      = limits.bind fun l => (Weights.ofJson? w).map fun ws => ⟨l.1, l.2, ws⟩ := by
  rcases h.exists_given with hnone | ⟨above, below, hfirst, hgiven⟩
  · refine ⟨none, fun w => ?_⟩
    rw [ofJson?, hnone w]
    rfl
  · refine ⟨do
      let depth ← Json.field? (above ++ below) "max_depth" readLimit? ({} : Config).maxDepth
      let number ← Json.field? (above ++ below) "max_number" readLimit? ({} : Config).maxNumber
      return (depth, number), fun w => ?_⟩
    have hdepth : "max_depth" ≠ "weights" := by decide
    have hnumber : "max_number" ≠ "weights" := by decide
    rw [ofJson?, hgiven w]
    simp only [Option.bind_eq_bind, Option.bind_some, Json.field?_other hdepth,
      Json.field?_other hnumber, Json.field?_given hfirst]
    cases Json.field? (above ++ below) "max_depth" readLimit? ({} : Config).maxDepth <;>
      cases Json.field? (above ++ below) "max_number" readLimit? ({} : Config).maxNumber <;>
        cases Weights.ofJson? w <;> rfl

theorem ofJson?_congr (h : WeightsPlace place) {w w' : Json}
    (heq : Weights.ofJson? w = Weights.ofJson? w') : ofJson? (place w) = ofJson? (place w') := by
  obtain ⟨limits, hread⟩ := h.exists_reading
  rw [hread, hread, heq]

theorem ofJson?_eq_none (h : WeightsPlace place) {w : Json} (hnone : Weights.ofJson? w = none) :
    ofJson? (place w) = none := by
  obtain ⟨limits, hread⟩ := h.exists_reading
  rw [hread, hnone]
  cases limits <;> rfl

end WeightsPlace

/-- Every text of the one value gives what every text of the other one gives. -/
def ReadAlike (j j' : Json) : Prop :=
  ∀ text text' : String, Json.Writes j.tokens text.toList → Json.Writes j'.tokens text'.toList →
    ofText? text = ofText? text'

/-- No text of the value gives a configuration. -/
def IsRejected (j : Json) : Prop :=
  ∀ text : String, Json.Writes j.tokens text.toList → ofText? text = none

theorem ofText?_of_writes {j : Json} {text : String} (h : Json.Writes j.tokens text.toList) :
    ofText? text = ofJson? j := by
  rw [ofText?, Json.parse?_of_writes h]
  rfl

theorem readAlike_of_eq {j j' : Json} (h : ofJson? j = ofJson? j') : ReadAlike j j' := by
  intro text text' hw hw'
  rw [ofText?_of_writes hw, ofText?_of_writes hw', h]

theorem isRejected_of_eq_none {j : Json} (h : ofJson? j = none) : IsRejected j := by
  intro text hw
  rw [ofText?_of_writes hw, h]

/--
**It makes no difference whether a record is given as an array or as an object.**

The values of an array stand for the first fields of a configuration in the order in which they
are declared, whatever the values are and whether or not they can be read.  The same holds of
weights, wherever they stand in a configuration.  An array with more values than there are
fields is rejected at either level.
-/
theorem arrays_read_as_objects :
    (∀ vs : List Json, vs.length ≤ 3 →
        ReadAlike (.array vs) (.ofMembers (fieldNames.zip vs))) ∧
      (∀ place, WeightsPlace place → ∀ ws : List Json, ws.length ≤ 9 →
        ReadAlike (place (.array ws)) (place (.ofMembers (Weights.fieldNames.zip ws)))) ∧
      (∀ vs : List Json, 3 < vs.length → IsRejected (.array vs)) ∧
      ∀ place, WeightsPlace place → ∀ ws : List Json, 9 < ws.length →
        IsRejected (place (.array ws)) := by
  refine ⟨fun vs h => readAlike_of_eq (ofJson?_array h), fun place hplace ws h => ?_,
    fun vs h => isRejected_of_eq_none (ofJson?_array_eq_none h), fun place hplace ws h => ?_⟩
  · exact readAlike_of_eq (hplace.ofJson?_congr (Weights.ofJson?_array h))
  · exact isRejected_of_eq_none (hplace.ofJson?_eq_none (Weights.ofJson?_array_eq_none h))

/-- Weights as an array and as an object, in a configuration that is an array and in one that is
an object with its members in another order; and an array with one value too many. -/
theorem arrays_read_as_objects_nested :
    ofText? "[7,5,[3,4294967296]]"
        = ofText? "\x7b\"max_depth\":7,\"max_number\":5,\"weights\":[3,4294967296]\x7d" ∧
      ofText? "\x7b\"weights\":[3,4],\"max_depth\":7\x7d"
        = ofText? "\x7b\"weights\":\x7b\"unary_minus\":3,\"unary_plus\":4\x7d,\"max_depth\":7\x7d" ∧
      ofText? "[7,5,[3,4],1]" = none := by
  obtain ⟨harray, hweights, hlong, -⟩ := arrays_read_as_objects
  have hpair (m n : Nat) : (Json.array [.ofNat m, .ofNat n]).IsPlain :=
    isPlain_array (by simp [isPlain_ofNat])
  have hnamed (m n : Nat) :
      (Json.ofMembers [("unary_minus", .ofNat m), ("unary_plus", .ofNat n)]).IsPlain :=
    isPlain_ofMembers (by simp [isPlain_ofNat])
  have hitems : (Json.array [.ofNat 7, .ofNat 5, .array [.ofNat 3, .ofNat 4294967296]]).IsPlain :=
    isPlain_array (by simp [isPlain_ofNat, hpair])
  have hmembers : (Json.ofMembers [("max_depth", .ofNat 7), ("max_number", .ofNat 5),
      ("weights", .array [.ofNat 3, .ofNat 4294967296])]).IsPlain :=
    isPlain_ofMembers (by simp [isPlain_ofNat, hpair])
  refine ⟨?_, ?_, ?_⟩
  · exact harray _ (by decide) _ _ hitems.writes_compact hmembers.writes_compact
  · have hfirst : (Json.ofMembers [("weights", .array [.ofNat 3, .ofNat 4]),
        ("max_depth", .ofNat 7)]).IsPlain := isPlain_ofMembers (by simp [isPlain_ofNat, hpair])
    have hsecond : (Json.ofMembers [("weights",
        .ofMembers [("unary_minus", .ofNat 3), ("unary_plus", .ofNat 4)]),
        ("max_depth", .ofNat 7)]).IsPlain := isPlain_ofMembers (by simp [isPlain_ofNat, hnamed])
    exact hweights _ (.member [] [(Piece.ofText "max_depth", .ofNat 7)] (text?_ofText "weights"))
      [.ofNat 3, .ofNat 4] (by decide) _ _ hfirst.writes_compact hsecond.writes_compact
  · have hplain : (Json.array [.ofNat 7, .ofNat 5, .array [.ofNat 3, .ofNat 4],
        .ofNat 1]).IsPlain := isPlain_array (by simp [isPlain_ofNat, hpair])
    exact hlong _ (by decide) _ hplain.writes_compact

end Config

end ReversePolish
