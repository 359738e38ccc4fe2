/-
Configurations that give some of their fields, in any order and among other members.

What the object gives is listed as members: a known name with a natural number, the
weights with members of their own, or a name that the record does not know, with any
value at all.  `Replaces` says which configuration such members ask for, field by field
and with no word about their order, and `IsRefused` what they must not do.

Neither speaks of text.  The members become an object (`objectOf`), and every text that
spells this object is meant, with its blanks and with the escapes in its strings.  So a
name is what its string stands for, however that is spelled.

The two levels are alike: the weights are a field whose value is once more an object, with
defaults of its own.  What is said of a field (`FieldIs`) is therefore the same everywhere.
-/
import ReversePolish.Proofs.Config.Json

namespace ReversePolish

open Json (Piece Repeats FieldIs exists_fields?_iff field?_eq_some_iff exists_field?
  text?_ofText isPlain_ofNat isPlain_ofMembers isPlain_string)

/-- A member whose name is not one of the known names. -/
structure Json.Unknown (known : List String) where
  name : List Json.Piece
  text : String
  text_eq : Json.Piece.text? name = some text.toList
  notMem : text ∉ known
  value : Json

/-- A member whose name is spelled as its text is. -/
def Json.Unknown.ofText {known : List String} (text : String) (h : text ∉ known) (value : Json) :
    Json.Unknown known :=
  ⟨Piece.ofText text, text, text?_ofText text, h, value⟩

/-! ### Weights -/

namespace Weights

/-- A member of an object that gives weights. -/
inductive Member where
  | weight (k : NodeKind) (n : Nat)
  | other (u : Json.Unknown fieldNames)

namespace Member

/-- The name of a member as a text. -/
def name : Member → String
  | weight k _ => k.key
  | other u => u.text

/-- The member as it stands in an object. -/
def entry : Member → List Piece × Json
  | weight k n => (Piece.ofText k.key, .ofNat n)
  | other u => (u.name, u.value)

theorem text?_entry (m : Member) : Piece.text? m.entry.1 = some m.name.toList := by
  cases m with
  | weight k n => exact text?_ofText k.key
  | other u => exact u.text_eq

theorem name_eq_key_iff {k : NodeKind} (m : Member) : m.name = k.key ↔ ∃ n, m = weight k n := by
  constructor
  · intro h
    cases m with
    | weight k' n =>
        obtain rfl := List.inj_on_of_nodup_map NodeKind.nodup_keys k'.mem_all k.mem_all h
        exact ⟨n, rfl⟩
    | other u =>
        have hknown : u.text ∈ fieldNames := by
          rw [show u.text = k.key from h]
          exact List.mem_map_of_mem k.mem_all
        exact absurd hknown u.notMem
  · rintro ⟨n, rfl⟩
    rfl

end Member

/-- The object with these members. -/
def objectOf (ms : List Member) : Json := .object (ms.map Member.entry)

/-- A weight is given twice or does not fit into 32 bits. -/
def IsRefused (ms : List Member) : Prop :=
  Repeats fieldNames (ms.map Member.name) ∨ ∃ k n, .weight k n ∈ ms ∧ UInt32.size ≤ n

/-- The default weights, but for the weights that the members give. -/
def Replaces (ms : List Member) (w : Weights) : Prop :=
  ∀ k, FieldIs (Member.weight k) (fun n x => x.toNat = n) (weight {} k) ms (w.weight k)

/-- The weights with a given weight for every kind. -/
def ofFn (f : NodeKind → UInt32) : Weights where
  unaryMinus := f (.sign .minus)
  unaryPlus := f (.sign .plus)
  add := f (.bin .add)
  subtract := f (.bin .subtract)
  multiply := f (.bin .multiply)
  divide := f (.bin .divide)
  power := f (.bin .power)
  number := f .number
  call := f .call

theorem weight_ofFn (f : NodeKind → UInt32) (k : NodeKind) : (ofFn f).weight k = f k := by
  cases k with
  | sign s => cases s <;> rfl
  | bin op => cases op <;> rfl
  | number | call => rfl

section Reading

variable {ms : List Member} {w : Weights}

theorem ofJson?_objectOf :
    ofJson? (objectOf ms) = some w ↔
      ¬ Repeats fieldNames (ms.map Member.name) ∧ Replaces ms w := by
  rw [ofJson?_eq_some_iff, objectOf, exists_fields?_iff Member.text?_entry]
  refine and_congr_right fun hrepeats => forall_congr' fun k => ?_
  exact field?_eq_some_iff hrepeats (List.mem_map_of_mem k.mem_all) Member.name_eq_key_iff
    fun n x => readWeight?_ofNat

/-- Members that nothing speaks against give weights. -/
theorem exists_ofJson?_objectOf (h : ¬ IsRefused ms) : ∃ w, ofJson? (objectOf ms) = some w := by
  obtain ⟨hrepeats, hwide⟩ := not_or.mp h
  have hread (k : NodeKind) :
      ∃ x, Json.field? (ms.map fun m => (m.name, m.entry.2)) k.key readWeight? (weight {} k)
        = some x := by
    refine exists_field? _ _ _ hrepeats (List.mem_map_of_mem k.mem_all) Member.name_eq_key_iff
      fun n hn => ⟨.ofNat n, readWeight?_ofNat.mpr (UInt32.toNat_ofNat_of_lt' ?_)⟩
    exact Nat.lt_of_not_le fun hle => hwide ⟨k, n, hn, hle⟩
  -- Every field has a value for itself, whatever the others have.
  choose f hf using hread
  refine ⟨ofFn f, ?_⟩
  rw [ofJson?_eq_some_iff, objectOf, exists_fields?_iff Member.text?_entry]
  refine ⟨hrepeats, fun k => ?_⟩
  rw [weight_ofFn]
  exact hf k

/-- Members give the weights that they ask for, unless they are refused. -/
theorem ofJson?_objectOf_eq_some_iff :
    ofJson? (objectOf ms) = some w ↔ ¬ IsRefused ms ∧ Replaces ms w := by
  rw [ofJson?_objectOf, IsRefused, not_or, and_assoc]
  refine and_congr_right fun _ => (and_iff_right_of_imp fun hreplaces => ?_).symm
  rintro ⟨k, n, hn, hle⟩
  have hlt := (w.weight k).toNat_lt_size
  rw [(hreplaces k).given n hn] at hlt
  exact absurd hle (Nat.not_le_of_lt hlt)

end Reading

end Weights

/-! ### Configurations -/

namespace Config

/-- A member of an object that gives a configuration. -/
inductive Member where
  | maxDepth (n : Nat)
  | maxNumber (n : Nat)
  | weights (ms : List Weights.Member)
  | other (u : Json.Unknown fieldNames)

namespace Member

/-- The name of a member as a text. -/
def name : Member → String
  | maxDepth _ => "max_depth"
  | maxNumber _ => "max_number"
  | weights _ => "weights"
  | other u => u.text

/-- The member as it stands in an object. -/
def entry : Member → List Piece × Json
  | maxDepth n => (Piece.ofText "max_depth", .ofNat n)
  | maxNumber n => (Piece.ofText "max_number", .ofNat n)
  | weights ms => (Piece.ofText "weights", Weights.objectOf ms)
  | other u => (u.name, u.value)

theorem text?_entry (m : Member) : Piece.text? m.entry.1 = some m.name.toList := by
  cases m with
  | maxDepth | maxNumber | weights => exact text?_ofText _
  | other u => exact u.text_eq

theorem name_other_ne {u : Json.Unknown fieldNames} {field : String} (h : field ∈ fieldNames) :
    (other u).name ≠ field := by
  rintro rfl
  exact u.notMem h

theorem name_eq_maxDepth_iff (m : Member) : m.name = "max_depth" ↔ ∃ n, m = maxDepth n := by
  cases m with
  | maxDepth | maxNumber | weights => simp [name]
  | other u => simpa using name_other_ne (by decide)

theorem name_eq_maxNumber_iff (m : Member) : m.name = "max_number" ↔ ∃ n, m = maxNumber n := by
  cases m with
  | maxDepth | maxNumber | weights => simp [name]
  | other u => simpa using name_other_ne (by decide)

theorem name_eq_weights_iff (m : Member) : m.name = "weights" ↔ ∃ ms, m = weights ms := by
  cases m with
  | maxDepth | maxNumber | weights => simp [name]
  | other u => simpa using name_other_ne (by decide)

end Member

/-- The object with these members. -/
def objectOf (ms : List Member) : Json := .object (ms.map Member.entry)

/-- A field is given twice, a limit does not fit into 64 bits, or weights are refused. -/
def IsRefused (ms : List Member) : Prop :=
  Repeats fieldNames (ms.map Member.name) ∨
    (∃ n, (.maxDepth n ∈ ms ∨ .maxNumber n ∈ ms) ∧ UInt64.size ≤ n) ∨
    ∃ ws, .weights ws ∈ ms ∧ Weights.IsRefused ws

/-- The default configuration, but for the fields that the members give. -/
structure Replaces (ms : List Member) (c : Config) : Prop where
  maxDepth : FieldIs .maxDepth (fun n x => x.toNat = n) ({} : Config).maxDepth ms c.maxDepth
  maxNumber : FieldIs .maxNumber (fun n x => x.toNat = n) ({} : Config).maxNumber ms c.maxNumber
  /-- What the given weights leave out has its default weight, whatever else is given. -/
  weights : FieldIs .weights Weights.Replaces ({} : Config).weights ms c.weights

section Reading

variable {ms : List Member} {c : Config}

/-- A limit that is given fits into its width. -/
theorem not_wide_of_given {make : Nat → Member} {default x : UInt64}
    (h : FieldIs make (fun n x => x.toNat = n) default ms x) {n : Nat} (hn : make n ∈ ms) :
    ¬ UInt64.size ≤ n := by
  have hlt := x.toNat_lt_size
  rw [h.given n hn] at hlt
  exact Nat.not_le_of_lt hlt

theorem ofJson?_objectOf :
    ofJson? (objectOf ms) = some c ↔
      ¬ Repeats fieldNames (ms.map Member.name) ∧
        FieldIs .maxDepth (fun n x => x.toNat = n) ({} : Config).maxDepth ms c.maxDepth ∧
        FieldIs .maxNumber (fun n x => x.toNat = n) ({} : Config).maxNumber ms c.maxNumber ∧
        FieldIs .weights (fun ws w => ¬ Weights.IsRefused ws ∧ Weights.Replaces ws w)
          ({} : Config).weights ms c.weights := by
  rw [ofJson?_eq_some_iff, objectOf, exists_fields?_iff Member.text?_entry]
  refine and_congr_right fun hrepeats => and_congr ?_ (and_congr ?_ ?_)
  · exact field?_eq_some_iff hrepeats (by decide) Member.name_eq_maxDepth_iff
      fun n x => readLimit?_ofNat
  · exact field?_eq_some_iff hrepeats (by decide) Member.name_eq_maxNumber_iff
      fun n x => readLimit?_ofNat
  · exact field?_eq_some_iff hrepeats (by decide) Member.name_eq_weights_iff
      fun ws w => Weights.ofJson?_objectOf_eq_some_iff

/-- Members that nothing speaks against give a configuration. -/
theorem exists_ofJson?_objectOf (h : ¬ IsRefused ms) : ∃ c, ofJson? (objectOf ms) = some c := by
  obtain ⟨hrepeats, hrest⟩ := not_or.mp h
  obtain ⟨hlimits, hweights⟩ := not_or.mp hrest
  have hlimit {n : Nat} (hn : .maxDepth n ∈ ms ∨ .maxNumber n ∈ ms) :
      ∃ x, readLimit? (.ofNat n) = some x := by
    refine ⟨.ofNat n, readLimit?_ofNat.mpr (UInt64.toNat_ofNat_of_lt' ?_)⟩
    exact Nat.lt_of_not_le fun hle => hlimits ⟨n, hn, hle⟩
  obtain ⟨depth, hdepth⟩ := exists_field? Member.entry readLimit? ({} : Config).maxDepth
    hrepeats (by decide) Member.name_eq_maxDepth_iff fun n hn => hlimit (.inl hn)
  obtain ⟨number, hnumber⟩ := exists_field? Member.entry readLimit? ({} : Config).maxNumber
    hrepeats (by decide) Member.name_eq_maxNumber_iff fun n hn => hlimit (.inr hn)
  obtain ⟨w, hw⟩ := exists_field? Member.entry Weights.ofJson? ({} : Config).weights
    hrepeats (by decide) Member.name_eq_weights_iff
    fun ws hws => Weights.exists_ofJson?_objectOf fun hrefused => hweights ⟨ws, hws, hrefused⟩
  refine ⟨⟨depth, number, w⟩, ?_⟩
  rw [ofJson?_eq_some_iff, objectOf, exists_fields?_iff Member.text?_entry]
  exact ⟨hrepeats, hdepth, hnumber, hw⟩

/-- Members give the configuration that they ask for, unless they are refused. -/
theorem ofJson?_objectOf_eq_some_iff :
    ofJson? (objectOf ms) = some c ↔ ¬ IsRefused ms ∧ Replaces ms c := by
  rw [ofJson?_objectOf]
  constructor
  · rintro ⟨hrepeats, hdepth, hnumber, hweights⟩
    refine ⟨not_or.mpr ⟨hrepeats, not_or.mpr ⟨?_, ?_⟩⟩,
      ⟨hdepth, hnumber, hweights.imp fun ws _ hws => hws.2⟩⟩
    · rintro ⟨n, hn | hn, hle⟩
      · exact not_wide_of_given hdepth hn hle
      · exact not_wide_of_given hnumber hn hle
    · rintro ⟨ws, hws, hrefused⟩
      exact (hweights.given ws hws).1 hrefused
  · rintro ⟨hrefused, h⟩
    refine ⟨fun hrepeats => hrefused (.inl hrepeats), h.maxDepth, h.maxNumber,
      h.weights.imp fun ws hws hreplaces => ⟨fun hbad => ?_, hreplaces⟩⟩
    exact hrefused (.inr (.inr ⟨ws, hws, hbad⟩))

theorem ofJson?_objectOf_eq_none_iff : ofJson? (objectOf ms) = none ↔ IsRefused ms := by
  constructor
  · intro h
    by_contra hrefused
    obtain ⟨c, hc⟩ := exists_ofJson?_objectOf hrefused
    exact absurd (h.symm.trans hc) nofun
  · intro hrefused
    refine Option.eq_none_iff_forall_ne_some.mpr fun c hc => ?_
    exact (ofJson?_objectOf_eq_some_iff.mp hc).1 hrefused

end Reading

end Config

end ReversePolish
