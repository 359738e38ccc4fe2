/-
A configuration is read back from what is written of it.

Reading goes the way of writing backwards: the text is read as the value it was written
for, the value gives the fields of the record, and each field gives its number, which
fits because it was a number of that width.  The default of a field is never asked for,
since a written configuration has them all.

Only the first of these steps knows of text, so blanks between the tokens and escapes in
the names of the fields make no difference.
-/
import ReversePolish.Config.Json
import ReversePolish.Proofs.Json.Compact
import ReversePolish.Proofs.Json.Reading
import ReversePolish.Proofs.Json.Record

namespace ReversePolish

open Json (nat?_ofNat field?_of_mem fields?_ofMembers isPlain_ofNat isPlain_ofMembers)

/-! ### Numbers -/

theorem readWeight?_ofNat {n : Nat} {w : UInt32} :
    readWeight? (.ofNat n) = some w ↔ w.toNat = n := by
  rw [readWeight?, nat?_ofNat]
  show (if n < UInt32.size then some (UInt32.ofNat n) else none) = some w ↔ w.toNat = n
  constructor
  · intro h
    split at h
    case isTrue hlt =>
      obtain rfl := Option.some.inj h
      exact UInt32.toNat_ofNat_of_lt' hlt
    case isFalse => exact absurd h nofun
  · rintro rfl
    rw [if_pos w.toNat_lt_size, UInt32.ofNat_toNat]

theorem readLimit?_ofNat {n : Nat} {x : UInt64} :
    readLimit? (.ofNat n) = some x ↔ x.toNat = n := by
  rw [readLimit?, nat?_ofNat]
  show (if n < UInt64.size then some (UInt64.ofNat n) else none) = some x ↔ x.toNat = n
  constructor
  · intro h
    split at h
    case isTrue hlt =>
      obtain rfl := Option.some.inj h
      exact UInt64.toNat_ofNat_of_lt' hlt
    case isFalse => exact absurd h nofun
  · rintro rfl
    rw [if_pos x.toNat_lt_size, UInt64.ofNat_toNat]

/-! ### Weights -/

namespace Weights

theorem ofJson?_eq_some_iff {j : Json} {w : Weights} :
    ofJson? j = some w ↔ ∃ given, j.fields? fieldNames = some given ∧
      ∀ k : NodeKind, Json.field? given k.key readWeight? (weight {} k) = some (w.weight k) := by
  rw [ofJson?]
  simp only [Option.bind_eq_bind, Option.bind_eq_some_iff, Option.pure_def]
  constructor
  · rintro ⟨given, hgiven, _, hminus, _, hplus, _, hadd, _, hsubtract, _, hmultiply, _, hdivide,
      _, hpower, _, hnumber, _, hcall, hw⟩
    obtain rfl := Option.some.inj hw
    refine ⟨given, hgiven, fun k => ?_⟩
    cases k with
    | sign s =>
        cases s with
        | plus => exact hplus
        | minus => exact hminus
    | bin op =>
        cases op with
        | add => exact hadd
        | subtract => exact hsubtract
        | multiply => exact hmultiply
        | divide => exact hdivide
        | power => exact hpower
    | number => exact hnumber
    | call => exact hcall
  · rintro ⟨given, hgiven, hread⟩
    exact ⟨given, hgiven, _, hread _, _, hread _, _, hread _, _, hread _, _, hread _, _, hread _,
      _, hread _, _, hread _, _, hread _, rfl⟩

/-- The members that weights are written with. -/
def members (w : Weights) : List (String × Json) :=
  w.table.map fun e => (e.1.key, .ofNat e.2.toNat)

theorem toJson_eq (w : Weights) : w.toJson = .ofMembers w.members := rfl

theorem nodup_members (w : Weights) :
    ((w.members.map Prod.fst).filter (· ∈ fieldNames)).Nodup := by
  have hnames : w.members.map Prod.fst = NodeKind.all.map NodeKind.key := by
    rw [members, table, List.map_map, List.map_map]
    rfl
  rw [hnames]
  exact NodeKind.nodup_keys.filter _

theorem mem_members (w : Weights) (k : NodeKind) :
    (k.key, .ofNat (w.weight k).toNat) ∈ w.members :=
  List.mem_map.mpr ⟨(k, w.weight k), List.mem_map.mpr ⟨k, k.mem_all, rfl⟩, rfl⟩

/-- **Weights are read back from their object.** -/
theorem ofJson?_toJson (w : Weights) : ofJson? w.toJson = some w := by
  rw [toJson_eq]
  refine ofJson?_eq_some_iff.mpr ⟨w.members, fields?_ofMembers w.nodup_members, fun k => ?_⟩
  rw [field?_of_mem w.nodup_members (List.mem_map_of_mem k.mem_all) (w.mem_members k)]
  exact readWeight?_ofNat.mpr rfl

theorem isPlain_toJson (w : Weights) : w.toJson.IsPlain := by
  refine isPlain_ofMembers fun m hm => ?_
  obtain ⟨e, -, rfl⟩ := List.mem_map.mp hm
  exact isPlain_ofNat e.2.toNat

end Weights

/-! ### Configurations -/

namespace Config

theorem ofJson?_eq_some_iff {j : Json} {c : Config} :
    ofJson? j = some c ↔ ∃ given, j.fields? fieldNames = some given ∧
      Json.field? given "max_depth" readLimit? ({} : Config).maxDepth = some c.maxDepth ∧
      Json.field? given "max_number" readLimit? ({} : Config).maxNumber = some c.maxNumber ∧
      Json.field? given "weights" Weights.ofJson? ({} : Config).weights = some c.weights := by
  rw [ofJson?]
  simp only [Option.bind_eq_bind, Option.bind_eq_some_iff, Option.pure_def]
  constructor
  · rintro ⟨given, hgiven, _, hdepth, _, hnumber, _, hweights, hc⟩
    obtain rfl := Option.some.inj hc
    exact ⟨given, hgiven, hdepth, hnumber, hweights⟩
  · rintro ⟨given, hgiven, hdepth, hnumber, hweights⟩
    exact ⟨given, hgiven, _, hdepth, _, hnumber, _, hweights, rfl⟩

/-- The members that a configuration is written with. -/
def members (c : Config) : List (String × Json) :=
  [("max_depth", .ofNat c.maxDepth.toNat), ("max_number", .ofNat c.maxNumber.toNat),
    ("weights", c.weights.toJson)]

theorem toJson_eq (c : Config) : c.toJson = .ofMembers c.members := rfl

theorem nodup_members (c : Config) :
    ((c.members.map Prod.fst).filter (· ∈ fieldNames)).Nodup := by
  show (["max_depth", "max_number", "weights"].filter (· ∈ fieldNames)).Nodup
  decide

/-- **A configuration is read back from its object.** -/
theorem ofJson?_toJson (c : Config) : ofJson? c.toJson = some c := by
  have hdepth : ("max_depth", .ofNat c.maxDepth.toNat) ∈ c.members := by simp [members]
  have hnumber : ("max_number", .ofNat c.maxNumber.toNat) ∈ c.members := by simp [members]
  have hweights : ("weights", c.weights.toJson) ∈ c.members := by simp [members]
  rw [toJson_eq]
  refine ofJson?_eq_some_iff.mpr ⟨c.members, fields?_ofMembers c.nodup_members, ?_, ?_, ?_⟩
  · rw [field?_of_mem c.nodup_members (by decide) hdepth, readLimit?_ofNat]
  · rw [field?_of_mem c.nodup_members (by decide) hnumber, readLimit?_ofNat]
  · rw [field?_of_mem c.nodup_members (by decide) hweights, Weights.ofJson?_toJson]

theorem isPlain_toJson (c : Config) : c.toJson.IsPlain := by
  refine isPlain_ofMembers fun m hm => ?_
  simp only [List.mem_cons, List.not_mem_nil, or_false] at hm
  rcases hm with rfl | rfl | rfl
  · exact isPlain_ofNat _
  · exact isPlain_ofNat _
  · exact c.weights.isPlain_toJson

/--
**A configuration survives being written and read.**

The compact text spells the tokens of the configuration, and every text that does, with
whatever blanks around them, is read as the configuration again.
-/
theorem ofText?_text (c : Config) :
    ofText? c.text = some c ∧ Json.Writes c.toJson.tokens c.text.toList ∧
      ∀ text : String, Json.Writes c.toJson.tokens text.toList → ofText? text = some c := by
  have hread (text : String) (h : Json.Writes c.toJson.tokens text.toList) :
      ofText? text = some c := by
    rw [ofText?, Json.parse?_of_writes h]
    exact ofJson?_toJson c
  have hwrites : Json.Writes c.toJson.tokens c.text.toList := c.isPlain_toJson.writes_compact
  exact ⟨hread c.text hwrites, hwrites, hread⟩

set_option maxRecDepth 4000 in
/-- The largest numbers that there are, and a line for each of them. -/
theorem ofText?_text_lines :
    ofText? "\x7b\"max_depth\":0
 ,\"max_number\":18446744073709551615
 ,\"weights\":\x7b\"unary_minus\":1
 ,\"unary_plus\":1
 ,\"add\":2
 ,\"subtract\":2
 ,\"multiply\":2
 ,\"divide\":2
 ,\"power\":2
 ,\"number\":0
 ,\"function_call\":4294967295\x7d\x7d"
      = some ⟨0, 18446744073709551615, { number := 0, call := 4294967295 }⟩ := by
  have hgap (t : Json.Token) : IsGap Json.isSpace (if t = .comma then ['\n', ' '] else []) := by
    by_cases ht : t = .comma
    · rw [if_pos ht]
      simp [IsGap, Json.isSpace]
    · rw [if_neg ht]
      exact isGap_nil
  have hwrites := (isPlain_toJson
    ⟨0, 18446744073709551615, { number := 0, call := 4294967295 }⟩).writes_flatMap hgap
  rw [← String.toList_ofList (l := List.flatMap _ _)] at hwrites
  exact (ofText?_text _).2.2 _ hwrites

end Config

end ReversePolish
