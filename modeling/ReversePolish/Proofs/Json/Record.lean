/-
The fields of a record that is given as an object or as an array.

An object names what it gives, so a field is looked up by its name.  A name that the
record knows stands for one value only, since it may come only once; that is what makes
the lookup independent of where in the object the member stands, and each field independent
of the values of the others (`exists_given_of_member`).

An array names nothing.  It gives what the object gives that has the names of the first fields
before the same values (`fields?_array`), so all that is said of objects holds of arrays too.
-/
import Mathlib.Data.List.Nodup
import ReversePolish.Json.Record

namespace ReversePolish.Json

theorem text?_ofText (text : String) : Piece.text? (Piece.ofText text) = some text.toList := by
  rw [Piece.ofText]
  induction text.toList with
  | nil => rfl
  | cons c cs ih => rw [List.map_cons, Piece.text?, ih]; rfl

theorem named?_map {α : Type} {entry : α → List Piece × Json} {name : α → String}
    (h : ∀ m, Piece.text? (entry m).1 = some (name m).toList) (ms : List α) :
    named? (ms.map entry) = some (ms.map fun m => (name m, (entry m).2)) := by
  induction ms with
  | nil => rfl
  | cons m ms ih =>
      rw [List.map_cons, named?, h m, ih]
      simp [String.ofList_toList]

theorem named?_ofText (ms : List (String × Json)) :
    named? (ms.map fun m => (Piece.ofText m.1, m.2)) = some ms := by
  have htext (m : String × Json) : Piece.text? (Piece.ofText m.1, m.2).1 = some m.1.toList :=
    text?_ofText m.1
  rw [named?_map htext, List.map_id']

/-! ### Names that come twice -/

/-- One of the names that the record knows comes more than once. -/
def Repeats (known names : List String) : Prop := ∃ name ∈ known, 2 ≤ names.count name

instance (known names : List String) : Decidable (Repeats known names) :=
  inferInstanceAs (Decidable (∃ name ∈ known, 2 ≤ names.count name))

theorem nodup_filter_iff {known names : List String} :
    (names.filter (· ∈ known)).Nodup ↔ ¬ Repeats known names := by
  have hcount {name : String} (hknown : name ∈ known) :
      (names.filter (· ∈ known)).count name = names.count name :=
    List.count_filter (by simpa using hknown)
  rw [List.nodup_iff_count_le_one]
  constructor
  · rintro h ⟨name, hknown, htwice⟩
    have hle := h name
    rw [hcount hknown] at hle
    omega
  · intro h name
    by_cases hknown : name ∈ known
    · rw [hcount hknown]
      by_contra htwice
      exact h ⟨name, hknown, by omega⟩
    · have hnone : name ∉ names.filter (· ∈ known) := by simp [hknown]
      rw [List.count_eq_zero_of_not_mem hnone]
      exact Nat.zero_le 1

/-- An object gives its members to a record, if the names that the record knows are distinct. -/
theorem fields?_ofMembers {names : List String} {ms : List (String × Json)}
    (h : ((ms.map Prod.fst).filter (· ∈ names)).Nodup) :
    (ofMembers ms).fields? names = some ms := by
  rw [ofMembers, fields?, named?_ofText]
  exact if_pos h

section Lookup

variable {names : List String} {given : List (String × Json)} {name : String} {v : Json}

/-- A known name does not come again behind the member that has it. -/
theorem notMem_of_nodup
    (hnodup : ((((name, v) :: given).map Prod.fst).filter (· ∈ names)).Nodup)
    (hname : name ∈ names) : name ∉ given.map Prod.fst := by
  intro hmem
  rw [List.map_cons, List.filter_cons_of_pos (by simpa using hname), List.nodup_cons] at hnodup
  exact hnodup.1 (List.mem_filter.mpr ⟨hmem, by simpa using hname⟩)

/-- A known name is looked up in the one member that has it. -/
theorem lookup_of_mem (hnodup : ((given.map Prod.fst).filter (· ∈ names)).Nodup)
    (hname : name ∈ names) (h : (name, v) ∈ given) : given.lookup name = some v := by
  induction given with
  | nil => exact absurd h List.not_mem_nil
  | cons m rest ih =>
      obtain ⟨name', v'⟩ := m
      by_cases heq : name = name'
      · subst heq
        rcases List.mem_cons.mp h with hfirst | hrest
        · obtain ⟨-, rfl⟩ := Prod.mk.inj hfirst
          exact List.lookup_cons_self
        · exact absurd (List.mem_map_of_mem hrest) (notMem_of_nodup hnodup hname)
      · have hrest : (name, v) ∈ rest := by
          rcases List.mem_cons.mp h with hfirst | hrest
          · exact absurd (Prod.mk.inj hfirst).1 heq
          · exact hrest
        have hsub : ((rest.map Prod.fst).filter (· ∈ names)).Nodup :=
          hnodup.sublist ((List.sublist_cons_self _ _).filter _)
        rw [List.lookup_cons, beq_false_of_ne heq]
        exact ih hsub hrest

theorem field?_of_mem {α : Type} (hnodup : ((given.map Prod.fst).filter (· ∈ names)).Nodup)
    (hname : name ∈ names) (h : (name, v) ∈ given) (read : Json → Option α) (default : α) :
    field? given name read default = read v := by
  rw [field?, lookup_of_mem hnodup hname h]

theorem lookup_eq_none_of_notMem (h : name ∉ given.map Prod.fst) : given.lookup name = none := by
  refine List.lookup_eq_none_iff.mpr fun m hm => ?_
  have hne : name ≠ m.1 := fun heq => h (heq ▸ List.mem_map_of_mem hm)
  simpa using hne

theorem field?_of_notMem {α : Type} (h : name ∉ given.map Prod.fst) (read : Json → Option α)
    (default : α) : field? given name read default = some default := by
  rw [field?, lookup_eq_none_of_notMem h]

end Lookup

/-! ### Records that are given as arrays -/

/-- Values that are named in order take their names from the front. -/
theorem map_fst_zip_sublist {α β : Type} (names : List α) (values : List β) :
    ((names.zip values).map Prod.fst).Sublist names := by
  induction names generalizing values with
  | nil => simp
  | cons name names ih =>
      cases values with
      | nil => simp
      | cons v values => exact (ih values).cons_cons name

section Array

variable {names : List String} {items : List Json}

/-- **An array gives what the object gives that names its items in order.** -/
theorem fields?_array (hnames : names.Nodup) (h : items.length ≤ names.length) :
    (array items).fields? names = (ofMembers (names.zip items)).fields? names := by
  have hnodup := hnames.sublist (map_fst_zip_sublist names items)
  rw [fields?_ofMembers (hnodup.filter _)]
  exact if_pos h

theorem fields?_array_eq_none (h : names.length < items.length) :
    (array items).fields? names = none := if_neg (Nat.not_le_of_lt h)

end Array

/-! ### One value among the members of an object -/

theorem named?_append (ms more : List (List Piece × Json)) :
    named? (ms ++ more) = (named? ms).bind fun given => (named? more).map (given ++ ·) := by
  induction ms with
  | nil => simp [named?]
  | cons m ms ih =>
      obtain ⟨name, v⟩ := m
      rw [List.cons_append, named?, named?, ih]
      cases Piece.text? name <;> cases named? ms <;> cases named? more <;> rfl

section Member

variable {known : List String} {field : String} {name : List Piece}
  {above below : List (String × Json)}

/-- What an object gives besides a member does not depend on the value of the member. -/
theorem exists_given_of_member (hname : Piece.text? name = some field.toList)
    (hfield : field ∈ known) (before after : List (List Piece × Json)) :
    (∀ v, (object (before ++ (name, v) :: after)).fields? known = none) ∨
      ∃ above below, field ∉ above.map Prod.fst ∧
        ∀ v, (object (before ++ (name, v) :: after)).fields? known
          = some (above ++ (field, v) :: below) := by
  have hmember (v : Json) : named? ((name, v) :: after)
      = (named? after).map ((field, v) :: ·) := by
    rw [named?, hname]
    cases named? after <;> simp
  cases habove : named? before with
  | none => exact Or.inl fun v => by simp [fields?, named?_append, habove]
  | some above =>
      cases hbelow : named? after with
      | none => exact Or.inl fun v => by simp [fields?, named?_append, hmember, hbelow]
      | some below =>
          have hgiven (v : Json) : (object (before ++ (name, v) :: after)).fields? known
              = if ((above.map Prod.fst ++ field :: below.map Prod.fst).filter
                  (· ∈ known)).Nodup then some (above ++ (field, v) :: below) else none := by
            simp [fields?, named?_append, habove, hmember, hbelow]
          by_cases hnodup : ((above.map Prod.fst ++ field :: below.map Prod.fst).filter
              (· ∈ known)).Nodup
          · refine Or.inr ⟨above, below, ?_, fun v => by rw [hgiven v, if_pos hnodup]⟩
            intro hmem
            rw [List.filter_append, List.nodup_append] at hnodup
            have hfirst : field ∈ (above.map Prod.fst).filter (· ∈ known) :=
              List.mem_filter.mpr ⟨hmem, by simpa using hfield⟩
            have hagain : field ∈ (field :: below.map Prod.fst).filter (· ∈ known) :=
              List.mem_filter.mpr ⟨List.mem_cons_self, by simpa using hfield⟩
            exact hnodup.2.2 field hfirst field hagain rfl
          · exact Or.inl fun v => by rw [hgiven v, if_neg hnodup]

variable {α : Type} {read : Json → Option α} {default : α}

theorem field?_given (h : field ∉ above.map Prod.fst) (v : Json) :
    field? (above ++ (field, v) :: below) field read default = read v := by
  rw [field?, List.lookup_append, lookup_eq_none_of_notMem h, List.lookup_cons_self]
  rfl

/-- The value of one field has no influence on another field. -/
theorem field?_other {other : String} (hne : other ≠ field) (v : Json) :
    field? (above ++ (field, v) :: below) other read default
      = field? (above ++ below) other read default := by
  rw [field?, field?, List.lookup_append, List.lookup_append, List.lookup_cons,
    beq_false_of_ne hne]

end Member

/-! ### Members of several kinds -/

/--
The value `x` of a field is one that a member gives to it, or the default if no member does.

The members of the field are the `make b`, and `Gives b x` is what they say of its value.
Where a member stands among the others does not matter.
-/
structure FieldIs {α β γ : Type} (make : β → α) (Gives : β → γ → Prop) (default : γ)
    (ms : List α) (x : γ) : Prop where
  given : ∀ b, make b ∈ ms → Gives b x
  kept : (∀ b, make b ∉ ms) → x = default

section Members

variable {α β γ : Type} {entry : α → List Piece × Json} {name : α → String} {ms : List α}
  {known : List String} {field : String} {make : β → α} {read : Json → Option γ}
  {Gives Gives' : β → γ → Prop} {default x : γ}

theorem FieldIs.imp (h : FieldIs make Gives default ms x)
    (hgives : ∀ b, make b ∈ ms → Gives b x → Gives' b x) : FieldIs make Gives' default ms x :=
  ⟨fun b hb => hgives b hb (h.given b hb), h.kept⟩

theorem fields?_map_iff {given : List (String × Json)}
    (h : ∀ m, Piece.text? (entry m).1 = some (name m).toList) :
    (object (ms.map entry)).fields? known = some given ↔
      ¬ Repeats known (ms.map name) ∧ (ms.map fun m => (name m, (entry m).2)) = given := by
  rw [fields?, named?_map h ms]
  show (if _ then _ else _) = _ ↔ _
  rw [List.map_map, Function.comp_def, ← nodup_filter_iff]
  split
  case isTrue hnodup => simp [hnodup]
  case isFalse hrepeats => simp [hrepeats]

/-- An object gives its members to a record, if no name that the record knows comes twice. -/
theorem exists_fields?_iff {P : List (String × Json) → Prop}
    (h : ∀ m, Piece.text? (entry m).1 = some (name m).toList) :
    (∃ given, (object (ms.map entry)).fields? known = some given ∧ P given) ↔
      ¬ Repeats known (ms.map name) ∧ P (ms.map fun m => (name m, (entry m).2)) := by
  simp only [fields?_map_iff h, and_assoc, exists_and_left, exists_eq_left']

/-- The value of a field is that of any member which is made for it. -/
theorem field?_of_make_mem (hrepeats : ¬ Repeats known (ms.map name)) (hfield : field ∈ known)
    (hmake : ∀ m, name m = field ↔ ∃ b, m = make b) {b : β} (hb : make b ∈ ms) :
    field? (ms.map fun m => (name m, (entry m).2)) field read default
      = read (entry (make b)).2 := by
  have hname : name (make b) = field := (hmake (make b)).mpr ⟨b, rfl⟩
  have hnodup : (((ms.map fun m => (name m, (entry m).2)).map Prod.fst).filter
      (· ∈ known)).Nodup := by
    rw [List.map_map]
    exact nodup_filter_iff.mpr hrepeats
  refine field?_of_mem hnodup hfield (List.mem_map.mpr ⟨make b, hb, ?_⟩) read default
  rw [hname]

theorem field?_of_make_notMem (hmake : ∀ m, name m = field ↔ ∃ b, m = make b)
    (hnone : ∀ b, make b ∉ ms) :
    field? (ms.map fun m => (name m, (entry m).2)) field read default = some default := by
  refine field?_of_notMem (fun hmem => ?_) read default
  rw [List.map_map] at hmem
  obtain ⟨m, hm, hname⟩ := List.mem_map.mp hmem
  obtain ⟨b, rfl⟩ := (hmake m).mp hname
  exact hnone b hm

/-- **A field has the value of its member, or its default if there is no member.** -/
theorem field?_eq_some_iff (hrepeats : ¬ Repeats known (ms.map name)) (hfield : field ∈ known)
    (hmake : ∀ m, name m = field ↔ ∃ b, m = make b)
    (hread : ∀ b x, read (entry (make b)).2 = some x ↔ Gives b x) :
    field? (ms.map fun m => (name m, (entry m).2)) field read default = some x ↔
      FieldIs make Gives default ms x := by
  by_cases hgiven : ∃ b, make b ∈ ms
  · obtain ⟨b, hb⟩ := hgiven
    constructor
    · intro h
      refine ⟨fun b' hb' => ?_, fun hnone => absurd hb (hnone b)⟩
      rw [field?_of_make_mem hrepeats hfield hmake hb'] at h
      exact (hread b' x).mp h
    · intro h
      rw [field?_of_make_mem hrepeats hfield hmake hb]
      exact (hread b x).mpr (h.given b hb)
  · have hnone : ∀ b, make b ∉ ms := not_exists.mp hgiven
    rw [field?_of_make_notMem hmake hnone, Option.some_inj]
    constructor
    · intro h
      exact ⟨fun b hb => absurd hb (hnone b), fun _ => h.symm⟩
    · intro h
      exact (h.kept hnone).symm

theorem exists_field? (entry : α → List Piece × Json) (read : Json → Option γ) (default : γ)
    (hrepeats : ¬ Repeats known (ms.map name)) (hfield : field ∈ known)
    (hmake : ∀ m, name m = field ↔ ∃ b, m = make b)
    (hread : ∀ b, make b ∈ ms → ∃ x, read (entry (make b)).2 = some x) :
    ∃ x, field? (ms.map fun m => (name m, (entry m).2)) field read default = some x := by
  by_cases hgiven : ∃ b, make b ∈ ms
  · obtain ⟨b, hb⟩ := hgiven
    rw [field?_of_make_mem hrepeats hfield hmake hb]
    exact hread b hb
  · exact ⟨default, field?_of_make_notMem hmake (not_exists.mp hgiven)⟩

end Members

end ReversePolish.Json
