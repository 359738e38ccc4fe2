/-
Reading gives back the value that a text was written for.

The tokens of a value lead from any place where a value may start to the place behind
that value, whatever is open around it; this is what makes the induction go through
lists and objects at any depth.  Together with the cutting of texts it says that every
text which spells the tokens of a value is read as the value (`parse?_of_writes`), and
the compact text of a value is one of them.
-/
import ReversePolish.Json.Reader
import ReversePolish.Proofs.Json.Spelling

namespace ReversePolish.Json

/-! ### The tokens of a value -/

/-- No value starts with a token that an empty array has behind its bracket. -/
theorem exists_tokens_cons (j : Json) : ∃ t ts, j.tokens = t :: ts ∧ t ≠ .closeArray := by
  cases j with
  | null | bool _ | number _ | string _ => exact ⟨_, [], rfl, nofun⟩
  | array items =>
      cases items with
      | nil => exact ⟨_, _, rfl, nofun⟩
      | cons i is => exact ⟨_, _, rfl, nofun⟩
  | object members =>
      cases members with
      | nil => exact ⟨_, _, rfl, nofun⟩
      | cons m ms => exact ⟨_, _, rfl, nofun⟩

theorem head_moreItems (is : List Json) : ∀ t ∈ (moreItems is).head?, t.isMark = true := by
  cases is with
  | nil | cons => rintro t ⟨⟩; rfl

theorem head_moreMembers (ms : List (List Piece × Json)) :
    ∀ t ∈ (moreMembers ms).head?, t.isMark = true := by
  cases ms with
  | nil | cons => rintro t ⟨⟩; rfl

theorem isChain_cons_mark {t : Token} {ts : List Token} (ht : t.isMark = true)
    (hts : ts.IsChain Token.Separate) : (t :: ts).IsChain Token.Separate :=
  List.isChain_cons.mpr ⟨fun _ _ => Or.inl ht, hts⟩

theorem isChain_append_mark {ts us : List Token} (hts : ts.IsChain Token.Separate)
    (hus : us.IsChain Token.Separate) (hhead : ∀ u ∈ us.head?, u.isMark = true) :
    (ts ++ us).IsChain Token.Separate :=
  List.isChain_append.mpr ⟨hts, hus, fun _ _ u hu => Or.inr (hhead u hu)⟩

theorem isChain_name (name : List Piece) {ts : List Token} (hts : ts.IsChain Token.Separate) :
    (Token.string name :: .colon :: ts).IsChain Token.Separate :=
  List.isChain_cons.mpr ⟨by rintro t ⟨⟩; exact Or.inr rfl, isChain_cons_mark rfl hts⟩

mutual

/-- In the tokens of a value one of two neighbours is a mark. -/
theorem isChain_tokens : (j : Json) → j.tokens.IsChain Token.Separate
  | null | bool _ | number _ | string _ => .singleton _
  | array [] | object [] => isChain_cons_mark rfl (.singleton _)
  | array (i :: is) =>
      isChain_cons_mark rfl
        (isChain_append_mark (isChain_tokens i) (isChain_moreItems is) (head_moreItems is))
  | object ((name, v) :: ms) =>
      isChain_cons_mark rfl (isChain_name name
        (isChain_append_mark (isChain_tokens v) (isChain_moreMembers ms) (head_moreMembers ms)))

theorem isChain_moreItems : (is : List Json) → (moreItems is).IsChain Token.Separate
  | [] => .singleton _
  | i :: is =>
      isChain_cons_mark rfl
        (isChain_append_mark (isChain_tokens i) (isChain_moreItems is) (head_moreItems is))

theorem isChain_moreMembers :
    (ms : List (List Piece × Json)) → (moreMembers ms).IsChain Token.Separate
  | [] => .singleton _
  | (name, v) :: ms =>
      isChain_cons_mark rfl (isChain_name name
        (isChain_append_mark (isChain_tokens v) (isChain_moreMembers ms) (head_moreMembers ms)))

end

/-! ### From place to place -/

/-- The tokens lead from one place to the other. -/
def Leads (p : Place) (ts : List Token) (q : Place) : Prop := ts.foldlM Place.step p = some q

section Leads

variable {p q r : Place} {t : Token} {ts us : List Token}

theorem leads_nil (p : Place) : Leads p [] p := rfl

theorem Leads.cons (ht : p.step t = some q) (h : Leads q ts r) : Leads p (t :: ts) r := by
  rw [Leads, List.foldlM_cons, ht]
  exact h

theorem Leads.append (h : Leads p ts q) (h' : Leads q us r) : Leads p (ts ++ us) r := by
  rw [Leads, List.foldlM_append, show ts.foldlM Place.step p = some q from h]
  exact h'

/-- The first item of an array is read as any value is. -/
theorem leads_firstItem {around : List Frame} (ht : t ≠ .closeArray)
    (h : Leads (.value (.array [] :: around)) (t :: ts) q) :
    Leads (.firstItem around) (t :: ts) q := by
  have hstep : (Place.firstItem around).step t = (Place.value (.array [] :: around)).step t := by
    cases t with
    | closeArray => exact absurd rfl ht
    | openArray | openObject | closeObject | comma | colon | null | bool | number | string => rfl
  rw [Leads, List.foldlM_cons, hstep, ← List.foldlM_cons]
  exact h

end Leads

mutual

/-- **The tokens of a value lead behind the value**, whatever is open around it. -/
theorem leads_tokens : (j : Json) → (around : List Frame) →
    Leads (.value around) j.tokens (.done j around)
  | null, _ | bool _, _ | number _, _ | string _, _ => .cons rfl (leads_nil _)
  | array [], _ | object [], _ => .cons rfl (.cons rfl (leads_nil _))
  | array (i :: is), around => by
      have hitem := leads_tokens i (.array [] :: around)
      obtain ⟨t, ts, htokens, ht⟩ := exists_tokens_cons i
      rw [htokens] at hitem
      have hfirst := leads_firstItem ht hitem
      rw [← htokens] at hfirst
      exact .cons rfl (hfirst.append (leads_moreItems is i [] around))
  | object ((name, v) :: ms), around =>
      .cons rfl (.cons rfl (.cons rfl
        ((leads_tokens v (.object [] name :: around)).append
          (leads_moreMembers ms name v [] around))))

/-- The items behind an item lead behind the whole array. -/
theorem leads_moreItems : (is : List Json) → (i : Json) → (before : List Json) →
    (around : List Frame) →
      Leads (.done i (.array before :: around)) (moreItems is)
        (.done (.array ((i :: before).reverse ++ is)) around)
  | [], i, before, around => by
      rw [List.append_nil]
      exact .cons rfl (leads_nil _)
  | i' :: is, i, before, around => by
      have hrest := leads_moreItems is i' (i :: before) around
      rw [List.reverse_cons, List.append_assoc] at hrest
      exact .cons rfl ((leads_tokens i' (.array (i :: before) :: around)).append hrest)

theorem leads_moreMembers : (ms : List (List Piece × Json)) → (name : List Piece) → (v : Json) →
    (before : List (List Piece × Json)) → (around : List Frame) →
      Leads (.done v (.object before name :: around)) (moreMembers ms)
        (.done (.object (((name, v) :: before).reverse ++ ms)) around)
  | [], name, v, before, around => by
      rw [List.append_nil]
      exact .cons rfl (leads_nil _)
  | (name', v') :: ms, name, v, before, around => by
      have hrest := leads_moreMembers ms name' v' ((name, v) :: before) around
      rw [List.reverse_cons, List.append_assoc] at hrest
      exact .cons rfl (.cons rfl (.cons rfl
        ((leads_tokens v' (.object ((name, v) :: before) name' :: around)).append hrest)))

end

/-- **A text that spells the tokens of a value is read as the value.** -/
theorem parse?_of_writes {j : Json} {text : String} (h : Writes j.tokens text.toList) :
    parse? text = some j := by
  have htokens : ofTokens? j.tokens = some j := by
    rw [ofTokens?, show j.tokens.foldlM Place.step (.value []) = some (.done j []) from
      leads_tokens j []]
    rfl
  rw [parse?, scan?_of_writes h (isChain_tokens j)]
  exact htokens

end ReversePolish.Json
