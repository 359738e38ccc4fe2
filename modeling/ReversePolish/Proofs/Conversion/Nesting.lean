/-
What is in parentheses converts as it would by itself.

A run that starts with an empty stack goes the same way above a `(`, whatever lies below
it and whatever has been written before: no operator takes the `(` off, and a `)` or `,`
that finds a `(` of its own stops there.  `Step.inside` says so of one token and
`takeAll_inside` of a run.  The list in the parentheses need not be well formed, as long
as it converts; in particular it may have groups, calls and function names of its own.

At the end of the tokens a run writes what still waits, and so do the `,` and the `)` that
end an argument.  `Fills` is the state of affairs before that: all of the argument has been
written or waits above the `(`.
-/
import Mathlib.Data.List.Forall2
import ReversePolish.Proofs.Conversion.Faults

namespace ReversePolish.Conversion

/-! ### A run above a `(` -/

/-- The conversion with a `(` and `below` under its stack, and `before` in front of its output. -/
def inside (c : Conversion) (below before : List Token) : Conversion :=
  of (c.stack ++ .lparen :: below) (before ++ c.output.toList)

theorem inside_of (waiting written below before : List Token) :
    (of waiting written).inside below before
      = of (waiting ++ .lparen :: below) (before ++ written) := rfl

theorem inside_start (below before : List Token) :
    start.inside below before = of (.lparen :: below) before := by
  show of ([] ++ .lparen :: below) (before ++ []) = _
  rw [List.nil_append, List.append_nil]

/-- What a test turns away on top of a stack, it turns away there above a `(`, if it turns the `(`
away as well. -/
theorem head?_append_lparen {p : Token → Prop} {waiting : List Token} (below : List Token)
    (h : ∀ t ∈ waiting.head?, p t) (hlparen : p .lparen) :
    ∀ t ∈ (waiting ++ .lparen :: below).head?, p t := by
  cases waiting with
  | nil =>
      intro t ht
      rw [← Option.some.inj ht]
      exact hlparen
  | cons w rest => exact h

/-- **A token does the same above a `(`.** -/
theorem Step.inside {c c' : Conversion} {t : Token} (h : Step c t c') (below before : List Token) :
    Step (c.inside below before) t (c'.inside below before) := by
  cases h with
  | number digits waiting written =>
      rw [inside_of, inside_of, ← List.append_assoc]
      exact .number digits _ _
  | wait waiting written h => exact .wait _ _ h
  | @op o above rest written habove hbelow =>
      have hstep := Step.op (before ++ written) habove
        (head?_append_lparen below hbelow (releases_lparen o))
      simpa only [inside_of, List.append_assoc, List.cons_append] using hstep
  | @group above rest written habove hbelow =>
      have hnone : ∀ t ∈ rest.head?, ∀ f, t ≠ .name f := by
        rintro t ht f rfl
        exact hbelow f ht
      have hnone' := head?_append_lparen below hnone (by simp)
      have hstep := Step.group (before ++ written) habove fun f hf => hnone' _ hf f rfl
      simpa only [inside_of, List.append_assoc, List.cons_append] using hstep
  | @call f above rest written habove =>
      have hstep := Step.call (f := f) (rest ++ .lparen :: below) (before ++ written) habove
      simpa only [inside_of, List.append_assoc, List.cons_append] using hstep
  | @comma above rest written habove =>
      have hstep := Step.comma (rest ++ .lparen :: below) (before ++ written) habove
      simpa only [inside_of, List.append_assoc, List.cons_append] using hstep

theorem takeAll_inside {c c' : Conversion} {ts : List Token} (h : c.takeAll ts = .ok c')
    (below before : List Token) :
    (c.inside below before).takeAll ts = .ok (c'.inside below before) := by
  induction ts generalizing c with
  | nil =>
      obtain rfl := Except.ok.inj h
      rfl
  | cons t ts ih =>
      obtain ⟨next, hs, hrest⟩ := exists_step_of_takeAll h
      rw [takeAll_cons_of_ok ts (hs.inside below before).take_eq]
      exact ih hrest

/-! ### Arguments -/

/-- The tokens `ts`, taken above a `(` that lies on `below`, are `out` once what waits above the `(`
has been written. -/
def Fills (below ts out : List Token) : Prop :=
  ∀ written, ∃ above last,
    (of (.lparen :: below) written).takeAll ts = .ok (of (above ++ .lparen :: below) last) ∧
      last ++ above = written ++ out ∧ Token.lparen ∉ above

namespace Fills

variable {below ts us out out' : List Token}

theorem nil (below : List Token) : Fills below [] [] :=
  fun written => ⟨[], written, rfl, rfl, List.not_mem_nil⟩

/-- **What converts by itself comes to the same above a `(`.** -/
theorem of_convert (h : convert ts = .ok out) (below : List Token) : Fills below ts out := by
  intro written
  obtain ⟨c, hrun, hmem, rfl⟩ := convert_eq_ok_iff.mp h
  refine ⟨c.stack, written ++ c.output.toList, ?_, List.append_assoc .., hmem⟩
  rw [← inside_start below written]
  exact takeAll_inside hrun.takeAll_eq below written

theorem comma (h : Fills below ts out) (h' : Fills below us out') :
    Fills below (ts ++ .comma :: us) (out ++ out') := by
  intro written
  obtain ⟨above, last, hrun, hout, habove⟩ := h written
  obtain ⟨above', last', hrun', hout', habove'⟩ := h' (last ++ above)
  refine ⟨above', last', ?_, ?_, habove'⟩
  · rw [takeAll_append_of_ok _ hrun, takeAll_cons_of_ok us (take_comma last habove), hrun']
  · rw [hout', hout, List.append_assoc]

theorem arguments {tss outs : List (List Token)}
    (h : List.Forall₂ (fun ts out => convert ts = .ok out) tss outs) (below : List Token) :
    Fills below ([.comma].intercalate tss) outs.flatten := by
  induction h with
  | nil => exact nil below
  | @cons ts out tss outs hts hrest ih =>
      cases hrest with
      | nil =>
          rw [List.intercalate_singleton, List.flatten_singleton]
          exact of_convert hts below
      | cons _ _ =>
          rw [List.intercalate_cons_cons, List.append_assoc, List.flatten_cons]
          exact (of_convert hts below).comma ih

/-- A group is written whole, if no function name waits below its `(`. -/
theorem takeAll_group (h : Fills below ts out) (hname : ∀ f, below.head? ≠ some (.name f))
    (written : List Token) :
    (of below written).takeAll (.lparen :: (ts ++ [.rparen])) = .ok (of below (written ++ out)) := by
  obtain ⟨above, last, hrun, hout, habove⟩ := h written
  rw [takeAll_cons_of_ok _ (take_of_waits below written rfl), takeAll_append_of_ok _ hrun,
    takeAll_cons_of_ok [] (take_rparen last habove hname), hout, takeAll_nil]

/-- A call is written whole, its name behind the arguments. -/
theorem takeAll_call {f : String} (h : Fills (.name f :: below) ts out) (written : List Token) :
    (of below written).takeAll (.name f :: .lparen :: (ts ++ [.rparen]))
      = .ok (of below (written ++ out ++ [.name f])) := by
  obtain ⟨above, last, hrun, hout, habove⟩ := h written
  rw [takeAll_cons_of_ok _ (take_of_waits below written rfl),
    takeAll_cons_of_ok _ (take_of_waits (.name f :: below) written rfl),
    takeAll_append_of_ok _ hrun, takeAll_cons_of_ok [] (take_rparen_call last habove), hout,
    takeAll_nil]

end Fills

/--
**Calls and groups are converted independently of what surrounds them.**

Whatever waits and whatever has been written, a call leaves the stack as it was and adds to
the output what its arguments convert to by themselves, and then its name.  Without the name
it adds the same and no name, unless the parentheses stand right behind some other name.
-/
theorem takeAll_call_and_group {tss outs : List (List Token)}
    (h : List.Forall₂ (fun ts out => convert ts = .ok out) tss outs) (c : Conversion)
    (f : String) :
    c.takeAll (.name f :: .lparen :: ([.comma].intercalate tss ++ [.rparen]))
        = .ok { c with output := c.output ++ (outs.flatten ++ [.name f]) } ∧
      ((∀ g, c.stack.head? ≠ some (.name g)) →
        c.takeAll (.lparen :: ([.comma].intercalate tss ++ [.rparen]))
          = .ok { c with output := c.output ++ outs.flatten }) := by
  obtain ⟨waiting, written, rfl⟩ : ∃ waiting written, c = of waiting written := ⟨_, _, eq_of c⟩
  have hwrite : ∀ out, { of waiting written with output := (of waiting written).output ++ out }
      = of waiting (written ++ out) := by
    intro out
    simp [of]
  refine ⟨?_, fun hname => ?_⟩
  · rw [hwrite, ← List.append_assoc]
    exact (Fills.arguments h (.name f :: waiting)).takeAll_call written
  · rw [hwrite]
    exact (Fills.arguments h waiting).takeAll_group hname written

/-- Two arguments that are no expressions but convert, above a `^`: `2 g` and `h(1) 3 +`.  Right
behind the name `k` the parentheses would be taken for its call, and write it. -/
theorem takeAll_call_and_group_malformed :
    (of [.op .power] [.number "5"]).takeAll
        [.name "f", .lparen, .number "2", .name "g", .comma, .name "h", .lparen, .number "1",
          .rparen, .number "3", .op .add, .rparen]
      = .ok (of [.op .power] [.number "5", .number "2", .name "g", .number "1", .name "h",
          .number "3", .op .add, .name "f"]) ∧
    (of [.op .power] [.number "5"]).takeAll
        [.lparen, .number "2", .name "g", .comma, .name "h", .lparen, .number "1", .rparen,
          .number "3", .op .add, .rparen]
      = .ok (of [.op .power] [.number "5", .number "2", .name "g", .number "1", .name "h",
          .number "3", .op .add]) ∧
    (of [.name "k", .op .power] []).takeAll [.lparen, .number "2", .rparen]
      = .ok (of [.op .power] [.number "2", .name "k"]) := by
  have hargs : List.Forall₂ (fun ts out => convert ts = .ok out)
      [[.number "2", .name "g"],
        [.name "h", .lparen, .number "1", .rparen, .number "3", .op .add]]
      [[.number "2", .name "g"], [.number "1", .name "h", .number "3", .op .add]] :=
    .cons rfl (.cons rfl .nil)
  obtain ⟨hcall, hgroup⟩ := takeAll_call_and_group hargs (of [.op .power] [.number "5"]) "f"
  exact ⟨hcall, hgroup (by simp), rfl⟩

end ReversePolish.Conversion
