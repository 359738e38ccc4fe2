/-
What one token does to a conversion, and what a run of tokens does.

`take` splits the stack with `takeWhile` and `dropWhile`, which is how it runs but
not how one reasons about it.  `Step` says the same of a stack that is already
split: what lies above the cut is written, and what lies below it stays.  There
are six ways for a token to be taken, four for it to be refused (`Fails`), and
`step_or_fails` says that there are no others; every invariant of the conversion is
an induction along `Reaches`, with one case for each of the six.

None of them looks at what has been written (`Step.of_stack`), so two runs with the same
stack stay side by side.
-/
import ReversePolish.Conversion
import ReversePolish.Proofs.Cut

namespace ReversePolish.Conversion

/-! ### A conversion as two lists -/

/-- The conversion that has these tokens waiting, the top first, and these written. -/
def of (waiting written : List Token) : Conversion := ⟨waiting, written.toArray⟩

@[simp] theorem stack_of (waiting written : List Token) : (of waiting written).stack = waiting :=
  rfl

@[simp] theorem output_of (waiting written : List Token) :
    (of waiting written).output.toList = written := rfl

theorem eq_of (c : Conversion) : c = of c.stack c.output.toList := rfl

/-- Releasing down to a cut writes what lies above it. -/
theorem release_of {p : Token → Bool} {above below : List Token} (written : List Token)
    (habove : ∀ t ∈ above, p t = true) (hbelow : ∀ t ∈ below.head?, p t = false) :
    (of (above ++ below) written).release p = of below (written ++ above) := by
  simp only [release, of, takeWhile_cut habove hbelow, dropWhile_cut habove hbelow,
    List.toArray_appendList]

/-- Releasing a group stops at its `(`. -/
theorem releaseGroup_of {above : List Token} (below written : List Token)
    (habove : Token.lparen ∉ above) :
    (of (above ++ .lparen :: below) written).releaseGroup
      = of (.lparen :: below) (written ++ above) := by
  refine release_of written (fun t ht => ?_) (by simp)
  have hne : t ≠ .lparen := fun h => habove (h ▸ ht)
  simpa using hne

theorem releaseGroup_of_notMem {waiting : List Token} (written : List Token)
    (h : Token.lparen ∉ waiting) :
    (of waiting written).releaseGroup = of [] (written ++ waiting) := by
  have hall : ∀ t ∈ waiting, decide (t ≠ Token.lparen) = true := by
    intro t ht
    have hne : t ≠ .lparen := fun he => h (he ▸ ht)
    simpa using hne
  have hnone : ∀ t ∈ ([] : List Token).head?, decide (t ≠ Token.lparen) = false := by simp
  have hrelease := release_of written hall hnone
  rwa [List.append_nil] at hrelease

/-! ### One token -/

section Take

variable {above below waiting : List Token}

/-- An operator releases exactly what it releases one by one, and then waits. -/
theorem take_op {o : BinOp} (written : List Token) (habove : ∀ t ∈ above, releases o t = true)
    (hbelow : ∀ t ∈ below.head?, releases o t = false) :
    (of (above ++ below) written).take (.op o) = .ok (of (.op o :: below) (written ++ above)) := by
  show Except.ok (((of (above ++ below) written).release (releases o)).wait (.op o)) = _
  rw [release_of written habove hbelow]
  rfl

/-- A `)` writes its group, if no function name waits below the `(`. -/
theorem take_rparen (written : List Token) (habove : Token.lparen ∉ above)
    (hbelow : ∀ f, below.head? ≠ some (.name f)) :
    (of (above ++ .lparen :: below) written).take .rparen = .ok (of below (written ++ above)) := by
  show ((of (above ++ .lparen :: below) written).releaseGroup).closeGroup = _
  rw [releaseGroup_of _ _ habove]
  unfold closeGroup of
  split
  · rename_i h
    simp at h
  · rename_i f rest h
    simp only [List.cons.injEq] at h
    exact absurd (by rw [h.2]; rfl) (hbelow f)
  · rename_i h
    simp only [List.cons.injEq] at h
    rw [h.2]

theorem take_rparen_call {f : String} (written : List Token) (habove : Token.lparen ∉ above) :
    (of (above ++ .lparen :: .name f :: below) written).take .rparen
      = .ok (of below (written ++ above ++ [.name f])) := by
  show ((of (above ++ .lparen :: .name f :: below) written).releaseGroup).closeGroup = _
  rw [releaseGroup_of _ _ habove]
  simp [closeGroup, of]

theorem take_comma (written : List Token) (habove : Token.lparen ∉ above) :
    (of (above ++ .lparen :: below) written).take .comma
      = .ok (of (.lparen :: below) (written ++ above)) := by
  show ((of (above ++ .lparen :: below) written).releaseGroup).nextArgument = _
  rw [releaseGroup_of _ _ habove]
  rfl

theorem take_rparen_of_notMem (written : List Token) (h : Token.lparen ∉ waiting) :
    (of waiting written).take .rparen = .error .unmatchedParen := by
  show ((of waiting written).releaseGroup).closeGroup = _
  rw [releaseGroup_of_notMem written h]
  rfl

theorem take_comma_of_notMem (written : List Token) (h : Token.lparen ∉ waiting) :
    (of waiting written).take .comma = .error .strayComma := by
  show ((of waiting written).releaseGroup).nextArgument = _
  rw [releaseGroup_of_notMem written h]
  rfl

end Take

/-- Whether a token goes on the stack at once, and releases nothing. -/
def waits : Token → Bool
  | .name _ | .sign _ | .lparen => true
  | _ => false

theorem cases_of_waits {t : Token} (h : waits t = true) :
    (∃ f, t = .name f) ∨ (∃ s, t = .sign s) ∨ t = .lparen := by
  cases t with
  | name f => exact Or.inl ⟨f, rfl⟩
  | sign s => exact Or.inr (Or.inl ⟨s, rfl⟩)
  | lparen => exact Or.inr (Or.inr rfl)
  | number _ | op _ | rparen | comma | eof | illegal _ => simp [waits] at h

theorem take_of_waits {t : Token} (waiting written : List Token) (h : waits t = true) :
    (of waiting written).take t = .ok (of (t :: waiting) written) := by
  rcases cases_of_waits h with ⟨f, rfl⟩ | ⟨s, rfl⟩ | rfl
  · rfl
  · rfl
  · rfl

/-- What a token does to a conversion that can take it. -/
inductive Step : Conversion → Token → Conversion → Prop
  | number (digits : String) (waiting written : List Token) :
      Step (of waiting written) (.number digits) (of waiting (written ++ [.number digits]))
  | wait {t : Token} (waiting written : List Token) (h : waits t = true) :
      Step (of waiting written) t (of (t :: waiting) written)
  | op {o : BinOp} {above below : List Token} (written : List Token)
      (habove : ∀ t ∈ above, releases o t = true)
      (hbelow : ∀ t ∈ below.head?, releases o t = false) :
      Step (of (above ++ below) written) (.op o) (of (.op o :: below) (written ++ above))
  | group {above below : List Token} (written : List Token) (habove : Token.lparen ∉ above)
      (hbelow : ∀ f, below.head? ≠ some (.name f)) :
      Step (of (above ++ .lparen :: below) written) .rparen (of below (written ++ above))
  | call {f : String} {above : List Token} (below written : List Token)
      (habove : Token.lparen ∉ above) :
      Step (of (above ++ .lparen :: .name f :: below) written) .rparen
        (of below (written ++ above ++ [.name f]))
  | comma {above : List Token} (below written : List Token) (habove : Token.lparen ∉ above) :
      Step (of (above ++ .lparen :: below) written) .comma
        (of (.lparen :: below) (written ++ above))

theorem Step.take_eq {c c' : Conversion} {t : Token} (h : Step c t c') : c.take t = .ok c' := by
  cases h with
  | number digits waiting written =>
      simp [take, write, of]
  | wait waiting written h => exact take_of_waits waiting written h
  | op written habove hbelow => exact take_op written habove hbelow
  | group written habove hbelow => exact take_rparen written habove hbelow
  | call below written habove => exact take_rparen_call written habove
  | comma below written habove => exact take_comma written habove

theorem exists_lparen_cut {waiting : List Token} (h : Token.lparen ∈ waiting) :
    ∃ above below, waiting = above ++ .lparen :: below ∧ Token.lparen ∉ above :=
  List.eq_append_cons_of_mem h

/-- How a conversion can fail to take a token. -/
inductive Fails : Conversion → Token → Fault → Prop
  | rparen {waiting : List Token} (written : List Token) (h : Token.lparen ∉ waiting) :
      Fails (of waiting written) .rparen .unmatchedParen
  | comma {waiting : List Token} (written : List Token) (h : Token.lparen ∉ waiting) :
      Fails (of waiting written) .comma .strayComma
  | eof (c : Conversion) : Fails c .eof (.unknownToken "EOF")
  | illegal (c : Conversion) (fragment : String) :
      Fails c (.illegal fragment) (.unknownToken fragment)

theorem Fails.take_eq {c : Conversion} {t : Token} {fault : Fault} (h : Fails c t fault) :
    c.take t = .error fault := by
  cases h with
  | rparen written h => exact take_rparen_of_notMem written h
  | comma written h => exact take_comma_of_notMem written h
  | eof => rfl
  | illegal fragment => rfl

/-- **A token is taken in one of the six ways or refused in one of the four.** -/
theorem step_or_fails (c : Conversion) (t : Token) :
    (∃ next, Step c t next) ∨ ∃ fault, Fails c t fault := by
  obtain ⟨waiting, written, rfl⟩ : ∃ waiting written, c = of waiting written := ⟨_, _, eq_of c⟩
  cases t with
  | number digits => exact Or.inl ⟨_, .number digits waiting written⟩
  | name _ | sign _ | lparen => exact Or.inl ⟨_, .wait waiting written rfl⟩
  | op o =>
      obtain ⟨above, below, rfl, habove, hbelow⟩ := exists_cut (releases o) waiting
      exact Or.inl ⟨_, .op written habove hbelow⟩
  | rparen =>
      by_cases hmem : Token.lparen ∈ waiting
      · obtain ⟨above, below, rfl, habove⟩ := exists_lparen_cut hmem
        by_cases hname : ∃ f, below.head? = some (.name f)
        · obtain ⟨f, hf⟩ := hname
          obtain ⟨rest, rfl⟩ := List.head?_eq_some_iff.mp hf
          exact Or.inl ⟨_, .call rest written habove⟩
        · exact Or.inl ⟨_, .group written habove fun f hf => hname ⟨f, hf⟩⟩
      · exact Or.inr ⟨_, .rparen written hmem⟩
  | comma =>
      by_cases hmem : Token.lparen ∈ waiting
      · obtain ⟨above, below, rfl, habove⟩ := exists_lparen_cut hmem
        exact Or.inl ⟨_, .comma below written habove⟩
      · exact Or.inr ⟨_, .comma written hmem⟩
  | eof => exact Or.inr ⟨_, .eof _⟩
  | illegal fragment => exact Or.inr ⟨_, .illegal _ fragment⟩

theorem Step.of_take {c c' : Conversion} {t : Token} (h : c.take t = .ok c') : Step c t c' := by
  rcases step_or_fails c t with ⟨next, hs⟩ | ⟨fault, hf⟩
  · obtain rfl := Except.ok.inj (hs.take_eq.symm.trans h)
    exact hs
  · rw [hf.take_eq] at h
    exact absurd h (by simp)

theorem Fails.of_take {c : Conversion} {t : Token} {fault : Fault} (h : c.take t = .error fault) :
    Fails c t fault := by
  rcases step_or_fails c t with ⟨next, hs⟩ | ⟨fault', hf⟩
  · rw [hs.take_eq] at h
    exact absurd h (by simp)
  · obtain rfl := Except.error.inj (hf.take_eq.symm.trans h)
    exact hf

/-! ### What has been written is not looked at again -/

/-- **A step depends on the stack alone**, and adds to whatever has been written. -/
theorem Step.of_stack {c next : Conversion} {t : Token} (h : Step c t next) :
    ∃ more, next.output.toList = c.output.toList ++ more ∧
      ∀ written, Step (of c.stack written) t (of next.stack (written ++ more)) := by
  cases h with
  | number digits waiting _ =>
      exact ⟨[.number digits], rfl, fun written => .number digits waiting written⟩
  | wait waiting _ h =>
      refine ⟨[], (List.append_nil _).symm, fun written => ?_⟩
      rw [List.append_nil]
      exact .wait waiting written h
  | @op o above below _ habove hbelow =>
      exact ⟨above, rfl, fun written => .op written habove hbelow⟩
  | @group above below _ habove hbelow =>
      exact ⟨above, rfl, fun written => .group written habove hbelow⟩
  | @call f above below _ habove =>
      refine ⟨above ++ [.name f], ?_, fun written => ?_⟩
      · rw [output_of, output_of, List.append_assoc]
      · rw [← List.append_assoc]
        exact .call below written habove
  | @comma above below _ habove =>
      exact ⟨above, rfl, fun written => .comma below written habove⟩

theorem Fails.of_stack {c : Conversion} {t : Token} {fault : Fault} (h : Fails c t fault)
    (written : List Token) : Fails (of c.stack written) t fault := by
  cases h with
  | rparen _ h => exact .rparen written h
  | comma _ h => exact .comma written h
  | eof => exact .eof _
  | illegal _ fragment => exact .illegal _ fragment

/-! ### A run of tokens -/

/-- What is done in two parts is done only if both can be done. -/
theorem exists_ok_of_bind {α β : Type} {x : Except Fault α} {f : α → Except Fault β} {b : β}
    (h : x >>= f = .ok b) : ∃ a, x = .ok a ∧ f a = .ok b := by
  cases x with
  | error fault => exact absurd h nofun
  | ok a => exact ⟨a, rfl, h⟩

@[simp] theorem takeAll_nil (c : Conversion) : c.takeAll [] = .ok c := rfl

theorem takeAll_cons (c : Conversion) (t : Token) (ts : List Token) :
    c.takeAll (t :: ts) = c.take t >>= fun next => next.takeAll ts := List.foldlM_cons

theorem takeAll_append (c : Conversion) (ts us : List Token) :
    c.takeAll (ts ++ us) = c.takeAll ts >>= fun next => next.takeAll us := List.foldlM_append

theorem takeAll_cons_of_ok {c next : Conversion} {t : Token} (ts : List Token)
    (h : c.take t = .ok next) : c.takeAll (t :: ts) = next.takeAll ts := by
  rw [takeAll_cons, h]
  rfl

theorem takeAll_append_of_ok {c next : Conversion} {ts : List Token} (us : List Token)
    (h : c.takeAll ts = .ok next) : c.takeAll (ts ++ us) = next.takeAll us := by
  rw [takeAll_append, h]
  rfl

theorem exists_step_of_takeAll {c last : Conversion} {t : Token} {ts : List Token}
    (h : c.takeAll (t :: ts) = .ok last) : ∃ next, Step c t next ∧ next.takeAll ts = .ok last := by
  rw [takeAll_cons] at h
  obtain ⟨next, ht, hrest⟩ := exists_ok_of_bind h
  exact ⟨next, Step.of_take ht, hrest⟩

theorem exists_takeAll_of_append {c last : Conversion} {ts us : List Token}
    (h : c.takeAll (ts ++ us) = .ok last) :
    ∃ mid, c.takeAll ts = .ok mid ∧ mid.takeAll us = .ok last := by
  rw [takeAll_append] at h
  exact exists_ok_of_bind h

/-- The conversion has taken these tokens since the start. -/
inductive Reaches : List Token → Conversion → Prop
  | start : Reaches [] start
  | step {ts : List Token} {t : Token} {c c' : Conversion} (h : Reaches ts c) (hs : Step c t c') :
      Reaches (ts ++ [t]) c'

theorem Reaches.takeAll_eq {ts : List Token} {c : Conversion} (h : Reaches ts c) :
    Conversion.start.takeAll ts = .ok c := by
  induction h with
  | start => rfl
  | @step ts t c c' _ hs ih =>
      rw [takeAll_append_of_ok [t] ih, takeAll_cons_of_ok [] hs.take_eq, takeAll_nil]

theorem Reaches.append {ts us : List Token} {c c' : Conversion} (hc : Reaches ts c)
    (h : c.takeAll us = .ok c') : Reaches (ts ++ us) c' := by
  induction us generalizing ts c with
  | nil =>
      obtain rfl := Except.ok.inj h
      rwa [List.append_nil]
  | cons t us ih =>
      obtain ⟨next, hs, hrest⟩ := exists_step_of_takeAll h
      have hrun := ih (hc.step hs) hrest
      rwa [List.append_assoc] at hrun

/-- The states of a run are the ones that the tokens lead to. -/
theorem reaches_iff {ts : List Token} {c : Conversion} :
    Reaches ts c ↔ start.takeAll ts = .ok c :=
  ⟨Reaches.takeAll_eq, fun h => Reaches.start.append h⟩

/-! ### The end of the tokens -/

theorem finish_of_notMem {waiting : List Token} (written : List Token)
    (h : Token.lparen ∉ waiting) : (of waiting written).finish = .ok (written ++ waiting) := by
  unfold finish
  rw [releaseGroup_of_notMem written h]
  rfl

theorem finish_of_mem {waiting : List Token} (written : List Token)
    (h : Token.lparen ∈ waiting) : (of waiting written).finish = .error .unclosedParen := by
  obtain ⟨above, below, rfl, habove⟩ := exists_lparen_cut h
  unfold finish
  rw [releaseGroup_of _ _ habove]
  rfl

/-- **A list converts exactly if a run takes all of it and leaves no `(` open.** -/
theorem convert_eq_ok_iff {ts out : List Token} :
    convert ts = .ok out ↔
      ∃ c, Reaches ts c ∧ Token.lparen ∉ c.stack ∧ out = c.output.toList ++ c.stack := by
  constructor
  · intro h
    obtain ⟨c, hrun, hfin⟩ := exists_ok_of_bind h
    by_cases hmem : Token.lparen ∈ c.stack
    · rw [eq_of c, finish_of_mem _ hmem] at hfin
      exact absurd hfin (by simp)
    · rw [eq_of c, finish_of_notMem _ hmem] at hfin
      exact ⟨c, reaches_iff.mpr hrun, hmem, (Except.ok.inj hfin).symm⟩
  · rintro ⟨c, hrun, hmem, rfl⟩
    rw [convert, hrun.takeAll_eq]
    exact finish_of_notMem c.output.toList hmem

end ReversePolish.Conversion
