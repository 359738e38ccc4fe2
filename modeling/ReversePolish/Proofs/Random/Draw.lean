/-
What a draw can give, and what a script has to say for it to give that.

`Gives` forgets the source: it says that a draw can come to a result at all.  What holds
of everything a draw gives then follows from the parts it is made of, whatever the source
is and whatever it was asked before.

`Takes` is about scripts: the draw takes exactly these words, one after the other, and
comes to this result, whatever the script says behind them.  So the scripts of the parts
of a draw, put behind each other in the order in which they are drawn, are a script of the
draw.  With `Skips`, the draw passes over a word that it cannot use.  Of a draw from words
of either width the two say just what a word is accepted for (`takes_from64_iff`,
`skips_from64_iff` and the same for 32 bits).
-/
import ReversePolish.Random.Script

namespace ReversePolish.Draw

variable {σ α β ω : Type}

theorem bind_apply (x : Draw σ α) (f : α → Draw σ β) (s : σ) :
    (x >>= f) s = (x s).bind fun p => f p.1 p.2 := rfl

/-! ### What a draw can give -/

/-- From some state of the source, the draw comes to `a`. -/
def Gives (d : Draw σ α) (a : α) : Prop := ∃ s s', d s = some (a, s')

theorem gives_of_eq_some {d : Draw σ α} {a : α} {s s' : σ} (h : d s = some (a, s')) : Gives d a :=
  ⟨s, s', h⟩

theorem Gives.of_pure {a b : α} (h : Gives (pure a : Draw σ α) b) : b = a := by
  obtain ⟨s, s', h⟩ := h
  exact (Prod.mk.inj (Option.some.inj h)).1.symm

theorem Gives.of_bind {x : Draw σ α} {f : α → Draw σ β} {b : β} (h : Gives (x >>= f) b) :
    ∃ a, Gives x a ∧ Gives (f a) b := by
  obtain ⟨s, s', h⟩ := h
  rw [bind_apply] at h
  obtain ⟨⟨a, mid⟩, hx, hf⟩ := Option.bind_eq_some_iff.mp h
  exact ⟨a, ⟨s, mid, hx⟩, ⟨mid, s', hf⟩⟩

theorem Gives.of_map {x : Draw σ α} {f : α → β} {b : β} (h : Gives (f <$> x) b) :
    ∃ a, Gives x a ∧ b = f a := by
  rw [map_eq_pure_bind] at h
  obtain ⟨a, hx, hpure⟩ := h.of_bind
  exact ⟨a, hx, hpure.of_pure⟩

/-- A draw that is repeated gives as many results as it was repeated, each of its own. -/
theorem Gives.of_times {n : Nat} {d : Draw σ α} {as : List α} (h : Gives (times n d) as) :
    as.length = n ∧ ∀ a ∈ as, Gives d a := by
  induction n generalizing as with
  | zero =>
      rw [h.of_pure]
      exact ⟨rfl, fun a ha => absurd ha List.not_mem_nil⟩
  | succ n ih =>
      obtain ⟨a, ha, hrest⟩ := h.of_bind
      obtain ⟨rest, hrest, hpure⟩ := hrest.of_bind
      obtain ⟨hlength, hall⟩ := ih hrest
      rw [hpure.of_pure]
      refine ⟨congrArg (· + 1) hlength, fun b hb => ?_⟩
      rcases List.mem_cons.mp hb with rfl | hb
      · exact ha
      · exact hall b hb

/-- What comes of looking for an acceptable word is what some word is accepted for. -/
theorem exists_of_firstAccepted {next : σ → ω × σ} {accept : ω → Option α} {n : Nat} {s s' : σ}
    {a : α} (h : firstAccepted next accept n s = some (a, s')) : ∃ word, accept word = some a := by
  induction n generalizing s with
  | zero => exact absurd h (by simp [firstAccepted])
  | succ n ih =>
      unfold firstAccepted at h
      split at h
      · rename_i b hb
        obtain ⟨rfl, -⟩ := Prod.mk.inj (Option.some.inj h)
        exact ⟨_, hb⟩
      · exact ih h

theorem Gives.of_from32 [Source σ] {accept : UInt32 → Option α} {a : α}
    (h : Gives (from32 accept : Draw σ α) a) : ∃ word, accept word = some a := by
  obtain ⟨s, s', h⟩ := h
  exact exists_of_firstAccepted h

theorem Gives.of_from64 [Source σ] {accept : UInt64 → Option α} {a : α}
    (h : Gives (from64 accept : Draw σ α) a) : ∃ word, accept word = some a := by
  obtain ⟨s, s', h⟩ := h
  exact exists_of_firstAccepted h

/-! ### What a draw takes from a script -/

/-- The draw takes just these words off a script, whatever follows them, and comes to `a`. -/
def Takes (d : Draw Script α) (words : List UInt64) (a : α) : Prop :=
  ∀ rest used, d ⟨words ++ rest, used⟩ = some (a, ⟨rest, used + words.length⟩)

theorem takes_pure (a : α) : Takes (pure a) [] a := fun _ _ => rfl

theorem Takes.bind {x : Draw Script α} {f : α → Draw Script β} {us vs : List UInt64} {a : α} {b : β}
    (hx : Takes x us a) (hf : Takes (f a) vs b) : Takes (x >>= f) (us ++ vs) b := by
  intro rest used
  rw [bind_apply, List.append_assoc, hx (vs ++ rest) used, Option.bind_some, hf rest,
    List.length_append, Nat.add_assoc]

theorem Takes.map {x : Draw Script α} {words : List UInt64} {a : α} (h : Takes x words a)
    (f : α → β) : Takes (f <$> x) words (f a) := by
  have hbind := h.bind (f := fun a => pure (f a)) (takes_pure (f a))
  rwa [List.append_nil, ← map_eq_pure_bind] at hbind

/-- Results that the draw has a script for, one behind the other. -/
theorem exists_takes_times {d : Draw Script α} {as : List α} (h : ∀ a ∈ as, ∃ words, Takes d words a) :
    ∃ words, Takes (times as.length d) words as := by
  induction as with
  | nil => exact ⟨[], takes_pure []⟩
  | cons a as ih =>
      obtain ⟨us, ha⟩ := h a List.mem_cons_self
      obtain ⟨vs, has⟩ := ih fun b hb => h b (List.mem_cons_of_mem a hb)
      exact ⟨us ++ vs, ha.bind (has.map (a :: ·))⟩

theorem takes_from64 {accept : UInt64 → Option α} {word : UInt64} {a : α}
    (h : accept word = some a) : Takes (from64 accept) [word] a := by
  intro rest used
  show firstAccepted Script.next64 accept (rest.length + 1 + 1) ⟨word :: rest, used⟩ = _
  simp [firstAccepted, Script.next64, h]

theorem from64_cons_of_none {accept : UInt64 → Option α} {word : UInt64} (h : accept word = none)
    (rest : List UInt64) (used : Nat) :
    from64 accept (⟨word :: rest, used⟩ : Script) = from64 accept ⟨rest, used + 1⟩ := by
  show firstAccepted Script.next64 accept (rest.length + 1 + 1) _
    = firstAccepted Script.next64 accept (rest.length + 1) _
  simp [firstAccepted, Script.next64, h]

/-- A request for 32 bits takes a whole word off the script, and looks at its lower half. -/
theorem from32_eq_from64 (accept : UInt32 → Option α) :
    (from32 accept : Draw Script α) = from64 fun word => accept word.toUInt32 := by
  have hfirst (n : Nat) (s : Script) : firstAccepted Script.next32 accept n s
      = firstAccepted Script.next64 (fun word => accept word.toUInt32) n s := by
    induction n generalizing s with
    | zero => rfl
    | succ n ih => simp only [firstAccepted, Script.next32, ih]
  funext s
  exact hfirst (s.words.length + 1) s

theorem takes_from32 {accept : UInt32 → Option α} {word : UInt32} {a : α}
    (h : accept word = some a) : Takes (from32 accept) [word.toUInt64] a := by
  rw [from32_eq_from64]
  exact takes_from64 (by simpa using h)

/-! ### What one word decides -/

/-- The draw takes no notice of the word, and goes on with what the script says behind it. -/
def Skips (d : Draw Script α) (word : UInt64) : Prop :=
  ∀ rest used, d ⟨word :: rest, used⟩ = d ⟨rest, used + 1⟩

section From64

variable {accept : UInt64 → Option α} {word : UInt64}

/-- Behind the end of a script a draw has to make one more request. -/
theorem from64_nil_ne (accept : UInt64 → Option α) (a : α) :
    from64 accept (⟨[], 1⟩ : Script) ≠ some (a, ⟨[], 1⟩) := by
  show firstAccepted Script.next64 accept 1 _ ≠ _
  intro h
  unfold firstAccepted at h
  split at h
  · simp [Script.next64] at h
  · simp [firstAccepted] at h

/-- **A word is taken for what it is accepted for**, and for nothing else. -/
theorem takes_from64_iff {a : α} : Takes (from64 accept) [word] a ↔ accept word = some a := by
  refine ⟨fun h => ?_, takes_from64⟩
  have hrun := h [] 0
  cases haccept : accept word with
  | none =>
      rw [List.singleton_append, from64_cons_of_none haccept] at hrun
      exact absurd hrun (from64_nil_ne accept a)
  | some b =>
      rw [takes_from64 haccept [] 0] at hrun
      simp only [Option.some.injEq, Prod.mk.injEq] at hrun
      rw [hrun.1]

theorem skips_from64_iff : Skips (from64 accept) word ↔ accept word = none := by
  refine ⟨fun h => ?_, from64_cons_of_none⟩
  cases haccept : accept word with
  | none => rfl
  | some a =>
      have hrun := h [] 0
      rw [← List.singleton_append, takes_from64 haccept [] 0] at hrun
      exact absurd hrun.symm (from64_nil_ne accept a)

/-- What a draw comes to may be changed word by word. -/
theorem map_from64 [Source σ] (f : α → β) (accept : UInt64 → Option α) :
    (f <$> from64 accept : Draw σ β) = from64 fun word => (accept word).map f := by
  have hfirst (n : Nat) (s : σ) :
      firstAccepted Source.next64 (fun word => (accept word).map f) n s
        = (firstAccepted Source.next64 accept n s).map fun p => (f p.1, p.2) := by
    induction n generalizing s with
    | zero => rfl
    | succ n ih =>
        unfold firstAccepted
        cases accept (Source.next64 s).1 with
        | none => exact ih _
        | some a => rfl
  funext s
  rw [map_eq_pure_bind, bind_apply]
  show (firstAccepted _ _ _ s).bind _ = firstAccepted _ _ _ s
  rw [hfirst, Option.map_eq_bind]
  rfl

end From64

section From32

variable {accept : UInt32 → Option α} {word : UInt32}

theorem takes_from32_iff {a : α} :
    Takes (from32 accept) [word.toUInt64] a ↔ accept word = some a := by
  rw [from32_eq_from64, takes_from64_iff, UInt32.toUInt32_toUInt64]

theorem skips_from32_iff : Skips (from32 accept) word.toUInt64 ↔ accept word = none := by
  rw [from32_eq_from64, skips_from64_iff, UInt32.toUInt32_toUInt64]

end From32

/-! ### One word from any source -/

theorem firstAccepted_of_accept {next : σ → ω × σ} {accept : ω → Option α} {n : Nat} {s : σ} {a : α}
    (hn : 0 < n) (h : accept (next s).1 = some a) :
    firstAccepted next accept n s = some (a, (next s).2) := by
  obtain ⟨n, rfl⟩ := Nat.exists_eq_succ_of_ne_zero (Nat.ne_of_gt hn)
  simp only [firstAccepted, h]

theorem from32_of_accept [Source σ] {accept : UInt32 → Option α} {s : σ} {a : α}
    (hs : 0 < Source.patience s) (h : accept (Source.next32 s).1 = some a) :
    from32 accept s = some (a, (Source.next32 s).2) := firstAccepted_of_accept hs h

theorem from64_of_accept [Source σ] {accept : UInt64 → Option α} {s : σ} {a : α}
    (hs : 0 < Source.patience s) (h : accept (Source.next64 s).1 = some a) :
    from64 accept s = some (a, (Source.next64 s).2) := firstAccepted_of_accept hs h

end ReversePolish.Draw
