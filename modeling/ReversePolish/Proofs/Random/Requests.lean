/-
How many requests a draw makes of a script, and which words it depends on.

A draw goes on until a word is accepted, and nothing in it bounds how many it rejects.
What bounds them is the script: behind its end all words are 0, so a draw that accepts 0
can reject only words that are written in the script, and each of them once.

`Spends` says so of a draw and a script together: there are `u` requests, the `n` that the
result takes in any case and at most one more for each word that is left.  Draws behind each
other then share the words that are left, since the second can only reject what the first
did not read (`Spends.bind`).

The result is the same for every script that goes on with the same `u` words.  That is part
of `Spends` as well, so that it is carried along with the count and not proved a second time.
-/
import ReversePolish.Proofs.Random.Draw

namespace ReversePolish

/-! ### Scripts as they go on -/

namespace Script

/-- The word that a script answers with `i` requests from now. -/
def wordAt (s : Script) (i : Nat) : UInt64 := s.words.getD i 0

/-- The script after `u` requests more. -/
def skip (s : Script) (u : Nat) : Script := ⟨s.words.drop u, s.used + u⟩

/-- The two scripts go on with the same `u` words, those behind their ends being 0. -/
def Agrees (u : Nat) (s s' : Script) : Prop := ∀ i < u, s'.wordAt i = s.wordAt i

@[simp] theorem length_skip (s : Script) (u : Nat) :
    (s.skip u).words.length = s.words.length - u := List.length_drop

@[simp] theorem skip_skip (s : Script) (u v : Nat) : (s.skip u).skip v = s.skip (u + v) := by
  simp [skip, List.drop_drop, Nat.add_assoc]

@[simp] theorem wordAt_skip (s : Script) (u i : Nat) : (s.skip u).wordAt i = s.wordAt (u + i) := by
  simp [skip, wordAt, List.getD_eq_getElem?_getD]

theorem next64_eq (s : Script) : s.next64 = (s.wordAt 0, s.skip 1) := by
  obtain ⟨words, used⟩ := s
  cases words <;> rfl

theorem wordAt_of_words_eq_nil {s : Script} (h : s.words = []) (i : Nat) : s.wordAt i = 0 := by
  simp [wordAt, h]

theorem Agrees.refl (u : Nat) (s : Script) : s.Agrees u s := fun _ _ => rfl

theorem Agrees.mono {u v : Nat} {s s' : Script} (h : s.Agrees v s') (huv : u ≤ v) :
    s.Agrees u s' := fun i hi => h i (Nat.lt_of_lt_of_le hi huv)

theorem Agrees.skip {u v : Nat} {s s' : Script} (h : s.Agrees (u + v) s') :
    (s.skip u).Agrees v (s'.skip u) := by
  intro i hi
  rw [wordAt_skip, wordAt_skip]
  exact h (u + i) (by omega)

end Script

namespace Draw

variable {α β : Type}

/--
From the script `s` the draw comes to `a` with `u` requests.

At least `n` of them are made in any case, and the others are for words that are written in
the script.
-/
structure Spends (d : Draw Script α) (s : Script) (a : α) (n u : Nat) : Prop where
  /-- No other words but the next `u` make a difference. -/
  run : ∀ s', s.Agrees u s' → d s' = some (a, s'.skip u)
  le : n ≤ u
  le_add : u ≤ n + s.words.length

theorem spends_pure (a : α) (s : Script) : Spends (pure a) s a 0 0 where
  run s' _ := by
    show some (a, s') = some (a, s'.skip 0)
    simp [Script.skip]
  le := Nat.le_refl 0
  le_add := Nat.zero_le _

/-- **Draws behind each other add up their requests, and reject each word once between them.** -/
theorem Spends.bind {x : Draw Script α} {f : α → Draw Script β} {s : Script} {a : α} {b : β}
    {m n u v : Nat} (hx : Spends x s a m u) (hf : Spends (f a) (s.skip u) b n v) :
    Spends (x >>= f) s b (m + n) (u + v) where
  run s' h := by
    have hfirst := hx.run s' (h.mono (Nat.le_add_right u v))
    have hsecond := hf.run (s'.skip u) h.skip
    rw [bind_apply, hfirst, Option.bind_some, hsecond, Script.skip_skip]
  le := Nat.add_le_add hx.le hf.le
  le_add := by
    have hfirst := hx.le_add
    have hsecond := hf.le_add
    rw [Script.length_skip] at hsecond
    -- Either the first draw leaves words over, or the second has none to reject.
    by_cases hleft : u ≤ s.words.length
    · have := hx.le
      omega
    · omega

theorem Spends.map {x : Draw Script α} {s : Script} {a : α} {n u : Nat} (h : Spends x s a n u)
    (f : α → β) : Spends (f <$> x) s (f a) n u := by
  have hbind := h.bind (f := fun a => pure (f a)) (spends_pure (f a) (s.skip u))
  rwa [← map_eq_pure_bind] at hbind

/-- A draw that is repeated makes the requests of all its results. -/
theorem exists_spends_times {d : Draw Script α} {cost : α → Nat} (total : List α → Nat)
    (hnil : total [] = 0) (hcons : ∀ a as, total (a :: as) = cost a + total as)
    (h : ∀ s, ∃ a u, Spends d s a (cost a) u) (n : Nat) (s : Script) :
    ∃ as u, Spends (times n d) s as (total as) u := by
  induction n generalizing s with
  | zero =>
      refine ⟨[], 0, ?_⟩
      rw [hnil]
      exact spends_pure [] s
  | succ n ih =>
      obtain ⟨a, u, ha⟩ := h s
      obtain ⟨as, v, has⟩ := ih (s.skip u)
      refine ⟨a :: as, u + v, ?_⟩
      rw [hcons]
      exact ha.bind (has.map (a :: ·))

/-! ### One draw from words -/

section From64

variable {accept : UInt64 → Option α} {s : Script} {a : α}

theorem from64_of_wordAt (h : accept (s.wordAt 0) = some a) :
    from64 accept s = some (a, s.skip 1) := by
  have hnext : Source.next64 s = (s.wordAt 0, s.skip 1) := s.next64_eq
  rw [from64_of_accept (Nat.succ_pos s.words.length) (by rw [hnext, h]), hnext]

/-- A word that is rejected is passed over, if it is not behind the end of the script. -/
theorem from64_of_reject (hend : accept 0 ≠ none) (h : accept (s.wordAt 0) = none) :
    from64 accept s = from64 accept (s.skip 1) := by
  obtain ⟨words, used⟩ := s
  cases words with
  | nil => exact absurd h hend
  | cons word rest => exact from64_cons_of_none h rest used

theorem spends_of_accept (h : accept (s.wordAt 0) = some a) : Spends (from64 accept) s a 1 1 where
  run s' hs' := from64_of_wordAt (by rwa [hs' 0 Nat.one_pos])
  le := Nat.le_refl 1
  le_add := Nat.le_add_right 1 _

/-- A rejected word takes one request more, and it is one of those that are left. -/
theorem Spends.of_reject {u : Nat} (hend : accept 0 ≠ none) (h : accept (s.wordAt 0) = none)
    (hrest : Spends (from64 accept) (s.skip 1) a 1 u) : Spends (from64 accept) s a 1 (1 + u) where
  run s' hs' := by
    have hreject : accept (s'.wordAt 0) = none := by rwa [hs' 0 (by omega)]
    rw [from64_of_reject hend hreject, hrest.run (s'.skip 1) hs'.skip, Script.skip_skip]
  le := Nat.le_add_right 1 u
  le_add := by
    have hne : s.words ≠ [] := by
      intro hnil
      rw [Script.wordAt_of_words_eq_nil hnil] at h
      exact hend h
    have hpos := List.length_pos_iff.mpr hne
    have hle := hrest.le_add
    rw [Script.length_skip] at hle
    omega

/-- **A draw that accepts 0 comes to an end on every script.** -/
theorem exists_spends_from64 (hend : accept 0 ≠ none) (s : Script) :
    ∃ a u, Spends (from64 accept) s a 1 u := by
  generalize hlength : s.words.length = w
  induction w generalizing s with
  | zero =>
      obtain ⟨a, ha⟩ := Option.ne_none_iff_exists'.mp hend
      have hword : s.wordAt 0 = 0 :=
        Script.wordAt_of_words_eq_nil (List.eq_nil_of_length_eq_zero hlength) 0
      exact ⟨a, 1, spends_of_accept (by rw [hword, ha])⟩
  | succ w ih =>
      cases haccept : accept (s.wordAt 0) with
      | some a => exact ⟨a, 1, spends_of_accept haccept⟩
      | none =>
          obtain ⟨a, u, hrest⟩ := ih (s.skip 1) (by rw [Script.length_skip, hlength]; rfl)
          exact ⟨a, 1 + u, hrest.of_reject hend haccept⟩

theorem exists_spends_from32 {accept : UInt32 → Option α} (hend : accept 0 ≠ none) (s : Script) :
    ∃ a u, Spends (from32 accept) s a 1 u := by
  rw [from32_eq_from64]
  exact exists_spends_from64 hend s

end From64

end Draw

end ReversePolish
