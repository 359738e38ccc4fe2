/-
Numbers and functions come up equally often.

A number is drawn from its range, and a function by its place among the six.  The two draws
are made in the same way: a word of 64 bits gives a place below some count, or none, and the
result is what stands at the place.  The zone for ranges is as long as a multiple of the
count by a power of two (`Scale.rangeZone_add_one`), so this power is the share that every
place has of the words, whatever the count is.  Each result stands at one place, and so it
has the same share.

The range of all 64-bit numbers has no count that would fit into 64 bits.  There each word
stands for itself.
-/
import ReversePolish.Proofs.Generator.Trees
import ReversePolish.Proofs.Random.Uniform

namespace ReversePolish

open Finset

namespace Draw

variable {α : Type} {draw : {σ : Type} → [Source σ] → Draw σ α} {results : Set α}

/-- Each of the results is drawn for the same number of 64-bit words. -/
structure Uniform (draw : {σ : Type} → [Source σ] → Draw σ α) (results : Set α) (share : Nat) :
    Prop where
  /-- So many words are taken for the result at once. -/
  drawn : ∀ a ∈ results, {word : UInt64 | Takes draw [word] a}.ncard = share
  /-- All other words are skipped. -/
  skipped : ∀ word, Skips draw word ↔ ∀ a ∈ results, ¬ Takes draw [word] a
  /-- There are no other results, from whatever source. -/
  only : ∀ {σ : Type} [Source σ] a, Gives (draw : Draw σ α) a → a ∈ results
  /-- What a word is taken for does not depend on the source that it comes from. -/
  anySource : ∀ {σ : Type} [Source σ] {s : σ} a, 0 < Source.patience s →
    Takes draw [(Source.next64 s).1] a → draw s = some (a, (Source.next64 s).2)

/-- **A result that stands at one place below the count has the share of that place.** -/
theorem uniform_of_places [DecidableEq α] {count : Nat} {at? : Nat → Option α}
    (hpos : 0 < count) (hmax : count < UInt64.size)
    (hdraw : ∀ {σ : Type} [Source σ],
      (draw : Draw σ α) = from64 fun word => Scale.below64? count word >>= at?)
    (hplaces : ∀ n < count, ∃ a ∈ results, at? n = some a)
    (hone : ∀ a ∈ results, #{n ∈ range count | at? n = some a} = 1) :
    Uniform draw results (2 ^ Scale.leadingZeros count) where
  drawn a ha := by
    simp only [hdraw, takes_from64_iff]
    show {word : UInt64 | (Scale.scaled? UInt64.size count (Scale.rangeZone count) word.toNat
      >>= at?) = some a}.ncard = _
    rw [Scale.ncard_uint64 fun n =>
        (Scale.scaled? UInt64.size count (Scale.rangeZone count) n >>= at?) = some a,
      Scale.card_scaled?_bind (Scale.rangeZone_lt hpos hmax) (Scale.rangeZone_add_one hpos),
      hone a ha, Nat.one_mul]
  skipped word := by
    simp only [hdraw, skips_from64_iff, takes_from64_iff]
    cases hword : Scale.below64? count word with
    | none => simp
    | some n =>
        obtain ⟨a, ha, hn⟩ := hplaces n (Scale.lt_of_below64? hpos hword)
        constructor
        · intro hnone
          exact absurd (hn.symm.trans hnone) (by simp)
        · intro hall
          exact absurd hn (hall a ha)
  only a h := by
    rw [hdraw] at h
    obtain ⟨word, hword⟩ := h.of_from64
    obtain ⟨n, hn, hat⟩ := Option.bind_eq_some_iff.mp hword
    obtain ⟨b, hb, hplace⟩ := hplaces n (Scale.lt_of_below64? hpos hn)
    rwa [Option.some.inj (hat.symm.trans hplace)]
  anySource a hs h := by
    rw [hdraw] at h ⊢
    exact from64_of_accept hs (takes_from64_iff.mp h)

end Draw

namespace Generator

open Draw

/-! ### Numbers -/

section Number

variable {g : Generator}

/-- The numbers that a generator can draw. -/
def numbers (g : Generator) : Set Expr := {e | ∃ n ≤ g.config.maxNumber.toNat, e = .num n}

theorem number_eq_from64 {σ : Type} [Source σ] (hmax : g.config.maxNumber.toNat + 1 ≠ UInt64.size) :
    (g.number : Draw σ Expr) = from64 fun word =>
      Scale.below64? (g.config.maxNumber.toNat + 1) word >>= fun n => some (.num n) := by
  unfold number
  rw [map_from64]
  congr 1
  funext word
  rw [Scale.upTo?, if_neg hmax, Option.map_eq_bind]
  rfl

theorem uniform_number (hmax : g.config.maxNumber.toNat + 1 < UInt64.size) :
    Uniform g.number g.numbers (2 ^ Scale.leadingZeros (g.config.maxNumber.toNat + 1)) := by
  refine uniform_of_places (Nat.succ_pos _) hmax (number_eq_from64 (Nat.ne_of_lt hmax)) ?_ ?_
  · intro n hn
    exact ⟨.num n, ⟨n, Nat.le_of_lt_succ hn, rfl⟩, rfl⟩
  · rintro a ⟨n, hn, rfl⟩
    refine card_eq_one.mpr ⟨n, ?_⟩
    ext i
    simp only [mem_filter, mem_range, mem_singleton, Option.some.injEq, Expr.num.injEq]
    omega

theorem number_of_all {σ : Type} [Source σ] {s : σ}
    (hall : g.config.maxNumber.toNat + 1 = UInt64.size) (hs : 0 < Source.patience s) :
    g.number s = some (.num (Source.next64 s).1.toNat, (Source.next64 s).2) := by
  unfold number
  rw [map_from64]
  refine from64_of_accept hs ?_
  rw [Scale.upTo?, if_pos hall]
  rfl

end Number

/-! ### Functions -/

theorem exists_function_of_lt {i : Nat} (hi : i < Builtin.all.length) :
    ∃ f, Builtin.all[i]? = some f := ⟨_, List.getElem?_eq_getElem hi⟩

theorem card_function (f : Builtin) :
    #{i ∈ range Builtin.all.length | Builtin.all[i]? = some f} = 1 := by
  cases f <;> rfl

theorem uniform_function : Uniform function Set.univ (2 ^ 61) := by
  have hplaces : ∀ i < Builtin.all.length, ∃ f ∈ Set.univ, Builtin.all[i]? = some f := by
    intro i hi
    obtain ⟨f, hf⟩ := exists_function_of_lt hi
    exact ⟨f, Set.mem_univ f, hf⟩
  exact uniform_of_places (by decide) (by decide) rfl hplaces fun f _ => card_function f

theorem takes_function_of_place {word : UInt64} {i : Nat} (h : Scale.below64? 6 word = some i) :
    ∃ f, Builtin.all[i]? = some f ∧ Takes function [word] f := by
  obtain ⟨f, hf⟩ := exists_function_of_lt (Scale.lt_of_below64? (by decide) h)
  refine ⟨f, hf, takes_from64 ?_⟩
  show (Scale.below64? 6 word >>= fun i => Builtin.all[i]?) = some f
  rw [h]
  exact hf

/--
**Numbers and functions are drawn with equal odds.**

Of the words of 64 bits each number of the range has as many as the power of two says whose
exponent is the number of leading zeros of the size of the range, and all words that are left
are turned away; if the range has every 64-bit number in it, each word is its own number.  Each
of the six functions has 2⁶¹ words.
-/
theorem numbers_and_functions_uniform (g : Generator) :
    (g.config.maxNumber.toNat + 1 < UInt64.size →
      Uniform g.number g.numbers
        (2 ^ (BitVec.ofNat 64 (g.config.maxNumber.toNat + 1)).clz.toNat)) ∧
    (g.config.maxNumber.toNat + 1 = UInt64.size →
      ∀ {σ : Type} [Source σ] (s : σ), 0 < Source.patience s →
        g.number s = some (.num (Source.next64 s).1.toNat, (Source.next64 s).2)) ∧
    Uniform function Set.univ (2 ^ 61) ∧
    ∀ word i, Scale.below64? 6 word = some i →
      ∃ f, Builtin.all[i]? = some f ∧ Takes function [word] f := by
  refine ⟨fun hmax => ?_, fun hall _ _ s hs => number_of_all hall hs, uniform_function,
    fun word i h => takes_function_of_place h⟩
  rw [← Scale.leadingZeros_eq_clz (Nat.succ_pos _) hmax]
  exact uniform_number hmax

/-- Digits have 2⁶⁰ words each, which leaves 6 times as many over; and the largest word there is
stands for the largest number, if all numbers are in the range. -/
theorem numbers_and_functions_uniform_digits :
    (∃ g, ofConfig {} = .ok g ∧ {word : UInt64 | Takes g.number [word] (.num 9)}.ncard = 2 ^ 60 ∧
      ∀ n, Gives (g.number : Draw Script Expr) (.num n) → n ≤ 9) ∧
    flat.number (Script.ofWords [18446744073709551615])
      = some (.num 18446744073709551615, ⟨[], 1⟩) ∧
    {word : UInt64 | Takes function [word] .pow}.ncard = 2 ^ 61 ∧
    Takes function [6917529027641081856] .exp := by
  obtain ⟨hall, hfunction, hplace⟩ := (numbers_and_functions_uniform flat).2
  refine ⟨⟨⟨{}, by decide⟩, rfl, ?_, ?_⟩, hall rfl _ (by decide), hfunction.drawn .pow trivial, ?_⟩
  · have hdigits := (numbers_and_functions_uniform ⟨{}, by decide⟩).1 (by decide)
    rw [hdigits.drawn (.num 9) ⟨9, by decide, rfl⟩]
    decide +kernel
  · intro n hn
    obtain ⟨m, hm, heq⟩ := ((numbers_and_functions_uniform ⟨{}, by decide⟩).1 (by decide)).only _ hn
    rw [Expr.num.inj heq]
    exact hm
  · obtain ⟨f, hf, htakes⟩ := hplace 6917529027641081856 2 (by decide +kernel)
    obtain rfl := Option.some.inj hf
    exact htakes

end Generator

end ReversePolish
