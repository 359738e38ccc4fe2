/-
Kinds of nodes come up in proportion to their weights.

Two counts meet here.  The words of 32 bits are shared out equally among the numbers below
the sum of the weights (`Scale.card_scaled?`).  And of these numbers a kind covers as many
as its weight says, since it has one entry in the table and so one stretch of numbers
(`card_covering?`).

The words are counted by what a draw does with them: those that it takes for a kind at
once, and those that it skips.
-/
import ReversePolish.Proofs.Generator.Trees
import ReversePolish.Proofs.Random.Uniform

namespace ReversePolish

open Finset

theorem NodeKind.nodup_all : NodeKind.all.Nodup := .of_map _ NodeKind.nodup_keys

namespace Generator

open Draw Weights

/-- **A key covers as many numbers as its weight says**, if it has no other entry. -/
theorem card_covering? {κ : Type} [DecidableEq κ] {table : List (κ × UInt32)} {k : κ} {w : UInt32}
    (hkeys : (table.map (·.1)).Nodup) (hmem : (k, w) ∈ table) :
    #{z ∈ range (sumOf table) | covering? table z = some k} = w.toNat := by
  obtain ⟨i, hi⟩ := List.mem_iff_getElem?.mp hmem
  have hsum := sumOf_take_succ hi
  have hall := sumOf_take_le table (i + 1)
  have hstretch : {z ∈ range (sumOf table) | covering? table z = some k}
      = Ico (sumOf (table.take i)) (sumOf (table.take i) + w.toNat) := by
    ext z
    rw [mem_filter, mem_range, mem_Ico, covering?_eq_some_iff, ← hsum]
    constructor
    · intro ⟨_, j, w', hj, hle, hlt⟩
      have hlength : i < (table.map (·.1)).length := by
        rw [List.length_map]
        exact (List.getElem?_eq_some_iff.mp hi).1
      have hij : i = j := by
        refine (List.getElem?_inj hlength hkeys).mp ?_
        rw [List.getElem?_map, List.getElem?_map, hi, hj]
        rfl
      rw [hij]
      exact ⟨hle, hlt⟩
    · intro h
      exact ⟨by omega, i, w, hi, h⟩
  rw [hstretch, Nat.card_Ico, Nat.add_sub_cancel_left]

/-! ### The words that a kind is drawn for -/

section Words

variable {w : Weights}

theorem ncard_kindOf?_eq_some (hpos : 0 < w.total) (hmax : w.total < UInt32.size) (k : NodeKind) :
    {word : UInt32 | kindOf? w word = some k}.ncard
      = (w.weight k).toNat * (UInt32.size / w.total) := by
  have hkeys : (w.table.map (·.1)).Nodup := by
    rw [map_fst_table]
    exact NodeKind.nodup_all
  show {word : UInt32 | (Scale.scaled? UInt32.size w.total (Scale.weightZone w.total) word.toNat
    >>= covering? w.table) = some k}.ncard = _
  rw [Scale.ncard_uint32 fun n => (Scale.scaled? UInt32.size w.total (Scale.weightZone w.total) n
      >>= covering? w.table) = some k,
    Scale.card_scaled?_bind (Scale.weightZone_lt _) (Scale.weightZone_add_one hpos hmax)]
  congr 1
  exact card_covering? hkeys (w.mem_table k)

theorem kindOf?_eq_none_iff (hpos : 0 < w.total) {word : UInt32} :
    kindOf? w word = none ↔ Scale.below32? w.total word = none := by
  unfold kindOf?
  cases hword : Scale.below32? w.total word with
  | none => simp
  | some z =>
      have hz : z < w.total := Scale.lt_of_scaled? hpos word.toNat_lt hword
      obtain ⟨k, hk⟩ := exists_covering?_of_lt hz
      simp [hk]

theorem ncard_kindOf?_eq_none (hpos : 0 < w.total) (hmax : w.total < UInt32.size) :
    {word : UInt32 | kindOf? w word = none}.ncard = UInt32.size % w.total := by
  simp only [kindOf?_eq_none_iff hpos]
  show {word : UInt32 | Scale.scaled? UInt32.size w.total (Scale.weightZone w.total) word.toNat
    = none}.ncard = _
  rw [Scale.ncard_uint32 fun n => Scale.scaled? UInt32.size w.total (Scale.weightZone w.total) n
      = none,
    Scale.card_scaled?_eq_none (Scale.weightZone_lt _) (Scale.weightZone_add_one hpos hmax),
    Nat.mod_eq_sub_mul_div]

/-- An accepted word is for the kind with which the weights first add up to more than its number. -/
theorem exists_index {word : UInt32} {z : Nat} (hpos : 0 < w.total)
    (hword : Scale.below32? w.total word = some z) :
    ∃ i k, NodeKind.all[i]? = some k ∧ sumOf (w.table.take i) ≤ z ∧
      z < sumOf (w.table.take (i + 1)) ∧ kindOf? w word = some k := by
  obtain ⟨k, hk⟩ := exists_covering?_of_lt (Scale.lt_of_scaled? hpos word.toNat_lt hword)
  obtain ⟨i, n, hi, hle, hlt⟩ := covering?_eq_some_iff.mp hk
  refine ⟨i, k, ?_, hle, hlt, ?_⟩
  · rw [← w.map_fst_table, List.getElem?_map, hi]
    simp
  · unfold kindOf?
    rw [hword]
    exact hk

end Words

/-! ### What a generator draws -/

/-- A generator draws kinds in proportion to their weights. -/
structure Proportional (g : Generator) : Prop where
  /-- Each kind is drawn at once for as many words as its weight times the share of one number. -/
  drawn : ∀ k, {word : UInt32 | Takes g.kind [word.toUInt64] k}.ncard
    = (g.config.weights.weight k).toNat * (UInt32.size / g.config.weights.total)
  /-- The words that cannot be shared out are skipped, and no others. -/
  skipped : {word : UInt32 | Skips g.kind word.toUInt64}.ncard
    = UInt32.size % g.config.weights.total
  /-- A word that stands for a number is taken for one of the nine kinds, the first with which the
  weights add up to more than the number. -/
  indexed : ∀ word z, Scale.below32? g.config.weights.total word = some z →
    ∃ i k, NodeKind.all[i]? = some k ∧ sumOf (g.config.weights.table.take i) ≤ z ∧
      z < sumOf (g.config.weights.table.take (i + 1)) ∧ Takes g.kind [word.toUInt64] k
  /-- A kind without a weight is never drawn, from whatever source. -/
  weighted : ∀ {σ : Type} [Source σ] k, Gives (g.kind : Draw σ NodeKind) k →
    g.config.weights.weight k ≠ 0
  /-- A kind with a weight can be drawn. -/
  possible : ∀ k, g.config.weights.weight k ≠ 0 → ∃ word : UInt32, Takes g.kind [word.toUInt64] k
  /-- What a word is taken for does not depend on the source that it comes from. -/
  anySource : ∀ {σ : Type} [Source σ] {s : σ} k, 0 < Source.patience s →
    Takes g.kind [(Source.next32 s).1.toUInt64] k → g.kind s = some (k, (Source.next32 s).2)

theorem proportional {g : Generator} (hmax : g.config.weights.total < UInt32.size) :
    g.Proportional where
  drawn k := by
    simp only [kind, takes_from32_iff]
    exact ncard_kindOf?_eq_some g.total_pos hmax k
  skipped := by
    simp only [kind, skips_from32_iff]
    exact ncard_kindOf?_eq_none g.total_pos hmax
  indexed word z hword := by
    simp only [kind, takes_from32_iff]
    exact exists_index g.total_pos hword
  weighted k h := by
    have hpos := weight_pos_of_gives_kind h
    intro hzero
    simp [hzero] at hpos
  possible k hk := by
    obtain ⟨word, hword⟩ := exists_kindOf? hmax (UInt32.pos_iff_ne_zero.mpr hk)
    exact ⟨word, takes_from32 hword⟩
  anySource k hs h := from32_of_accept hs (takes_from32_iff.mp h)

theorem ofConfig_of_pos {c : Config} (hpos : 0 < c.weights.total) :
    ofConfig c = .ok ⟨c, hpos⟩ := by
  unfold ofConfig
  rw [dif_pos hpos]

theorem ofConfig_eq_error_iff {c : Config} :
    ofConfig c = .error .allWeightsZero ↔ c.weights.total = 0 := by
  by_cases h : 0 < c.weights.total
  · simp [ofConfig_of_pos h, Nat.ne_of_gt h]
  · unfold ofConfig
    simp [Nat.eq_zero_of_not_pos h]

/--
**Kinds of nodes are drawn in proportion to their weights.**

The weights are to add up to a number of 32 bits.  Then nothing wraps around when they are
added up in 32 bits, neither the whole sum nor that of the first of them.  The configuration
has no generator exactly if all its weights are 0.  Its generator turns away no more words than
cannot be shared out equally, and takes the others for the kinds as their weights say.
-/
theorem ofConfig_proportional (c : Config) (hmax : c.weights.total < UInt32.size) :
    (∀ i, (sum32 (c.weights.table.take i)).toNat = sumOf (c.weights.table.take i)) ∧
      (ofConfig c = .error .allWeightsZero ↔ ∀ k, c.weights.weight k = 0) ∧
      (0 < c.weights.total → ∃ g, ofConfig c = .ok g ∧ g.config = c ∧ g.Proportional) := by
  refine ⟨toNat_sum32_take hmax, ?_, fun hpos => ?_⟩
  · rw [ofConfig_eq_error_iff, Weights.total_eq_zero_iff]
  · exact ⟨⟨c, hpos⟩, ofConfig_of_pos hpos, rfl, proportional hmax⟩

/-- With the weights 1, 1, 2, 2, 2, 2, 2, 0, 1 there are 330382099 words for a number below 13, and
9 words left over; the number without a weight stands between two kinds that have one, and the
weights up to it add up to 12 in 32 bits as well. -/
theorem ofConfig_proportional_flat :
    flat.config.weights.total = 13 ∧
      (sum32 (flat.config.weights.table.take 8)).toNat = 12 ∧
      ofConfig flat.config ≠ .error .allWeightsZero ∧ ∃ g, ofConfig flat.config = .ok g ∧
      {word : UInt32 | Takes g.kind [word.toUInt64] (.bin .power)}.ncard = 2 * 330382099 ∧
      {word : UInt32 | Takes g.kind [word.toUInt64] .number}.ncard = 0 ∧
      {word : UInt32 | Takes g.kind [word.toUInt64] .call}.ncard = 330382099 ∧
      {word : UInt32 | Skips g.kind word.toUInt64}.ncard = 9 := by
  obtain ⟨hsums, hfails, hdraws⟩ := ofConfig_proportional flat.config (by decide)
  obtain ⟨g, hok, hconfig, hdrawn⟩ := hdraws (by decide)
  refine ⟨rfl, hsums 8, fun hfail => ?_, g, hok, ?_, ?_, ?_, ?_⟩
  · exact absurd (hfails.mp hfail (.sign .minus)) (by decide)
  · rw [hdrawn.drawn, hconfig]
    rfl
  · rw [hdrawn.drawn, hconfig]
    rfl
  · rw [hdrawn.drawn, hconfig]
    rfl
  · rw [hdrawn.skipped, hconfig]
    rfl

end Generator

end ReversePolish
