/-
How many words stand for each number.

A word is accepted for `z` if its product with the bound lies in a window: from
`z * size` on, and as far as the zone reaches.  So the words for `z` are the multiples
of the bound that fall into the window.  Where the window begins depends on `z`, but how
many multiples it holds does not, as long as its length is a multiple of the bound
itself: that is what the zones are chosen for.  `card_scaled?` is this count, and it
is the same for every number below the bound.

What is left are the words that are turned away, and the words for any class of numbers,
which are as many as the class has numbers, times the count for one (`card_scaled?_bind`).
-/
import Mathlib.Algebra.BigOperators.Group.Finset.Basic
import Mathlib.Data.Set.Card
import Mathlib.Order.Interval.Finset.Nat
import ReversePolish.Proofs.Random.Scale

namespace ReversePolish.Scale

open Finset

section Window

variable {size bound zone share z : Nat}

/-- **The words for a number are those whose product lies in its window.** -/
theorem scaled?_eq_some_iff {word : Nat} (hzone : zone < size) :
    scaled? size bound zone word = some z ↔
      z * size ≤ word * bound ∧ word * bound < z * size + (zone + 1) := by
  have hsplit := Nat.div_add_mod (word * bound) size
  have hsize : 0 < size := Nat.zero_lt_of_lt hzone
  have hrem := Nat.mod_lt (word * bound) hsize
  rw [Nat.mul_comm] at hsplit
  unfold scaled?
  constructor
  · intro h
    split at h
    · rw [Option.some.injEq] at h
      subst h
      omega
    · simp at h
  · intro h
    have hquot : word * bound / size = z := by
      refine (Nat.div_eq_iff hsize).mpr ?_
      omega
    rw [hquot] at hsplit
    rw [if_pos (by omega), hquot]

/-- A window as long as `share` multiples of the bound holds just so many of them, wherever it
begins. -/
theorem exists_window (hbound : 0 < bound) (n share : Nat) :
    ∃ first, ∀ word, n ≤ word * bound ∧ word * bound < n + share * bound ↔
      first ≤ word ∧ word < first + share := by
  obtain ⟨first, d, hd, hfirst⟩ := exists_mul_eq_add hbound n
  have hend : (first + share) * bound = n + d + share * bound := by rw [Nat.add_mul, hfirst]
  -- A multiple below the one at either end is a whole bound below it, and so below the end.
  have hbelow {a b : Nat} (h : a < b) : a * bound + bound ≤ b * bound := by
    have hle := Nat.mul_le_mul_right bound (Nat.succ_le_of_lt h)
    rwa [Nat.succ_mul] at hle
  refine ⟨first, fun word => ⟨fun h => ⟨?_, ?_⟩, fun h => ⟨?_, ?_⟩⟩⟩
  · by_contra hlt
    have hword := hbelow (Nat.not_le.mp hlt)
    omega
  · by_contra hle
    have hword := Nat.mul_le_mul_right bound (Nat.not_lt.mp hle)
    omega
  · have hword := Nat.mul_le_mul_right bound h.1
    omega
  · have hword := hbelow h.2
    omega

/-- **Each number below the bound has the same share of the words.** -/
theorem card_scaled? (hzone : zone < size) (hshare : zone + 1 = share * bound) (hz : z < bound) :
    #{word ∈ range size | scaled? size bound zone word = some z} = share := by
  have hbound : 0 < bound := Nat.zero_lt_of_lt hz
  obtain ⟨first, hfirst⟩ := exists_window hbound (z * size) share
  have hwords : {word ∈ range size | scaled? size bound zone word = some z}
      = Ico first (first + share) := by
    ext word
    rw [mem_filter, mem_range, mem_Ico, scaled?_eq_some_iff hzone, hshare, hfirst word]
    refine ⟨fun h => h.2, fun h => ⟨?_, h⟩⟩
    -- The window of the last number ends with the last product there is.
    have hlast : (z + 1) * size ≤ bound * size := Nat.mul_le_mul_right size hz
    have hword := ((hfirst word).mpr h).2
    rw [Nat.succ_mul] at hlast
    refine Nat.lt_of_mul_lt_mul_right (a := bound) ?_
    rw [Nat.mul_comm size bound]
    omega
  rw [hwords, Nat.card_Ico, Nat.add_sub_cancel_left]

/-- **A class of numbers has the shares of its members.** -/
theorem card_scaled?_bind {κ : Type} [DecidableEq κ] (hzone : zone < size)
    (hshare : zone + 1 = share * bound) (class? : Nat → Option κ) (k : κ) :
    #{word ∈ range size | (scaled? size bound zone word >>= class?) = some k}
      = #{n ∈ range bound | class? n = some k} * share := by
  have hbound : 0 < bound := by
    by_contra h0
    rw [Nat.eq_zero_of_not_pos h0] at hshare
    omega
  have hwords : {word ∈ range size | (scaled? size bound zone word >>= class?) = some k}
      = {n ∈ range bound | class? n = some k}.biUnion
          fun n => {word ∈ range size | scaled? size bound zone word = some n} := by
    ext word
    simp only [mem_biUnion, mem_filter, mem_range]
    constructor
    · intro ⟨hword, hbind⟩
      obtain ⟨n, hn, hclass⟩ := Option.bind_eq_some_iff.mp hbind
      exact ⟨n, ⟨lt_of_scaled? hbound hword hn, hclass⟩, hword, hn⟩
    · intro ⟨n, ⟨_, hclass⟩, hword, hn⟩
      exact ⟨hword, Option.bind_eq_some_iff.mpr ⟨n, hn, hclass⟩⟩
  rw [hwords, card_biUnion]
  · refine sum_const_nat fun n hn => card_scaled? hzone hshare ?_
    exact mem_range.mp (mem_filter.mp hn).1
  · -- No word is accepted for two numbers.
    intro n _ n' _ hne
    refine disjoint_filter.mpr fun word _ hn hn' => hne ?_
    exact Option.some.inj (hn.symm.trans hn')

/-- The words that are turned away are those that the shares leave over. -/
theorem card_scaled?_eq_none (hzone : zone < size) (hshare : zone + 1 = share * bound) :
    #{word ∈ range size | scaled? size bound zone word = none} = size - bound * share := by
  have hall := card_scaled?_bind hzone hshare (fun _ => some ()) ()
  rw [filter_true_of_mem fun n _ => rfl, card_range] at hall
  have haccepted : {word ∈ range size | (scaled? size bound zone word >>= fun _ => some ()) = some ()}
      = {word ∈ range size | ¬ scaled? size bound zone word = none} := by
    refine filter_congr fun word _ => ?_
    cases scaled? size bound zone word <;> simp
  have hsum := card_filter_add_card_filter_not (s := range size)
    fun word => scaled? size bound zone word = none
  rw [haccepted] at hall
  rw [card_range] at hsum
  omega

end Window

/-! ### Words as numbers -/

theorem ncard_words {ω : Type} {size : Nat} {toNat : ω → Nat} (hinj : Function.Injective toNat)
    (hrange : Set.range toNat = Set.Iio size) (p : Nat → Prop) [DecidablePred p] :
    {word : ω | p (toNat word)}.ncard = #{n ∈ range size | p n} := by
  have himage : toNat '' {word : ω | p (toNat word)} = ({n ∈ range size | p n} : Finset Nat) := by
    ext n
    have hn : (∃ word, toNat word = n) ↔ n < size := by
      rw [← Set.mem_range, hrange, Set.mem_Iio]
    simp only [Set.mem_image, Set.mem_ofPred_eq, coe_filter, mem_range, ← hn]
    constructor
    · rintro ⟨word, hp, rfl⟩
      exact ⟨⟨word, rfl⟩, hp⟩
    · rintro ⟨⟨word, rfl⟩, hp⟩
      exact ⟨word, hp, rfl⟩
  rw [← Set.ncard_image_of_injective _ hinj, himage, Set.ncard_coe_finset]

theorem ncard_uint32 (p : Nat → Prop) [DecidablePred p] :
    {word : UInt32 | p word.toNat}.ncard = #{n ∈ range UInt32.size | p n} := by
  refine ncard_words (fun a b h => UInt32.toNat_inj.mp h) ?_ p
  ext n
  refine ⟨?_, fun hn => ⟨UInt32.ofNat n, UInt32.toNat_ofNat_of_lt' hn⟩⟩
  rintro ⟨word, rfl⟩
  exact word.toNat_lt

theorem ncard_uint64 (p : Nat → Prop) [DecidablePred p] :
    {word : UInt64 | p word.toNat}.ncard = #{n ∈ range UInt64.size | p n} := by
  refine ncard_words (fun a b h => UInt64.toNat_inj.mp h) ?_ p
  ext n
  refine ⟨?_, fun hn => ⟨UInt64.ofNat n, UInt64.toNat_ofNat_of_lt' hn⟩⟩
  rintro ⟨word, rfl⟩
  exact word.toNat_lt

/-! ### The zone for weights -/

theorem weightZone_lt (total : Nat) : weightZone total < UInt32.size := by
  unfold weightZone
  have hsize : 0 < UInt32.size := by decide
  omega

/-- The zone for weights turns away as few words as can be. -/
theorem weightZone_add_one {total : Nat} (hpos : 0 < total) (hmax : total < UInt32.size) :
    weightZone total + 1 = UInt32.size / total * total := by
  have hmod : (UInt32.size - total) % total = UInt32.size % total :=
    (Nat.mod_eq_sub_mod (Nat.le_of_lt hmax)).symm
  have hdiv := Nat.div_add_mod UInt32.size total
  have hlt := Nat.mod_lt UInt32.size hpos
  rw [Nat.mul_comm] at hdiv
  unfold weightZone
  rw [hmod]
  omega

/-! ### The zone for ranges -/

section Range

variable {count : Nat}

/-- The zeros before the first 1 are those that a 64-bit vector counts. -/
theorem leadingZeros_eq_clz (hpos : 0 < count) (hmax : count < UInt64.size) :
    leadingZeros count = (BitVec.ofNat 64 count).clz.toNat := by
  have hnat : (BitVec.ofNat 64 count).toNat = count :=
    (BitVec.toNat_ofNat count 64).trans (Nat.mod_eq_of_lt hmax)
  have hne : BitVec.ofNat 64 count ≠ 0 := by
    intro hzero
    rw [hzero] at hnat
    exact absurd hnat (Nat.ne_of_lt hpos)
  have hle := BitVec.two_pow_sub_clz_le_toNat_of_ne_zero (by decide) hne
  have hlt := BitVec.toNat_lt_two_pow_sub_clz (x := BitVec.ofNat 64 count)
  rw [hnat] at hle hlt
  -- The vector is not zero, so its first 1 is among its 64 bits.
  have hbits : (BitVec.ofNat 64 count).clz.toNat < 64 := by
    by_contra hge
    rw [Nat.sub_eq_zero_of_le (Nat.not_lt.mp hge)] at hlt
    omega
  have hlog : count.log2 = 63 - (BitVec.ofNat 64 count).clz.toNat := by
    refine (Nat.log2_eq_iff (Nat.ne_of_gt hpos)).mpr ⟨hle, ?_⟩
    rwa [show 63 - (BitVec.ofNat 64 count).clz.toNat + 1 = 64 - (BitVec.ofNat 64 count).clz.toNat
      by omega]
  unfold leadingZeros
  omega

theorem shift_leadingZeros_le (hpos : 0 < count) (hmax : count < UInt64.size) :
    2 ^ leadingZeros count * count ≤ UInt64.size := by
  have hlog : count.log2 < 64 := (Nat.log2_lt (Nat.ne_of_gt hpos)).mpr hmax
  have hlt : count < 2 ^ (count.log2 + 1) := Nat.lt_log2_self
  calc 2 ^ leadingZeros count * count
      ≤ 2 ^ leadingZeros count * 2 ^ (count.log2 + 1) := Nat.mul_le_mul_left _ (Nat.le_of_lt hlt)
    _ = 2 ^ (leadingZeros count + (count.log2 + 1)) := (Nat.pow_add 2 _ _).symm
    _ = 2 ^ 64 := by
        congr 1
        unfold leadingZeros
        omega

/-- The zone for ranges is as long as a multiple of the count by a power of two. -/
theorem rangeZone_add_one (hpos : 0 < count) :
    rangeZone count + 1 = 2 ^ leadingZeros count * count := by
  have hshift : 0 < 2 ^ leadingZeros count * count := Nat.mul_pos (Nat.two_pow_pos _) hpos
  unfold rangeZone
  rw [Nat.shiftLeft_eq, Nat.mul_comm count]
  exact Nat.sub_add_cancel hshift

theorem rangeZone_lt (hpos : 0 < count) (hmax : count < UInt64.size) :
    rangeZone count < UInt64.size := by
  have hzone := rangeZone_add_one hpos
  have hle := shift_leadingZeros_le hpos hmax
  omega

end Range

end ReversePolish.Scale
