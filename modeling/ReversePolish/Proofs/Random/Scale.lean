/-
Which numbers a random word can stand for.

`scaled?` multiplies a word by the bound and keeps the quotient by the number of words,
which is below the bound (`lt_of_scaled?`).  Each number below the bound is also hit: the
first multiple of the bound from `z * size` on leaves a remainder below the bound, and
neither zone turns such a remainder away (`le_weightZone`, `le_rangeZone`).  So a word
that is accepted at once exists for every number that is wanted, for any bound up to the
number of words.
-/
import ReversePolish.Random.Scale

namespace ReversePolish.Scale

variable {size bound zone z : Nat}

theorem lt_of_scaled? {word : Nat} (hbound : 0 < bound) (hword : word < size)
    (h : scaled? size bound zone word = some z) : z < bound := by
  unfold scaled? at h
  split at h
  · rw [← Option.some.inj h]
    exact Nat.div_lt_of_lt_mul (Nat.mul_lt_mul_of_pos_right hword hbound)
  · exact absurd h (by simp)

/-- From any number on, there is a multiple of `bound` less than `bound` away. -/
theorem exists_mul_eq_add (hbound : 0 < bound) (n : Nat) :
    ∃ word d, d < bound ∧ word * bound = n + d := by
  have hmod := Nat.mod_lt (n + (bound - 1)) hbound
  have hdiv := Nat.div_add_mod (n + (bound - 1)) bound
  rw [Nat.mul_comm] at hdiv
  refine ⟨(n + (bound - 1)) / bound, bound - 1 - (n + (bound - 1)) % bound, ?_, ?_⟩
  · omega
  · omega

/-- **Every number below the bound is what some word is accepted for.** -/
theorem exists_scaled? (hsize : bound ≤ size) (hzone : bound ≤ zone + 1) (hz : z < bound) :
    ∃ word, word < size ∧ scaled? size bound zone word = some z := by
  obtain ⟨word, d, hd, hword⟩ := exists_mul_eq_add (Nat.zero_lt_of_lt hz) (z * size)
  have hsum : word * bound = d + size * z := by rw [hword, Nat.mul_comm z size, Nat.add_comm]
  have hdsize : d < size := Nat.lt_of_lt_of_le hd hsize
  have hquot : word * bound / size = z := by
    rw [hsum, Nat.add_mul_div_left _ _ (Nat.zero_lt_of_lt hdsize), Nat.div_eq_of_lt hdsize,
      Nat.zero_add]
  have hrem : word * bound % size = d := by
    rw [hsum, Nat.add_mul_mod_self_left, Nat.mod_eq_of_lt hdsize]
  refine ⟨word, ?_, ?_⟩
  · have hlt : word * bound < size * bound :=
      calc word * bound = z * size + d := hword
        _ < z * size + size := Nat.add_lt_add_left hdsize _
        _ = (z + 1) * size := (Nat.succ_mul z size).symm
        _ ≤ bound * size := Nat.mul_le_mul_right size hz
        _ = size * bound := Nat.mul_comm bound size
    exact Nat.lt_of_mul_lt_mul_right hlt
  · unfold scaled?
    rw [hrem, hquot, if_pos (by omega)]

/-! ### Words of 32 bits -/

theorem le_weightZone {total : Nat} (hmax : total < UInt32.size) :
    total ≤ weightZone total + 1 := by
  have hmod := Nat.mod_le (UInt32.size - total) total
  unfold weightZone
  omega

theorem exists_below32? {total : Nat} (hmax : total < UInt32.size) (hz : z < total) :
    ∃ word, below32? total word = some z := by
  obtain ⟨n, hn, hscaled⟩ := exists_scaled? (Nat.le_of_lt hmax) (le_weightZone hmax) hz
  refine ⟨UInt32.ofNat n, ?_⟩
  unfold below32?
  rwa [UInt32.toNat_ofNat_of_lt' hn]

/-! ### Words of 64 bits -/

theorem le_rangeZone (count : Nat) : count ≤ rangeZone count + 1 := by
  have hshift : count * 1 ≤ count <<< leadingZeros count := by
    rw [Nat.shiftLeft_eq]
    exact Nat.mul_le_mul_left count Nat.one_le_two_pow
  unfold rangeZone
  omega

theorem lt_of_below64? {count : Nat} {word : UInt64} (hcount : 0 < count)
    (h : below64? count word = some z) : z < count :=
  lt_of_scaled? hcount word.toNat_lt h

theorem exists_below64? {count : Nat} (hmax : count ≤ UInt64.size) (hz : z < count) :
    ∃ word, below64? count word = some z := by
  obtain ⟨n, hn, hscaled⟩ := exists_scaled? hmax (le_rangeZone count) hz
  refine ⟨UInt64.ofNat n, ?_⟩
  unfold below64?
  rwa [UInt64.toNat_ofNat_of_lt' hn]

theorem le_of_upTo? {max word : UInt64} (h : upTo? max word = some z) : z ≤ max.toNat := by
  unfold upTo? at h
  split at h
  · rename_i hall
    have hword : word.toNat < UInt64.size := word.toNat_lt
    rw [← Option.some.inj h]
    omega
  · exact Nat.le_of_lt_succ (lt_of_below64? (Nat.succ_pos _) h)

/-- A range of all words is no exception, though it has a rule of its own. -/
theorem exists_upTo? {max : UInt64} (hz : z ≤ max.toNat) : ∃ word, upTo? max word = some z := by
  have hmax := max.toNat_lt
  unfold upTo?
  by_cases hall : max.toNat + 1 = UInt64.size
  · refine ⟨UInt64.ofNat z, ?_⟩
    rw [if_pos hall, UInt64.toNat_ofNat_of_lt' (by omega)]
  · simp only [if_neg hall]
    exact exists_below64? hmax (Nat.lt_succ_of_le hz)

/-! ### The word 0

It leaves no remainder, so no zone turns it away, and the number that it stands for is 0.
-/

@[simp] theorem scaled?_zero (size bound zone : Nat) : scaled? size bound zone 0 = some 0 := by
  simp [scaled?]

@[simp] theorem below32?_zero (total : Nat) : below32? total 0 = some 0 :=
  scaled?_zero UInt32.size total (weightZone total)

@[simp] theorem below64?_zero (count : Nat) : below64? count 0 = some 0 :=
  scaled?_zero UInt64.size count (rangeZone count)

@[simp] theorem upTo?_zero (max : UInt64) : upTo? max 0 = some 0 := by
  simp [upTo?]

end ReversePolish.Scale
