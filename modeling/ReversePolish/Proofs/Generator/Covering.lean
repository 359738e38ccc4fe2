/-
Which numbers an entry of a table of weights covers.

The entries take up stretches of numbers, one behind the other from 0, and each stretch is
as long as the weight of its entry.  `covering?` finds the stretch of a number by taking
weights off the number, so it never sees where a stretch begins in the table as a whole.
`covering?_eq_some_iff` says it in those terms: up to the entry the weights add up to no
more than the number, and with the entry they do.  An entry without a weight has an empty
stretch, wherever it stands.

These sums are natural numbers.  As long as the sum of the whole table has 32 bits, adding up
in 32 bits comes to the same (`toNat_sum32_take`).
-/
import ReversePolish.Generator

namespace ReversePolish

namespace Weights

/-! ### The table and its sum -/

theorem mem_table (w : Weights) (k : NodeKind) : (k, w.weight k) ∈ w.table :=
  List.mem_map.mpr ⟨k, k.mem_all, rfl⟩

theorem eq_weight_of_mem_table {w : Weights} {k : NodeKind} {n : UInt32}
    (h : (k, n) ∈ w.table) : n = w.weight k := by
  obtain ⟨k', -, heq⟩ := List.mem_map.mp h
  obtain ⟨rfl, rfl⟩ := Prod.mk.inj heq
  rfl

theorem map_fst_table (w : Weights) : w.table.map (·.1) = NodeKind.all := by
  simp [table, List.map_map, Function.comp_def]

section SumOf

variable {κ : Type} {table : List (κ × UInt32)} {k : κ} {w : UInt32}

theorem sumOf_append (table rest : List (κ × UInt32)) :
    sumOf (table ++ rest) = sumOf table + sumOf rest := by
  induction table with
  | nil => simp [sumOf]
  | cons entry table ih =>
      simp only [List.cons_append, sumOf, ih]
      omega

theorem sumOf_take_succ {i : Nat} (h : table[i]? = some (k, w)) :
    sumOf (table.take (i + 1)) = sumOf (table.take i) + w.toNat := by
  rw [List.take_add_one, h, sumOf_append]
  simp [sumOf]

theorem sumOf_take_le (table : List (κ × UInt32)) (i : Nat) :
    sumOf (table.take i) ≤ sumOf table := by
  have hsum := sumOf_append (table.take i) (table.drop i)
  rw [List.take_append_drop] at hsum
  omega

theorem sumOf_eq_zero_iff : sumOf table = 0 ↔ ∀ entry ∈ table, entry.2 = 0 := by
  induction table with
  | nil => simp [sumOf]
  | cons entry table ih =>
      simp only [sumOf, Nat.add_eq_zero_iff, ih, List.forall_mem_cons, ← UInt32.toNat_inj]
      simp

/-- The weights of a table added up in 32 bits, where a sum may wrap around. -/
def sum32 (table : List (κ × UInt32)) : UInt32 := table.foldl (fun sum entry => sum + entry.2) 0

/-- **A sum that fits into 32 bits is the one that is found there.** -/
theorem toNat_foldl_add (table : List (κ × UInt32)) (start : UInt32)
    (h : start.toNat + sumOf table < UInt32.size) :
    (table.foldl (fun sum entry => sum + entry.2) start).toNat = start.toNat + sumOf table := by
  induction table generalizing start with
  | nil => rfl
  | cons entry table ih =>
      simp only [sumOf] at h ⊢
      have hadd : (start + entry.2).toNat = start.toNat + entry.2.toNat := by
        rw [UInt32.toNat_add, Nat.mod_eq_of_lt]
        show start.toNat + entry.2.toNat < UInt32.size
        omega
      rw [List.foldl_cons, ih (start + entry.2) (by omega), hadd, Nat.add_assoc]

theorem toNat_sum32_take (h : sumOf table < UInt32.size) (i : Nat) :
    (sum32 (table.take i)).toNat = sumOf (table.take i) := by
  have hle := sumOf_take_le table i
  have hfits : (0 : UInt32).toNat + sumOf (table.take i) < UInt32.size := by
    rw [UInt32.toNat_zero]
    omega
  have hsum := toNat_foldl_add (table.take i) 0 hfits
  rw [UInt32.toNat_zero, Nat.zero_add] at hsum
  exact hsum

end SumOf

theorem total_eq_zero_iff (w : Weights) : w.total = 0 ↔ ∀ k, w.weight k = 0 := by
  unfold total
  rw [sumOf_eq_zero_iff]
  constructor
  · intro h k
    exact h _ (w.mem_table k)
  · intro h entry hentry
    rw [w.eq_weight_of_mem_table hentry]
    exact h entry.1

end Weights

namespace Generator

open Weights

/-! ### The stretch of an entry -/

variable {κ : Type} {table : List (κ × UInt32)} {k : κ} {z : Nat}

/-- **The entry that covers a number is the first with which the weights add up to more.** -/
theorem covering?_eq_some_iff :
    covering? table z = some k ↔
      ∃ i w, table[i]? = some (k, w) ∧
        sumOf (table.take i) ≤ z ∧ z < sumOf (table.take (i + 1)) := by
  induction table generalizing z with
  | nil => simp [covering?]
  | cons entry rest ih =>
      obtain ⟨k', w'⟩ := entry
      by_cases hz : z < w'.toNat
      · rw [covering?, if_pos hz]
        constructor
        · intro h
          refine ⟨0, w', by simpa using h, ?_⟩
          simp [sumOf, hz]
        · intro ⟨i, w, hi, hle, _⟩
          cases i with
          | zero =>
              simp only [List.getElem?_cons_zero, Option.some.injEq, Prod.mk.injEq] at hi
              rw [hi.1]
          | succ i =>
              simp only [List.take_succ_cons, sumOf] at hle
              omega
      · rw [covering?, if_neg hz, ih]
        constructor
        · intro ⟨i, w, hi, hle, hlt⟩
          refine ⟨i + 1, w, by simpa using hi, ?_⟩
          simp only [List.take_succ_cons, sumOf] at hlt ⊢
          omega
        · intro ⟨i, w, hi, hle, hlt⟩
          cases i with
          | zero =>
              simp only [List.take_succ_cons, List.take_zero, sumOf] at hlt
              omega
          | succ i =>
              refine ⟨i, w, by simpa using hi, ?_⟩
              simp only [List.take_succ_cons, sumOf] at hle hlt ⊢
              omega

theorem exists_covering?_of_lt (hz : z < sumOf table) : ∃ k, covering? table z = some k := by
  induction table generalizing z with
  | nil => simp [sumOf] at hz
  | cons entry rest ih =>
      obtain ⟨k', w'⟩ := entry
      by_cases hlt : z < w'.toNat
      · exact ⟨k', by rw [covering?, if_pos hlt]⟩
      · simp only [sumOf] at hz
        rw [covering?, if_neg hlt]
        exact ih (by omega)

theorem exists_of_covering? (h : covering? table z = some k) : ∃ w, (k, w) ∈ table ∧ 0 < w := by
  obtain ⟨i, w, hi, hle, hlt⟩ := covering?_eq_some_iff.mp h
  rw [sumOf_take_succ hi] at hlt
  refine ⟨w, List.mem_of_getElem? hi, UInt32.lt_iff_toNat_lt.mpr ?_⟩
  show 0 < w.toNat
  omega

/-- What has a weight covers a number below the sum of the weights. -/
theorem exists_covering? {w : UInt32} (hmem : (k, w) ∈ table) (hw : 0 < w) :
    ∃ z, z < sumOf table ∧ covering? table z = some k := by
  obtain ⟨i, hi⟩ := List.mem_iff_getElem?.mp hmem
  have hpos : 0 < w.toNat := UInt32.lt_iff_toNat_lt.mp hw
  have hsum := sumOf_take_succ hi
  have hall := sumOf_take_le table (i + 1)
  exact ⟨sumOf (table.take i), by omega, covering?_eq_some_iff.mpr ⟨i, w, hi, by omega, by omega⟩⟩

end Generator

end ReversePolish
