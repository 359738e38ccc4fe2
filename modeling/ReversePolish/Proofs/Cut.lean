/-
Cutting a list where a test first fails.

`takeWhile` and `dropWhile` are how the stack is released and how a fragment is
read.  Both are determined by any way of writing the list as a part that passes
the test and a rest that does not start with an element that does.

Where the test is for blanks, the parts that pass it are the gaps between tokens.
Two classes of blanks are in use, and nothing here depends on which one it is.
-/

namespace ReversePolish

variable {α : Type} {p : α → Bool}

/-- Every list has such a cut. -/
theorem exists_cut (p : α → Bool) (l : List α) :
    ∃ above below, l = above ++ below ∧ (∀ a ∈ above, p a = true) ∧
      ∀ a ∈ below.head?, p a = false := by
  refine ⟨l.takeWhile p, l.dropWhile p, List.takeWhile_append_dropWhile.symm, ?_, ?_⟩
  · exact List.all_eq_true.mp List.all_takeWhile
  · intro a ha
    have hnot := List.head?_dropWhile_not p l
    rw [Option.mem_def.mp ha] at hnot
    simpa using hnot

theorem takeWhile_cut {above below : List α} (habove : ∀ a ∈ above, p a = true)
    (hbelow : ∀ a ∈ below.head?, p a = false) : (above ++ below).takeWhile p = above := by
  rw [List.takeWhile_append_of_pos habove]
  cases below with
  | nil => simp
  | cons a rest => simp [hbelow a rfl]

theorem dropWhile_cut {above below : List α} (habove : ∀ a ∈ above, p a = true)
    (hbelow : ∀ a ∈ below.head?, p a = false) : (above ++ below).dropWhile p = below := by
  rw [List.dropWhile_append_of_pos habove]
  cases below with
  | nil => rfl
  | cons a rest => simp [hbelow a rfl]

/-! ### Gaps -/

/-- A stretch of blanks, possibly none. -/
def IsGap (blank : α → Bool) (gap : List α) : Prop := ∀ a ∈ gap, blank a = true

theorem isGap_nil : IsGap p [] := fun _ ha => absurd ha List.not_mem_nil

theorem isGap_singleton {a : α} (h : p a = true) : IsGap p [a] := List.forall_mem_singleton.mpr h

theorem IsGap.append {gap gap' : List α} (h : IsGap p gap) (h' : IsGap p gap') :
    IsGap p (gap ++ gap') := List.forall_mem_append.mpr ⟨h, h'⟩

end ReversePolish
