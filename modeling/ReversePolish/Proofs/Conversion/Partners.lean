/-
Which `(` a `)` belongs to.

In a list of tokens the partners are found by counting: a `)` belongs to the `(` behind which
the count starts at 0, stays there or above, and is 0 again (`Balanced`).  The conversion does
not count, it goes by what lies on its stack.  The two agree.

From the list to the stack: as long as the count has not gone below 0, the `(` where it
started still lies where it was put, with all that waited at that time below it, and the
number of `(` above it is the count (`OpenAbove`).  Each step changes the two alike.

From the stack to the list: where so many `(` are open there are places where they were
opened, one for each of them (`exists_open`), and so every `)` that is taken has a partner.
-/
import Mathlib.Data.List.Induction
import ReversePolish.Proofs.Conversion.Faults

namespace ReversePolish.Conversion

/-! ### Counting from some place on -/

/-- The number of `(` that are open behind a token, of those that the count has seen.  It has not
seen the partner of a `)` at 0. -/
def nest (depth : Nat) : Token → Option Nat
  | .lparen => some (depth + 1)
  | .rparen =>
    match depth with
    | 0 => none
    | outer + 1 => some outer
  | .number _ | .name _ | .op _ | .sign _ | .comma | .eof | .illegal _ => some depth

/-- The tokens close each `(` that they open, and no other one. -/
def Balanced (ts : List Token) : Prop := ts.foldlM nest 0 = some 0

instance (ts : List Token) : Decidable (Balanced ts) :=
  inferInstanceAs (Decidable (ts.foldlM nest 0 = some 0))

theorem exists_nest_of_append {ts us : List Token} {depth last : Nat}
    (h : (ts ++ us).foldlM nest depth = some last) :
    ∃ mid, ts.foldlM nest depth = some mid ∧ us.foldlM nest mid = some last := by
  rw [List.foldlM_append] at h
  exact Option.bind_eq_some_iff.mp h

/-- A token that leaves `k` open of those that were opened before it has opened the last one itself
or has had them all open before. -/
theorem eq_lparen_or_exists_nest {depth depth' k : Nat} {t : Token}
    (h : countDepth depth t = .ok depth') (hk : k < depth') :
    (t = .lparen ∧ k = 0) ∨ ∃ j, j < depth ∧ nest j t = some k := by
  cases t with
  | lparen =>
      obtain rfl := Except.ok.inj h
      by_cases hzero : k = 0
      · exact Or.inl ⟨rfl, hzero⟩
      · refine Or.inr ⟨k - 1, by omega, ?_⟩
        show some (k - 1 + 1) = some k
        rw [Nat.sub_add_cancel (Nat.pos_of_ne_zero hzero)]
  | rparen =>
      cases depth with
      | zero => exact absurd h nofun
      | succ outer =>
          obtain rfl := Except.ok.inj h
          exact Or.inr ⟨k + 1, by omega, rfl⟩
  | comma =>
      by_cases hzero : depth = 0
      · simp [countDepth, hzero] at h
      · simp only [countDepth, if_neg hzero] at h
        obtain rfl := Except.ok.inj h
        exact Or.inr ⟨k, hk, rfl⟩
  | number _ | name _ | op _ | sign _ =>
      obtain rfl := Except.ok.inj h
      exact Or.inr ⟨k, hk, rfl⟩
  | eof | illegal _ => exact absurd h nofun

/-- **Where so many parentheses are open, each of them has been opened at some place**, with `k`
others behind it that are open still. -/
theorem exists_open {ts : List Token} {depth k : Nat} (h : ts.foldlM countDepth 0 = .ok depth)
    (hk : k < depth) :
    ∃ before inner, ts = before ++ .lparen :: inner ∧ inner.foldlM nest 0 = some k := by
  induction ts using List.reverseRecOn generalizing depth k with
  | nil =>
      obtain rfl := Except.ok.inj h
      exact absurd hk (Nat.not_lt_zero k)
  | append_singleton ts t ih =>
      rw [List.foldlM_append] at h
      obtain ⟨mid, hts, ht⟩ := exists_ok_of_bind h
      simp only [List.foldlM_cons, List.foldlM_nil, bind_pure] at ht
      rcases eq_lparen_or_exists_nest ht hk with ⟨rfl, rfl⟩ | ⟨j, hj, hnest⟩
      · exact ⟨ts, [], rfl, rfl⟩
      · obtain ⟨before, inner, rfl, hinner⟩ := ih hts hj
        refine ⟨before, inner ++ [t], by simp, ?_⟩
        rw [List.foldlM_append, hinner]
        simpa using hnest

/-! ### What lies below a `(` stays there until its partner comes -/

/-- A `(` lies on `below`, and above it there are so many others. -/
def OpenAbove (depth : Nat) (below : List Token) (c : Conversion) : Prop :=
  ∃ above, c.stack = above ++ .lparen :: below ∧ above.count .lparen = depth

/-- What has no `(` in it is released above each `(`, and leaves the count as it was. -/
theorem exists_kept {above below released kept : List Token}
    (h : released ++ kept = above ++ .lparen :: below) (hreleased : Token.lparen ∉ released) :
    ∃ between, kept = between ++ .lparen :: below ∧
      between.count .lparen = above.count .lparen := by
  rcases List.append_eq_append_iff.mp h with ⟨between, rfl, hkept⟩ | ⟨extra, rfl, hextra⟩
  · exact ⟨between, hkept, (count_append_of_notMem between hreleased).symm⟩
  · cases extra with
    | nil =>
        rw [List.append_nil] at hreleased
        exact ⟨[], hextra.symm, (List.count_eq_zero_of_not_mem hreleased).symm⟩
    | cons t extra =>
        obtain ⟨rfl, -⟩ := List.cons.inj hextra
        exact absurd (by simp) hreleased

/-- Where the count allows a `)`, the innermost `(` is not the one that stays. -/
theorem exists_closed {above below kept : List Token} {depth : Nat}
    (h : .lparen :: kept = above ++ .lparen :: below)
    (hnest : nest (above.count .lparen) .rparen = some depth) :
    ∃ between, kept = between ++ .lparen :: below ∧ between.count .lparen = depth := by
  cases above with
  | nil => exact absurd hnest nofun
  | cons t between =>
      obtain ⟨rfl, hkept⟩ := List.cons.inj h
      rw [List.count_cons_self] at hnest
      exact ⟨between, hkept, Option.some.inj hnest⟩

section OpenAbove

variable {c c' : Conversion} {t : Token} {ts below : List Token} {depth depth' : Nat}

/-- **Each step opens and closes parentheses as the count does.** -/
theorem Step.openAbove (h : Step c t c') (hc : OpenAbove depth below c)
    (hnest : nest depth t = some depth') : OpenAbove depth' below c' := by
  obtain ⟨above, hstack, rfl⟩ := hc
  cases h with
  | number digits waiting written =>
      obtain rfl := Option.some.inj hnest
      exact ⟨above, hstack, rfl⟩
  | wait waiting written h =>
      rw [stack_of] at hstack
      subst hstack
      refine ⟨t :: above, rfl, ?_⟩
      rcases cases_of_waits h with ⟨f, rfl⟩ | ⟨s, rfl⟩ | rfl
      · rw [List.count_cons_of_ne (by simp)]
        exact Option.some.inj hnest
      · rw [List.count_cons_of_ne (by simp)]
        exact Option.some.inj hnest
      · rw [List.count_cons_self]
        exact Option.some.inj hnest
  | @op o released kept written hreleased hkept =>
      obtain ⟨between, rfl, hcount⟩ := exists_kept hstack (lparen_notMem_of_releases hreleased)
      refine ⟨.op o :: between, rfl, ?_⟩
      rw [List.count_cons_of_ne (by simp), hcount]
      exact Option.some.inj hnest
  | group written hreleased hkept =>
      obtain ⟨between, hparen, hcount⟩ := exists_kept hstack hreleased
      rw [← hcount] at hnest
      exact exists_closed hparen hnest
  | @call f released kept written hreleased =>
      obtain ⟨between, hparen, hcount⟩ := exists_kept hstack hreleased
      rw [← hcount] at hnest
      obtain ⟨between', hname, hcount'⟩ := exists_closed hparen hnest
      -- The name leaves with its `(`; it is no `(`, so it lies above the one that stays.
      obtain ⟨lower, hkept, hlower⟩ := exists_kept (show [.name f] ++ kept = _ from hname) (by simp)
      exact ⟨lower, hkept, hlower.trans hcount'⟩
  | comma kept written hreleased =>
      obtain ⟨between, hparen, hcount⟩ := exists_kept hstack hreleased
      exact ⟨between, hparen, hcount.trans (Option.some.inj hnest)⟩

theorem openAbove_of_takeAll (h : c.takeAll ts = .ok c') (hc : OpenAbove depth below c)
    (hnest : ts.foldlM nest depth = some depth') : OpenAbove depth' below c' := by
  induction ts generalizing c depth with
  | nil =>
      obtain rfl := Except.ok.inj h
      obtain rfl := Option.some.inj hnest
      exact hc
  | cons t ts ih =>
      rw [List.foldlM_cons] at hnest
      obtain ⟨mid, hmid, hrest⟩ := Option.bind_eq_some_iff.mp hnest
      obtain ⟨next, hs, hrun⟩ := exists_step_of_takeAll h
      exact ih hrun (hs.openAbove hc hmid) hrest

end OpenAbove

/-! ### Partners in a run -/

section Reaches

variable {before inner : List Token} {c : Conversion}

/-- Behind a `(` the count of a run is the number of `(` that lie above it. -/
theorem Reaches.exists_opened {depth : Nat} (h : Reaches (before ++ .lparen :: inner) c)
    (hnest : inner.foldlM nest 0 = some depth) :
    ∃ opened, Reaches before opened ∧ OpenAbove depth opened.stack c := by
  obtain ⟨opened, hopened, hrun⟩ := exists_takeAll_of_append h.takeAll_eq
  have hwait : opened.take .lparen = .ok (of (.lparen :: opened.stack) opened.output.toList) :=
    take_of_waits opened.stack opened.output.toList rfl
  rw [takeAll_cons_of_ok inner hwait] at hrun
  exact ⟨opened, reaches_iff.mpr hopened, openAbove_of_takeAll hrun ⟨[], rfl, rfl⟩ hnest⟩

/-- **A `)` that is taken has a partner.** -/
theorem Reaches.exists_partner {taken : List Token} {closed : Conversion} (h : Reaches taken c)
    (hclose : c.take .rparen = .ok closed) :
    ∃ before inner, taken = before ++ .lparen :: inner ∧ Balanced inner := by
  have hdepth := map_depth_takeAll Conversion.start taken
  rw [h.takeAll_eq] at hdepth
  have hcount := (Step.of_take hclose).countDepth_eq
  refine exists_open hdepth.symm (Nat.pos_of_ne_zero ?_)
  intro hzero
  rw [hzero] at hcount
  exact absurd hcount nofun

end Reaches

end ReversePolish.Conversion
