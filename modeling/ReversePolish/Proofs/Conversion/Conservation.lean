/-
Conversion reorders tokens and does nothing else to them.

Parentheses and commas group; every other token is either written or waiting,
from the moment it is taken until the end.  `held` is that list of tokens, what is
written and then what waits without its `(`, and each step adds to it exactly the
token it takes, if that one does not group.  Which of the loops moved a token from
the stack to the output makes no difference to `held`, which is why the law holds
of malformed lists as well.

Literals are never on the stack, so the output has them in the order they came in.
-/
import ReversePolish.Proofs.Conversion.Faults

namespace ReversePolish

/-- Whether a token only groups others, and so has no place in reverse Polish notation. -/
def Token.isGrouping : Token → Bool
  | .lparen | .rparen | .comma => true
  | _ => false

/-- Whether a token is a number. -/
def Token.isLiteral : Token → Bool
  | .number _ => true
  | _ => false

/-- The tokens of a list that do not group. -/
def Token.ungrouped (ts : List Token) : List Token := ts.filter (!·.isGrouping)

/-- The numbers of a list. -/
def Token.literals (ts : List Token) : List Token := ts.filter Token.isLiteral

namespace Conversion

open Token

/-- What waits and will be written: all of the stack but its `(`. -/
def pending (stack : List Token) : List Token := stack.filter (· ≠ .lparen)

/-- The tokens that have been taken and have a place in the output. -/
def held (c : Conversion) : List Token := c.output.toList ++ pending c.stack

@[simp] theorem held_of (waiting written : List Token) :
    (of waiting written).held = written ++ pending waiting := rfl

@[simp] theorem pending_append (above below : List Token) :
    pending (above ++ below) = pending above ++ pending below := List.filter_append ..

theorem pending_lparen (below : List Token) : pending (.lparen :: below) = pending below := rfl

theorem pending_of_notMem {above : List Token} (h : Token.lparen ∉ above) :
    pending above = above := by
  refine List.filter_eq_self.mpr fun t ht => ?_
  have hne : t ≠ .lparen := fun he => h (he ▸ ht)
  simpa using hne

@[simp] theorem ungrouped_append (ts us : List Token) :
    ungrouped (ts ++ us) = ungrouped ts ++ ungrouped us := List.filter_append ..

@[simp] theorem literals_append (ts us : List Token) :
    literals (ts ++ us) = literals ts ++ literals us := List.filter_append ..

theorem perm_insert (written : List Token) (t : Token) (rest : List Token) :
    (written ++ t :: rest).Perm (written ++ rest ++ [t]) :=
  List.perm_middle.trans (List.perm_append_singleton t _).symm

/-- **A step holds what was held before, and the token it takes unless that one groups.** -/
theorem Step.held_perm {c c' : Conversion} {t : Token} (h : Step c t c') :
    c'.held.Perm (c.held ++ ungrouped [t]) := by
  cases h with
  | number digits waiting written =>
      rw [held_of, held_of, List.append_assoc]
      exact perm_insert written (.number digits) (pending waiting)
  | wait waiting written h =>
      rcases cases_of_waits h with ⟨f, rfl⟩ | ⟨s, rfl⟩ | rfl
      · exact perm_insert written (.name f) (pending waiting)
      · exact perm_insert written (.sign s) (pending waiting)
      · exact .of_eq (List.append_nil _).symm
  | @op o above below written habove hbelow =>
      rw [held_of, held_of, pending_append,
        pending_of_notMem (lparen_notMem_of_releases habove), ← List.append_assoc]
      exact perm_insert (written ++ above) (.op o) (pending below)
  | @group above below written habove hbelow =>
      rw [held_of, held_of, pending_append, pending_of_notMem habove, pending_lparen,
        ← List.append_assoc]
      exact .of_eq (List.append_nil _).symm
  | @call f above below written habove =>
      rw [held_of, held_of, pending_append, pending_of_notMem habove, pending_lparen,
        List.append_assoc, ← List.append_assoc written]
      exact .of_eq (List.append_nil _).symm
  | @comma above below written habove =>
      rw [held_of, held_of, pending_append, pending_of_notMem habove, pending_lparen,
        ← List.append_assoc]
      exact .of_eq (List.append_nil _).symm

/-- Along a run nothing but the grouping tokens is lost, and nothing is added. -/
theorem Reaches.held_perm {ts : List Token} {c : Conversion} (h : Reaches ts c) :
    c.held.Perm (ungrouped ts) := by
  induction h with
  | start => exact .refl _
  | step _ hs ih =>
      rw [ungrouped_append]
      exact hs.held_perm.trans (ih.append_right _)

/-! ### The order of the numbers -/

/-- Whether a token can be found on the stack. -/
def isWaiting : Token → Bool
  | .name _ | .op _ | .sign _ | .lparen => true
  | _ => false

theorem isWaiting_of_waits {t : Token} (h : waits t = true) : isWaiting t = true := by
  rcases cases_of_waits h with ⟨f, rfl⟩ | ⟨s, rfl⟩ | rfl
  · rfl
  · rfl
  · rfl

theorem Step.isWaiting_stack {c c' : Conversion} {t : Token} (h : Step c t c')
    (hc : ∀ w ∈ c.stack, isWaiting w = true) : ∀ w ∈ c'.stack, isWaiting w = true := by
  cases h with
  | number digits waiting written => exact hc
  | wait waiting written h =>
      intro w hw
      rcases List.mem_cons.mp hw with rfl | hw
      · exact isWaiting_of_waits h
      · exact hc w hw
  | op written habove hbelow =>
      intro w hw
      rcases List.mem_cons.mp hw with rfl | hw
      · rfl
      · exact hc w (List.mem_append_right _ hw)
  | group written habove hbelow =>
      intro w hw
      exact hc w (List.mem_append_right _ (List.mem_cons_of_mem _ hw))
  | call below written habove =>
      intro w hw
      exact hc w (List.mem_append_right _ (List.mem_cons_of_mem _ (List.mem_cons_of_mem _ hw)))
  | comma below written habove =>
      intro w hw
      exact hc w (List.mem_append_right _ hw)

theorem Reaches.isWaiting_stack {ts : List Token} {c : Conversion} (h : Reaches ts c) :
    ∀ w ∈ c.stack, isWaiting w = true := by
  induction h with
  | start => exact fun w hw => absurd hw List.not_mem_nil
  | step _ hs ih => exact hs.isWaiting_stack ih

theorem literals_of_isWaiting {ts : List Token} (h : ∀ t ∈ ts, isWaiting t = true) :
    literals ts = [] := by
  refine List.filter_eq_nil_iff.mpr fun t ht => ?_
  have hw := h t ht
  cases t with
  | number digits => simp [isWaiting] at hw
  | name _ | op _ | sign _ | lparen | rparen | comma | eof | illegal _ => simp [isLiteral]

/-- A number is written when it is taken, and what is written besides has no number in it. -/
theorem Step.literals_output {c c' : Conversion} {t : Token} (h : Step c t c')
    (hc : ∀ w ∈ c.stack, isWaiting w = true) :
    literals c'.output.toList = literals c.output.toList ++ literals [t] := by
  have hnone : ∀ {above rest : List Token}, c.stack = above ++ rest → literals above = [] :=
    fun heq => literals_of_isWaiting fun w hw => hc w (heq ▸ List.mem_append_left _ hw)
  cases h with
  | number digits waiting written => simp
  | wait waiting written h =>
      rw [literals_of_isWaiting (List.forall_mem_singleton.mpr (isWaiting_of_waits h)),
        List.append_nil]
      rfl
  | op written habove hbelow =>
      rw [output_of, output_of, literals_append, hnone rfl]
      rfl
  | group written habove hbelow =>
      rw [output_of, output_of, literals_append, hnone rfl]
      rfl
  | call below written habove =>
      rw [output_of, output_of, literals_append, literals_append, hnone rfl, List.append_nil]
      rfl
  | comma below written habove =>
      rw [output_of, output_of, literals_append, hnone rfl]
      rfl

theorem Reaches.literals_output {ts : List Token} {c : Conversion} (h : Reaches ts c) :
    literals c.output.toList = literals ts := by
  induction h with
  | start => rfl
  | step hr hs ih => rw [hs.literals_output hr.isWaiting_stack, ih, literals_append]

/-! ### The whole conversion -/

theorem perm_of_convert {ts out : List Token} (h : convert ts = .ok out) :
    out.Perm (ungrouped ts) := by
  obtain ⟨c, hrun, hmem, rfl⟩ := convert_eq_ok_iff.mp h
  have hperm := hrun.held_perm
  rwa [held, pending_of_notMem hmem] at hperm

theorem literals_of_convert {ts out : List Token} (h : convert ts = .ok out) :
    literals out = literals ts := by
  obtain ⟨c, hrun, -, rfl⟩ := convert_eq_ok_iff.mp h
  rw [literals_append, literals_of_isWaiting hrun.isWaiting_stack, List.append_nil,
    hrun.literals_output]

/--
**No token is lost, duplicated or made up.**

What comes out of a conversion is what went in without the tokens that group, and
the numbers are in the same order.  At any point of a run, whether it ends well or
not, the same is true of what is written together with what waits.
-/
theorem convert_conserves (ts : List Token) :
    (∀ out, convert ts = .ok out →
      out.Perm (ungrouped ts) ∧ literals out = literals ts) ∧
    ∀ k c, start.takeAll (ts.take k) = .ok c →
      (c.output.toList ++ c.stack.filter (· ≠ .lparen)).Perm (ungrouped (ts.take k)) := by
  refine ⟨fun out h => ⟨perm_of_convert h, literals_of_convert h⟩, fun k c h => ?_⟩
  exact (reaches_iff.mpr h).held_perm

/-- The law on `(2 f) 1 +`, which no grammar has: the name is written when the group ends. -/
theorem convert_conserves_malformed :
    convert [.lparen, .number "2", .name "f", .rparen, .number "1", .op .add]
        = .ok [.number "2", .name "f", .number "1", .op .add] ∧
      [Token.number "2", .name "f", .number "1", .op .add].Perm
        (ungrouped [.lparen, .number "2", .name "f", .rparen, .number "1", .op .add]) ∧
      start.takeAll [.lparen, .number "2", .name "f"]
        = .ok ⟨[.name "f", .lparen], #[.number "2"]⟩ ∧
      [Token.number "2", .name "f"].Perm (ungrouped [.lparen, .number "2", .name "f"]) := by
  have hlaw := convert_conserves
    [.lparen, .number "2", .name "f", .rparen, .number "1", .op .add]
  have hconvert : convert [.lparen, .number "2", .name "f", .rparen, .number "1", .op .add]
      = .ok [.number "2", .name "f", .number "1", .op .add] := rfl
  have hrun : start.takeAll [.lparen, .number "2", .name "f"]
      = .ok ⟨[.name "f", .lparen], #[.number "2"]⟩ := rfl
  exact ⟨hconvert, (hlaw.1 _ hconvert).1, hrun, hlaw.2 3 _ hrun⟩

end Conversion

end ReversePolish
