/-
When a conversion fails, and why.

The conversion keeps no count of the open parentheses: it finds out that one is
missing by running out of stack.  `checkDepth` is the count written down, with
the four faults where a reader would look for them, and the two agree on every
list of tokens.

What carries the proof is that the number of `(` on the stack is the depth.  An
operator releases only what binds more tightly than a parenthesis does, and a `)`
or `,` stops at the first `(` it meets, so nothing but a `)` ever takes a `(` off
the stack, and it takes exactly one.
-/
import ReversePolish.Proofs.Conversion.Step

namespace ReversePolish.Conversion

/-! ### Counting the depth -/

/-- The depth behind a token, if the token may stand at this depth. -/
def countDepth (depth : Nat) : Token → Except Fault Nat
  | .lparen => .ok (depth + 1)
  | .rparen =>
    match depth with
    | 0 => .error .unmatchedParen
    | outer + 1 => .ok outer
  | .comma => if depth = 0 then .error .strayComma else .ok depth
  | .illegal fragment => .error (.unknownToken fragment)
  | .eof => .error (.unknownToken "EOF")
  | .number _ | .name _ | .op _ | .sign _ => .ok depth

/-- The depth at the end has to be 0. -/
def closeDepth (depth : Nat) : Except Fault Unit :=
  if depth = 0 then .ok () else .error .unclosedParen

/-- The first fault in a list of tokens, found by counting alone. -/
def checkDepth (ts : List Token) : Except Fault Unit := ts.foldlM countDepth 0 >>= closeDepth

/-! ### The stack holds the depth -/

/-- The number of `(` that wait. -/
def depth (c : Conversion) : Nat := c.stack.count .lparen

theorem depth_of (waiting written : List Token) :
    (of waiting written).depth = waiting.count .lparen := rfl

theorem count_append_of_notMem {above : List Token} (below : List Token)
    (habove : Token.lparen ∉ above) :
    (above ++ below).count .lparen = below.count .lparen := by
  rw [List.count_append, List.count_eq_zero_of_not_mem habove, Nat.zero_add]

theorem depth_of_append {above : List Token} (below written : List Token)
    (habove : Token.lparen ∉ above) :
    (of (above ++ below) written).depth = below.count .lparen :=
  count_append_of_notMem below habove

theorem depth_pos_of_mem {waiting : List Token} (h : Token.lparen ∈ waiting) :
    waiting.count .lparen ≠ 0 := fun h0 => List.count_eq_zero.mp h0 h

theorem releases_lparen (o : BinOp) : releases o .lparen = false := by
  cases o <;> rfl

theorem releases_name (o : BinOp) (f : String) : releases o (.name f) = true := by
  cases o <;> rfl

theorem lparen_notMem_of_releases {o : BinOp} {above : List Token}
    (habove : ∀ t ∈ above, releases o t = true) : Token.lparen ∉ above := by
  intro hmem
  have hreleased := habove _ hmem
  rw [releases_lparen] at hreleased
  exact Bool.noConfusion hreleased

/-- A step changes the depth as the count does. -/
theorem Step.countDepth_eq {c c' : Conversion} {t : Token} (h : Step c t c') :
    countDepth c.depth t = .ok c'.depth := by
  cases h with
  | number digits waiting written => rfl
  | wait waiting written h =>
      rcases cases_of_waits h with ⟨f, rfl⟩ | ⟨s, rfl⟩ | rfl
      · exact congrArg Except.ok (List.count_cons_of_ne (by simp)).symm
      · exact congrArg Except.ok (List.count_cons_of_ne (by simp)).symm
      · exact congrArg Except.ok List.count_cons_self.symm
  | op written habove hbelow =>
      rw [depth_of_append _ _ (lparen_notMem_of_releases habove)]
      exact congrArg Except.ok (List.count_cons_of_ne (by simp)).symm
  | group written habove hbelow =>
      rw [depth_of_append _ _ habove, List.count_cons_self]
      rfl
  | call below written habove =>
      -- The name below the `(` leaves with it, which does not change the count.
      rw [depth_of_append _ _ habove, List.count_cons_self]
      exact congrArg Except.ok (List.count_cons_of_ne (by simp))
  | comma below written habove =>
      rw [depth_of_append _ _ habove]
      exact if_neg (depth_pos_of_mem List.mem_cons_self)

/-- What cannot be taken cannot be counted, and the faults are the same. -/
theorem Fails.countDepth_eq {c : Conversion} {t : Token} {fault : Fault} (h : Fails c t fault) :
    countDepth c.depth t = .error fault := by
  cases h with
  | rparen written h | comma written h =>
      rw [depth_of, List.count_eq_zero_of_not_mem h]
      rfl
  | eof => rfl
  | illegal fragment => rfl

/-- Taking a token is counting it, as far as the depth and the faults go. -/
theorem map_depth_take (c : Conversion) (t : Token) :
    (c.take t).map depth = countDepth c.depth t := by
  rcases step_or_fails c t with ⟨next, hs⟩ | ⟨fault, hf⟩
  · rw [hs.take_eq, hs.countDepth_eq]
    rfl
  · rw [hf.take_eq, hf.countDepth_eq]
    rfl

/-- A run counts the depth token by token, and stops where the count stops. -/
theorem map_depth_takeAll (c : Conversion) (ts : List Token) :
    (c.takeAll ts).map depth = ts.foldlM countDepth c.depth := by
  induction ts generalizing c with
  | nil => rfl
  | cons t ts ih =>
      rw [List.foldlM_cons, ← map_depth_take, takeAll_cons]
      cases ht : c.take t with
      | error fault => rfl
      | ok next => exact ih next

/-- The end of the tokens finds an open `(` exactly if the depth is not 0. -/
theorem map_finish (c : Conversion) : c.finish.map (fun _ => ()) = closeDepth c.depth := by
  obtain ⟨waiting, written, rfl⟩ : ∃ waiting written, c = of waiting written := ⟨_, _, eq_of c⟩
  by_cases hmem : Token.lparen ∈ waiting
  · rw [finish_of_mem written hmem]
    exact (if_neg (depth_pos_of_mem hmem)).symm
  · rw [finish_of_notMem written hmem, depth_of, List.count_eq_zero_of_not_mem hmem]
    rfl

theorem map_run (c : Conversion) (ts : List Token) :
    (c.takeAll ts >>= finish).map (fun _ => ()) = ts.foldlM countDepth c.depth >>= closeDepth := by
  rw [← map_depth_takeAll]
  cases c.takeAll ts with
  | error fault => rfl
  | ok last => exact map_finish last

/--
**A conversion fails exactly as the count of the depth does.**

Both sides are a fault or a success, so this is at once which lists convert, which
fault the others have, and that of several faults the first one is reported.
-/
theorem convert_fault (ts : List Token) :
    (convert ts).map (fun _ => ()) = checkDepth ts ∧
      Fault.unmatchedParen.message = "Unbalanced parentheses: ')' has no matching '('" ∧
      Fault.strayComma.message = "Unbalanced parentheses: ',' outside of parentheses" ∧
      Fault.unclosedParen.message = "Unbalanced parentheses: '(' is never closed" ∧
      ∀ fragment, (Fault.unknownToken fragment).message = "Unknown token: '" ++ fragment ++ "'" :=
  ⟨map_run start ts, rfl, rfl, rfl, fun _ => rfl⟩

/-- Of two faults the first one wins. -/
example : checkDepth [.rparen, .illegal "@"] = .error .unmatchedParen := rfl

end ReversePolish.Conversion
