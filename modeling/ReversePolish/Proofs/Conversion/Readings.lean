/-
What the reading of signs changes, and what it does not.

A sign releases nothing where the operator it looks like would, so from the first
sign on the two conversions of a text have different stacks and different outputs.
What they share is what does not depend on precedence: the depth of the parentheses,
which decides about every fault, and the tokens that are held, which are the same but
for the marks on the signs.  Neither is about the order of the output, and the order
is where the two may differ.
-/
import ReversePolish.Proofs.Conversion.Conservation
import ReversePolish.Proofs.Token.Lexing
import ReversePolish.Proofs.Token.Sign

namespace ReversePolish.Conversion

open Token

/-! ### What a sign and its operator have in common -/

theorem countDepth_unsigned (depth : Nat) (t : Token) :
    countDepth depth t.unsigned = countDepth depth t := by
  cases t with
  | sign s => cases s <;> rfl
  | number _ | name _ | op _ | lparen | rparen | comma | eof | illegal _ => rfl

theorem isGrouping_unsigned (t : Token) : t.unsigned.isGrouping = t.isGrouping := by
  cases t with
  | sign s => cases s <;> rfl
  | number _ | name _ | op _ | lparen | rparen | comma | eof | illegal _ => rfl

theorem isLiteral_unsigned (t : Token) : t.unsigned.isLiteral = t.isLiteral := by
  cases t with
  | sign s => cases s <;> rfl
  | number _ | name _ | op _ | lparen | rparen | comma | eof | illegal _ => rfl

theorem checkDepth_map_unsigned (ts : List Token) :
    checkDepth (ts.map unsigned) = checkDepth ts := by
  simp only [checkDepth, List.foldlM_map, countDepth_unsigned]

theorem ungrouped_map_unsigned (ts : List Token) :
    ungrouped (ts.map unsigned) = (ungrouped ts).map unsigned := by
  simp only [ungrouped, List.filter_map, Function.comp_def, isGrouping_unsigned]

theorem literals_map_unsigned (ts : List Token) : literals (ts.map unsigned) = literals ts := by
  simp only [literals, List.filter_map, Function.comp_def, isLiteral_unsigned]
  refine (List.map_congr_left fun t ht => unsigned_of_ne_sign ?_).trans (List.map_id _)
  rintro s rfl
  exact Bool.noConfusion (List.mem_filter.mp ht).2

/-! ### Two conversions -/

/-- What two conversions have to do with each other if one reads signs where the other reads
operators: they have the same fault, or hold the same tokens but for the marks. -/
inductive SameButSigns : Except Fault (List Token) → Except Fault (List Token) → Prop
  | error (fault : Fault) : SameButSigns (.error fault) (.error fault)
  | ok {out out' : List Token} (hperm : (out.map unsigned).Perm (out'.map unsigned))
      (hliterals : literals out = literals out') : SameButSigns (.ok out) (.ok out')

/-- **Taking the marks off the signs changes neither the fault nor what is held.** -/
theorem sameButSigns_unsigned (ts : List Token) :
    SameButSigns (convert ts) (convert (ts.map unsigned)) := by
  have hfault : (convert ts).map (fun _ => ()) = (convert (ts.map unsigned)).map (fun _ => ()) := by
    rw [convert, convert, map_run, map_run]
    exact (checkDepth_map_unsigned ts).symm
  cases hsigns : convert ts with
  | error fault =>
      cases hoperators : convert (ts.map unsigned) with
      | error fault' =>
          rw [hsigns, hoperators] at hfault
          obtain rfl := Except.error.inj hfault
          exact .error fault
      | ok out' =>
          rw [hsigns, hoperators] at hfault
          cases hfault
  | ok out =>
      cases hoperators : convert (ts.map unsigned) with
      | error fault' =>
          rw [hsigns, hoperators] at hfault
          cases hfault
      | ok out' =>
          refine .ok ?_ ?_
          · have hmarked := (perm_of_convert hsigns).map unsigned
            have hunmarked := (perm_of_convert hoperators).map unsigned
            rw [ungrouped_map_unsigned, List.map_map, Function.comp_def] at hunmarked
            simp only [unsigned_unsigned] at hunmarked
            exact hmarked.trans hunmarked.symm
          · rw [literals_of_convert hsigns, literals_of_convert hoperators,
              literals_map_unsigned]

theorem map_unsigned_ofText (text : String) :
    (ofText .byPosition text).map unsigned = ofText .alwaysBinary text :=
  map_unsigned_markSigns true fun s hs => isLexical_scan text.toList (.sign s) hs

/--
**The two readings of signs agree on everything else.**

A text cannot be converted under one reading exactly if it cannot under the other, and
then for the same reason.  If it can, the outputs have the same tokens once each sign is
written as the operator that it looks like, and the numbers are in the same order.
-/
theorem readings_agree (text : String) :
    (∃ fault, toRpn .byPosition text = .error fault ∧ toRpn .alwaysBinary text = .error fault) ∨
      ∃ out out',
        (convert (ofText .byPosition text) = .ok out ∧
          toRpn .byPosition text = .ok (joined out)) ∧
        (convert (ofText .alwaysBinary text) = .ok out' ∧
          toRpn .alwaysBinary text = .ok (joined out')) ∧
        (out.map unsigned).Perm (out'.map unsigned) ∧ literals out = literals out' := by
  have hsame := sameButSigns_unsigned (ofText .byPosition text)
  rw [map_unsigned_ofText] at hsame
  generalize hsigns : convert (ofText .byPosition text) = result at hsame
  generalize hoperators : convert (ofText .alwaysBinary text) = result' at hsame
  rw [toRpn, toRpn, hsigns, hoperators]
  cases hsame with
  | error fault => exact Or.inl ⟨fault, rfl, rfl⟩
  | @ok out out' hperm hliterals =>
      exact Or.inr ⟨out, out', ⟨rfl, rfl⟩, ⟨rfl, rfl⟩, hperm, hliterals⟩

/-- The order is what may differ: here the power waits for the sign, there for nothing. -/
example :
    convert [.number "2", .op .power, .sign .minus, .number "3"]
        = .ok [.number "2", .number "3", .sign .minus, .op .power] ∧
      convert [.number "2", .op .power, .op .subtract, .number "3"]
        = .ok [.number "2", .op .power, .number "3", .op .subtract] := ⟨rfl, rfl⟩

end ReversePolish.Conversion
