/-
The log of a conversion: a line for each token taken, and an output that only grows.

The lines are made from visits, and the visits are a recursion of their own beside the
run.  That the two belong together is `getElem?_visits`: a visit at some place is the
token at that place, with the conversion to which the tokens before it have led.  How
many visits there are then depends only on whether all tokens can be taken.  An open
`(` is not noticed before the end, when every token has its line.

No step takes anything back from the output, so the visits of one run show outputs
that extend each other, and what is written at the end extends them all.
-/
import ReversePolish.Conversion.Visit
import ReversePolish.Proofs.Conversion.Step

namespace ReversePolish.Conversion

/-! ### A run and its visits -/

section Visits

variable {c next last : Conversion} {t : Token} {ts : List Token} {fault : Fault}

theorem visits_cons_of_ok (ts : List Token) (h : c.take t = .ok next) :
    c.visits (t :: ts) = ⟨t, c⟩ :: next.visits ts := by
  rw [visits, h]

theorem visits_cons_of_error (ts : List Token) (h : c.take t = .error fault) :
    c.visits (t :: ts) = [⟨t, c⟩] := by
  rw [visits, h]

theorem takeAll_cons_of_error (ts : List Token) (h : c.take t = .error fault) :
    c.takeAll (t :: ts) = .error fault := by
  rw [takeAll_cons, h]
  rfl

theorem head?_visits (c : Conversion) (t : Token) (ts : List Token) :
    (c.visits (t :: ts))[0]? = some ⟨t, c⟩ := by
  cases ht : c.take t with
  | error fault => rw [visits_cons_of_error ts ht, List.getElem?_cons_zero]
  | ok next => rw [visits_cons_of_ok ts ht, List.getElem?_cons_zero]

/-- **A visit shows its token and the conversion to which the tokens before it lead.** -/
theorem getElem?_visits (c : Conversion) (ts : List Token) (i : Nat) (v : Visit) :
    (c.visits ts)[i]? = some v ↔
      ts[i]? = some v.token ∧ c.takeAll (ts.take i) = .ok v.before := by
  obtain ⟨token, before⟩ := v
  induction ts generalizing c i with
  | nil => simp [visits]
  | cons t ts ih =>
      cases i with
      | zero =>
          rw [head?_visits]
          simp
      | succ i =>
          rw [List.getElem?_cons_succ, List.take_succ_cons]
          cases ht : c.take t with
          | error fault =>
              rw [visits_cons_of_error ts ht, takeAll_cons_of_error _ ht]
              simp
          | ok next =>
              rw [visits_cons_of_ok ts ht, takeAll_cons_of_ok _ ht, List.getElem?_cons_succ]
              exact ih next i

/-- A run that goes on visits more tokens, unless it has met a fault. -/
theorem visits_append (c : Conversion) (ts us : List Token) :
    c.visits (ts ++ us) = c.visits ts ++
      match c.takeAll ts with
      | .ok last => last.visits us
      | .error _ => [] := by
  induction ts generalizing c with
  | nil => rfl
  | cons t ts ih =>
      cases ht : c.take t with
      | error fault =>
          rw [List.cons_append, visits_cons_of_error _ ht, visits_cons_of_error _ ht,
            takeAll_cons_of_error ts ht, List.append_nil]
      | ok next =>
          rw [List.cons_append, visits_cons_of_ok _ ht, visits_cons_of_ok _ ht,
            takeAll_cons_of_ok ts ht, ih next, List.cons_append]

theorem map_token_visits (h : c.takeAll ts = .ok last) : (c.visits ts).map Visit.token = ts := by
  induction ts generalizing c with
  | nil => rfl
  | cons t ts ih =>
      obtain ⟨next, hs, hrest⟩ := exists_step_of_takeAll h
      rw [visits_cons_of_ok ts hs.take_eq, List.map_cons, ih hrest]

/-- A run that meets a fault meets it at a token, behind ones that can be taken. -/
theorem exists_refused (h : c.takeAll ts = .error fault) :
    ∃ taken t rest last, ts = taken ++ t :: rest ∧ c.takeAll taken = .ok last ∧
      last.take t = .error fault := by
  induction ts generalizing c with
  | nil => exact absurd h nofun
  | cons t ts ih =>
      cases ht : c.take t with
      | error fault' =>
          rw [takeAll_cons_of_error ts ht] at h
          obtain rfl := Except.error.inj h
          exact ⟨[], t, ts, c, rfl, rfl, ht⟩
      | ok next =>
          rw [takeAll_cons_of_ok ts ht] at h
          obtain ⟨taken, t', rest, last, rfl, hrun, hlast⟩ := ih h
          refine ⟨t :: taken, t', rest, last, rfl, ?_, hlast⟩
          rw [takeAll_cons_of_ok taken ht, hrun]

/-- The token that cannot be taken is the last one visited. -/
theorem map_token_visits_of_refused (rest : List Token) (hrun : c.takeAll ts = .ok last)
    (ht : last.take t = .error fault) :
    (c.visits (ts ++ t :: rest)).map Visit.token = ts ++ [t] := by
  rw [visits_append, hrun, List.map_append, map_token_visits hrun]
  exact congrArg (ts ++ List.map Visit.token ·) (visits_cons_of_error rest ht)

end Visits

/-! ### The output only grows -/

/-- **A step takes nothing back from the output.** -/
theorem Step.output_grows {c c' : Conversion} {t : Token} (h : Step c t c') :
    c.output.toList <+: c'.output.toList := by
  obtain ⟨more, hmore, -⟩ := h.of_stack
  rw [hmore]
  exact List.prefix_append _ _

theorem output_prefix_of_takeAll {c last : Conversion} {ts : List Token}
    (h : c.takeAll ts = .ok last) : c.output.toList <+: last.output.toList := by
  induction ts generalizing c with
  | nil =>
      obtain rfl := Except.ok.inj h
      exact List.prefix_rfl
  | cons t ts ih =>
      obtain ⟨next, hs, hrest⟩ := exists_step_of_takeAll h
      exact hs.output_grows.trans (ih hrest)

theorem takeAll_of_take {c mid : Conversion} {ts : List Token} {i : Nat}
    (h : c.takeAll (ts.take i) = .ok mid) : c.takeAll ts = mid.takeAll (ts.drop i) := by
  have hgo := takeAll_append_of_ok (ts.drop i) h
  rwa [List.take_append_drop] at hgo

/-- Each output that is shown extends the ones shown before it. -/
theorem pairwise_visits (c : Conversion) (ts : List Token) :
    (c.visits ts).Pairwise fun v w => v.before.output.toList <+: w.before.output.toList := by
  refine List.pairwise_iff_getElem.mpr fun i j hi hj hij => ?_
  obtain ⟨-, hv⟩ := (getElem?_visits c ts i _).mp (List.getElem?_eq_getElem hi)
  obtain ⟨-, hw⟩ := (getElem?_visits c ts j _).mp (List.getElem?_eq_getElem hj)
  have htake : (ts.take j).take i = ts.take i := by
    rw [List.take_take, Nat.min_eq_left (Nat.le_of_lt hij)]
  rw [takeAll_of_take (htake ▸ hv)] at hw
  exact output_prefix_of_takeAll hw

/-- What is written in the end extends every output that is shown. -/
theorem output_prefix_of_convert {ts out : List Token} {v : Visit} (h : convert ts = .ok out)
    (hv : v ∈ start.visits ts) : v.before.output.toList <+: out := by
  obtain ⟨last, hrun, hmem, rfl⟩ := convert_eq_ok_iff.mp h
  obtain ⟨i, hi⟩ := List.mem_iff_getElem?.mp hv
  obtain ⟨-, hbefore⟩ := (getElem?_visits start ts i v).mp hi
  have hgo := hrun.takeAll_eq
  rw [takeAll_of_take hbefore] at hgo
  exact (output_prefix_of_takeAll hgo).trans (List.prefix_append _ _)

/-! ### The line on the outcome -/

theorem message_unknownToken (fragment : String) :
    (Fault.unknownToken fragment).message = "Unknown token: '" ++ (fragment ++ "'") :=
  String.append_assoc

/-- The third letter tells an unknown token from an unbalanced parenthesis. -/
theorem getElem?_message_unknownToken (fragment : String) :
    (Fault.unknownToken fragment).message.toList[2]? = some 'k' := by
  rw [message_unknownToken, String.toList_append]
  rfl

theorem Fault.message_injective : Function.Injective Fault.message := by
  intro f g h
  have hletter := congrArg (fun message => message.toList[2]?) h
  cases f with
  | unknownToken fragment =>
      simp only [getElem?_message_unknownToken] at hletter
      cases g with
      | unknownToken fragment' =>
          simp only [message_unknownToken, String.append_left_inj, String.append_right_inj] at h
          rw [h]
      | unclosedParen | unmatchedParen | strayComma => exact absurd hletter (by decide)
  | unclosedParen | unmatchedParen | strayComma =>
      cases g with
      | unknownToken fragment' =>
          simp only [getElem?_message_unknownToken] at hletter
          exact absurd hletter (by decide)
      | unclosedParen | unmatchedParen | strayComma =>
          revert h
          decide

/-- The last line of a log shows how the conversion of the text ended. -/
theorem outcomeLine_injective (text : String) : Function.Injective (outcomeLine text) := by
  intro r r' h
  cases r with
  | ok rpn =>
      cases r' with
      | ok rpn' =>
          have hmessage := congrArg LogLine.message h
          simp only [outcomeLine, String.append_left_inj, String.append_right_inj] at hmessage
          rw [hmessage]
      | error fault' => exact absurd (congrArg LogLine.level h) nofun
  | error fault =>
      cases r' with
      | ok rpn' => exact absurd (congrArg LogLine.level h) nofun
      | error fault' =>
          have hmessage := congrArg LogLine.message h
          simp only [outcomeLine, String.append_right_inj] at hmessage
          rw [Fault.message_injective hmessage]

/-- An open `(` is no reason to refuse a token. -/
theorem Fails.ne_unclosedParen {c : Conversion} {t : Token} {fault : Fault} (h : Fails c t fault) :
    fault ≠ .unclosedParen := by
  cases h with
  | rparen | comma | eof | illegal => nofun

/-- The tokens of a list that are taken, or at least tried. -/
inductive Visited (ts : List Token) : List Token → Prop
  /-- If no token is refused, all are taken; whether a `(` is still open is not asked before. -/
  | all (h : (∃ out, convert ts = .ok out) ∨ convert ts = .error .unclosedParen) : Visited ts ts
  /-- The token that is refused is the last one tried, and the reason why nothing converts. -/
  | refused {taken rest : List Token} {t : Token} {last : Conversion} {fault : Fault}
      (hts : ts = taken ++ t :: rest) (hrun : start.takeAll taken = .ok last)
      (ht : last.take t = .error fault) (hfault : fault ≠ .unclosedParen)
      (hconvert : convert ts = .error fault) : Visited ts (taken ++ [t])

theorem visited_visits (ts : List Token) : Visited ts ((start.visits ts).map Visit.token) := by
  cases hrun : start.takeAll ts with
  | ok last =>
      rw [map_token_visits hrun]
      refine .all ?_
      rw [convert, hrun, eq_of last]
      by_cases hmem : Token.lparen ∈ last.stack
      · exact Or.inr (finish_of_mem _ hmem)
      · exact Or.inl ⟨_, finish_of_notMem _ hmem⟩
  | error fault =>
      obtain ⟨taken, t, rest, last, hts, htaken, ht⟩ := exists_refused hrun
      have hvisits := map_token_visits_of_refused rest htaken ht
      rw [← hts] at hvisits
      rw [hvisits]
      refine .refused hts htaken ht (Fails.of_take ht).ne_unclosedParen ?_
      rw [convert, hrun]
      rfl

/-- What visits have to show if they are to tell all about a conversion. -/
structure Tells (ts : List Token) (vs : List Visit) : Prop where
  /-- There is one for each token, up to the one that is refused. -/
  visited : Visited ts (vs.map Visit.token)
  /-- Each shows its token and what the conversion was before it. -/
  shown : ∀ i v, vs[i]? = some v ↔
    ts[i]? = some v.token ∧ start.takeAll (ts.take i) = .ok v.before
  /-- Nothing is taken back from the output. -/
  grows : vs.Pairwise fun v w => v.before.output.toList <+: w.before.output.toList
  /-- What is written in the end starts with all that was written before. -/
  ends : ∀ out, convert ts = .ok out → ∀ v ∈ vs, v.before.output.toList <+: out

theorem tells_visits (ts : List Token) : Tells ts (start.visits ts) where
  visited := visited_visits ts
  shown := getElem?_visits start ts
  grows := pairwise_visits start ts
  ends _ h _ hv := output_prefix_of_convert h hv

/--
**The log is complete, and what it shows of the output is never taken back.**

It is a line for each visit, and the visits tell all about the conversion.  More tokens
only add lines at the end.  On a text one more line follows, from which the outcome can
be read off.
-/
theorem log_complete :
    (∀ ts : List Token, Tells ts (start.visits ts) ∧
      log ts = (start.visits ts).map (fun v => ⟨.trace, "token " ++ v.token.text ++ " | stack [" ++
        Token.joined v.before.stack.reverse ++ "] | output [" ++
        Token.joined v.before.output.toList ++ "]"⟩) ∧
      ∀ us, log ts <+: log (ts ++ us)) ∧
    ∀ reading text, ∃ line, textLog reading text = log (Token.ofText reading text) ++ [line] ∧
      (∀ rpn, toRpn reading text = .ok rpn ↔
        line = ⟨.debug, "converted '" ++ text ++ "' to '" ++ rpn ++ "'"⟩) ∧
      ∀ fault, toRpn reading text = .error fault ↔
        line = ⟨.warn, "failed to convert '" ++ text ++ "': " ++ fault.message⟩ := by
  refine ⟨fun ts => ?_, fun reading text => ?_⟩
  · refine ⟨tells_visits ts, rfl, fun us => ?_⟩
    rw [log, log, visits_append, List.map_append]
    exact List.prefix_append _ _
  · -- The line is made from the outcome and from nothing else, so it tells the outcome.
    have houtcome (r : Except Fault String) :
        toRpn reading text = r ↔ outcomeLine text (toRpn reading text) = outcomeLine text r :=
      (outcomeLine_injective text).eq_iff.symm
    exact ⟨outcomeLine text (toRpn reading text), rfl, fun rpn => houtcome (.ok rpn),
      fun fault => houtcome (.error fault)⟩

/-- A sum, whose lines show outputs that lead up to the final one; and a `)` too many, which is
the last token with a line. -/
theorem log_complete_sum :
    (∀ v ∈ start.visits [.number "1", .op .add, .number "2"],
        v.before.output.toList <+: [.number "1", .number "2", .op .add]) ∧
      log [.number "1", .rparen, .number "2"]
        = [⟨.trace, "token 1 | stack [] | output []"⟩,
          ⟨.trace, "token ) | stack [] | output [1]"⟩] ∧
      log [.number "1", .rparen] <+: log [.number "1", .rparen, .number "2"] := by
  obtain ⟨htells, -, -⟩ := log_complete.1 [.number "1", .op .add, .number "2"]
  obtain ⟨-, hlog, -⟩ := log_complete.1 [.number "1", .rparen, .number "2"]
  obtain ⟨-, -, hmore⟩ := log_complete.1 [.number "1", .rparen]
  exact ⟨htells.ends _ rfl, hlog, hmore [.number "2"]⟩

end ReversePolish.Conversion
