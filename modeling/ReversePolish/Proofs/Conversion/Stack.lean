/-
How the stack of a conversion is ordered.

One would like the operators on the stack to bind ever more tightly from the bottom up, but
they do not: a sign releases nothing when it comes to the stack, and so `2 ^ -3` has the sign
above the power.  What is true of every list of tokens is less (`Ordered`).  A binary operator
lies at the bottom, on a `(`, or on an operator that leaves the operand between them to it;
in particular it never lies on a name.

A name is another matter.  On malformed lists anything but an operator can come to lie on a
name, and then a `)` takes the wrong name for the one that it ends the call of.  Cutting a
text into tokens rules this out: what follows a name there releases it, unless it is a `(`.
So a name on top of the stack is the token that has been taken last (`NamesCovered.last`), and
the name below a `(` is the one that stands right before it.  It lies there until the partner
of the `(` comes, which writes it.
-/
import ReversePolish.Proofs.Conversion.Conservation
import ReversePolish.Proofs.Conversion.LoneNames
import ReversePolish.Proofs.Conversion.Partners

namespace ReversePolish.Conversion

open Token

/-! ### What may lie below an operator -/

/-- Whether the operator `o` can wait right above a token: above a `(`, or above an operator that
binds less tightly, or as tightly and groups to the right. -/
def MayLieOn (o : BinOp) (lower : Token) : Prop :=
  lower = .lparen ∨ ∃ p, lower.operator? = some p ∧
    (p.precedence < o.precedence ∨ (p.precedence = o.precedence ∧ p.assoc = .right))

theorem mayLieOn_of_operator {o : BinOp} {p : Operator} {lower : Token}
    (hlower : lower.operator? = some p) (h : releases o lower = false) : MayLieOn o lower := by
  have hprecedence : waitingPrecedence lower = p.precedence := by
    cases lower with
    | op _ | sign _ =>
        obtain rfl := Option.some.inj hlower
        rfl
    | number _ | name _ | lparen | rparen | comma | eof | illegal _ => exact absurd hlower nofun
  have hassoc : waitingAssoc? lower = some p.assoc := by
    rw [waitingAssoc?, hlower]
    rfl
  unfold releases at h
  rw [hprecedence, hassoc, Bool.or_eq_false_iff] at h
  have hle : p.precedence ≤ o.precedence := Nat.not_lt.mp (of_decide_eq_false h.1)
  refine Or.inr ⟨p, hlower, ?_⟩
  by_cases heq : p.precedence = o.precedence
  · refine Or.inr ⟨heq, ?_⟩
    cases hp : p.assoc with
    | left => simp [heq, hp] at h
    | right => rfl
  · exact Or.inl (Nat.lt_of_le_of_ne hle heq)

/-- **What an operator does not release, it may lie on.** -/
theorem mayLieOn_of_not_releases {o : BinOp} {lower : Token} (hwaiting : isWaiting lower = true)
    (h : releases o lower = false) : MayLieOn o lower := by
  cases lower with
  | lparen => exact Or.inl rfl
  | name f =>
      rw [releases_name] at h
      exact Bool.noConfusion h
  | op _ | sign _ => exact mayLieOn_of_operator rfl h
  | number _ | rparen | comma | eof | illegal _ => simp [isWaiting] at hwaiting

theorem MayLieOn.ne_name {o : BinOp} {lower : Token} (h : MayLieOn o lower) (f : String) :
    lower ≠ .name f := by
  rintro rfl
  rcases h with h | ⟨p, hp, -⟩
  · exact absurd h nofun
  · exact absurd hp nofun

/-! ### The order of the stack, whatever the tokens are -/

/-- The order of what waits, from the top down. -/
structure Ordered (stack : List Token) : Prop where
  /-- Nothing waits but names, operators, signs and `(`. -/
  waiting : ∀ w ∈ stack, isWaiting w = true
  /-- A binary operator lies at the bottom or on what it may lie on. -/
  operators : stack.IsChain fun upper lower => ∀ o, upper = .op o → MayLieOn o lower
  /-- It never lies on a name. -/
  names : stack.IsChain fun upper lower => ∀ o f, upper = .op o → lower ≠ .name f

theorem isChain_below {R : Token → Token → Prop} {above below : List Token} {t : Token}
    (h : (above ++ t :: below).IsChain R) : below.IsChain R :=
  (List.isChain_cons.mp h.right_of_append).2

/-- A step puts an operator only where it may lie. -/
theorem Step.operators {c c' : Conversion} {t : Token} (h : Step c t c')
    (hwaiting : ∀ w ∈ c.stack, isWaiting w = true)
    (hc : c.stack.IsChain fun upper lower => ∀ o, upper = .op o → MayLieOn o lower) :
    c'.stack.IsChain fun upper lower => ∀ o, upper = .op o → MayLieOn o lower := by
  cases h with
  | number digits waiting written => exact hc
  | wait waiting written h =>
      refine List.isChain_cons.mpr ⟨?_, hc⟩
      rintro lower - o rfl
      exact absurd h (by simp [waits])
  | @op o above below written habove hbelow =>
      refine List.isChain_cons.mpr ⟨?_, hc.right_of_append⟩
      rintro lower hlower o' ho
      obtain rfl := Token.op.inj ho
      have hmem : lower ∈ above ++ below :=
        List.mem_append_right above (List.mem_of_mem_head? hlower)
      exact mayLieOn_of_not_releases (hwaiting lower hmem) (hbelow lower hlower)
  | group written habove hbelow => exact isChain_below hc
  | call below written habove => exact (List.isChain_cons.mp (isChain_below hc)).2
  | comma below written habove => exact hc.right_of_append

/-- **Whatever tokens a run has taken, its stack is in order.** -/
theorem Reaches.ordered {ts : List Token} {c : Conversion} (h : Reaches ts c) :
    Ordered c.stack := by
  have hoperators : c.stack.IsChain fun upper lower => ∀ o, upper = .op o → MayLieOn o lower := by
    induction h with
    | start => exact .nil
    | step hr hs ih => exact hs.operators hr.isWaiting_stack ih
  refine ⟨h.isWaiting_stack, hoperators, hoperators.imp ?_⟩
  intro upper lower hmay o f ho
  exact (hmay o ho).ne_name f

/-! ### Names -/

/-- The names that wait behind these tokens. -/
structure NamesCovered (ts stack : List Token) : Prop where
  /-- Nothing lies on a name but a `(`. -/
  covered : stack.IsChain fun upper lower => ∀ f, lower = .name f → upper = .lparen
  /-- A name on top has been taken last. -/
  last : ∀ f, stack.head? = some (.name f) → ts.getLast? = some (.name f)

/-- **A step leaves no name below another token than a `(`**, if the token is one that can stand
behind a name. -/
theorem Step.namesCovered {c c' : Conversion} {t : Token} {ts : List Token} (h : Step c t c')
    (hc : NamesCovered ts c.stack) (hnext : ∀ u ∈ ts.getLast?, EndsName u t) :
    NamesCovered (ts ++ [t]) c'.stack := by
  have htop : ∀ f, c.stack.head? = some (.name f) → followsName t = true :=
    fun f hf => hnext _ (hc.last f hf) f rfl
  cases h with
  | number digits waiting written =>
      refine ⟨hc.covered, fun f hf => ?_⟩
      exact absurd (htop f hf) Bool.false_ne_true
  | wait waiting written h =>
      refine ⟨List.isChain_cons.mpr ⟨?_, hc.covered⟩, fun f hf => ?_⟩
      · rintro lower hlower f rfl
        have hfollows := htop f hlower
        rcases cases_of_waits h with ⟨g, rfl⟩ | ⟨s, rfl⟩ | rfl
        · exact absurd hfollows Bool.false_ne_true
        · exact absurd hfollows Bool.false_ne_true
        · rfl
      · rw [List.getLast?_concat]
        exact hf
  | @op o above below written habove hbelow =>
      refine ⟨List.isChain_cons.mpr ⟨?_, hc.covered.right_of_append⟩, fun f hf => ?_⟩
      · rintro lower hlower f rfl
        have hkept := hbelow _ hlower
        rw [releases_name] at hkept
        exact Bool.noConfusion hkept
      · exact absurd (Option.some.inj hf) nofun
  | group written habove hbelow =>
      exact ⟨isChain_below hc.covered, fun f hf => absurd hf (hbelow f)⟩
  | call below written habove =>
      obtain ⟨hname, hbelow⟩ := List.isChain_cons.mp (isChain_below hc.covered)
      refine ⟨hbelow, fun f hf => ?_⟩
      -- The name that leaves would lie on this one.
      exact absurd (hname _ hf f rfl) nofun
  | comma below written habove =>
      refine ⟨hc.covered.right_of_append, fun f hf => ?_⟩
      exact absurd (Option.some.inj hf) nofun

theorem Reaches.namesCovered {ts : List Token} {c : Conversion} (h : Reaches ts c)
    (hchain : ts.IsChain EndsName) : NamesCovered ts c.stack := by
  induction h with
  | start => exact ⟨.nil, fun f hf => absurd hf nofun⟩
  | step hr hs ih =>
      obtain ⟨hts, -, hnext⟩ := List.isChain_append.mp hchain
      exact hs.namesCovered (ih hts) fun u hu => hnext u hu _ rfl

/-! ### Calls -/

/-- The name that a `(` behind these tokens is a call of, if there is one. -/
def callee (before : List Token) : List Token :=
  match before.getLast? with
  | some (.name f) => [.name f]
  | _ => []

theorem callee_of_name {before : List Token} {f : String}
    (h : before.getLast? = some (.name f)) : callee before = [.name f] := by
  simp [callee, h]

theorem callee_of_ne_name {before : List Token} (h : ∀ f, before.getLast? ≠ some (.name f)) :
    callee before = [] := by
  unfold callee
  split
  · rename_i f hf
    exact absurd hf (h f)
  · rfl

/-- A name waits right after it has been taken. -/
theorem Reaches.stack_of_name {ts : List Token} {c : Conversion} {f : String} (h : Reaches ts c)
    (hlast : ts.getLast? = some (.name f)) : ∃ waiting, c.stack = .name f :: waiting := by
  cases h with
  | start => exact absurd hlast nofun
  | step hr hs =>
      rw [List.getLast?_concat] at hlast
      obtain rfl := Option.some.inj hlast
      cases hs with
      | wait waiting written h => exact ⟨waiting, rfl⟩

/--
The `)` that comes next, in the state `c`, belongs to the `(` that stands behind `before`.

The state in front of the `(` was `opened`, and the one behind the `)` is `closed`.
-/
structure Closes (before inner : List Token) (opened c closed : Conversion) : Prop where
  opens : start.takeAll before = .ok opened
  /-- The `)` can be taken. -/
  closes : c.take .rparen = .ok closed
  /-- The name right before the `(` waited there, and it is what the stack has lost since. -/
  waits : opened.stack = callee before ++ closed.stack
  /-- It has been waiting below the `(` for as long as the parentheses were open. -/
  stays : ∀ done mid, done <+: inner → start.takeAll (before ++ .lparen :: done) = .ok mid →
    .lparen :: opened.stack <:+ mid.stack
  /-- The `)` writes what waits above the `(`, and then this name. -/
  writes : ∃ above, c.stack = above ++ .lparen :: opened.stack ∧ .lparen ∉ above ∧
    closed.output.toList = c.output.toList ++ above ++ callee before

/-- Above a `(` that is still open, what waited when it was taken has not been touched. -/
theorem Reaches.stays {before inner done : List Token} {opened mid : Conversion}
    (hopened : Reaches before opened) (hinner : Balanced inner) (hdone : done <+: inner)
    (hmid : Reaches (before ++ .lparen :: done) mid) :
    .lparen :: opened.stack <:+ mid.stack := by
  obtain ⟨todo, rfl⟩ := hdone
  obtain ⟨depth, hcount, -⟩ := exists_nest_of_append hinner
  obtain ⟨opened', hopened', above, hstack, -⟩ := hmid.exists_opened hcount
  obtain rfl := Except.ok.inj (hopened'.takeAll_eq.symm.trans hopened.takeAll_eq)
  exact ⟨above, hstack.symm⟩

/-- A `)` writes what waits above the `(`, and the name right before the `(` if there is one. -/
theorem Reaches.exists_take_rparen {before above : List Token} {opened : Conversion}
    (h : Reaches before opened) (hnames : NamesCovered before opened.stack)
    (habove : Token.lparen ∉ above) (written : List Token) :
    ∃ rest, opened.stack = callee before ++ rest ∧
      (of (above ++ .lparen :: opened.stack) written).take .rparen
        = .ok (of rest (written ++ above ++ callee before)) := by
  by_cases hcall : ∃ f, before.getLast? = some (.name f)
  · obtain ⟨f, hf⟩ := hcall
    obtain ⟨rest, hrest⟩ := h.stack_of_name hf
    rw [callee_of_name hf, hrest]
    exact ⟨rest, rfl, take_rparen_call written habove⟩
  · have hnone : ∀ f, before.getLast? ≠ some (.name f) := fun f hf => hcall ⟨f, hf⟩
    rw [callee_of_ne_name hnone, List.append_nil]
    exact ⟨opened.stack, rfl,
      take_rparen written habove fun f hf => hnone f (hnames.last f hf)⟩

/-- **A `)` writes the name in front of its partner**, if names on the stack are where they should
be. -/
theorem Reaches.exists_closes {before inner : List Token} {c : Conversion}
    (h : Reaches (before ++ .lparen :: inner) c) (hinner : Balanced inner)
    (hnames : ∀ {opened : Conversion}, Reaches before opened → NamesCovered before opened.stack) :
    ∃ opened closed, Closes before inner opened c closed := by
  obtain ⟨opened, hopened, above, hstack, hcount⟩ := h.exists_opened hinner
  have habove : Token.lparen ∉ above := List.count_eq_zero.mp hcount
  obtain ⟨rest, hrest, htake⟩ :=
    hopened.exists_take_rparen (hnames hopened) habove c.output.toList
  rw [← hstack, ← eq_of c] at htake
  refine ⟨opened, of rest (c.output.toList ++ above ++ callee before), hopened.takeAll_eq, htake,
    hrest, fun done mid hdone hmid => ?_, above, hstack, habove, rfl⟩
  exact hopened.stays hinner hdone (reaches_iff.mpr hmid)

/--
**The stack is in order, and a call is written by the `)` that ends it.**

The first part holds of any tokens: nothing waits but names, operators, signs and `(`, and a
binary operator waits where it may.  The rest is about the tokens of a text.  Nothing but a `(`
ever waits on a name.  A `)` that can be taken has a partner, and it writes the name that stands
right before its partner, or no name if none stands there; until then this name has been waiting
below the `(`.
-/
theorem stack_in_order :
    (∀ (ts : List Token) k c, start.takeAll (ts.take k) = .ok c → Ordered c.stack) ∧
    ∀ reading text,
      (∀ k c, start.takeAll ((ofText reading text).take k) = .ok c →
        c.stack.IsChain fun upper lower => ∀ f, lower = .name f → upper = .lparen) ∧
      (∀ taken rest c closed, ofText reading text = taken ++ .rparen :: rest →
        start.takeAll taken = .ok c → c.take .rparen = .ok closed →
        ∃ before inner, taken = before ++ .lparen :: inner ∧ Balanced inner) ∧
      ∀ before inner rest c,
        ofText reading text = before ++ .lparen :: (inner ++ .rparen :: rest) →
        Balanced inner → start.takeAll (before ++ .lparen :: inner) = .ok c →
        ∃ opened closed, Closes before inner opened c closed := by
  refine ⟨fun ts k c h => (reaches_iff.mpr h).ordered, fun reading text => ?_⟩
  have hchain := isChain_endsName_ofText reading text
  refine ⟨fun k c h => ?_, fun taken rest c closed _ h hclose => ?_,
    fun before inner rest c htext hinner h => ?_⟩
  · exact ((reaches_iff.mpr h).namesCovered (hchain.take k)).covered
  · exact (reaches_iff.mpr h).exists_partner hclose
  · rw [htext] at hchain
    exact (reaches_iff.mpr h).exists_closes hinner fun hopened =>
      hopened.namesCovered hchain.left_of_append

/-- In `2^-f((x)+1)` the sign waits on the power and the name on the sign, and the sum may wait on
the `(`.  The inner `)` writes `x` and no function name, the outer one writes `f`. -/
theorem stack_in_order_call :
    start.takeAll ((ofText .byPosition "2^-f((x)+1)").take 10)
      = .ok (of [.op .add, .lparen, .name "f", .sign .minus, .op .power]
          [.number "2", .name "x", .number "1"]) ∧
    Ordered [.op .add, .lparen, .name "f", .sign .minus, .op .power] ∧
    (∃ opened closed, Closes [.number "2", .op .power, .sign .minus, .name "f"]
      [.lparen, .name "x", .rparen, .op .add, .number "1"] opened
      (of [.op .add, .lparen, .name "f", .sign .minus, .op .power]
        [.number "2", .name "x", .number "1"]) closed) ∧
    callee [.number "2", .op .power, .sign .minus, .name "f"] = [.name "f"] ∧
    (∃ opened closed, Closes [.number "2", .op .power, .sign .minus, .name "f", .lparen] [.name "x"]
      opened (of [.name "x", .lparen, .lparen, .name "f", .sign .minus, .op .power] [.number "2"])
      closed) ∧
    callee [.number "2", .op .power, .sign .minus, .name "f", .lparen] = [] := by
  have htext : ofText .byPosition "2^-f((x)+1)" = [.number "2", .op .power, .sign .minus, .name "f",
      .lparen, .lparen, .name "x", .rparen, .op .add, .number "1", .rparen] := by decide +kernel
  have hrun : start.takeAll ((ofText .byPosition "2^-f((x)+1)").take 10)
      = .ok (of [.op .add, .lparen, .name "f", .sign .minus, .op .power]
          [.number "2", .name "x", .number "1"]) := by
    rw [htext]
    rfl
  obtain ⟨hordered, htexts⟩ := stack_in_order
  obtain ⟨-, -, hcloses⟩ := htexts .byPosition "2^-f((x)+1)"
  exact ⟨hrun, hordered _ 10 _ hrun, hcloses _ _ [] _ htext (by decide) rfl, rfl,
    hcloses _ _ [.op .add, .number "1", .rparen] _ htext (by decide) rfl, rfl⟩

/-- In a list that no text has, a name lies on a name, and the second `)` writes one that its
partner is no call of. -/
example : start.takeAll [.name "k", .name "g", .lparen, .rparen, .lparen, .rparen]
      = .ok (of [] [.name "g", .name "k"]) ∧
    callee [.name "k", .name "g", .lparen, .rparen] = [] := ⟨rfl, rfl⟩

end ReversePolish.Conversion
