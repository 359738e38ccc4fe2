/-
A generator makes the admissible trees, all of them and no others.

That it makes no others holds whatever the source of randomness is, and whatever it was
asked before (`admissible_of_gives`): a kind without a weight covers no number, so no word
is accepted for it, and with each level that a tree goes down there is one level less left
below.

That it makes all of them is shown by writing a script (`exists_takes_treeBelow`).  For
each kind with a weight, each number in the range and each function there is a word that
is accepted for it at once, and the words are put in the order in which the nodes are
drawn: the kind first, then the function of a call, then what stands below, from left to
right.  No draw looks behind the words it takes, so a session can be given any admissible
trees in a row (`exists_session_words`).
-/
import ReversePolish.Generator
import ReversePolish.Proofs.Generator.Admissible
import ReversePolish.Proofs.Generator.Covering
import ReversePolish.Proofs.Random.Draw
import ReversePolish.Proofs.Random.Scale

namespace ReversePolish

namespace Generator

open Draw

/-! ### Words and what they are accepted for -/

theorem weight_pos_of_kindOf? {w : Weights} {word : UInt32} {k : NodeKind}
    (h : kindOf? w word = some k) : 0 < w.weight k := by
  obtain ⟨z, -, hcover⟩ := Option.bind_eq_some_iff.mp h
  obtain ⟨n, hmem, hn⟩ := exists_of_covering? hcover
  rwa [← Weights.eq_weight_of_mem_table hmem]

theorem exists_kindOf? {w : Weights} {k : NodeKind} (hmax : w.total < UInt32.size)
    (hk : 0 < w.weight k) : ∃ word, kindOf? w word = some k := by
  obtain ⟨z, hz, hcover⟩ := exists_covering? (w.mem_table k) hk
  obtain ⟨word, hword⟩ := Scale.exists_below32? hmax hz
  refine ⟨word, ?_⟩
  unfold kindOf?
  rw [hword]
  exact hcover

theorem exists_functionOf? (f : Builtin) : ∃ word, functionOf? word = some f := by
  obtain ⟨i, hi, hf⟩ : ∃ i, i < Builtin.all.length ∧ Builtin.all[i]? = some f := by
    cases f with
    | sin => exact ⟨0, by decide, rfl⟩
    | cos => exact ⟨1, by decide, rfl⟩
    | exp => exact ⟨2, by decide, rfl⟩
    | ln => exact ⟨3, by decide, rfl⟩
    | pow => exact ⟨4, by decide, rfl⟩
    | iff => exact ⟨5, by decide, rfl⟩
  obtain ⟨word, hword⟩ := Scale.exists_below64? (by decide) hi
  refine ⟨word, ?_⟩
  unfold functionOf?
  rw [hword]
  exact hf

/-! ### It makes no others -/

section Gives

variable {σ : Type} [Source σ] {g : Generator}

theorem weight_pos_of_gives_kind {k : NodeKind} (h : Gives (g.kind : Draw σ NodeKind) k) :
    0 < g.config.weights.weight k := by
  obtain ⟨word, hword⟩ := h.of_from32
  exact weight_pos_of_kindOf? hword

theorem exists_of_gives_number {e : Expr} (h : Gives (g.number : Draw σ Expr) e) :
    ∃ n, e = .num n ∧ n ≤ g.config.maxNumber.toNat := by
  obtain ⟨n, hn, rfl⟩ := h.of_map
  obtain ⟨word, hword⟩ := hn.of_from64
  exact ⟨n, rfl, Scale.le_of_upTo? hword⟩

/-- **What is drawn at a level is admissible there.** -/
theorem admissible_of_gives {levels level : Nat} {e : Expr}
    (hlevel : level + levels = g.config.maxDepth.toNat)
    (h : Gives (g.treeBelow levels : Draw σ Expr) e) : g.config.Admissible level e := by
  induction levels generalizing level e with
  | zero =>
      obtain ⟨n, rfl, hn⟩ := exists_of_gives_number h
      exact .deepest (Nat.le_of_eq hlevel.symm) hn
  | succ levels ih =>
      have habove : level < g.config.maxDepth.toNat := by omega
      have hbelow : level + 1 + levels = g.config.maxDepth.toNat := by omega
      obtain ⟨k, hk, h⟩ := h.of_bind
      have hweight := weight_pos_of_gives_kind hk
      cases k with
      | sign s =>
          obtain ⟨operand, hoperand, h⟩ := h.of_bind
          rw [h.of_pure]
          exact .sign s habove hweight (ih hbelow hoperand)
      | bin op =>
          obtain ⟨left, hleft, h⟩ := h.of_bind
          obtain ⟨right, hright, h⟩ := h.of_bind
          rw [h.of_pure]
          exact .bin op habove hweight (ih hbelow hleft) (ih hbelow hright)
      | number =>
          obtain ⟨n, rfl, hn⟩ := exists_of_gives_number h
          exact .number habove hweight hn
      | call =>
          obtain ⟨f, -, h⟩ := h.of_bind
          obtain ⟨args, hargs, h⟩ := h.of_bind
          obtain ⟨harity, hall⟩ := hargs.of_times
          rw [h.of_pure]
          exact .call f habove hweight harity fun a ha => ih hbelow (hall a ha)

theorem admissible_of_gives_tree {e : Expr} (h : Gives (g.tree : Draw σ Expr) e) :
    g.config.Admissible 0 e := admissible_of_gives (Nat.zero_add _) h

/-- Every reply of a session is one that its request can be answered with. -/
theorem exists_of_mem_session {requests : List Request} {replies : List (Reply × σ)}
    (h : Gives (g.session requests : Draw σ _) replies) :
    ∀ p ∈ replies, ∃ r ∈ requests, Gives (g.answer r : Draw σ Reply) p.1 := by
  induction requests generalizing replies with
  | nil =>
      intro p hp
      rw [h.of_pure] at hp
      exact absurd hp List.not_mem_nil
  | cons r rs ih =>
      obtain ⟨reply, hreply, h⟩ := h.of_bind
      obtain ⟨source, -, h⟩ := h.of_bind
      obtain ⟨rest, hrest, h⟩ := h.of_bind
      intro p hp
      rw [h.of_pure] at hp
      rcases List.mem_cons.mp hp with rfl | hp
      · exact ⟨r, List.mem_cons_self, hreply⟩
      · obtain ⟨r', hr', hgives⟩ := ih hrest p hp
        exact ⟨r', List.mem_cons_of_mem r hr', hgives⟩

theorem gives_tree_of_answer {r : Request} {e : Expr}
    (h : Gives (g.answer r : Draw σ Reply) (.tree e)) : Gives (g.tree : Draw σ Expr) e := by
  cases r with
  | kind =>
      obtain ⟨k, -, heq⟩ := h.of_map
      exact absurd heq (by simp)
  | tree =>
      obtain ⟨e', he', heq⟩ := h.of_map
      rwa [Reply.tree.inj heq]
  | config => exact absurd h.of_pure (by simp)

end Gives

/--
**Every tree that a session gives is admissible**, with all that comes of it.

It is not too deep, each node is one that the configuration allows at its level, the calls
have the right number of arguments, and the infix notation converts to the reverse Polish
notation.  Nothing is assumed of the source but that the session came to an end.
-/
theorem session_trees {σ : Type} [Source σ] {g : Generator} {requests : List Request} {s s' : σ}
    {replies : List (Reply × σ)} (hrun : g.session requests s = some (replies, s')) {e : Expr}
    {left : σ} (he : (.tree e, left) ∈ replies) :
    e.depth ≤ g.config.maxDepth.toNat + 1 ∧
      (∀ node ∈ e.nodesFrom 0, g.config.Allows node.1 node.2) ∧
      e.validate = .ok () ∧ toRpn .byPosition e.toInfix = .ok e.toRpn := by
  obtain ⟨r, -, hgives⟩ := exists_of_mem_session (gives_of_eq_some hrun) _ he
  have hadm := admissible_of_gives_tree (gives_tree_of_answer hgives)
  have hdepth := hadm.depth_le (Nat.zero_le _)
  rw [Nat.zero_add] at hdepth
  exact ⟨hdepth, hadm.allows, hadm.validate_eq_ok, hadm.toRpn_toInfix⟩

/-- A generator for one level of operators and calls above numbers of the whole range. -/
def flat : Generator where
  config := { maxDepth := 1, maxNumber := 18446744073709551615, weights := { number := 0 } }
  total_pos := by decide

/-- A call of two arguments, the first of which is the largest number there is. -/
theorem session_trees_call :
    flat.session [.kind, .tree, .config]
        (Script.ofWords [7, 4294967295, 12297829382473034411, 18446744073709551615])
      = some ([(.kind (.sign .minus), ⟨[4294967295, 12297829382473034411, 18446744073709551615], 1⟩),
          (.tree (.call "POW" [.num 18446744073709551615, .num 0]), ⟨[], 5⟩),
          (.config flat.config, ⟨[], 5⟩)], ⟨[], 5⟩) ∧
      flat.config.Allows 0 (.call "POW" [.num 18446744073709551615, .num 0]) ∧
      flat.config.Allows 1 (.num 18446744073709551615) ∧
      toRpn .byPosition "POW(18446744073709551615, 0)" = .ok "18446744073709551615 0 POW" := by
  have hrun : flat.session [.kind, .tree, .config]
      (Script.ofWords [7, 4294967295, 12297829382473034411, 18446744073709551615]) = some
        ([(.kind (.sign .minus), ⟨[4294967295, 12297829382473034411, 18446744073709551615], 1⟩),
          (.tree (.call "POW" [.num 18446744073709551615, .num 0]), ⟨[], 5⟩),
          (.config flat.config, ⟨[], 5⟩)], ⟨[], 5⟩) := by decide +kernel
  obtain ⟨-, hallows, -, hrpn⟩ := session_trees hrun (List.mem_cons_of_mem _ List.mem_cons_self)
  exact ⟨hrun, hallows _ List.mem_cons_self,
    hallows _ (List.mem_cons_of_mem _ List.mem_cons_self), hrpn⟩

/-! ### It makes all of them -/

section Takes

variable {g : Generator}

theorem exists_takes_kind (hmax : g.config.weights.total < UInt32.size) {k : NodeKind}
    (hk : 0 < g.config.weights.weight k) : ∃ words, Takes g.kind words k := by
  obtain ⟨word, hword⟩ := exists_kindOf? hmax hk
  exact ⟨[word.toUInt64], takes_from32 hword⟩

theorem exists_takes_number {n : Nat} (hn : n ≤ g.config.maxNumber.toNat) :
    ∃ words, Takes g.number words (.num n) := by
  obtain ⟨word, hword⟩ := Scale.exists_upTo? hn
  exact ⟨[word], (takes_from64 hword).map Expr.num⟩

theorem exists_takes_function (f : Builtin) : ∃ words, Takes function words f := by
  obtain ⟨word, hword⟩ := exists_functionOf? f
  exact ⟨[word], takes_from64 hword⟩

theorem levels_above {depth level : Nat} (h : level < depth) :
    depth - level = depth - (level + 1) + 1 := by omega

/-- **What is admissible at a level has a script.** -/
theorem exists_takes_treeBelow (hmax : g.config.weights.total < UInt32.size) {level : Nat} {e : Expr}
    (h : g.config.Admissible level e) :
    ∃ words, Takes (g.treeBelow (g.config.maxDepth.toNat - level)) words e := by
  induction h with
  | deepest hlevel hn =>
      rw [Nat.sub_eq_zero_of_le hlevel]
      exact exists_takes_number hn
  | number hlevel hweight hn =>
      rw [levels_above hlevel]
      obtain ⟨us, hk⟩ := exists_takes_kind hmax hweight
      obtain ⟨vs, hnum⟩ := exists_takes_number hn
      exact ⟨us ++ vs, hk.bind hnum⟩
  | sign s hlevel hweight h ih =>
      rw [levels_above hlevel]
      obtain ⟨us, hk⟩ := exists_takes_kind hmax hweight
      obtain ⟨vs, hoperand⟩ := ih
      exact ⟨us ++ (vs ++ []), hk.bind (hoperand.bind (takes_pure _))⟩
  | bin op hlevel hweight hl hr ihl ihr =>
      rw [levels_above hlevel]
      obtain ⟨us, hk⟩ := exists_takes_kind hmax hweight
      obtain ⟨vs, hleft⟩ := ihl
      obtain ⟨ws, hright⟩ := ihr
      exact ⟨us ++ (vs ++ (ws ++ [])), hk.bind (hleft.bind (hright.bind (takes_pure _)))⟩
  | call f hlevel hweight harity h ih =>
      rw [levels_above hlevel]
      obtain ⟨us, hk⟩ := exists_takes_kind hmax hweight
      obtain ⟨vs, hf⟩ := exists_takes_function f
      obtain ⟨ws, hargs⟩ := exists_takes_times ih
      rw [harity] at hargs
      exact ⟨us ++ (vs ++ (ws ++ [])), hk.bind (hf.bind (hargs.bind (takes_pure _)))⟩

theorem exists_takes_tree (hmax : g.config.weights.total < UInt32.size) {e : Expr}
    (h : g.config.Admissible 0 e) : ∃ words, Takes g.tree words e :=
  exists_takes_treeBelow hmax h

/-- Trees one after the other, whatever the script says behind them. -/
theorem exists_session_words (hmax : g.config.weights.total < UInt32.size) {es : List Expr}
    (h : ∀ e ∈ es, g.config.Admissible 0 e) :
    ∃ words, ∀ rest used, ∃ replies,
      g.session (List.replicate es.length .tree) (⟨words ++ rest, used⟩ : Script)
          = some (replies, ⟨rest, used + words.length⟩) ∧
        replies.map (·.1) = es.map .tree := by
  induction es with
  | nil => exact ⟨[], fun rest used => ⟨[], rfl, rfl⟩⟩
  | cons e es ih =>
      obtain ⟨he, hes⟩ := List.forall_mem_cons.mp h
      obtain ⟨us, hus⟩ := exists_takes_tree hmax he
      obtain ⟨vs, hvs⟩ := ih hes
      refine ⟨us ++ vs, fun rest used => ?_⟩
      obtain ⟨replies, hrun, hreplies⟩ := hvs rest (used + us.length)
      refine ⟨(.tree e, ⟨vs ++ rest, used + us.length⟩) :: replies, ?_, congrArg (_ :: ·) hreplies⟩
      have hanswer := hus.map Reply.tree (vs ++ rest) used
      rw [List.append_assoc, List.length_append, ← Nat.add_assoc, List.length_cons,
        List.replicate_succ]
      unfold session
      rw [bind_apply]
      show ((Reply.tree <$> g.tree) _).bind _ = _
      rw [hanswer]
      show ((g.session (List.replicate es.length .tree)) _).bind _ = _
      rw [hrun]
      rfl

end Takes

/-- A session ends with the source that its last reply leaves. -/
theorem source_of_session {σ : Type} [Source σ] {g : Generator} {requests : List Request} {s s' : σ}
    {replies : List (Reply × σ)} (h : g.session requests s = some (replies, s')) :
    (replies.getLast?.map (·.2)).getD s = s' := by
  induction requests generalizing s replies with
  | nil =>
      obtain ⟨rfl, rfl⟩ := Prod.mk.inj (Option.some.inj h)
      rfl
  | cons r rs ih =>
      obtain ⟨⟨reply, left⟩, -, h⟩ := Option.bind_eq_some_iff.mp h
      obtain ⟨⟨rest, s''⟩, hrest, h⟩ := Option.bind_eq_some_iff.mp h
      obtain ⟨rfl, rfl⟩ := Prod.mk.inj (Option.some.inj h)
      rw [← ih hrest, List.getLast?_cons]
      cases rest.getLast? <;> rfl

/--
**Any admissible trees are what some script makes a generator give**, one after the other.

The script is read to its end and no further: that is where the last reply leaves it.
-/
theorem exists_script {g : Generator} (hmax : g.config.weights.total < UInt32.size) {es : List Expr}
    (h : ∀ e ∈ es, g.config.Admissible 0 e) :
    ∃ words replies,
      g.session (List.replicate es.length .tree) (Script.ofWords words)
          = some (replies, ⟨[], words.length⟩) ∧
        replies.map (·.1) = es.map .tree ∧
        ∀ reply ∈ replies.getLast?, reply.2.used = words.length := by
  obtain ⟨words, hwords⟩ := exists_session_words hmax h
  obtain ⟨replies, hrun, hreplies⟩ := hwords [] 0
  rw [List.append_nil, Nat.zero_add] at hrun
  refine ⟨words, replies, hrun, hreplies, fun reply hreply => ?_⟩
  have hsource := source_of_session hrun
  rw [Option.mem_def.mp hreply] at hsource
  exact congrArg Script.used hsource

/-- A call of two arguments and a product, on the deepest level the largest number there is. -/
theorem exists_script_call_product :
    ∃ words replies,
      flat.session [.tree, .tree] (Script.ofWords words) = some (replies, ⟨[], words.length⟩) ∧
        replies.map (·.1) = [.tree (.call "POW" [.num 18446744073709551615, .num 5]),
          .tree (.bin (.num 3) .multiply (.num 4))] ∧
        ∀ reply ∈ replies.getLast?, reply.2.used = words.length := by
  have hcall : flat.config.Admissible 0 (.call "POW" [.num 18446744073709551615, .num 5]) :=
    .call .pow (by decide) (by decide) rfl fun a ha => by
      rcases List.mem_pair.mp ha with rfl | rfl
      · exact .deepest (by decide) (by decide)
      · exact .deepest (by decide) (by decide)
  have hproduct : flat.config.Admissible 0 (.bin (.num 3) .multiply (.num 4)) :=
    .bin .multiply (by decide) (by decide) (.deepest (by decide) (by decide))
      (.deepest (by decide) (by decide))
  exact exists_script (by decide)
    (List.forall_mem_cons.mpr ⟨hcall, List.forall_mem_singleton.mpr hproduct⟩)

end Generator

end ReversePolish
