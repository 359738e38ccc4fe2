/-
How many random words a tree costs.

A tree shows what had to be drawn for it: a kind for each node above the deepest level, a
number for each literal and a function for each call (`requestsOf`).  From a script it takes
just so many requests and at most one more for each word that the script has left, because
each of the three draws accepts 0, which is all that a script answers behind its end.

So a tree always comes to its end, although nothing limits how often a draw may reject.
The levels limit the recursion and the script limits the rejections, and the induction on the
levels (`exists_spends_treeBelow`) carries both at once.
-/
import ReversePolish.Proofs.Generator.Admissible
import ReversePolish.Proofs.Generator.Covering
import ReversePolish.Proofs.Random.Requests
import ReversePolish.Proofs.Random.Scale

namespace ReversePolish

namespace Expr

/-! ### What a tree shows of its draws -/

/-- The requests for some nodes if no word is rejected: one for the kind of a node above the
deepest level, one for a number, and one for the function of a call. -/
def requestsOf (deepest : Nat) (nodes : List (Nat × Expr)) : Nat :=
  nodes.countP (fun node => node.1 < deepest) + nodes.countP (fun node => node.2.kind = .number) +
    nodes.countP (fun node => node.2.kind = .call)

variable {deepest level : Nat}

@[simp] theorem requestsOf_append (deepest : Nat) (nodes more : List (Nat × Expr)) :
    requestsOf deepest (nodes ++ more) = requestsOf deepest nodes + requestsOf deepest more := by
  simp only [requestsOf, List.countP_append]
  omega

theorem requestsOf_cons (deepest : Nat) (node : Nat × Expr) (nodes : List (Nat × Expr)) :
    requestsOf deepest (node :: nodes)
      = requestsOf deepest [node] + requestsOf deepest nodes :=
  requestsOf_append deepest [node] nodes

theorem requestsOf_num_deepest (hlevel : deepest ≤ level) (n : Nat) :
    requestsOf deepest ((num n).nodesFrom level) = 1 := by
  simp [requestsOf, nodesFrom, kind, Nat.not_lt.mpr hlevel]

theorem requestsOf_num (hlevel : level < deepest) (n : Nat) :
    requestsOf deepest ((num n).nodesFrom level) = 1 + 1 := by
  simp [requestsOf, nodesFrom, kind, hlevel]

theorem requestsOf_sign (hlevel : level < deepest) (s : Sign) (operand : Expr) :
    requestsOf deepest ((sign s operand).nodesFrom level)
      = 1 + requestsOf deepest (operand.nodesFrom (level + 1)) := by
  rw [nodesFrom, requestsOf_cons]
  simp [requestsOf, kind, hlevel]

theorem requestsOf_bin (hlevel : level < deepest) (left : Expr) (op : BinOp) (right : Expr) :
    requestsOf deepest ((bin left op right).nodesFrom level)
      = 1 + (requestsOf deepest (left.nodesFrom (level + 1))
        + requestsOf deepest (right.nodesFrom (level + 1))) := by
  rw [nodesFrom, requestsOf_cons, requestsOf_append]
  simp [requestsOf, kind, hlevel]

theorem requestsOf_call (hlevel : level < deepest) (f : String) (args : List Expr) :
    requestsOf deepest ((call f args).nodesFrom level)
      = 1 + (1 + requestsOf deepest (nodesOfArgs (level + 1) args)) := by
  rw [nodesFrom, requestsOf_cons, ← Nat.add_assoc]
  simp [requestsOf, kind, hlevel]

end Expr

/-- The requests for a whole tree if no word is rejected. -/
def Config.requests (c : Config) (e : Expr) : Nat :=
  Expr.requestsOf c.maxDepth.toNat (e.nodesFrom 0)

namespace Generator

open Draw

/-! ### No draw rejects 0 -/

theorem kindOf?_zero {w : Weights} (h : 0 < w.total) : kindOf? w 0 ≠ none := by
  obtain ⟨k, hk⟩ := exists_covering?_of_lt h
  simp [kindOf?, hk]

theorem functionOf?_zero : functionOf? 0 ≠ none := by
  simp [functionOf?, Builtin.all]

/-! ### The requests of a tree -/

variable {g : Generator}

theorem exists_spends_kind (g : Generator) (s : Script) : ∃ k u, Spends g.kind s k 1 u :=
  exists_spends_from32 (kindOf?_zero g.total_pos) s

theorem exists_spends_function (s : Script) : ∃ f u, Spends function s f 1 u :=
  exists_spends_from64 functionOf?_zero s

theorem exists_spends_number (g : Generator) (s : Script) :
    ∃ n u, Spends g.number s (.num n) 1 u := by
  have hend : Scale.upTo? g.config.maxNumber 0 ≠ none := by simp
  obtain ⟨n, u, h⟩ := exists_spends_from64 hend s
  exact ⟨n, u, h.map Expr.num⟩

/-- **From every script a tree is drawn, and it costs what it shows.** -/
theorem exists_spends_treeBelow {levels level : Nat}
    (hlevel : level + levels = g.config.maxDepth.toNat) (s : Script) :
    ∃ e u, Spends (g.treeBelow levels) s e
      (Expr.requestsOf g.config.maxDepth.toNat (e.nodesFrom level)) u := by
  induction levels generalizing level s with
  | zero =>
      obtain ⟨n, u, hn⟩ := exists_spends_number g s
      have hdeepest : g.config.maxDepth.toNat ≤ level := by omega
      refine ⟨.num n, u, ?_⟩
      rw [Expr.requestsOf_num_deepest hdeepest]
      exact hn
  | succ levels ih =>
      have habove : level < g.config.maxDepth.toNat := by omega
      have hbelow : level + 1 + levels = g.config.maxDepth.toNat := by omega
      obtain ⟨k, u, hk⟩ := exists_spends_kind g s
      cases k with
      | sign sgn =>
          obtain ⟨e, v, he⟩ := ih hbelow (s.skip u)
          refine ⟨.sign sgn e, u + v, ?_⟩
          rw [Expr.requestsOf_sign habove]
          exact hk.bind (he.map (Expr.sign sgn))
      | bin op =>
          obtain ⟨left, v, hleft⟩ := ih hbelow (s.skip u)
          obtain ⟨right, w, hright⟩ := ih hbelow ((s.skip u).skip v)
          refine ⟨.bin left op right, u + (v + w), ?_⟩
          rw [Expr.requestsOf_bin habove]
          exact hk.bind (hleft.bind (hright.map (Expr.bin left op)))
      | number =>
          obtain ⟨n, v, hn⟩ := exists_spends_number g (s.skip u)
          refine ⟨.num n, u + v, ?_⟩
          rw [Expr.requestsOf_num habove]
          exact hk.bind hn
      | call =>
          obtain ⟨f, v, hf⟩ := exists_spends_function (s.skip u)
          obtain ⟨args, w, hargs⟩ := exists_spends_times
            (fun as => Expr.requestsOf g.config.maxDepth.toNat (Expr.nodesOfArgs (level + 1) as))
            rfl (fun a as => Expr.requestsOf_append _ _ _) (ih hbelow) f.arity ((s.skip u).skip v)
          refine ⟨.call f.name args, u + (v + w), ?_⟩
          rw [Expr.requestsOf_call habove]
          exact hk.bind (hf.bind (hargs.map (Expr.call f.name)))

/--
**A tree is drawn from every script, at a price that can be read off the tree.**

There are at least the requests that the tree shows, and at most as many more as the script has
words left; so from a script that is used up there are just the ones that the tree shows.  A
script that goes on with the same words, as far as they are asked for, gives the same tree
with the same number of requests.
-/
theorem answer_tree_requests (g : Generator) (s : Script) :
    ∃ e u, g.answer .tree s = some (.tree e, s.skip u) ∧
      g.config.requests e ≤ u ∧ u ≤ g.config.requests e + s.words.length ∧
      (s.words.length = 0 → u = g.config.requests e) ∧
      ∀ s' : Script, (∀ i < u, s'.words.getD i 0 = s.words.getD i 0) →
        g.answer .tree s' = some (.tree e, s'.skip u) := by
  obtain ⟨e, u, h⟩ := exists_spends_treeBelow (g := g) (Nat.zero_add _) s
  have hanswer := h.map Reply.tree
  refine ⟨e, u, hanswer.run s (Script.Agrees.refl u s), h.le, h.le_add, ?_, hanswer.run⟩
  intro hnone
  have hle := h.le_add
  rw [hnone] at hle
  exact Nat.le_antisymm hle h.le

end Generator

end ReversePolish
