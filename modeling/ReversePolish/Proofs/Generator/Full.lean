/-
Without numbers above the deepest level every tree is full.

A node is a leaf if there is nothing below it.  Only numbers are leaves, since every built-in
function takes an argument; and if numbers have no weight, they come up on the deepest level
only.  So no branch ends before the deepest level, and none goes on behind it.

The depth follows from this alone.  Whatever a tree is, each of its nodes stands less deep than
the tree is (`lt_of_mem_nodesFrom`), and one of them is a leaf (`exists_leaf`).  Here the leaf
stands on the deepest level, and so the tree goes down to it.
-/
import ReversePolish.Proofs.Generator.Trees

namespace ReversePolish

namespace Expr

/-! ### Leaves -/

/-- What stands right below the root. -/
def children : Expr → List Expr
  | num _ => []
  | sign _ operand => [operand]
  | bin left _ right => [left, right]
  | call _ args => args

mutual

/-- The nodes of a tree stand on as many levels as the tree has. -/
theorem lt_of_mem_nodesFrom {node : Nat × Expr} : (e : Expr) → (level : Nat) →
    node ∈ e.nodesFrom level → node.1 < level + e.depth
  | num n, level, h => by
      rw [List.mem_singleton.mp h]
      exact Nat.lt_succ_self level
  | sign s operand, level, h => by
      rw [depth]
      rcases List.mem_cons.mp h with rfl | h
      · show level < _
        omega
      · have hlt := lt_of_mem_nodesFrom operand (level + 1) h
        omega
  | bin left op right, level, h => by
      rw [depth]
      rcases List.mem_cons.mp h with rfl | h
      · show level < _
        omega
      · rcases List.mem_append.mp h with h | h
        · have hlt := lt_of_mem_nodesFrom left (level + 1) h
          omega
        · have hlt := lt_of_mem_nodesFrom right (level + 1) h
          omega
  | call f args, level, h => by
      rw [depth]
      rcases List.mem_cons.mp h with rfl | h
      · show level < _
        omega
      · have hlt := lt_of_mem_nodesOfArgs args (level + 1) h
        omega

theorem lt_of_mem_nodesOfArgs {node : Nat × Expr} : (as : List Expr) → (level : Nat) →
    node ∈ nodesOfArgs level as → node.1 < level + depthOfArgs as
  | [], _, h => absurd h List.not_mem_nil
  | a :: as, level, h => by
      rw [depthOfArgs]
      rcases List.mem_append.mp h with h | h
      · have hlt := lt_of_mem_nodesFrom a level h
        omega
      · have hlt := lt_of_mem_nodesOfArgs as level h
        omega

end

/-- Every tree has a leaf, since going down to the first child comes to an end. -/
theorem exists_leaf : (e : Expr) → (level : Nat) →
    ∃ node ∈ e.nodesFrom level, node.2.children = []
  | num n, level => ⟨(level, num n), List.mem_singleton_self _, rfl⟩
  | sign s operand, level => by
      obtain ⟨node, hmem, hleaf⟩ := exists_leaf operand (level + 1)
      exact ⟨node, List.mem_cons_of_mem _ hmem, hleaf⟩
  | bin left op right, level => by
      obtain ⟨node, hmem, hleaf⟩ := exists_leaf left (level + 1)
      exact ⟨node, List.mem_cons_of_mem _ (List.mem_append_left _ hmem), hleaf⟩
  | call f [], level => ⟨(level, call f []), List.mem_cons_self, rfl⟩
  | call f (a :: as), level => by
      obtain ⟨node, hmem, hleaf⟩ := exists_leaf a (level + 1)
      exact ⟨node, List.mem_cons_of_mem _ (List.mem_append_left _ hmem), hleaf⟩

end Expr

namespace Builtin

theorem arity_pos (f : Builtin) : 0 < f.arity := by
  cases f <;> decide

end Builtin

namespace Config

variable {c : Config}

theorem Allows.exists_eq_num {level : Nat} {node : Expr} (h : c.Allows level node)
    (hleaf : node.children = []) : ∃ n, node = .num n := by
  cases node with
  | num n => exact ⟨n, rfl⟩
  | sign s operand => exact absurd hleaf (List.cons_ne_nil _ _)
  | bin left op right => exact absurd hleaf (List.cons_ne_nil _ _)
  | call name args =>
      obtain ⟨f, -, harity⟩ := h.eq_call name args rfl
      have hpos := f.arity_pos
      rw [← harity, show args = [] from hleaf] at hpos
      exact absurd hpos (Nat.lt_irrefl 0)

/-- **Where numbers have no weight, the leaves are what stands on the deepest level.** -/
theorem Admissible.children_eq_nil_iff (hnumber : c.weights.number = 0) {e : Expr}
    (h : c.Admissible 0 e) {node : Nat × Expr} (hmem : node ∈ e.nodesFrom 0) :
    node.2.children = [] ↔ node.1 = c.maxDepth.toNat := by
  have hallows := h.allows node hmem
  constructor
  · intro hleaf
    obtain ⟨n, hn⟩ := hallows.exists_eq_num hleaf
    have hle : c.maxDepth.toNat ≤ node.1 := by
      by_contra hlt
      have hweight := hallows.weight_pos (Nat.lt_of_not_le hlt)
      rw [hn, show c.weights.weight (Expr.num n).kind = 0 from hnumber] at hweight
      exact absurd hweight (by decide)
    have hlevel := Expr.lt_of_mem_nodesFrom e 0 hmem
    have hdepth := h.depth_le (Nat.zero_le _)
    omega
  · intro hlevel
    obtain ⟨n, hn⟩ := hallows.eq_num (Nat.le_of_eq hlevel.symm)
    rw [hn]
    rfl

theorem Admissible.depth_eq (hnumber : c.weights.number = 0) {e : Expr} (h : c.Admissible 0 e) :
    e.depth = c.maxDepth.toNat + 1 := by
  obtain ⟨leaf, hmem, hleaf⟩ := e.exists_leaf 0
  have hlevel := (h.children_eq_nil_iff hnumber hmem).mp hleaf
  have hlt := Expr.lt_of_mem_nodesFrom e 0 hmem
  have hle := h.depth_le (Nat.zero_le _)
  omega

end Config

namespace Generator

/--
**If numbers have no weight, all branches of a tree go down to the deepest level.**

A node is a leaf exactly if it stands on that level, and then it is a number.  This is so for
every tree that a session gives, whatever the source of randomness is.
-/
theorem session_trees_full {σ : Type} [Source σ] {g : Generator}
    (hnumber : g.config.weights.number = 0) {requests : List Request} {s s' : σ}
    {replies : List (Reply × σ)} (hrun : g.session requests s = some (replies, s')) {e : Expr}
    {left : σ} (he : (.tree e, left) ∈ replies) :
    (∀ node ∈ e.nodesFrom 0,
      (node.2.children = [] ↔ node.1 = g.config.maxDepth.toNat) ∧
        (node.2.children = [] → ∃ n, node.2 = .num n)) ∧
      e.depth = g.config.maxDepth.toNat + 1 := by
  obtain ⟨r, -, hgives⟩ := exists_of_mem_session (Draw.gives_of_eq_some hrun) _ he
  have hadm := admissible_of_gives_tree (gives_tree_of_answer hgives)
  refine ⟨fun node hnode => ⟨hadm.children_eq_nil_iff hnumber hnode, ?_⟩, hadm.depth_eq hnumber⟩
  exact (hadm.allows node hnode).exists_eq_num

/-- A generator for two levels of operators and calls above the numbers. -/
def twoLevels : Generator where
  config := { maxDepth := 2, weights := { number := 0 } }
  total_pos := by decide

/-- A call, with a sign in one argument and a sum in the other. -/
theorem session_trees_full_call :
    twoLevels.config.weights.number = 0 ∧
      twoLevels.session [.tree] (Script.ofWords
          [4294967295, 12297829382473034411, 0, 0, 660764200, 9223372036854775808, 0])
        = some ([(.tree (.call "POW" [.sign .minus (.num 0), .bin (.num 5) .add (.num 0)]),
            ⟨[], 7⟩)], ⟨[], 7⟩) ∧
      (∀ node ∈ (Expr.call "POW" [.sign .minus (.num 0), .bin (.num 5) .add (.num 0)]).nodesFrom 0,
        (node.2.children = [] ↔ node.1 = 2) ∧ (node.2.children = [] → ∃ n, node.2 = .num n)) ∧
      (Expr.call "POW" [.sign .minus (.num 0), .bin (.num 5) .add (.num 0)]).depth = 3 := by
  have hrun : twoLevels.session [.tree] (Script.ofWords
      [4294967295, 12297829382473034411, 0, 0, 660764200, 9223372036854775808, 0])
        = some ([(.tree (.call "POW" [.sign .minus (.num 0), .bin (.num 5) .add (.num 0)]),
            ⟨[], 7⟩)], ⟨[], 7⟩) := by decide +kernel
  exact ⟨rfl, hrun, session_trees_full rfl hrun List.mem_cons_self⟩

end Generator

end ReversePolish
