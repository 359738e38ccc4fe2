/-
The trees that a configuration admits.

Above the deepest level a node may be of any kind that has a weight, and on the deepest
level there are only numbers.  `Admissible` says so from the root downwards, a tree at a
level being made of trees at the next one, and `Allows` says it of one node at its level;
a tree is admissible only if each of its nodes is allowed where it stands
(`Admissible.allows`).

An admissible tree is not too deep, and its calls are right: their names are those of
built-in functions, which are identifiers, and they have as many arguments as the functions
take.  So the tree is valid, and its infix notation converts to its reverse Polish notation.
-/
import ReversePolish.Config
import ReversePolish.Expr.Arity
import ReversePolish.Proofs.Expr.Readable

namespace ReversePolish

namespace Expr

/-! ### The nodes of a tree -/

/-- The kind of the node at the root. -/
def kind : Expr → NodeKind
  | num _ => .number
  | sign s _ => .sign s
  | bin _ op _ => .bin op
  | call _ _ => .call

mutual

/-- The nodes of a tree whose root is at `level`, each with its own level and with the tree that it
is the root of. -/
def nodesFrom (level : Nat) : Expr → List (Nat × Expr)
  | num n => [(level, num n)]
  | sign s operand => (level, sign s operand) :: operand.nodesFrom (level + 1)
  | bin left op right =>
    (level, bin left op right) :: (left.nodesFrom (level + 1) ++ right.nodesFrom (level + 1))
  | call f args => (level, call f args) :: nodesOfArgs (level + 1) args

/-- The nodes of the arguments of a call. -/
def nodesOfArgs (level : Nat) : List Expr → List (Nat × Expr)
  | [] => []
  | a :: as => a.nodesFrom level ++ nodesOfArgs level as

end

/-! ### Arguments one by one -/

theorem depthOfArgs_le {n : Nat} {args : List Expr} (h : ∀ a ∈ args, a.depth ≤ n) :
    depthOfArgs args ≤ n := by
  induction args with
  | nil => exact Nat.zero_le n
  | cons a as ih =>
      obtain ⟨ha, has⟩ := List.forall_mem_cons.mp h
      exact Nat.max_le.mpr ⟨ha, ih has⟩

theorem nodesOfArgs_eq_flatMap (level : Nat) (args : List Expr) :
    nodesOfArgs level args = args.flatMap (nodesFrom level) := by
  induction args with
  | nil => rfl
  | cons a as ih => rw [nodesOfArgs, ih, List.flatMap_cons]

theorem callNamesOfArgs_eq_flatMap (args : List Expr) :
    callNamesOfArgs args = args.flatMap callNames := by
  induction args with
  | nil => rfl
  | cons a as ih => rw [callNamesOfArgs, ih, List.flatMap_cons]

theorem arityFaultOfArgs?_eq_none {args : List Expr} (h : ∀ a ∈ args, a.arityFault? = none) :
    arityFaultOfArgs? args = none := by
  induction args with
  | nil => rfl
  | cons a as ih =>
      obtain ⟨ha, has⟩ := List.forall_mem_cons.mp h
      rw [arityFaultOfArgs?, ha, ih has]
      rfl

end Expr

namespace Builtin

theorem isIdentifier_name (f : Builtin) : Token.isIdentifier f.name.toList = true := by
  cases f <;> decide

theorem callFault?_name (f : Builtin) : Expr.callFault? f.name f.arity = none := by
  cases f <;> decide

end Builtin

namespace Config

/-- The trees that may stand at a level. -/
inductive Admissible (c : Config) : Nat → Expr → Prop
  | deepest {level n : Nat} (hlevel : c.maxDepth.toNat ≤ level) (hn : n ≤ c.maxNumber.toNat) :
      Admissible c level (.num n)
  | number {level n : Nat} (hlevel : level < c.maxDepth.toNat)
      (hweight : 0 < c.weights.weight .number) (hn : n ≤ c.maxNumber.toNat) :
      Admissible c level (.num n)
  | sign (s : Sign) {level : Nat} {operand : Expr} (hlevel : level < c.maxDepth.toNat)
      (hweight : 0 < c.weights.weight (.sign s)) (h : Admissible c (level + 1) operand) :
      Admissible c level (.sign s operand)
  | bin (op : BinOp) {level : Nat} {left right : Expr} (hlevel : level < c.maxDepth.toNat)
      (hweight : 0 < c.weights.weight (.bin op)) (hl : Admissible c (level + 1) left)
      (hr : Admissible c (level + 1) right) : Admissible c level (.bin left op right)
  | call (f : Builtin) {level : Nat} {args : List Expr} (hlevel : level < c.maxDepth.toNat)
      (hweight : 0 < c.weights.weight .call) (harity : args.length = f.arity)
      (h : ∀ a ∈ args, Admissible c (level + 1) a) : Admissible c level (.call f.name args)

/-- What the configuration asks of a node at a level. -/
structure Allows (c : Config) (level : Nat) (node : Expr) : Prop where
  /-- Above the deepest level its kind has a weight. -/
  weight_pos : level < c.maxDepth.toNat → 0 < c.weights.weight node.kind
  /-- On the deepest level it is a number. -/
  eq_num : c.maxDepth.toNat ≤ level → ∃ n, node = .num n
  /-- If it is a number, then it is not too large. -/
  le_maxNumber : ∀ n, node = .num n → n ≤ c.maxNumber.toNat
  /-- If it is a call, then of a built-in function, with as many arguments as that one takes. -/
  eq_call : ∀ name args, node = .call name args →
    ∃ f : Builtin, name = f.name ∧ args.length = f.arity

namespace Admissible

variable {c : Config} {level : Nat} {e : Expr}

/-- The root of an admissible tree is allowed. -/
theorem allows_root (h : c.Admissible level e) : c.Allows level e := by
  cases h with
  | deepest hlevel hn =>
      refine ⟨fun hlt => absurd hlt (Nat.not_lt.mpr hlevel), fun _ => ⟨_, rfl⟩, ?_, nofun⟩
      rintro n ⟨⟩
      exact hn
  | number hlevel hweight hn =>
      refine ⟨fun _ => hweight, fun _ => ⟨_, rfl⟩, ?_, nofun⟩
      rintro n ⟨⟩
      exact hn
  | sign s hlevel hweight h =>
      exact ⟨fun _ => hweight, fun hle => absurd hlevel (Nat.not_lt.mpr hle), nofun, nofun⟩
  | bin op hlevel hweight hl hr =>
      exact ⟨fun _ => hweight, fun hle => absurd hlevel (Nat.not_lt.mpr hle), nofun, nofun⟩
  | call f hlevel hweight harity h =>
      refine ⟨fun _ => hweight, fun hle => absurd hlevel (Nat.not_lt.mpr hle), nofun, ?_⟩
      rintro name args ⟨⟩
      exact ⟨f, rfl, harity⟩

/-- **Every node of an admissible tree is allowed at its level.** -/
theorem allows (h : c.Admissible level e) : ∀ node ∈ e.nodesFrom level, c.Allows node.1 node.2 := by
  induction h with
  | deepest hlevel hn =>
      intro node hnode
      rw [List.mem_singleton.mp hnode]
      exact (deepest hlevel hn).allows_root
  | number hlevel hweight hn =>
      intro node hnode
      rw [List.mem_singleton.mp hnode]
      exact (number hlevel hweight hn).allows_root
  | sign s hlevel hweight h ih =>
      intro node hnode
      rcases List.mem_cons.mp hnode with rfl | hnode
      · exact (sign s hlevel hweight h).allows_root
      · exact ih node hnode
  | bin op hlevel hweight hl hr ihl ihr =>
      intro node hnode
      rcases List.mem_cons.mp hnode with rfl | hnode
      · exact (bin op hlevel hweight hl hr).allows_root
      · rcases List.mem_append.mp hnode with hnode | hnode
        · exact ihl node hnode
        · exact ihr node hnode
  | call f hlevel hweight harity h ih =>
      intro node hnode
      rcases List.mem_cons.mp hnode with rfl | hnode
      · exact (call f hlevel hweight harity h).allows_root
      · rw [Expr.nodesOfArgs_eq_flatMap] at hnode
        obtain ⟨a, ha, hnode⟩ := List.mem_flatMap.mp hnode
        exact ih a ha node hnode

/-- An admissible tree goes down to the deepest level at most. -/
theorem depth_le (h : c.Admissible level e) (hle : level ≤ c.maxDepth.toNat) :
    level + e.depth ≤ c.maxDepth.toNat + 1 := by
  induction h with
  | deepest _ _ | number _ _ _ => exact Nat.succ_le_succ hle
  | sign s hlevel _ _ ih =>
      have hoperand := ih hlevel
      simp only [Expr.depth]
      omega
  | bin op hlevel _ _ _ ihl ihr =>
      have hleft := ihl hlevel
      have hright := ihr hlevel
      simp only [Expr.depth]
      omega
  | @call f level args hlevel _ _ _ ih =>
      have hargs : Expr.depthOfArgs args ≤ c.maxDepth.toNat - level := by
        refine Expr.depthOfArgs_le fun a ha => ?_
        have ha := ih a ha hlevel
        omega
      simp only [Expr.depth]
      omega

theorem validate_eq_ok (h : c.Admissible level e) : e.validate = .ok () := by
  refine Expr.validate_eq_ok_iff.mpr ?_
  induction h with
  | deepest _ _ | number _ _ _ => rfl
  | sign s _ _ _ ih => exact ih
  | bin op _ _ _ _ ihl ihr =>
      rw [Expr.arityFault?, ihl, ihr]
      rfl
  | call f _ _ harity _ ih =>
      rw [Expr.arityFault?, harity, f.callFault?_name, Expr.arityFaultOfArgs?_eq_none ih]
      rfl

theorem isIdentifier_callNames (h : c.Admissible level e) :
    ∀ f ∈ e.callNames, Token.isIdentifier f.toList = true := by
  induction h with
  | deepest _ _ | number _ _ _ => exact fun f hf => absurd hf List.not_mem_nil
  | sign s _ _ _ ih => exact ih
  | bin op _ _ _ _ ihl ihr => exact List.forall_mem_append.mpr ⟨ihl, ihr⟩
  | call f _ _ _ _ ih =>
      refine List.forall_mem_cons.mpr ⟨f.isIdentifier_name, fun g hg => ?_⟩
      rw [Expr.callNamesOfArgs_eq_flatMap] at hg
      obtain ⟨a, ha, hg⟩ := List.mem_flatMap.mp hg
      exact ih a ha g hg

theorem toRpn_toInfix (h : c.Admissible level e) :
    toRpn .byPosition e.toInfix = .ok e.toRpn :=
  Expr.toRpn_byPosition_readable e 0 h.isIdentifier_callNames

end Admissible

end Config

end ReversePolish
