/-
Which call the check of arities reports.

The check goes through a tree and comes back with the first wrong call that it meets,
without looking at the rest.  `calls` is the same tree as a list of its calls, each with
the number of its arguments, in the order in which one reads them: a call before the
calls in its arguments, and operands and arguments from left to right.  Going through
the tree is searching this list (`arityFault?_eq_findSome?`), so there is no place in a
tree where a wrong call could hide, and of several the first is reported.

What is asked of one call is in `signatures`, a table that the check does not read.  A
name stands for the function of an entry if the two are the same once their capitals are
written small, and only ASCII has capitals here.
-/
import ReversePolish.Expr.Arity

namespace ReversePolish

/-! ### Capitals and small letters -/

theorem toNat_toLower (c : Char) :
    c.toLower.toNat = if 65 ≤ c.toNat ∧ c.toNat ≤ 90 then c.toNat + 32 else c.toNat := by
  unfold Char.toLower
  split
  case isTrue h =>
    obtain ⟨hlow, hhigh⟩ : 65 ≤ c.toNat ∧ c.toNat ≤ 90 := h
    rw [if_pos ⟨hlow, hhigh⟩]
    show (c.val + 32).toNat = c.toNat + 32
    rw [UInt32.toNat_add]
    show (c.toNat + 32) % 4294967296 = c.toNat + 32
    omega
  case isFalse h => exact (if_neg h).symm

theorem toNat_toUpper (c : Char) :
    c.toUpper.toNat = if 97 ≤ c.toNat ∧ c.toNat ≤ 122 then c.toNat - 32 else c.toNat := by
  unfold Char.toUpper
  split
  case isTrue h =>
    obtain ⟨hlow, hhigh⟩ : 97 ≤ c.toNat ∧ c.toNat ≤ 122 := h
    rw [if_pos ⟨hlow, hhigh⟩]
    -- A difference of two letters, which wraps around.
    show (c.val + 4294967264).toNat = c.toNat - 32
    rw [UInt32.toNat_add]
    show (c.toNat + 4294967264) % 4294967296 = c.toNat - 32
    omega
  case isFalse h => exact (if_neg h).symm

/-- It makes no difference whether the capitals are written small or the small letters as
capitals. -/
theorem toLower_eq_iff {c d : Char} (hd : d.toUpper = d) :
    c.toLower = d.toLower ↔ d = c.toUpper := by
  rw [← Char.toNat_inj, toNat_toUpper] at hd
  rw [← Char.toNat_inj, ← Char.toNat_inj, toNat_toLower, toNat_toLower, toNat_toUpper]
  grind

theorem map_toLower_eq_iff {cs ds : List Char} (hds : ds.map Char.toUpper = ds) :
    cs.map Char.toLower = ds.map Char.toLower ↔ ds = cs.map Char.toUpper := by
  induction cs generalizing ds with
  | nil => simp
  | cons c cs ih =>
      cases ds with
      | nil => simp
      | cons d ds =>
          obtain ⟨hd, hds⟩ := List.cons.inj hds
          simp only [List.map_cons, List.cons.injEq, toLower_eq_iff hd, ih hds]

theorem isAlpha_of_isUpper_toUpper {c : Char} (h : c.toUpper.isUpper = true) :
    c.isAlpha = true := by
  refine Bool.or_eq_true_iff.mpr ?_
  by_cases hlower : 'a'.val ≤ c.val ∧ c.val ≤ 'z'.val
  · obtain ⟨hlow, hhigh⟩ := hlower
    exact Or.inr (Bool.and_eq_true_iff.mpr ⟨decide_eq_true hlow, decide_eq_true hhigh⟩)
  · have hsame : c.toUpper = c := dif_neg hlower
    rw [hsame] at h
    exact Or.inl h

/-! ### Names -/

namespace Builtin

theorem mem_all (f : Builtin) : f ∈ all := by cases f <;> decide

theorem eq_of_name_eq {f g : Builtin} (h : f.name.toList = g.name.toList) : f = g := by
  have hall : ∀ f ∈ all, ∀ g ∈ all, f.name.toList = g.name.toList → f = g := by decide
  exact hall f f.mem_all g g.mem_all h

/-- The name is the function's own, but for the case of its letters. -/
def IsNamed (f : Builtin) (ident : String) : Prop := ident.toLower = f.name.toLower

theorem toList_toLower (s : String) : s.toLower.toList = s.toList.map Char.toLower :=
  String.toList_map

theorem map_toUpper_name (f : Builtin) : f.name.toList.map Char.toUpper = f.name.toList := by
  cases f <;> decide

theorem isNamed_iff {f : Builtin} {ident : String} :
    f.IsNamed ident ↔ f.name.toList = ident.toList.map Char.toUpper := by
  rw [IsNamed, ← String.toList_inj, toList_toLower, toList_toLower,
    map_toLower_eq_iff f.map_toUpper_name]

/-- **A name is looked up as the one function that it names.** -/
theorem ofName?_eq_some_iff {f : Builtin} {ident : String} :
    ofName? ident = some f ↔ f.IsNamed ident := by
  have hfound {g : Builtin} (h : ofName? ident = some g) :
      g.name.toList = ident.toList.map Char.toUpper := by
    have hpasses := List.find?_some h
    exact of_decide_eq_true hpasses
  rw [isNamed_iff]
  refine ⟨hfound, fun h => ?_⟩
  cases hg : ofName? ident with
  | none =>
      rw [ofName?, List.find?_eq_none] at hg
      exact absurd (decide_eq_true h) (hg f f.mem_all)
  | some g => rw [eq_of_name_eq ((hfound hg).trans h.symm)]

end Builtin

namespace Expr

/-! ### One call -/

/-- The built-in functions with the numbers of their arguments. -/
def signatures : List (String × Nat) :=
  [("SIN", 1), ("COS", 1), ("EXP", 1), ("LN", 1), ("POW", 2), ("IFF", 3)]

theorem mem_signatures_iff {s : String × Nat} :
    s ∈ signatures ↔ ∃ f : Builtin, s = (f.name, f.arity) := by
  have htable : signatures = Builtin.all.map fun f => (f.name, f.arity) := rfl
  rw [htable, List.mem_map]
  constructor
  · rintro ⟨f, -, hf⟩
    exact ⟨f, hf.symm⟩
  · rintro ⟨f, hf⟩
    exact ⟨f, f.mem_all, hf.symm⟩

/-- The call is wrong, and this is what there is to say about it. -/
def IsWrong (call : String × Nat) (fault : ArityFault) : Prop :=
  ∃ s ∈ signatures, call.1.toLower = s.1.toLower ∧ call.2 ≠ s.2 ∧ fault = ⟨call.1, s.2, call.2⟩

/-- A call is right if it has as many arguments as any function of its name takes. -/
def IsRight (call : String × Nat) : Prop :=
  ∀ s ∈ signatures, call.1.toLower = s.1.toLower → call.2 = s.2

theorem isWrong_iff {call : String × Nat} {fault : ArityFault} :
    IsWrong call fault ↔ ∃ f : Builtin, f.IsNamed call.1 ∧ f.arity ≠ call.2 ∧
      fault = ⟨call.1, f.arity, call.2⟩ := by
  constructor
  · rintro ⟨s, hs, hname, hcount, hfault⟩
    obtain ⟨f, rfl⟩ := mem_signatures_iff.mp hs
    exact ⟨f, hname, hcount.symm, hfault⟩
  · rintro ⟨f, hname, hcount, hfault⟩
    exact ⟨_, mem_signatures_iff.mpr ⟨f, rfl⟩, hname, hcount.symm, hfault⟩

theorem isRight_iff {call : String × Nat} : IsRight call ↔ ∀ fault, ¬ IsWrong call fault := by
  constructor
  · rintro h fault ⟨s, hs, hname, hcount, -⟩
    exact hcount (h s hs hname)
  · intro h s hs hname
    exact Decidable.byContradiction fun hcount => h _ ⟨s, hs, hname, hcount, rfl⟩

theorem callFault?_eq_some_iff {call : String × Nat} {fault : ArityFault} :
    callFault? call.1 call.2 = some fault ↔ IsWrong call fault := by
  rw [isWrong_iff, callFault?]
  cases hf : Builtin.ofName? call.1 with
  | none =>
      refine ⟨nofun, ?_⟩
      rintro ⟨f, hname, -⟩
      rw [Builtin.ofName?_eq_some_iff.mpr hname] at hf
      exact absurd hf nofun
  | some f =>
      have hunique : ∀ g : Builtin, g.IsNamed call.1 ↔ g = f := by
        intro g
        rw [← Builtin.ofName?_eq_some_iff, hf, Option.some_inj, eq_comm]
      simp only [hunique, exists_eq_left]
      split
      case isTrue heq => simp [heq]
      case isFalse hne => simp [hne, eq_comm]

theorem callFault?_eq_none_iff {call : String × Nat} :
    callFault? call.1 call.2 = none ↔ IsRight call := by
  rw [isRight_iff, Option.eq_none_iff_forall_ne_some]
  exact forall_congr' fun fault => not_congr callFault?_eq_some_iff

/-! ### All calls -/

mutual

/-- The calls of a tree, each with its name and the number of its arguments. -/
def calls : Expr → List (String × Nat)
  | num _ => []
  | sign _ operand => operand.calls
  | bin left _ right => left.calls ++ right.calls
  | call f args => (f, args.length) :: callsOfArgs args

/-- The calls of the arguments, from left to right. -/
def callsOfArgs : List Expr → List (String × Nat)
  | [] => []
  | a :: as => a.calls ++ callsOfArgs as

end

mutual

/-- **The check is a search in the calls of the tree.** -/
theorem arityFault?_eq_findSome? :
    (e : Expr) → e.arityFault? = e.calls.findSome? fun c => callFault? c.1 c.2
  | num _ => rfl
  | sign _ operand => arityFault?_eq_findSome? operand
  | bin left _ right => by
      rw [arityFault?, calls, List.findSome?_append, arityFault?_eq_findSome? left,
        arityFault?_eq_findSome? right]
  | call f args => by
      rw [arityFault?, calls, List.findSome?_cons, arityFaultOfArgs?_eq_findSome? args]
      cases callFault? f args.length <;> rfl

theorem arityFaultOfArgs?_eq_findSome? :
    (as : List Expr) → arityFaultOfArgs? as = (callsOfArgs as).findSome? fun c => callFault? c.1 c.2
  | [] => rfl
  | a :: as => by
      rw [arityFaultOfArgs?, callsOfArgs, List.findSome?_append, arityFault?_eq_findSome? a,
        arityFaultOfArgs?_eq_findSome? as]

end

theorem arityFault?_eq_none_iff {e : Expr} :
    e.arityFault? = none ↔ ∀ call ∈ e.calls, IsRight call := by
  rw [arityFault?_eq_findSome?, List.findSome?_eq_none_iff]
  exact forall₂_congr fun call _ => callFault?_eq_none_iff

theorem arityFault?_eq_some_iff {e : Expr} {fault : ArityFault} :
    e.arityFault? = some fault ↔ ∃ before call behind, e.calls = before ++ call :: behind ∧
      (∀ c ∈ before, IsRight c) ∧ IsWrong call fault := by
  simp only [arityFault?_eq_findSome?, List.findSome?_eq_some_iff, callFault?_eq_some_iff,
    callFault?_eq_none_iff, and_comm]

/--
**A tree is valid exactly if all its calls are right, and else the first wrong one is reported.**

Which calls there are and what their names have in them makes no difference: a call whose
name is not that of a built-in function is right, whatever its arguments are, and the calls in
them are among the calls of the tree like all others.
-/
theorem validate_iff (e : Expr) :
    (e.validate = .ok () ↔ ∀ call ∈ e.calls, IsRight call) ∧
      ∀ fault, e.validate = .error fault ↔
        ∃ before call behind, e.calls = before ++ call :: behind ∧
          (∀ c ∈ before, IsRight c) ∧ IsWrong call fault := by
  refine ⟨?_, fun fault => ?_⟩
  · rw [validate_eq_ok_iff, arityFault?_eq_none_iff]
  · rw [validate_eq_error_iff, arityFault?_eq_some_iff]

/-- The wrong call is in an argument of a call that is not built in, right of one that is right. -/
example :
    (Expr.call "f" [.bin (.call "Sin" [.num 1]) .add (.sign .minus (.call "poW" [.num 2]))]).validate
      = .error ⟨"poW", 2, 1⟩ := rfl

end Expr

end ReversePolish
