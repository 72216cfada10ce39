import ExprLang.Proofs.Grouping

/-!
# Trees of Operators

A sequence of operands with operators between them has many trees.  Whatever the powers of the
operators are, they admit exactly one of them: the operator on top of a left operand binds at least
as tightly as the operator above it, and the operator on top of a right operand binds more tightly.
The operands are not looked into, so an operator inside of one has no say.
-/

namespace ExprLang

/-- An operator and the operand after it. -/
abbrev OperatorPair := BinaryOperator × Expr

/-- Operators above operands. -/
inductive OperatorTree where
  | leaf (operand : Expr)
  | node (operator : BinaryOperator) (left right : OperatorTree)

namespace OperatorTree

def expr : OperatorTree → Expr
  | leaf operand => operand
  | node operator left right => .binary operator left.expr right.expr

/-- The leftmost operand. -/
def first : OperatorTree → Expr
  | leaf operand => operand
  | node _ left _ => left.first

/-- The operators from left to right, each with the operand after it. -/
def pairs : OperatorTree → List OperatorPair
  | leaf _ => []
  | node operator left right => left.pairs ++ (operator, right.first) :: right.pairs

/-- The operator on top. -/
def root? : OperatorTree → Option BinaryOperator
  | leaf _ => none
  | node operator _ _ => some operator

variable (power : BinaryOperator → BindingPower)

/-- The tree is as the powers of the operators ask for. -/
def Respects : OperatorTree → Prop
  | leaf _ => True
  | node operator left right =>
    (∀ top ∈ left.root?, (power operator).rank ≤ (power top).rank) ∧
      (∀ top ∈ right.root?, (power operator).rank < (power top).rank) ∧
        left.Respects ∧ right.Respects

variable {power}

/-- No operator of a tree binds less tightly than the one on top. -/
theorem Respects.le_rank {tree : OperatorTree} (h : tree.Respects power) {least : Nat}
    (hroot : ∀ top ∈ tree.root?, least ≤ (power top).rank) :
    ∀ pair ∈ tree.pairs, least ≤ (power pair.1).rank := by
  induction tree with
  | leaf operand => exact fun pair hpair ↦ absurd hpair List.not_mem_nil
  | node operator left right ihleft ihright =>
    obtain ⟨hleft, hright, hrespects, hrespects'⟩ := h
    have hleast : least ≤ (power operator).rank := hroot operator rfl
    rw [pairs, List.forall_mem_append, List.forall_mem_cons]
    refine ⟨?_, hleast, ?_⟩
    · exact ihleft hrespects fun top htop ↦ Nat.le_trans hleast (hleft top htop)
    · exact ihright hrespects' fun top htop ↦
        Nat.le_trans hleast (Nat.le_of_lt (hright top htop))

/-- The left operand of an operator binds at least as tightly all through. -/
theorem Respects.le_rank_left {operator : BinaryOperator} {left right : OperatorTree}
    (h : (node operator left right).Respects power) :
    ∀ pair ∈ left.pairs, (power operator).rank ≤ (power pair.1).rank :=
  h.2.2.1.le_rank h.1

theorem Respects.lt_rank_right {operator : BinaryOperator} {left right : OperatorTree}
    (h : (node operator left right).Respects power) :
    ∀ pair ∈ right.pairs, (power operator).rank < (power pair.1).rank :=
  h.2.2.2.le_rank h.2.1

/-- The operator on top of a tree cannot stand further right in a second one over the same
sequence. -/
theorem eq_nil_of_pairs_eq {operator operator' : BinaryOperator}
    {left left' right right' : OperatorTree}
    (h : (node operator left right).Respects power)
    (h' : (node operator' left' right').Respects power) {between : List OperatorPair}
    (hleft : left'.pairs = left.pairs ++ between)
    (hright : (operator, right.first) :: right.pairs =
      between ++ (operator', right'.first) :: right'.pairs) : between = [] := by
  cases between with
  | nil => rfl
  | cons pair between =>
    obtain ⟨rfl, hpairs⟩ := List.cons.inj hright
    have hle : (power operator').rank ≤ (power operator).rank :=
      h'.le_rank_left (operator, right.first) (by simp [hleft])
    have hlt : (power operator).rank < (power operator').rank :=
      h.lt_rank_right (operator', right'.first) (by simp [hpairs])
    omega

/-- The powers admit at most one tree over a sequence. -/
theorem eq_of_respects {tree tree' : OperatorTree} (h : tree.Respects power)
    (h' : tree'.Respects power) (hfirst : tree.first = tree'.first)
    (hpairs : tree.pairs = tree'.pairs) : tree = tree' := by
  induction tree generalizing tree' with
  | leaf operand =>
    cases tree' with
    | leaf operand' => exact congrArg leaf hfirst
    | node operator' left' right' => simp [pairs] at hpairs
  | node operator left right ihleft ihright =>
    cases tree' with
    | leaf operand' => simp [pairs] at hpairs
    | node operator' left' right' =>
      have hsplit : left.pairs = left'.pairs ∧
          (operator, right.first) :: right.pairs = (operator', right'.first) :: right'.pairs := by
        rcases List.append_eq_append_iff.mp hpairs with
          ⟨between, hleft, hright⟩ | ⟨between, hleft, hright⟩
        · obtain rfl := eq_nil_of_pairs_eq h h' hleft hright
          exact ⟨by rw [hleft, List.append_nil], hright⟩
        · obtain rfl := eq_nil_of_pairs_eq h' h hleft hright
          exact ⟨by rw [hleft, List.append_nil], hright.symm⟩
      obtain ⟨hleft, hright⟩ := hsplit
      obtain ⟨hpair, hrest⟩ := List.cons.inj hright
      obtain ⟨rfl, hfirst'⟩ := Prod.mk.inj hpair
      rw [ihleft h.2.2.1 h'.2.2.1 hfirst hleft, ihright h.2.2.2 h'.2.2.2 hfirst' hrest]

variable (power) in
/-- The tree has the operands and operators of a sequence in their order and respects the powers. -/
structure IsTreeOf (first : Expr) (pairs : List OperatorPair) (tree : OperatorTree) : Prop where
  first : tree.first = first
  pairs : tree.pairs = pairs
  respects : tree.Respects power

theorem IsTreeOf.unique {first : Expr} {pairs : List OperatorPair} {tree tree' : OperatorTree}
    (h : tree.IsTreeOf power first pairs) (h' : tree'.IsTreeOf power first pairs) : tree = tree' :=
  eq_of_respects h.respects h'.respects (h.first.trans h'.first.symm) (h.pairs.trans h'.pairs.symm)

end OperatorTree

/-- The operation that a pair is under the powers. -/
def OperatorPair.operation (power : BinaryOperator → BindingPower) (pair : OperatorPair) :
    Operation :=
  ⟨pair.1, power pair.1, pair.2⟩

open OperatorTree

variable {power : BinaryOperator → BindingPower}

end ExprLang
