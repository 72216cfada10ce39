import ExprLang.Parser.Tables
import ExprLang.Tree
import Mathlib.Data.List.Induction

/-!
# Grouping by Precedence

Of the trees over one sequence of operands and operators precedence admits exactly one: every
operator in a left operand binds at least as tightly as the operator above it, and every operator in
a right operand binds more tightly.  The stack of open operations builds this tree.
-/

namespace ExprLang

/-- An operator with its power and the operand after it. -/
structure Operation where
  operator : BinaryOperator
  power : BindingPower
  operand : Expr

/-- An operation whose right operand is not complete. -/
structure OpenOperation where
  left : Expr
  operator : BinaryOperator
  power : BindingPower

namespace OpenOperation

/-- Completes the innermost open operations that bind at least as tightly as the given rank, with
the operand as the right operand of the first. -/
def close (rank : Nat) : List OpenOperation → Expr → List OpenOperation × Expr
  | [], operand => ([], operand)
  | inner :: outer, operand =>
    if rank ≤ inner.power.rank then
      close rank outer (.binary inner.operator inner.left operand)
    else (inner :: outer, operand)

end OpenOperation

namespace Operation

/-- The tree of an operand and the operations after it, within open operations, the innermost
first. -/
def assembleWithin : List OpenOperation → Expr → List Operation → Expr
  | stack, operand, [] => (OpenOperation.close 0 stack operand).2
  | stack, operand, operation :: rest =>
    let closed := OpenOperation.close operation.power.rank stack operand
    assembleWithin (⟨closed.2, operation.operator, operation.power⟩ :: closed.1)
      operation.operand rest

/-- The tree of an operand and the operations after it. -/
def assemble (first : Expr) (operations : List Operation) : Expr :=
  assembleWithin [] first operations

end Operation

/-- The tree of an operand and the operations after it, all of which have at least the given
rank. -/
inductive Groups : Nat → Expr → List Operation → Expr → Prop
  | operand {least : Nat} {first : Expr} : Groups least first [] first
  | binary {least : Nat} {first left right : Expr} {operations operations' : List Operation}
      {operation : Operation} : Groups operation.power.rank first operations left →
      least ≤ operation.power.rank →
      Groups (operation.power.rank + 1) operation.operand operations' right →
      Groups least first (operations ++ operation :: operations')
        (.binary operation.operator left right)

/-- The innermost open operation binds less tightly than the given rank. -/
def OpenBelow (rank : Nat) (stack : List OpenOperation) : Prop :=
  ∀ inner ∈ stack.head?, inner.power.rank < rank

/-- The next operation binds at most as tightly as the given rank. -/
def NextWithin (rank : Nat) (rest : List Operation) : Prop :=
  ∀ operation ∈ rest.head?, operation.power.rank ≤ rank

namespace OpenOperation

theorem close_of_openBelow {rank : Nat} {stack : List OpenOperation} (operand : Expr)
    (h : OpenBelow rank stack) : close rank stack operand = (stack, operand) := by
  cases stack with
  | nil => rfl
  | cons inner outer =>
    have hlt := h inner rfl
    rw [close, if_neg (by omega)]

theorem close_cons_of_le {rank : Nat} {inner : OpenOperation} (outer : List OpenOperation)
    (operand : Expr) (h : rank ≤ inner.power.rank) :
    close rank (inner :: outer) operand =
      close rank outer (.binary inner.operator inner.left operand) := by
  rw [close, if_pos h]

end OpenOperation

namespace Operation

/-- An open operation is completed by what follows it, if that binds no more tightly. -/
theorem assembleWithin_cons_of_nextWithin {inner : OpenOperation} (outer : List OpenOperation)
    (operand : Expr) {rest : List Operation} (h : NextWithin inner.power.rank rest) :
    assembleWithin (inner :: outer) operand rest =
      assembleWithin outer (.binary inner.operator inner.left operand) rest := by
  cases rest with
  | nil => simp only [assembleWithin, OpenOperation.close_cons_of_le outer operand (Nat.zero_le _)]
  | cons operation rest =>
    simp only [assembleWithin, OpenOperation.close_cons_of_le outer operand (h operation rfl)]

/-- Within open operations that bind less tightly a group is read as one operand. -/
theorem assembleWithin_of_groups {least : Nat} {first expr : Expr} {operations : List Operation}
    (h : Groups least first operations expr) {stack : List OpenOperation} {rest : List Operation}
    (hstack : OpenBelow least stack) (hrest : NextWithin least rest) :
    assembleWithin stack first (operations ++ rest) = assembleWithin stack expr rest := by
  induction h generalizing stack rest with
  | operand => rfl
  | @binary least first left right operations operations' operation _ hleast _ ihleft ihright =>
    have hbelow : OpenBelow operation.power.rank stack :=
      fun inner hinner ↦ Nat.lt_of_lt_of_le (hstack inner hinner) hleast
    have hwithin : NextWithin operation.power.rank rest :=
      fun next hnext ↦ Nat.le_trans (hrest next hnext) hleast
    have hnext : NextWithin operation.power.rank (operation :: (operations' ++ rest)) := by
      intro next hnext
      obtain rfl : operation = next := by simpa using hnext
      exact Nat.le_refl _
    rw [List.append_assoc, List.cons_append, ihleft hbelow hnext, assembleWithin,
      OpenOperation.close_of_openBelow left hbelow, ihright, assembleWithin_cons_of_nextWithin]
    · exact hwithin
    · intro inner hinner
      obtain rfl : _ = inner := by simpa using hinner
      exact Nat.lt_succ_self _
    · intro next hnext
      exact Nat.le_trans (hwithin next hnext) (Nat.le_succ _)

theorem assemble_of_groups {first expr : Expr} {operations : List Operation} {least : Nat}
    (h : Groups least first operations expr) : assemble first operations = expr := by
  have hstack : OpenBelow least [] := by simp [OpenBelow]
  have hrest : NextWithin least [] := by simp [NextWithin]
  have hassemble := assembleWithin_of_groups h hstack hrest
  rw [List.append_nil] at hassemble
  rw [assemble, hassemble]
  rfl

end Operation

namespace Groups

/-- One more operation takes its place on the right side of a tree. -/
theorem exists_concat {least : Nat} {first expr : Expr} {operations : List Operation}
    (h : Groups least first operations expr) (operation : Operation)
    (hleast : least ≤ operation.power.rank) :
    ∃ expr', Groups least first (operations ++ [operation]) expr' := by
  induction h with
  | operand => exact ⟨_, .binary .operand hleast .operand⟩
  | @binary least first left right operations operations' outer hleft hle hright _ ihright =>
    by_cases hrank : operation.power.rank ≤ outer.power.rank
    · exact ⟨_, .binary (.binary hleft hrank hright) hleast .operand⟩
    · obtain ⟨right', hright'⟩ := ihright (by omega)
      have htree := Groups.binary hleft hle hright'
      rw [List.append_assoc, List.cons_append]
      exact ⟨_, htree⟩

theorem exists_of_le {least : Nat} (first : Expr) {operations : List Operation}
    (h : ∀ operation ∈ operations, least ≤ operation.power.rank) :
    ∃ expr, Groups least first operations expr := by
  induction operations using List.reverseRecOn with
  | nil => exact ⟨first, .operand⟩
  | append_singleton operations operation ih =>
    rw [List.forall_mem_append, List.forall_mem_singleton] at h
    obtain ⟨expr, hgroups⟩ := ih h.1
    exact hgroups.exists_concat operation h.2

end Groups

namespace Operation

/-- The tree that the stack builds is the one that precedence admits. -/
theorem groups_assemble_of_le {least : Nat} (first : Expr) {operations : List Operation}
    (h : ∀ operation ∈ operations, least ≤ operation.power.rank) :
    Groups least first operations (assemble first operations) := by
  obtain ⟨expr, hgroups⟩ := Groups.exists_of_le first h
  rwa [assemble_of_groups hgroups]

theorem groups_assemble (first : Expr) (operations : List Operation) :
    Groups 0 first operations (assemble first operations) :=
  groups_assemble_of_le first fun _ _ ↦ Nat.zero_le _

end Operation

end ExprLang
