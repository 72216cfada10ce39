import ExprLang.Proofs.OperatorTrees
import ExprLang.Proofs.OtherPowers
import ExprLang.Proofs.ParserSessions

/-!
# Operations under Registered Powers

A client may register other powers for the operators.  Whatever the powers are, the operations after
an operand are read up to the first operator that binds less tightly than asked for, and grouped as
the powers admit.  Powers registered for other tokens have no effect.
-/

namespace ExprLang

variable {registrations registrations' : List (TokenKind × BindingPower)}

namespace Parser

/-- From the first parser to the second stand operators, and after each of them a primary expression
that is read as the operand of its pair. -/
inductive ReadsPairs : Parser → List OperatorPair → Parser → Prop
  | nil {parser : Parser} : ReadsPairs parser [] parser
  | cons {parser middle stop : Parser} {operator : BinaryOperator} {operand : Expr}
      {pairs : List OperatorPair} : parser.current.kind = .char operator.symbol →
      (discard advance >>= fun _ ↦ primary) parser = .ok (some operand) middle →
      ReadsPairs middle pairs stop → ReadsPairs parser ((operator, operand) :: pairs) stop

namespace ReadsPairs

variable {parser stop : Parser} {pairs pairs' : List OperatorPair}

theorem exists_of_append (h : ReadsPairs parser (pairs ++ pairs') stop) :
    ∃ middle, ReadsPairs parser pairs middle ∧ ReadsPairs middle pairs' stop := by
  induction pairs generalizing parser with
  | nil => exact ⟨parser, .nil, h⟩
  | cons pair pairs ih =>
    cases h with
    | cons hkind hoperand hrest =>
      obtain ⟨middle, hpairs, hpairs'⟩ := ih hrest
      exact ⟨middle, .cons hkind hoperand hpairs, hpairs'⟩

theorem kind_eq {pair : OperatorPair} (h : ReadsPairs parser (pair :: pairs) stop) :
    parser.current.kind = .char pair.1.symbol := by
  cases h with
  | cons hkind => exact hkind

end ReadsPairs

section

variable {power : BinaryOperator → BindingPower} {least : BindingPower} {parser stop : Parser}

end

end Parser

/-! ## Primary expressions under registered powers -/

namespace Parser

end Parser

end ExprLang
