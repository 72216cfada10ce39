import ExprLang.Tree

/-!
# Equality of Trees

Two trees are equal when they have the same shape, operators and names and when the numbers at the
same places are equal as numbers.  A tree that holds a NaN is therefore not equal to itself.  Chains
of conditions are compared link by link.
-/

namespace ExprLang

namespace Expr

mutual

def beq : Expr → Expr → Bool
  | number x, number y => x == y
  | var x, var y => x == y
  | binary p l r, binary q l' r' => p == q && beq l l' && beq r r'
  | call f xs, call g ys => f == g && beqAll xs ys
  | _, _ => false

def beqAll : List Expr → List Expr → Bool
  | [], [] => true
  | x :: xs, y :: ys => beq x y && beqAll xs ys
  | _, _ => false

end

instance : BEq Expr := ⟨beq⟩

end Expr

namespace Stmt

mutual

def beq : Stmt → Stmt → Bool
  | expression x, expression y => x.beq y
  | compound ss, compound ts => beqAll ss ts
  | assignment xs x, assignment ys y => xs == ys && x.beq y
  | result x, result y => x.beq y
  | conditional c ss b, conditional d ts e => c.beq d && beqAll ss ts && beqBranch b e
  | loop v x y z ss, loop w x' y' z' ts =>
    v == w && x.beq x' && y.beq y' && z.beq z' && beqAll ss ts
  | _, _ => false

def beqAll : List Stmt → List Stmt → Bool
  | [], [] => true
  | s :: ss, t :: ts => beq s t && beqAll ss ts
  | _, _ => false

def beqBranch : ElseBranch → ElseBranch → Bool
  | .absent, .absent => true
  | .elseIf c ss b, .elseIf d ts e => c.beq d && beqAll ss ts && beqBranch b e
  | .block ss, .block ts => beqAll ss ts
  | _, _ => false

end

instance : BEq Stmt := ⟨beq⟩

end Stmt

instance : BEq Definition where
  beq d e := decide (d.prototype = e.prototype) && d.body == e.body

instance : BEq SourceUnit where
  beq u v := u.name == v.name && decide (u.prototypes = v.prototypes) &&
    u.definitions == v.definitions

/-- Nodes of different kinds are not equal. -/
def Node.beq : Node → Node → Bool
  | expr x, expr y => x == y
  | stmt s, stmt t => s == t
  | block ss, block ts => ss == ts
  | prototype p, prototype q => decide (p = q)
  | definition d, definition e => d == e
  | unit u, unit v => u == v
  | _, _ => false

instance : BEq Node := ⟨Node.beq⟩

end ExprLang
