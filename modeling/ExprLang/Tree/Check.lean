import ExprLang.Diagnostic
import ExprLang.Tree

/-!
# Checks on Trees

Two kinds of statements are built only from parts that fit: an assignment has a target, and the
variable of a loop has a name.  To build one from other parts is a defect of the program that does
it, while a block of a finished tree that holds no statement is reported to the user.
-/

namespace ExprLang

/-- Why a statement cannot be built. -/
inductive Defect where
  | noTarget
  | noLoopVariable
deriving DecidableEq, Repr

def Defect.message : Defect → String
  | noTarget => "assignment needs at least one target"
  | noLoopVariable => "assertion failed: !variable.is_empty()"

namespace Stmt

/-- An assignment has a target. -/
def assign (targets : List String) (value : Expr) : Except Defect Stmt :=
  if targets.isEmpty then .error .noTarget else .ok (.assignment targets value)

/-- The variable of a loop has a name. -/
def forLoop (index : String) (initial condition step : Expr) (body : Block) :
    Except Defect Stmt :=
  if index.isEmpty then .error .noLoopVariable
  else .ok (.loop index initial condition step body)

end Stmt

/-- A block that must hold a statement; the context names its owner. -/
def ensureNonEmpty (block : Block) (context : String) : Except Diagnostic Unit :=
  if block.isEmpty then .error ⟨.emptyCompound context, .nowhere⟩ else .ok ()

end ExprLang
