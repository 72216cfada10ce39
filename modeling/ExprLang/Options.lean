/-!
# Options of a Parse
-/

namespace ExprLang

structure Options where
  /-- The name of the source in positions and messages. -/
  fileName : Option String
  /-- The name of the source unit. -/
  unitName : String
  /-- The name of the functions that hold the statements outside every definition. -/
  anonymousName : String
  /-- How many expressions and statement lists may be open at the same time. -/
  maxNestingDepth : Nat
deriving DecidableEq, Repr

def Options.default : Options := ⟨none, "main", "__anon_expr", 128⟩

instance : Inhabited Options := ⟨.default⟩

end ExprLang
