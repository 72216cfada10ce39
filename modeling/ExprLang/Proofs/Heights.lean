import ExprLang.Proofs.CorrectPrefix

/-!
# The Height of a Tree

The limit of nesting bounds the height of a tree only if the left operands of a chain of operators
stand on one level, as the links of an `else if` chain do.  Where every operator counts, a chain of
operators makes a tree of any height within two levels of nesting.
-/

namespace ExprLang

section

-- The left operands for which this holds stand on the level of their operator.
variable (shares : Expr → Bool)

namespace Expr

mutual

/-- The number of nodes on the longest path from the expression down. -/
def heightWith : Expr → Nat
  | number _ => 1
  | var _ => 1
  | binary _ left right =>
    max (heightWith left + if shares left then 0 else 1) (heightWith right + 1)
  | call _ args => heightAll args + 1

def heightAll : List Expr → Nat
  | [] => 0
  | x :: xs => max (heightWith x) (heightAll xs)

end

end Expr

namespace Stmt

mutual

/-- The number of nodes on the longest path from the statement down.  The links of a chain stand on
one level. -/
def heightWith : Stmt → Nat
  | expression value => value.heightWith shares
  | compound body => heightAll body + 1
  | assignment _ value => value.heightWith shares + 1
  | result value => value.heightWith shares + 1
  | conditional condition body otherwise =>
    max (condition.heightWith shares) (max (heightAll body + 1) (heightElse otherwise)) + 1
  | loop _ initial condition step body =>
    max (max (initial.heightWith shares) (condition.heightWith shares))
      (max (step.heightWith shares) (heightAll body + 1)) + 1

def heightElse : ElseBranch → Nat
  | .absent => 0
  | .elseIf condition body otherwise =>
    max (condition.heightWith shares) (max (heightAll body + 1) (heightElse otherwise))
  | .block body => heightAll body + 1

def heightAll : List Stmt → Nat
  | [] => 0
  | s :: ss => max (heightWith s) (heightAll ss)

end

end Stmt

/-- A head is a leaf. -/
def Prototype.height (_ : Prototype) : Nat := 1

def Definition.heightWith (definition : Definition) : Nat :=
  max definition.prototype.height (Stmt.heightAll shares definition.body + 1) + 1

def SourceUnit.heightWith (unit : SourceUnit) : Nat :=
  (unit.prototypes.map Prototype.height ++
    unit.definitions.map (Definition.heightWith shares)).foldr max 0 + 1

end

/-- The number of nodes on the longest path from the unit to a leaf, the links of an `else if` chain
on one level. -/
def SourceUnit.height (unit : SourceUnit) : Nat := unit.heightWith fun _ ↦ false

def Expr.isBinary : Expr → Bool
  | binary _ _ _ => true
  | _ => false

/-- The height with the operators of a chain of left operands on one level too. -/
def SourceUnit.chainedHeight (unit : SourceUnit) : Nat := unit.heightWith Expr.isBinary

/-- The chained height of a phrase. -/
def Phrase.height : Phrase → Nat
  | operand _ expr | expression expr => expr.heightWith Expr.isBinary
  | arguments args => Expr.heightAll Expr.isBinary args
  | statement stmt => stmt.heightWith Expr.isBinary
  | statements body => Stmt.heightAll Expr.isBinary body
  | block body => Stmt.heightAll Expr.isBinary body + 1
  | otherwise branch => Stmt.heightElse Expr.isBinary branch

/-- What the height of a phrase of the given depth is at most. -/
def Phrase.allowance (depth : Nat) : Phrase → Nat
  | operand level _ => 4 * depth + (5 - level)
  | statement _ | statements _ => 4 * depth + 1
  | _ => 4 * depth

/-- An operand without an operator on top is as high as a primary expression. -/
def Phrase.LowOperand (depth : Nat) : Phrase → Prop
  | operand _ expr => expr.isBinary = false → expr.heightWith Expr.isBinary ≤ 4 * depth + 1
  | _ => True

theorem Derives.height_le {depth : Nat} {phrase : Phrase} {word : List Symbol}
    (h : Derives depth phrase word) :
    phrase.height ≤ phrase.allowance depth ∧ phrase.LowOperand depth := by
  induction h with
  | number => simp [Phrase.height, Phrase.allowance, Phrase.LowOperand, Expr.heightWith]
  | var => simp [Phrase.height, Phrase.allowance, Phrase.LowOperand, Expr.heightWith]
  | emptyCall =>
    simp [Phrase.height, Phrase.allowance, Phrase.LowOperand, Expr.heightWith, Expr.heightAll]
  | call _ _ ih =>
    simp only [Phrase.height, Phrase.allowance, Phrase.LowOperand, Expr.heightWith] at ih ⊢
    omega
  | parenthesised _ ih =>
    simp only [Phrase.height, Phrase.allowance, Phrase.LowOperand] at ih ⊢
    omega
  | tighter _ ih =>
    simp only [Phrase.height, Phrase.allowance, Phrase.LowOperand] at ih ⊢
    exact ⟨by omega, ih.2⟩
  | @binary _ _ operator left _ _ _ _ _ ihleft ihright =>
    have hlevel := operator.level_le
    simp only [Phrase.height, Phrase.allowance, Phrase.LowOperand, Expr.heightWith]
      at ihleft ihright ⊢
    refine ⟨?_, nofun⟩
    -- A left operand without an operator is low enough for one more level.
    split
    · omega
    · next hleft =>
      have hlow := ihleft.2 (by simpa using hleft)
      omega
  | _ =>
    simp only [Phrase.height, Phrase.allowance, Phrase.LowOperand, Expr.heightAll, Stmt.heightWith,
      Stmt.heightElse, Stmt.heightAll, and_true] at *
    omega

theorem Definition.heightWith_le {body : Block} {depth : Nat} (prototype : Prototype)
    (h : Stmt.heightAll Expr.isBinary body + 1 ≤ 4 * depth) :
    (⟨prototype, body⟩ : Definition).heightWith Expr.isBinary ≤ 4 * depth + 1 := by
  simp only [heightWith, Prototype.height]
  omega

theorem DerivesUnit.height_le {anonymous : String} {depth : Nat} {prototypes : List Prototype}
    {definitions : List Definition} {word : List Symbol}
    (h : DerivesUnit anonymous depth prototypes definitions word) :
    ∀ definition ∈ definitions, definition.heightWith Expr.isBinary ≤ 4 * depth + 1 := by
  induction h with
  | finish => simp
  | separator _ ih => exact ih
  | declaration _ _ ih => exact ih
  | @definition _ _ prototype body _ _ _ _ _ hbody _ ih =>
    have hheight := hbody.height_le.1
    rw [List.forall_mem_cons]
    refine ⟨?_, fun definition hmem ↦ (ih definition hmem).trans (by omega)⟩
    exact (Definition.heightWith_le prototype hheight).trans (by omega)
  | @run depth _ body _ _ _ _ _ hbody _ _ ih =>
    have hheight : Stmt.heightAll Expr.isBinary body ≤ 4 * depth + 1 := hbody.height_le.1
    rw [List.forall_mem_cons]
    refine ⟨?_, fun definition hmem ↦ (ih definition hmem).trans (by omega)⟩
    have hfits : Stmt.heightAll Expr.isBinary body + 1 ≤ 4 * (depth + 1) := by omega
    exact (Definition.heightWith_le ⟨anonymous, []⟩ hfits).trans (by omega)

theorem foldr_max_le {bound : Nat} {heights : List Nat} (h : ∀ height ∈ heights, height ≤ bound) :
    heights.foldr max 0 ≤ bound := by
  induction heights with
  | nil => exact Nat.zero_le bound
  | cons height heights ih =>
    rw [List.forall_mem_cons] at h
    exact max_le h.1 (ih h.2)

/-- A sum of one more name than the number tells. -/
def Expr.sum : Nat → Expr
  | 0 => .var "x"
  | n + 1 => .binary .add (sum n) (.var "x")

def sumSymbols : Nat → List Symbol
  | 0 => [.name "x"]
  | n + 1 => sumSymbols n ++ [.char '+', .name "x"]

/-- The unit that holds nothing but a sum. -/
def SourceUnit.sum (n : Nat) : SourceUnit :=
  ⟨"main", [], [⟨⟨"__anon_expr", []⟩, [.expression (.sum n)]⟩]⟩

theorem Expr.heightWith_sum (n : Nat) : (sum n).heightWith (fun _ ↦ false) = n + 1 := by
  induction n with
  | zero => rfl
  | succ n ih => simp [sum, heightWith, ih]

theorem SourceUnit.height_sum (n : Nat) : (sum n).height = n + 4 := by
  simp [sum, height, heightWith, Definition.heightWith, Prototype.height, Stmt.heightAll,
    Stmt.heightWith, Expr.heightWith_sum]

/-- A sum opens no level of nesting, however long it is. -/
theorem derives_sum (n : Nat) : Derives 0 (.operand 2 (.sum n)) (sumSymbols n) := by
  have hname : Derives 0 (.operand 4 (.var "x")) [.name "x"] := .var Parser.Reads.isName_x
  induction n with
  | zero => exact .tighter (.tighter hname)
  | succ n ih =>
    have hsum : Derives (max 0 0) (.operand BinaryOperator.add.level (.sum (n + 1)))
        (sumSymbols n ++ .char BinaryOperator.add.symbol :: [.name "x"]) :=
      .binary ih (.tighter hname)
    exact hsum

theorem derived_sum (n : Nat) : (SourceUnit.sum n).Derived .default 2
    (sumSymbols n ++ [.char ';'] ++ [.endOfInput]) := by
  have hbody : Derives 1 (.statements [.expression (.sum n)]) (sumSymbols n ++ [.char ';'] ++ []) :=
    .statements (.expressionStatement (.expression (.tighter (derives_sum n)))) .noStatement
  rw [List.append_nil] at hbody
  exact ⟨rfl, .run (by simp) hbody .finish (by simp [endsRun_iff])⟩

/-- The options with room for two levels. -/
def Options.twoLevels : Options := { Options.default with maxNestingDepth := 2 }

theorem parse_sum {source : String} {n : Nat}
    (h : sourceSymbols source = sumSymbols n ++ [.char ';'] ++ [.endOfInput]) :
    (parse source .twoLevels).result = .ok (.sum n) := by
  have hderived : (SourceUnit.sum n).Derived .twoLevels 2 (sourceSymbols source) := by
    rw [h]
    exact derived_sum n
  have hparse := parse_of_derived hderived
  rwa [if_pos (by decide)] at hparse

/-- Within two levels of nesting there is a unit of any height. -/
theorem exists_height_gt (bound : Nat) : ∃ source unit,
    (parse source .twoLevels).result = .ok unit ∧ bound < unit.height := by
  have hproper : ∀ symbol ∈ sumSymbols bound ++ [.char ';'], symbol.Proper := by
    rw [List.forall_mem_append]
    exact ⟨fun symbol hsymbol ↦ ((derives_sum bound).terminal symbol hsymbol).proper, by simp⟩
  obtain ⟨source, hsource⟩ := exists_sourceSymbols_eq hproper
  exact ⟨source, .sum bound, parse_sum hsource, by rw [SourceUnit.height_sum]; omega⟩

/-- A sum of thirty names. -/
def thirtyNames : String := "x+x+x+x+x+x+x+x+x+x+x+x+x+x+x+x+x+x+x+x+x+x+x+x+x+x+x+x+x+x;"

theorem parse_thirtyNames : (parse thirtyNames .twoLevels).result = .ok (.sum 29) :=
  parse_sum (by decide)

theorem height_of_thirty_names : (parse thirtyNames .twoLevels).result = .ok (.sum 29) ∧
    8 * (Options.twoLevels.maxNestingDepth + 1) < (SourceUnit.sum 29).height := by
  refine ⟨parse_thirtyNames, ?_⟩
  rw [SourceUnit.height_sum]
  decide

/-- The limit of nesting bounds the height of an accepted unit, if the operators of a chain of left
operands stand on one level. -/
theorem chainedHeight_le_of_parse {source : String} {options : Options} {unit : SourceUnit}
    (h : (parse source options).result = .ok unit) :
    unit.chainedHeight ≤ 4 * options.maxNestingDepth + 2 := by
  obtain ⟨depth, hderived⟩ := exists_derived_of_parse h
  have hdepth : depth ≤ options.maxNestingDepth := depth_le_of_parse h hderived
  refine Nat.succ_le_succ (foldr_max_le fun height hheight ↦ ?_)
  rcases List.mem_append.mp hheight with hprototype | hdefinition
  · obtain ⟨prototype, -, rfl⟩ := List.mem_map.mp hprototype
    exact Nat.le_add_left 1 _
  · obtain ⟨definition, hmem, rfl⟩ := List.mem_map.mp hdefinition
    have hheight := hderived.2.height_le definition hmem
    omega

theorem chainedHeight_of_thirty_names :
    (parse thirtyNames .twoLevels).result = .ok (.sum 29) ∧
      (SourceUnit.sum 29).chainedHeight ≤ 4 * Options.twoLevels.maxNestingDepth + 2 :=
  ⟨parse_thirtyNames, chainedHeight_le_of_parse parse_thirtyNames⟩

end ExprLang
