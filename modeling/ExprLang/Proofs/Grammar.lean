import ExprLang.Parser.Item
import ExprLang.Proofs.Tokenization

/-!
# The Grammar

The programs of the language as a relation between trees and the symbols that spell them.  The
relation also counts the depth of a derivation: how many statement lists and expressions are open at
the same time.  A list without statements and a call without arguments count as holding one
expression.
-/

namespace ExprLang

/-- What the grammar sees of a token. -/
structure Symbol where
  kind : TokenKind
  lexeme : String
deriving DecidableEq, Repr

def Token.symbol (token : Token) : Symbol := ⟨token.kind, token.lexeme⟩

@[simp]
theorem Token.symbol_kind (token : Token) : token.symbol.kind = token.kind := rfl

@[simp]
theorem Token.symbol_lexeme (token : Token) : token.symbol.lexeme = token.lexeme := rfl

namespace Symbol

def endOfInput : Symbol := ⟨.endOfInput, ""⟩

def char (c : Char) : Symbol := ⟨.char c, String.ofList [c]⟩

def keyword (keyword : Keyword) : Symbol := ⟨.keyword keyword, keyword.word⟩

def name (name : String) : Symbol := ⟨.identifier, name⟩

def number (lexeme : String) : Symbol := ⟨.number, lexeme⟩

@[simp]
theorem endOfInput_kind : endOfInput.kind = .endOfInput := rfl

@[simp]
theorem char_kind (c : Char) : (char c).kind = .char c := rfl

@[simp]
theorem keyword_kind (k : Keyword) : (keyword k).kind = .keyword k := rfl

@[simp]
theorem name_kind (n : String) : (name n).kind = .identifier := rfl

@[simp]
theorem number_kind (lexeme : String) : (number lexeme).kind = .number := rfl

/-- The symbol is a token of its own text, and not a malformed number. -/
def Proper (symbol : Symbol) : Prop :=
  IsLexeme [] symbol.kind symbol.lexeme.toList ∧ symbol.kind ≠ .malformedNumber

end Symbol

/-- A word that is not reserved. -/
def IsName (name : String) : Prop := (Symbol.name name).Proper

theorem IsName.ne_empty {name : String} (h : IsName name) : name ≠ "" := by
  rintro rfl
  exact h.1.ne_nil rfl

/-- A run of digits with at most one point. -/
def IsNumber (lexeme : String) : Prop := (Symbol.number lexeme).Proper

/-- How tightly the operators of the grammar bind: comparisons, sums and products. -/
def BinaryOperator.level : BinaryOperator → Nat
  | less | greater => 1
  | add | subtract => 2
  | multiply | divide => 3

/-- The parts of a program.  An operand of a level has no operators outside parentheses that bind
less tightly; above the products come the primary expressions. -/
inductive Phrase where
  | operand (level : Nat) (expr : Expr)
  | expression (expr : Expr)
  /-- At least one argument. -/
  | arguments (args : List Expr)
  | statement (stmt : Stmt)
  | statements (body : Block)
  | block (body : Block)
  /-- What follows the body of an `if`. -/
  | otherwise (branch : ElseBranch)

/-- The targets of an assignment, each with its `=`. -/
def targetSymbols (targets : List String) : List Symbol :=
  targets.flatMap fun target ↦ [.name target, .char '=']

/-- The symbols that spell a phrase, with the depth of the derivation. -/
inductive Derives : Nat → Phrase → List Symbol → Prop
  | number {lexeme : String} : IsNumber lexeme →
      Derives 0 (.operand 4 (.number (.ofLiteral lexeme.toList))) [.number lexeme]
  | var {name : String} : IsName name → Derives 0 (.operand 4 (.var name)) [.name name]
  | emptyCall {name : String} : IsName name →
      Derives 1 (.operand 4 (.call name [])) [.name name, .char '(', .char ')']
  | call {name : String} {depth : Nat} {args : List Expr} {word : List Symbol} : IsName name →
      Derives depth (.arguments args) word →
      Derives depth (.operand 4 (.call name args))
        (.name name :: .char '(' :: (word ++ [.char ')']))
  | parenthesised {depth : Nat} {expr : Expr} {word : List Symbol} :
      Derives depth (.expression expr) word →
      Derives depth (.operand 4 expr) (.char '(' :: (word ++ [.char ')']))
  | tighter {depth level : Nat} {expr : Expr} {word : List Symbol} :
      Derives depth (.operand (level + 1) expr) word → Derives depth (.operand level expr) word
  | binary {leftDepth rightDepth : Nat} {operator : BinaryOperator} {left right : Expr}
      {leftWord rightWord : List Symbol} :
      Derives leftDepth (.operand operator.level left) leftWord →
      Derives rightDepth (.operand (operator.level + 1) right) rightWord →
      Derives (max leftDepth rightDepth) (.operand operator.level (.binary operator left right))
        (leftWord ++ .char operator.symbol :: rightWord)
  | expression {depth : Nat} {expr : Expr} {word : List Symbol} :
      Derives depth (.operand 1 expr) word → Derives (depth + 1) (.expression expr) word
  | argument {depth : Nat} {expr : Expr} {word : List Symbol} :
      Derives depth (.expression expr) word → Derives depth (.arguments [expr]) word
  | arguments {depth depth' : Nat} {expr : Expr} {args : List Expr} {word word' : List Symbol} :
      Derives depth (.expression expr) word → Derives depth' (.arguments args) word' →
      Derives (max depth depth') (.arguments (expr :: args)) (word ++ .char ',' :: word')
  | assignment {depth : Nat} {targets : List String} {value : Expr} {word : List Symbol} :
      targets ≠ [] → (∀ target ∈ targets, IsName target) →
      Derives depth (.expression value) word →
      Derives depth (.statement (.assignment targets value))
        (targetSymbols targets ++ (word ++ [.char ';']))
  | result {depth : Nat} {value : Expr} {word : List Symbol} :
      Derives depth (.expression value) word →
      Derives depth (.statement (.result value)) (.keyword .result :: (word ++ [.char ';']))
  | conditional {depth depth' depth'' : Nat} {condition : Expr} {body : Block}
      {branch : ElseBranch} {word word' word'' : List Symbol} :
      Derives depth (.expression condition) word → Derives depth' (.block body) word' →
      Derives depth'' (.otherwise branch) word'' →
      Derives (max depth (max depth' depth'')) (.statement (.conditional condition body branch))
        (.keyword .branch :: (word ++ (word' ++ word'')))
  | loop {index : String} {depth₁ depth₂ depth₃ depth₄ : Nat} {initial condition step : Expr}
      {body : Block} {word₁ word₂ word₃ word₄ : List Symbol} : IsName index →
      Derives depth₁ (.expression initial) word₁ → Derives depth₂ (.expression condition) word₂ →
      Derives depth₃ (.expression step) word₃ → Derives depth₄ (.block body) word₄ →
      Derives (max depth₁ (max depth₂ (max depth₃ depth₄)))
        (.statement (.loop index initial condition step body))
        (.keyword .loop :: .char '(' :: .name index :: .char '=' :: (word₁ ++ .char ';' ::
          (word₂ ++ .char ';' :: (word₃ ++ .char ')' :: word₄))))
  | expressionStatement {depth : Nat} {value : Expr} {word : List Symbol} :
      Derives depth (.expression value) word →
      Derives depth (.statement (.expression value)) (word ++ [.char ';'])
  | absent : Derives 0 (.otherwise .absent) []
  | elseIf {depth depth' depth'' : Nat} {condition : Expr} {body : Block} {branch : ElseBranch}
      {word word' word'' : List Symbol} :
      Derives depth (.expression condition) word → Derives depth' (.block body) word' →
      Derives depth'' (.otherwise branch) word'' →
      Derives (max depth (max depth' depth'')) (.otherwise (.elseIf condition body branch))
        (.keyword .otherwise :: .keyword .branch :: (word ++ (word' ++ word'')))
  | elseBlock {depth : Nat} {body : Block} {word : List Symbol} :
      Derives depth (.block body) word →
      Derives depth (.otherwise (.block body)) (.keyword .otherwise :: word)
  | noStatement : Derives 1 (.statements []) []
  | statements {depth depth' : Nat} {stmt : Stmt} {body : Block} {word word' : List Symbol} :
      Derives depth (.statement stmt) word → Derives depth' (.statements body) word' →
      Derives (max depth depth') (.statements (stmt :: body)) (word ++ word')
  | block {depth : Nat} {body : Block} {word : List Symbol} :
      Derives depth (.statements body) word →
      Derives (depth + 1) (.block body) (.char '{' :: (word ++ [.char '}']))

/-- Names with commas between them. -/
def parameterSymbols : List String → List Symbol
  | [] => []
  | first :: others => .name first :: others.flatMap fun other ↦ [.char ',', .name other]

/-- The head of a function. -/
def Prototype.symbols (prototype : Prototype) : List Symbol :=
  .name prototype.name :: .char '(' :: (parameterSymbols prototype.parameters ++ [.char ')'])

def Prototype.IsNamed (prototype : Prototype) : Prop :=
  IsName prototype.name ∧ ∀ parameter ∈ prototype.parameters, IsName parameter

/-- The symbols after which a run of statements is complete. -/
def endsRun : TokenKind → Bool
  | .char c => c = ';'
  | .keyword keyword => keyword = .definition || keyword = .declaration
  | .endOfInput => true
  | _ => false

theorem endsRun_iff {kind : TokenKind} : endsRun kind ↔ kind = .char ';' ∨
    kind = .keyword .definition ∨ kind = .keyword .declaration ∨ kind = .endOfInput := by
  unfold endsRun
  cases kind <;> simp

/-- The symbols that spell declarations and definitions up to the end of input.  A run of statements
is a definition of the given name. -/
inductive DerivesUnit (anonymous : String) :
    Nat → List Prototype → List Definition → List Symbol → Prop
  | finish : DerivesUnit anonymous 0 [] [] [.endOfInput]
  | separator {depth : Nat} {prototypes : List Prototype} {definitions : List Definition}
      {word : List Symbol} : DerivesUnit anonymous depth prototypes definitions word →
      DerivesUnit anonymous depth prototypes definitions (.char ';' :: word)
  | declaration {depth : Nat} {prototype : Prototype} {prototypes : List Prototype}
      {definitions : List Definition} {word : List Symbol} : prototype.IsNamed →
      DerivesUnit anonymous depth prototypes definitions word →
      DerivesUnit anonymous depth (prototype :: prototypes) definitions
        (.keyword .declaration :: (prototype.symbols ++ .char ';' :: word))
  | definition {depth depth' : Nat} {prototype : Prototype} {body : Block}
      {prototypes : List Prototype} {definitions : List Definition} {word word' : List Symbol} :
      prototype.IsNamed → Derives depth (.block body) word →
      DerivesUnit anonymous depth' prototypes definitions word' →
      DerivesUnit anonymous (max depth depth') prototypes (⟨prototype, body⟩ :: definitions)
        (.keyword .definition :: (prototype.symbols ++ (word ++ word')))
  | run {depth depth' : Nat} {body : Block} {prototypes : List Prototype}
      {definitions : List Definition} {word word' : List Symbol} :
      body ≠ [] → Derives depth (.statements body) word →
      DerivesUnit anonymous depth' prototypes definitions word' →
      (∀ symbol ∈ word'.head?, endsRun symbol.kind) →
      DerivesUnit anonymous (max (depth + 1) depth') prototypes
        (⟨⟨anonymous, []⟩, body⟩ :: definitions) (word ++ word')

/-- The symbols that spell a source unit under the names of the options. -/
def SourceUnit.Derived (options : Options) (depth : Nat) (unit : SourceUnit)
    (symbols : List Symbol) : Prop :=
  unit.name = options.unitName ∧
    DerivesUnit options.anonymousName depth unit.prototypes unit.definitions symbols

end ExprLang
