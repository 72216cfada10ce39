import ExprLang.Proofs.NumberTexts
import ExprLang.Proofs.WellFormed
import ExprLang.Tree.Printer

/-!
# Reading Printed Expressions

The printer puts parentheses around every operation and a delimiter behind every word and number.
So its text has the tokens that were meant, these spell the printed expression, and with a
semicolon behind it the text is a unit that holds this expression alone.
-/

namespace ExprLang

/-- The text has these symbols, the end of input last, wherever it stands. -/
def HasSymbols (text : List Char) (symbols : List Symbol) : Prop :=
  ∀ offset, ∃ tokens, Tokenizes offset text tokens ∧ tokens.map Token.symbol = symbols

/-- The text does not go on with the word or number in front of it. -/
def Delimited (text : List Char) : Prop := Ends Char.isAlphanum text ∧ Ends isNumeric text

theorem Delimited.nil : Delimited [] := by simp [Delimited, Ends]

theorem Delimited.cons {c : Char} (halphanum : c.isAlphanum = false)
    (hnumeric : isNumeric c = false) (text : List Char) : Delimited (c :: text) := by
  simp [Delimited, Ends, halphanum, hnumeric]

namespace HasSymbols

variable {text : List Char} {symbols : List Symbol}

theorem nil : HasSymbols [] [.endOfInput] := fun _ ↦ ⟨_, .finish .empty, rfl⟩

theorem lexeme {lexeme : List Char} {kind : TokenKind} (hlexeme : IsLexeme text kind lexeme)
    (h : HasSymbols text symbols) :
    HasSymbols (lexeme ++ text) (⟨kind, String.ofList lexeme⟩ :: symbols) := by
  intro offset
  obtain ⟨tokens, htokens, rfl⟩ := h (offset + Text.byteSize [] + Text.byteSize lexeme)
  exact ⟨_, .token .empty hlexeme htokens, rfl⟩

theorem symbol {symbol : Symbol} (hproper : symbol.Proper) (htext : Delimited text)
    (h : HasSymbols text symbols) :
    HasSymbols (symbol.lexeme.toList ++ text) (symbol :: symbols) := by
  have hlexeme := hproper.1.of_ends (fun _ ↦ htext.1) fun _ ↦ htext.2
  simpa using h.lexeme hlexeme

/-- A character of its own is a token whatever follows. -/
theorem char {c : Char} (hproper : (Symbol.char c).Proper) (h : HasSymbols text symbols) :
    HasSymbols (c :: text) (.char c :: symbols) := by
  have hlexeme : IsLexeme [] (.char c) [c] := by simpa [Symbol.char] using hproper.1
  cases hlexeme with
  | char halpha hdigit hblank hhash => exact h.lexeme (.char halpha hdigit hblank hhash)

theorem blank (h : HasSymbols text symbols) : HasSymbols (' ' :: text) symbols := by
  intro offset
  obtain ⟨tokens, htokens, rfl⟩ := h (offset + Text.byteSize [' '])
  have hblank : ' ' ∈ blanks := by decide
  generalize hoffset : offset + Text.byteSize [' '] = offset' at htokens
  cases htokens with
  | finish hgap => exact ⟨_, .finish (.blank hblank hgap), rfl⟩
  | @token _ gap lexeme rest kind tokens hgap hlexeme htokens =>
    have hsize : Text.byteSize (' ' :: gap) = Text.byteSize [' '] + Text.byteSize gap :=
      Text.byteSize_append [' '] gap
    rw [← hoffset, Nat.add_assoc offset, ← hsize] at htokens
    exact ⟨_, .token (.blank hblank hgap) hlexeme htokens, rfl⟩

end HasSymbols

theorem sourceSymbols_of_hasSymbols {source : String} {symbols : List Symbol}
    (h : HasSymbols source.toList symbols) : sourceSymbols source = symbols := by
  obtain ⟨tokens, htokens, rfl⟩ := h 0
  rw [sourceSymbols, tokens_of_tokenizes htokens (Lexer.ofSource source none) rfl rfl]

/-- The text is read as the word, if what follows is delimited. -/
def IsTextOf (text : List Char) (word : List Symbol) : Prop :=
  ∀ rest symbols, Delimited rest → HasSymbols rest symbols →
    HasSymbols (text ++ rest) (word ++ symbols)

namespace IsTextOf

variable {text text' : List Char} {word word' : List Symbol}

theorem nil : IsTextOf [] [] := fun _ _ _ h ↦ h

theorem symbol {symbol : Symbol} (h : symbol.Proper) : IsTextOf symbol.lexeme.toList [symbol] :=
  fun _ _ hrest hsymbols ↦ hsymbols.symbol h hrest

theorem name {name : String} (h : IsName name) : IsTextOf name.toList [.name name] := symbol h

theorem number {lexeme : String} (h : IsNumber lexeme) :
    IsTextOf lexeme.toList [.number lexeme] := symbol h

theorem char {c : Char} (hc : (Symbol.char c).Proper) (h : IsTextOf text word) :
    IsTextOf (c :: text) (.char c :: word) :=
  fun rest symbols hrest hsymbols ↦ (h rest symbols hrest hsymbols).char hc

theorem blank (h : IsTextOf text word) : IsTextOf (' ' :: text) word :=
  fun rest symbols hrest hsymbols ↦ (h rest symbols hrest hsymbols).blank

theorem append {c : Char} (h : IsTextOf text word) (h' : IsTextOf (c :: text') word')
    (halphanum : c.isAlphanum = false) (hnumeric : isNumeric c = false) :
    IsTextOf (text ++ c :: text') (word ++ word') := by
  intro rest symbols hrest hsymbols
  rw [List.append_assoc, List.append_assoc]
  exact h _ _ (.cons halphanum hnumeric _) (h' rest symbols hrest hsymbols)

theorem sourceSymbols_eq {source : String} (h : IsTextOf source.toList word) :
    sourceSymbols source = word ++ [.endOfInput] := by
  apply sourceSymbols_of_hasSymbols
  simpa using h [] _ .nil .nil

end IsTextOf

namespace Expr

mutual

/-- How many levels of nesting the parentheses of the printed expression open. -/
def printedDepth : Expr → Nat
  | number _ | var _ => 0
  | binary _ left right => max (printedDepth left) (printedDepth right) + 1
  | call _ arguments => printedDepthAll arguments + 1

def printedDepthAll : List Expr → Nat
  | [] => 0
  | x :: xs => max (printedDepth x) (printedDepthAll xs)

end

end Expr

/-- The text is read as a word that spells the phrase. -/
def IsPrinted (depth : Nat) (phrase : Phrase) (text : String) : Prop :=
  ∃ word, IsTextOf text.toList word ∧ Derives depth phrase word

namespace IsPrinted

variable {depth depth' : Nat} {text text' : String}

theorem number {value : Binary64} (hsign : value.negative = false) (hfinite : value.isFinite) :
    IsPrinted 0 (.operand 4 (.number value)) (toString value) := by
  have hnumber := Binary64.isNumber_toString hsign hfinite
  have hderives := Derives.number hnumber
  rw [Binary64.ofLiteral_toString hsign hfinite] at hderives
  exact ⟨_, .number hnumber, hderives⟩

theorem var {name : String} (hname : IsName name) : IsPrinted 0 (.operand 4 (.var name)) name :=
  ⟨_, .name hname, .var hname⟩

theorem expression {expr : Expr} (h : IsPrinted depth (.operand 4 expr) text) :
    IsPrinted (depth + 1) (.expression expr) text := by
  obtain ⟨word, htext, hderives⟩ := h
  exact ⟨word, htext, .expression (hderives.operand_of_le (by decide))⟩

theorem binary {operator : BinaryOperator} {left right : Expr}
    (hleft : IsPrinted depth (.operand 4 left) text)
    (hright : IsPrinted depth' (.operand 4 right) text') :
    IsPrinted (max depth depth' + 1) (.operand 4 (.binary operator left right))
      ("(" ++ text ++ " " ++ operator.symbol.toString ++ " " ++ text' ++ ")") := by
  obtain ⟨word, htext, hleft⟩ := hleft
  obtain ⟨word', htext', hright⟩ := hright
  have hlevel := operator.level_le
  have hlowest : 1 ≤ operator.level := by cases operator <;> decide
  have hoperation : Derives (max depth depth')
      (.operand operator.level (.binary operator left right)) _ :=
    .binary (hleft.operand_of_le (by omega)) (hright.operand_of_le (by omega))
  have hclosed : IsTextOf (text'.toList ++ [')']) (word' ++ [.char ')']) :=
    htext'.append (.char (by simp) .nil) rfl rfl
  have hall : IsTextOf ('(' :: (text.toList ++ ' ' :: operator.symbol :: ' ' ::
      (text'.toList ++ [')']))) (.char '(' :: (word ++ .char operator.symbol ::
        (word' ++ [.char ')']))) :=
    .char (by simp) (htext.append (.blank (.char (terminalOperator operator).proper
      (.blank hclosed))) rfl rfl)
  refine ⟨_, ?_, .parenthesised (.expression (hoperation.operand_of_le hlowest))⟩
  simpa using hall

/-- The arguments of a call are printed with a comma and a blank between them. -/
theorem arguments {first : Expr} {others : List Expr}
    (h : ∀ arg ∈ first :: others, IsPrinted arg.printedDepth (.operand 4 arg) arg.print) :
    IsPrinted (Expr.printedDepthAll (first :: others) + 1) (.arguments (first :: others))
      (", ".intercalate (Expr.printAll (first :: others))) := by
  induction others generalizing first with
  | nil =>
    obtain ⟨word, htext, hderives⟩ := (h first (by simp)).expression
    refine ⟨word, ?_, ?_⟩
    · simpa [Expr.printAll] using htext
    · simpa [Expr.printedDepthAll] using Derives.argument hderives
  | cons second others ih =>
    obtain ⟨word, htext, hderives⟩ := (h first (by simp)).expression
    obtain ⟨word', htext', hderives'⟩ := ih fun arg harg ↦ h arg (List.mem_cons_of_mem first harg)
    refine ⟨word ++ .char ',' :: word', ?_, ?_⟩
    · have hall : IsTextOf _ (word ++ .char ',' :: word') :=
        htext.append (.char (by simp) (.blank htext')) rfl rfl
      simpa [Expr.printAll] using hall
    · have hall := Derives.arguments hderives hderives'
      rwa [Nat.add_max_add_right] at hall

theorem call {callee : String} {args : List Expr} (hname : IsName callee)
    (h : ∀ arg ∈ args, IsPrinted arg.printedDepth (.operand 4 arg) arg.print) :
    IsPrinted (Expr.printedDepthAll args + 1) (.operand 4 (.call callee args))
      (callee ++ "(" ++ ", ".intercalate (Expr.printAll args) ++ ")") := by
  have hclosing : IsTextOf [')'] [.char ')'] := .char (by simp) .nil
  cases args with
  | nil =>
    have hall : IsTextOf (callee.toList ++ ['(', ')']) [.name callee, .char '(', .char ')'] :=
      (IsTextOf.name hname).append (.char (by simp) hclosing) rfl rfl
    refine ⟨_, ?_, .emptyCall hname⟩
    simpa [Expr.printAll] using hall
  | cons first others =>
    obtain ⟨word, htext, hderives⟩ := arguments h
    have hall : IsTextOf (callee.toList ++ '(' :: (_ ++ [')']))
        (.name callee :: .char '(' :: (word ++ [.char ')'])) :=
      (IsTextOf.name hname).append (.char (by simp) (htext.append hclosing rfl rfl)) rfl rfl
    refine ⟨_, ?_, .call hname hderives⟩
    simpa using hall

end IsPrinted

/-- The text of an expression that the parser can build is read as a word that spells it. -/
theorem Expr.WellFormed.isPrinted {expr : Expr} (h : expr.WellFormed)
    (hfinite : ∀ value ∈ expr.numbers, value.isFinite) :
    IsPrinted expr.printedDepth (.operand 4 expr) expr.print := by
  induction h with
  | number hsign _ => exact .number hsign (hfinite _ (List.mem_singleton_self _))
  | var hname => exact .var hname
  | binary _ _ ihleft ihright =>
    rw [numbers, List.forall_mem_append] at hfinite
    exact .binary (ihleft hfinite.1) (ihright hfinite.2)
  | call hname _ ih =>
    rw [numbers, numbersOfAll_eq, List.forall_mem_flatMap] at hfinite
    exact .call hname fun arg harg ↦ ih arg harg (hfinite arg harg)

/-- The unit of a single expression. -/
def SourceUnit.ofExpr (options : Options) (expr : Expr) : SourceUnit :=
  ⟨options.unitName, [], [⟨⟨options.anonymousName, []⟩, [.expression expr]⟩]⟩

theorem derived_of_isPrinted {depth : Nat} {expr : Expr} {text : String}
    (h : IsPrinted depth (.operand 4 expr) text) (options : Options) :
    (SourceUnit.ofExpr options expr).Derived options (depth + 2)
      (sourceSymbols (text ++ ";")) := by
  obtain ⟨word, htext, hderives⟩ := h.expression
  have hline : IsTextOf (text ++ ";").toList (word ++ [.char ';']) := by
    simpa using htext.append (.char (by simp) .nil) rfl rfl
  have hbody : Derives (depth + 1) (.statements [.expression expr]) (word ++ [.char ';']) := by
    have hstatement := Derives.statements (.expressionStatement hderives) .noStatement
    rwa [List.append_nil, Nat.max_eq_left (by omega)] at hstatement
  have hunit : DerivesUnit options.anonymousName (depth + 2) []
      (SourceUnit.ofExpr options expr).definitions (word ++ [.char ';'] ++ [.endOfInput]) :=
    .run (by simp) hbody .finish (by simp [endsRun_iff])
  rw [hline.sourceSymbols_eq]
  exact ⟨rfl, hunit⟩

/-- Parentheses, the expression and the run of statements need room.  With less of it the nesting of
a printed expression is too deep. -/
theorem parse_print_of_lt {expr : Expr} {options : Options} (h : expr.WellFormed)
    (hfinite : ∀ value ∈ expr.numbers, value.isFinite)
    (hlimit : options.maxNestingDepth < expr.printedDepth + 2) :
    ∃ position, (parse (expr.print ++ ";") options).result =
      .error (.failure ⟨.nestingTooDeep options.maxNestingDepth, position⟩) := by
  have hparse := parse_of_derived (derived_of_isPrinted (h.isPrinted hfinite) options)
  rwa [if_neg (Nat.not_le_of_lt hlimit)] at hparse

/-- A printed expression with a semicolon behind it is read as the unit of this expression alone. -/
theorem parse_print {expr : Expr} {options : Options} (h : expr.WellFormed)
    (hfinite : ∀ value ∈ expr.numbers, value.isFinite)
    (hlimit : expr.printedDepth + 2 ≤ options.maxNestingDepth) :
    (parse (expr.print ++ ";") options).result = .ok (.ofExpr options expr) := by
  have hparse := parse_of_derived (derived_of_isPrinted (h.isPrinted hfinite) options)
  rwa [if_pos hlimit] at hparse

/-- A comparison of a call and a difference with a number of 23 digits. -/
def comparison : Expr :=
  .binary .less (.call "x" [.number (.ofBits 0x3FB999999999999A), .call "x" []])
    (.binary .subtract (.var "x") (.number (.ofBits 0x44B52D02C7E14AF6)))

theorem comparison_wellFormed : comparison.WellFormed := by
  have hname := Parser.Reads.isName_x
  refine .binary (.call hname ?_) (.binary (.var hname) (.number rfl rfl))
  simp only [List.forall_mem_cons, List.not_mem_nil, false_imp_iff, implies_true, and_true]
  exact ⟨.number rfl rfl, .call hname (List.forall_mem_nil _)⟩

theorem parse_print_comparison :
    let options := { Options.default with maxNestingDepth := 5 }
    comparison.WellFormed ∧ (∀ value ∈ comparison.numbers, value.isFinite) ∧
      comparison.printedDepth + 2 ≤ options.maxNestingDepth ∧
      comparison.print = "(x(0.1, x()) < (x - 100000000000000000000000))" ∧
      (parse "(x(0.1, x()) < (x - 100000000000000000000000));" options).result =
        .ok (.ofExpr options comparison) := by
  intro options
  have hfinite : ∀ value ∈ comparison.numbers, value.isFinite := by decide
  have hlimit : comparison.printedDepth + 2 ≤ options.maxNestingDepth := by decide
  have hprint : comparison.print = "(x(0.1, x()) < (x - 100000000000000000000000))" := by
    decide +kernel
  have hparse := parse_print comparison_wellFormed hfinite hlimit
  rw [hprint] at hparse
  exact ⟨comparison_wellFormed, hfinite, hlimit, hprint, hparse⟩

end ExprLang
