import ExprLang.Proofs.Grammar
import ExprLang.Proofs.Grouping

/-!
# Derivations

What the symbols of a derivation are, what they start with, and how sequences of equal parts make
the phrases that are written with repetition.
-/

namespace ExprLang

variable {α : Type}

/-- The symbols that the grammar uses. -/
inductive Symbol.Terminal : Symbol → Prop
  | name {name : String} : IsName name → Terminal (.name name)
  | number {lexeme : String} : IsNumber lexeme → Terminal (.number lexeme)
  | char {c : Char} : c ∈ ['(', ')', '{', '}', ',', ';', '=', '<', '>', '+', '-', '*', '/'] →
      Terminal (.char c)
  | keyword (keyword : Keyword) : Terminal (.keyword keyword)

attribute [simp] Symbol.Terminal.char Symbol.Terminal.keyword

@[simp]
theorem properChar {c : Char}
    (h : c ∈ ['(', ')', '{', '}', ',', ';', '=', '<', '>', '+', '-', '*', '/']) :
    (Symbol.char c).Proper := by
  suffices hlexeme : IsLexeme [] (.char c) [c] from ⟨by simpa [Symbol.char] using hlexeme, by simp⟩
  simp only [List.mem_cons, List.not_mem_nil, or_false] at h
  rcases h with rfl | rfl | rfl | rfl | rfl | rfl | rfl | rfl | rfl | rfl | rfl | rfl | rfl <;>
    exact .char rfl rfl (by decide) (by decide)

@[simp]
theorem properKeyword (keyword : Keyword) : (Symbol.keyword keyword).Proper := by
  have hword : IsWord keyword.word.toList := by
    cases keyword <;> exact .intro rfl (List.all_eq_true.mp rfl)
  refine ⟨?_, by simp⟩
  exact .keyword hword (by simp [Ends]) (by rw [Symbol.keyword, String.ofList_toList])

theorem Symbol.Terminal.proper {symbol : Symbol} (h : symbol.Terminal) : symbol.Proper := by
  cases h with
  | name hname => exact hname
  | number hnumber => exact hnumber
  | char hc => exact properChar hc
  | keyword keyword => exact properKeyword keyword

@[simp]
theorem terminalOperator (operator : BinaryOperator) : (Symbol.char operator.symbol).Terminal := by
  cases operator <;> exact .char (by decide)

theorem terminalTargets {targets : List String} (h : ∀ target ∈ targets, IsName target) :
    ∀ symbol ∈ targetSymbols targets, symbol.Terminal := by
  simp only [targetSymbols, List.forall_mem_flatMap]
  intro target htarget
  simpa using Symbol.Terminal.name (h target htarget)

theorem Prototype.IsNamed.terminal {prototype : Prototype} (h : prototype.IsNamed) :
    ∀ symbol ∈ prototype.symbols, symbol.Terminal := by
  obtain ⟨hname, hparameters⟩ := h
  have hsymbols : ∀ symbol ∈ parameterSymbols prototype.parameters, symbol.Terminal := by
    cases hlist : prototype.parameters with
    | nil => simp [parameterSymbols]
    | cons first others =>
      rw [hlist, List.forall_mem_cons] at hparameters
      simp only [parameterSymbols, List.forall_mem_cons, List.forall_mem_flatMap]
      refine ⟨.name hparameters.1, fun other hother ↦ ?_⟩
      simpa using Symbol.Terminal.name (hparameters.2 other hother)
  simp only [symbols, List.forall_mem_cons, List.forall_mem_append]
  exact ⟨.name hname, by simp, hsymbols, by simp⟩

/-- A derivation is spelled with symbols of the grammar. -/
theorem Derives.terminal {depth : Nat} {phrase : Phrase} {word : List Symbol}
    (h : Derives depth phrase word) : ∀ symbol ∈ word, symbol.Terminal := by
  induction h with
  | number hnumber => simpa using Symbol.Terminal.number hnumber
  | var hname => simpa using Symbol.Terminal.name hname
  | emptyCall hname =>
    simp only [List.forall_mem_cons]
    exact ⟨.name hname, by simp⟩
  | call hname _ ih =>
    simp only [List.forall_mem_cons, List.forall_mem_append]
    exact ⟨.name hname, by simp, ih, by simp⟩
  | assignment _ hnames _ ih =>
    simp only [List.forall_mem_append]
    exact ⟨terminalTargets hnames, ih, by simp⟩
  | loop hname _ _ _ _ ih₁ ih₂ ih₃ ih₄ =>
    simp only [List.forall_mem_cons, List.forall_mem_append]
    exact ⟨by simp, by simp, .name hname, by simp, ih₁, by simp, ih₂, by simp, ih₃, by simp, ih₄⟩
  | _ => simp_all [or_imp]

theorem DerivesUnit.exists_terminal {anonymous : String} {depth : Nat}
    {prototypes : List Prototype} {definitions : List Definition} {word : List Symbol}
    (h : DerivesUnit anonymous depth prototypes definitions word) :
    ∃ front, word = front ++ [.endOfInput] ∧ ∀ symbol ∈ front, symbol.Terminal := by
  induction h with
  | finish => exact ⟨[], rfl, by simp⟩
  | separator _ ih =>
    obtain ⟨front, rfl, hfront⟩ := ih
    exact ⟨_ :: front, rfl, List.forall_mem_cons.mpr ⟨by simp, hfront⟩⟩
  | @declaration _ prototype _ _ _ hnamed _ ih =>
    obtain ⟨front, rfl, hfront⟩ := ih
    refine ⟨.keyword .declaration :: (prototype.symbols ++ .char ';' :: front), by simp, ?_⟩
    simp only [List.forall_mem_cons, List.forall_mem_append]
    exact ⟨by simp, hnamed.terminal, by simp, hfront⟩
  | @definition _ _ prototype _ _ _ word _ hnamed hbody _ ih =>
    obtain ⟨front, rfl, hfront⟩ := ih
    refine ⟨.keyword .definition :: (prototype.symbols ++ (word ++ front)), by simp, ?_⟩
    simp only [List.forall_mem_cons, List.forall_mem_append]
    exact ⟨by simp, hnamed.terminal, hbody.terminal, hfront⟩
  | run _ hbody _ _ ih =>
    obtain ⟨front, rfl, hfront⟩ := ih
    refine ⟨_ ++ front, (List.append_assoc _ _ _).symm, ?_⟩
    exact List.forall_mem_append.mpr ⟨hbody.terminal, hfront⟩

/-- A unit is spelled with tokens, none of which is a malformed number. -/
theorem DerivesUnit.exists_proper {anonymous : String} {depth : Nat}
    {prototypes : List Prototype} {definitions : List Definition} {word : List Symbol}
    (h : DerivesUnit anonymous depth prototypes definitions word) :
    ∃ front, word = front ++ [.endOfInput] ∧ ∀ symbol ∈ front, symbol.Proper := by
  obtain ⟨front, hword, hfront⟩ := h.exists_terminal
  exact ⟨front, hword, fun symbol hsymbol ↦ (hfront symbol hsymbol).proper⟩

/-- The symbols that can start an expression. -/
def startsExpression : TokenKind → Bool
  | .number | .identifier => true
  | .char c => c = '('
  | _ => false

/-- The symbols that can start a statement. -/
def startsStatement : TokenKind → Bool
  | .keyword keyword => keyword = .result || keyword = .branch || keyword = .loop
  | kind => startsExpression kind

theorem startsExpression_iff {kind : TokenKind} : startsExpression kind ↔
    kind = .number ∨ kind = .identifier ∨ kind = .char '(' := by
  unfold startsExpression
  cases kind <;> simp

theorem startsStatement_iff {kind : TokenKind} : startsStatement kind ↔ startsExpression kind ∨
    kind = .keyword .result ∨ kind = .keyword .branch ∨ kind = .keyword .loop := by
  rw [startsExpression_iff]
  unfold startsStatement startsExpression
  cases kind <;> simp [or_assoc]

/-- An expression starts as one, and its second symbol does not make it an assignment. -/
def StartsAsExpression (word : List Symbol) : Prop :=
  ∃ first rest, word = first :: rest ∧ startsExpression first.kind ∧
    ∀ second ∈ rest.head?, second.kind ≠ .char '='

theorem StartsAsExpression.append {word : List Symbol} (h : StartsAsExpression word)
    {word' : List Symbol} (hword' : ∀ symbol ∈ word'.head?, symbol.kind ≠ .char '=') :
    StartsAsExpression (word ++ word') := by
  obtain ⟨first, rest, rfl, hfirst, hsecond⟩ := h
  refine ⟨first, rest ++ word', rfl, hfirst, ?_⟩
  cases rest with
  | nil => exact hword'
  | cons second rest => exact hsecond

/-- What a phrase starts with, for the phrases that cannot be empty. -/
def Phrase.StartsRight : Phrase → List Symbol → Prop
  | .operand _ _, word | .expression _, word | .arguments _, word => StartsAsExpression word
  | .statement _, word => ∃ first rest, word = first :: rest ∧ startsStatement first.kind
  | .block _, word => ∃ rest, word = .char '{' :: rest
  | _, _ => True

theorem Derives.startsRight {depth : Nat} {phrase : Phrase} {word : List Symbol}
    (h : Derives depth phrase word) : phrase.StartsRight word := by
  have hstatement {kind : TokenKind} (hkind : startsExpression kind) : startsStatement kind :=
    startsStatement_iff.mpr (.inl hkind)
  induction h with
  | number => exact ⟨_, [], rfl, rfl, by simp⟩
  | var => exact ⟨_, [], rfl, rfl, by simp⟩
  | emptyCall => exact ⟨_, _, rfl, rfl, by simp⟩
  | call => exact ⟨_, _, rfl, rfl, by simp⟩
  | parenthesised _ ih =>
    obtain ⟨first, rest, rfl, hfirst, -⟩ := ih
    refine ⟨_, _, rfl, rfl, ?_⟩
    intro second hsecond
    obtain rfl : first = second := by simpa using hsecond
    rintro hkind
    simp [hkind, startsExpression_iff] at hfirst
  | tighter _ ih => exact ih
  | @binary _ _ operator _ _ _ _ _ _ ih =>
    apply ih.append
    intro symbol hsymbol
    obtain rfl : Symbol.char operator.symbol = symbol := by simpa using hsymbol
    cases operator <;> simp [BinaryOperator.symbol]
  | expression _ ih => exact ih
  | argument _ ih => exact ih
  | arguments _ _ ih => exact ih.append (by simp)
  | @assignment _ targets _ _ hne =>
    obtain ⟨target, targets, rfl⟩ := List.exists_cons_of_ne_nil hne
    exact ⟨_, _, rfl, rfl⟩
  | result => exact ⟨_, _, rfl, rfl⟩
  | conditional => exact ⟨_, _, rfl, rfl⟩
  | loop => exact ⟨_, _, rfl, rfl⟩
  | expressionStatement _ ih =>
    obtain ⟨first, rest, rfl, hfirst, -⟩ := ih
    exact ⟨first, _, rfl, hstatement hfirst⟩
  | block => exact ⟨_, rfl⟩
  | absent => trivial
  | elseIf => trivial
  | elseBlock => trivial
  | noStatement => trivial
  | statements => trivial

/-- The phrases in which an expression or a list is open. -/
def Phrase.isOpen : Phrase → Bool
  | .operand _ _ | .otherwise _ => false
  | _ => true

theorem Derives.one_le {depth : Nat} {phrase : Phrase} {word : List Symbol}
    (h : Derives depth phrase word) (hopen : phrase.isOpen) : 1 ≤ depth := by
  induction h <;> simp_all [Phrase.isOpen]

/-- A word that spells the members of a list one after the other. -/
inductive Chain (spells : α → List Symbol → Prop) : List α → List Symbol → Prop
  | nil : Chain spells [] []
  | cons {a : α} {as : List α} {word word' : List Symbol} : spells a word → Chain spells as word' →
      Chain spells (a :: as) (word ++ word')

namespace Chain

variable {spells : α → List Symbol → Prop}

theorem singleton {a : α} {word : List Symbol} (h : spells a word) : Chain spells [a] word := by
  simpa using Chain.cons h .nil

theorem eq_flatMap {as : List α} {word : List Symbol} {symbols : α → List Symbol}
    (h : Chain spells as word) (hspells : ∀ a word, spells a word → word = symbols a) :
    word = as.flatMap symbols := by
  induction h with
  | nil => rfl
  | cons ha _ ih => rw [List.flatMap_cons, ← hspells _ _ ha, ← ih]

theorem forall_mem {as : List α} {word : List Symbol} {p : α → Prop} (h : Chain spells as word)
    (hspells : ∀ a word, spells a word → p a) : ∀ a ∈ as, p a := by
  induction h with
  | nil => simp
  | cons ha _ ih => exact List.forall_mem_cons.mpr ⟨hspells _ _ ha, ih⟩

theorem exists_of_append {as bs : List α} {word : List Symbol} (h : Chain spells (as ++ bs) word) :
    ∃ left right, word = left ++ right ∧ Chain spells as left ∧ Chain spells bs right := by
  induction as generalizing word with
  | nil => exact ⟨[], word, rfl, .nil, h⟩
  | cons a as ih =>
    cases h with
    | cons ha htail =>
      obtain ⟨left, right, rfl, hleft, hright⟩ := ih htail
      exact ⟨_, right, (List.append_assoc _ _ _).symm, .cons ha hleft, hright⟩

end Chain

/-- The symbols of a phrase, whatever the depth. -/
def Spells (phrase : Phrase) (word : List Symbol) : Prop := ∃ depth, Derives depth phrase word

/-- An operation with the power that the grammar gives to its operator. -/
def SpellsOperation (operation : Operation) (word : List Symbol) : Prop :=
  operation.power.rank = operation.operator.level ∧
    ∃ rest, word = .char operation.operator.symbol :: rest ∧
      Spells (.operand 4 operation.operand) rest

/-- A comma and what stands after it. -/
def SpellsAfterComma (spells : α → List Symbol → Prop) (a : α) (word : List Symbol) : Prop :=
  ∃ rest, word = .char ',' :: rest ∧ spells a rest

def SpellsTarget (target : String) (word : List Symbol) : Prop :=
  IsName target ∧ word = [.name target, .char '=']

/-- An `if` with its condition and body. -/
def SpellsHead (link : Link) (word : List Symbol) : Prop :=
  ∃ rest rest', word = .keyword .branch :: (rest ++ rest') ∧
    Spells (.expression link.condition) rest ∧ Spells (.block link.body) rest'

def SpellsLink (link : Link) (word : List Symbol) : Prop :=
  ∃ rest, word = .keyword .otherwise :: rest ∧ SpellsHead link rest

def SpellsElse (body : Block) (word : List Symbol) : Prop :=
  ∃ rest, word = .keyword .otherwise :: rest ∧ Spells (.block body) rest

/-- The words that make a loop behind what stands in front of its first expression. -/
def SpellsLoopFrom (index : String) (stmt : Stmt) (word : List Symbol) : Prop :=
  Spells (.statement stmt) (.keyword .loop :: .char '(' :: .name index :: .char '=' :: word)

theorem BinaryOperator.level_le (operator : BinaryOperator) : operator.level ≤ 3 := by
  cases operator <;> decide

theorem Derives.operand_of_le {depth level level' : Nat} {expr : Expr} {word : List Symbol}
    (h : Derives depth (.operand level' expr) word) (hle : level ≤ level') :
    Derives depth (.operand level expr) word := by
  induction hle with
  | refl => exact h
  | step _ ih => exact ih (.tighter h)

theorem Spells.operand_of_le {level level' : Nat} {expr : Expr} {word : List Symbol}
    (h : Spells (.operand level' expr) word) (hle : level ≤ level') :
    Spells (.operand level expr) word := by
  obtain ⟨depth, h⟩ := h
  exact ⟨depth, h.operand_of_le hle⟩

/-- No operator is as loose as the lowest level. -/
theorem Spells.operand_one {expr : Expr} {word : List Symbol}
    (h : Spells (.operand 0 expr) word) : Spells (.operand 1 expr) word := by
  obtain ⟨depth, h⟩ := h
  generalize hphrase : Phrase.operand 0 expr = phrase at h
  cases h with
  | tighter h =>
    obtain ⟨rfl, rfl⟩ := Phrase.operand.inj hphrase
    exact ⟨depth, h⟩
  | @binary _ _ operator => cases operator <;> simp [BinaryOperator.level] at hphrase
  | _ => simp at hphrase

/-- Grouping by precedence follows the levels of the grammar. -/
theorem spells_of_groups {least : Nat} {first expr : Expr} {operations : List Operation}
    (hgroups : Groups least first operations expr) (hleast : least ≤ 4) {word word' : List Symbol}
    (hfirst : Spells (.operand 4 first) word) (hchain : Chain SpellsOperation operations word') :
    Spells (.operand least expr) (word ++ word') := by
  induction hgroups generalizing word word' with
  | operand =>
    cases hchain
    rw [List.append_nil]
    exact hfirst.operand_of_le hleast
  | @binary least first left right operations operations' operation _ hle _ ihleft ihright =>
    obtain ⟨front, back, rfl, hfront, hback⟩ := hchain.exists_of_append
    cases hback with
    | cons hoperation hrest =>
      obtain ⟨hrank, rest, rfl, hoperand⟩ := hoperation
      have hlevel := operation.operator.level_le
      obtain ⟨depth, hleft⟩ := ihleft (by omega) hfirst hfront
      obtain ⟨depth', hright⟩ := ihright (by omega) hoperand hrest
      rw [hrank] at hleft hright hle
      have htree : Spells (.operand operation.operator.level
          (.binary operation.operator left right)) _ := ⟨_, .binary hleft hright⟩
      simpa using htree.operand_of_le hle

theorem spells_arguments {first : Expr} {args : List Expr} {word word' : List Symbol}
    (hfirst : Spells (.expression first) word)
    (hchain : Chain (SpellsAfterComma fun arg ↦ Spells (.expression arg)) args word') :
    Spells (.arguments (first :: args)) (word ++ word') := by
  induction hchain generalizing first word with
  | nil =>
    obtain ⟨depth, hfirst⟩ := hfirst
    rw [List.append_nil]
    exact ⟨depth, .argument hfirst⟩
  | cons ha _ ih =>
    obtain ⟨rest, rfl, harg⟩ := ha
    obtain ⟨depth, hfirst⟩ := hfirst
    obtain ⟨depth', hargs⟩ := ih harg
    exact ⟨_, .arguments hfirst hargs⟩

theorem spells_statements {body : Block} {word : List Symbol}
    (hchain : Chain (fun stmt ↦ Spells (.statement stmt)) body word) :
    Spells (.statements body) word := by
  induction hchain with
  | nil => exact ⟨1, .noStatement⟩
  | cons hstmt _ ih =>
    obtain ⟨depth, hstmt⟩ := hstmt
    obtain ⟨depth', hbody⟩ := ih
    exact ⟨_, .statements hstmt hbody⟩

theorem Spells.assignment {targets : List String} {value : Expr} {word word' : List Symbol}
    (hne : targets ≠ []) (htargets : Chain SpellsTarget targets word)
    (hvalue : Spells (.expression value) word') :
    Spells (.statement (.assignment targets value)) (word ++ (word' ++ [.char ';'])) := by
  obtain ⟨depth, hvalue⟩ := hvalue
  rw [htargets.eq_flatMap fun target word h ↦ h.2]
  exact ⟨depth, .assignment hne (htargets.forall_mem fun target word h ↦ h.1) hvalue⟩

theorem Spells.expressionStatement {value : Expr} {word : List Symbol}
    (h : Spells (.expression value) word) :
    Spells (.statement (.expression value)) (word ++ [.char ';']) := by
  obtain ⟨depth, h⟩ := h
  exact ⟨depth, .expressionStatement h⟩

theorem Spells.result {value : Expr} {word : List Symbol} (h : Spells (.expression value) word) :
    Spells (.statement (.result value)) (.keyword .result :: (word ++ [.char ';'])) := by
  obtain ⟨depth, h⟩ := h
  exact ⟨depth, .result h⟩

theorem Spells.block {body : Block} {word : List Symbol} (h : Spells (.statements body) word) :
    Spells (.block body) (.char '{' :: (word ++ [.char '}'])) := by
  obtain ⟨depth, h⟩ := h
  exact ⟨_, .block h⟩

theorem spells_loopFrom {index : String} {initial condition step : Expr} {body : Block}
    {word₁ word₂ word₃ word₄ : List Symbol} (hindex : IsName index)
    (hinitial : Spells (.expression initial) word₁)
    (hcondition : Spells (.expression condition) word₂) (hstep : Spells (.expression step) word₃)
    (hbody : Spells (.block body) word₄) :
    SpellsLoopFrom index (.loop index initial condition step body)
      (word₁ ++ .char ';' :: (word₂ ++ .char ';' :: (word₃ ++ .char ')' :: word₄))) := by
  obtain ⟨depth₁, hinitial⟩ := hinitial
  obtain ⟨depth₂, hcondition⟩ := hcondition
  obtain ⟨depth₃, hstep⟩ := hstep
  obtain ⟨depth₄, hbody⟩ := hbody
  exact ⟨_, .loop hindex hinitial hcondition hstep hbody⟩

theorem spells_otherwise {others : List Link} {last : Option Block} {word word' : List Symbol}
    (hchain : Chain SpellsLink others word)
    (hlast : Spells (.otherwise (.ofLinks [] last)) word') :
    Spells (.otherwise (.ofLinks others last)) (word ++ word') := by
  induction hchain with
  | nil => exact hlast
  | cons hlink _ ih =>
    obtain ⟨_, rfl, rest, rest', rfl, ⟨depth, hcondition⟩, ⟨depth', hbody⟩⟩ := hlink
    obtain ⟨depth'', hothers⟩ := ih
    have hchain := Derives.elseIf hcondition hbody hothers
    exact ⟨_, by simpa [ElseBranch.ofLinks] using hchain⟩

theorem SpellsElse.otherwise {body : Block} {word : List Symbol} (h : SpellsElse body word) :
    Spells (.otherwise (.ofLinks [] (some body))) word := by
  obtain ⟨rest, rfl, depth, hbody⟩ := h
  exact ⟨depth, .elseBlock hbody⟩

theorem spells_ofLinks {first : Link} {others : List Link} {last : Option Block}
    {word word' word'' : List Symbol} (hfirst : SpellsHead first word)
    (hchain : Chain SpellsLink others word')
    (hlast : Spells (.otherwise (.ofLinks [] last)) word'') :
    Spells (.statement (.ofLinks first others last)) (word ++ (word' ++ word'')) := by
  obtain ⟨rest, rest', rfl, ⟨depth, hcondition⟩, ⟨depth', hbody⟩⟩ := hfirst
  obtain ⟨depth'', hothers⟩ := spells_otherwise hchain hlast
  have hstatement := Derives.conditional hcondition hbody hothers
  exact ⟨_, by simpa [Stmt.ofLinks] using hstatement⟩

theorem spells_absent : Spells (.otherwise (.ofLinks [] none)) [] := ⟨0, .absent⟩

end ExprLang
