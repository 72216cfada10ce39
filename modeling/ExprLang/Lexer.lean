import ExprLang.Binary64
import ExprLang.Diagnostic
import ExprLang.Token

/-!
# The Lexer

A lexer stands between two tokens of a source.  The next token is the longest word, the longest run
of digits and points, or a single other character after a gap of blanks and comments.  The lexer
also holds the payload of what it has read: the last token if it was a word, and the value of the
last well-formed number.
-/

namespace ExprLang

/-- Blanks are the ASCII characters space, tab, line feed, vertical tab, form feed and carriage
return. -/
def isBlank (c : Char) : Bool := c.toNat = 32 || (9 ≤ c.toNat && c.toNat ≤ 13)

/-- The two characters that end a comment. -/
def endsComment (c : Char) : Bool := c = '\n' || c = '\r'

/-- Splits the text into the gap at its start and the rest.  A comment runs from `#` to the next
line feed or carriage return; the first argument tells that a comment is open. -/
def splitGap : Bool → List Char → List Char × List Char
  | _, [] => ([], [])
  | true, c :: cs =>
    let split := splitGap (!endsComment c) cs
    (c :: split.1, split.2)
  | false, c :: cs =>
    if isBlank c || c = '#' then
      let split := splitGap (c = '#') cs
      (c :: split.1, split.2)
    else ([], c :: cs)

theorem splitGap_append (inComment : Bool) (cs : List Char) :
    (splitGap inComment cs).1 ++ (splitGap inComment cs).2 = cs := by
  induction cs generalizing inComment with
  | nil => cases inComment <;> rfl
  | cons c cs ih =>
    cases inComment with
    | true => simp [splitGap, ih]
    | false =>
      simp only [splitGap]
      split <;> simp [ih]

/-- Digits and points, the characters that a run after a first digit consists of. -/
def isNumeric (c : Char) : Bool := c.isDigit || c = '.'

/-- The text of the token that starts a text. -/
def firstLexeme : List Char → List Char
  | [] => []
  | c :: cs =>
    if c.isAlpha then c :: cs.takeWhile Char.isAlphanum
    else if c.isDigit then c :: cs.takeWhile isNumeric
    else [c]

theorem takeWhile_append_drop_length (p : Char → Bool) (cs : List Char) :
    cs.takeWhile p ++ cs.drop (cs.takeWhile p).length = cs := by
  induction cs with
  | nil => rfl
  | cons c cs ih =>
    simp only [List.takeWhile_cons]
    split <;> simp [ih]

theorem firstLexeme_append_drop (cs : List Char) :
    firstLexeme cs ++ cs.drop (firstLexeme cs).length = cs := by
  cases cs with
  | nil => rfl
  | cons c cs =>
    simp only [firstLexeme]
    split
    · simp [takeWhile_append_drop_length]
    · split <;> simp [takeWhile_append_drop_length]

/-- The kind of token that a text is.  A run of digits may have one point. -/
def kindOf : List Char → TokenKind
  | [] => .endOfInput
  | c :: cs =>
    if c.isAlpha then
      match Keyword.ofWord? (String.ofList (c :: cs)) with
      | some keyword => .keyword keyword
      | none => .identifier
    else if c.isDigit then
      if cs.count '.' ≤ 1 then .number else .malformedNumber
    else .char c

structure Lexer where
  source : String
  /-- The name under which positions and messages know the source. -/
  file : String
  /-- The text after the last token read. -/
  rest : List Char
  /-- The byte offset at which `rest` starts. -/
  offset : Nat
  /-- The last token read if it was a word, otherwise empty. -/
  word : String
  /-- The value of the last well-formed number read. -/
  number : Binary64
deriving DecidableEq

namespace Lexer

/-- The file name of a source that was given none. -/
def defaultFile : String := "shell"

/-- The lexer at the start of a source. -/
def ofSource (source : String) (file : Option String) : Lexer :=
  ⟨source, file.getD defaultFile, source.toList, 0, "", .zero⟩

/-- Reads a token.  At the end of the source this is the empty token, however often it is read. -/
def next (lexer : Lexer) : Token × Lexer :=
  let (gap, rest) := splitGap false lexer.rest
  let lexeme := firstLexeme rest
  let kind := kindOf lexeme
  let text := String.ofList lexeme
  let start := lexer.offset + Text.byteSize gap
  let stop := start + Text.byteSize lexeme
  (⟨kind, text, start, stop⟩,
    { lexer with
      rest := rest.drop lexeme.length
      offset := stop
      word := match kind with
        | .identifier | .keyword _ => text
        | _ => ""
      number := if kind = .number then .ofLiteral lexeme else lexer.number })

/-- Reads a token and puts back all that reading it has changed. -/
def peek (lexer : Lexer) : Token × Lexer :=
  let (token, after) := lexer.next
  (token, { after with
    rest := lexer.rest
    offset := lexer.offset
    word := lexer.word
    number := lexer.number })

/-- A look leaves the lexer alone. -/
theorem peek_eq (lexer : Lexer) : lexer.peek = (lexer.next.1, lexer) := rfl

/-- The tokens up to the end of input, at most as many as the first argument tells. -/
def upToEnd : Nat → Lexer → List Token
  | 0, _ => []
  | n + 1, lexer =>
    let (token, lexer) := lexer.next
    if token.kind = .endOfInput then [token] else token :: upToEnd n lexer

/-- The tokens that are left, the end of input last.  Each of the others takes a character. -/
def tokens (lexer : Lexer) : List Token := upToEnd (lexer.rest.length + 1) lexer

end Lexer

/-- The tokens of a source with the end of input last, unless a number among them is malformed. -/
def tokenize (source : String) (file : Option String) : Except Diagnostic (List Token) :=
  let lexer := Lexer.ofSource source file
  let tokens := lexer.tokens
  match tokens.find? fun token ↦ token.kind = .malformedNumber with
  | some token => .error ⟨.malformedNumber token.lexeme, ⟨token.start, lexer.file⟩⟩
  | none => .ok tokens

end ExprLang
