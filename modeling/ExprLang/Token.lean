/-!
# Tokens

A token has a kind, the text it was read from and the two byte offsets of that text.  The module
also fixes the two spellings of a token: the one of a token listing and the one of a message.
-/

namespace ExprLang

/-- The reserved words. -/
inductive Keyword where
  | definition
  | declaration
  | result
  | branch
  | otherwise
  | loop
deriving DecidableEq, Repr

namespace Keyword

def word : Keyword → String
  | definition => "fn"
  | declaration => "extern"
  | result => "return"
  | branch => "if"
  | otherwise => "else"
  | loop => "for"

/-- The name of a keyword in a token listing. -/
def name : Keyword → String
  | definition => "Definition"
  | declaration => "Extern"
  | result => "Return"
  | branch => "If"
  | otherwise => "Else"
  | loop => "For"

def all : List Keyword := [definition, declaration, result, branch, otherwise, loop]

def ofWord? (word : String) : Option Keyword :=
  all.find? fun keyword ↦ keyword.word = word

@[simp]
theorem ofWord?_word (keyword : Keyword) : ofWord? keyword.word = some keyword := by
  cases keyword <;> rfl

theorem ofWord?_eq_some_iff {word : String} {keyword : Keyword} :
    ofWord? word = some keyword ↔ keyword.word = word := by
  constructor
  · intro h
    simpa using List.find?_some h
  · rintro rfl
    exact ofWord?_word keyword

end Keyword

/-- What a token is.  Every character that starts no word and no number is a token of its own. -/
inductive TokenKind where
  | endOfInput
  | identifier
  | number
  | malformedNumber
  | char (c : Char)
  | keyword (keyword : Keyword)
deriving DecidableEq, Repr

namespace TokenKind

/-- The name of a kind in a token listing. -/
def name : TokenKind → String
  | endOfInput => "EOF"
  | identifier => "Identifier"
  | number => "Number"
  | malformedNumber => "MalformedNumber"
  | char c => "Char(" ++ c.toString ++ ")"
  | keyword k => k.name

/-- How messages speak of a kind. -/
def describe : TokenKind → String
  | endOfInput => "end of input"
  | identifier => "identifier"
  | number => "number"
  | malformedNumber => "malformed number"
  | char c => "'" ++ c.toString ++ "'"
  | keyword k => "'" ++ k.word ++ "'"

end TokenKind

structure Token where
  kind : TokenKind
  /-- The text of the token in the source. -/
  lexeme : String
  /-- The byte offset of the first character. -/
  start : Nat
  /-- The byte offset just after the last character. -/
  stop : Nat
deriving DecidableEq, Repr

namespace Token

/-- The line for a token in a token listing. -/
def listing (token : Token) : String :=
  match token.kind with
  | .identifier | .number | .malformedNumber => token.kind.name ++ " (" ++ token.lexeme ++ ")"
  | _ => token.kind.name

/-- How messages speak of a token that was found. -/
def describe (token : Token) : String :=
  match token.kind with
  | .identifier => "identifier '" ++ token.lexeme ++ "'"
  | .number | .malformedNumber => "number '" ++ token.lexeme ++ "'"
  | _ => token.kind.describe

def isChar (token : Token) (c : Char) : Bool := token.kind = .char c

end Token

end ExprLang
