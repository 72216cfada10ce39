import ExprLang.Lexer

/-!
# Lexer Sessions

A session works on one lexer and keeps a second one aside, to which it can go back.
-/

namespace ExprLang.Lexer

inductive Action where
  /-- Reads a token. -/
  | next
  /-- Looks at a token without reading it. -/
  | peek
  /-- Keeps the lexer aside. -/
  | save
  /-- Goes back to the lexer that was kept aside. -/
  | load
deriving DecidableEq, Repr

structure Session where
  lexer : Lexer
  saved : Lexer
deriving DecidableEq

namespace Session

/-- At the start the lexer itself is kept aside. -/
def start (lexer : Lexer) : Session := ⟨lexer, lexer⟩

/-- Takes one action and yields the token that it read or looked at. -/
def perform (session : Session) : Action → Option Token × Session
  | .next =>
    let (token, lexer) := session.lexer.next
    (some token, { session with lexer := lexer })
  | .peek =>
    let (token, lexer) := session.lexer.peek
    (some token, { session with lexer := lexer })
  | .save => (none, { session with saved := session.lexer })
  | .load => (none, { session with lexer := session.saved })

/-- What each of the actions yields, and the session after all of them. -/
def performAll (session : Session) : List Action → List (Option Token) × Session
  | [] => ([], session)
  | action :: rest =>
    let (answer, session) := session.perform action
    let (answers, session) := session.performAll rest
    (answer :: answers, session)

end Session

end ExprLang.Lexer
