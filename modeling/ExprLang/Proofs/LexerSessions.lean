import ExprLang.Lexer.Session
import ExprLang.Proofs.ParserSessions
import Mathlib.Data.List.DropRight

/-!
# Lexer Sessions

A load takes a lexer back to the last save, so what a session has read is what it has read along the
current line of its history.  These are the first tokens of the stream, however often they were
looked at before, and they determine all that the lexer holds.
-/

namespace ExprLang.Lexer

/-- An action that was taken, with what it yielded. -/
abbrev Event := Action × Option Token

/-- A line up to its last save.  Nothing is left of a line without one. -/
def upToSave (line : List Event) : List Event :=
  line.rdropWhile fun event ↦ event.1 ≠ .save

/-- A load takes back everything since the last save. -/
def continued (line : List Event) (event : Event) : List Event :=
  if event.1 = .load then upToSave line else line ++ [event]

/-- What counts of a history, its events given in their order. -/
def currentLine (events : List Event) : List Event := events.foldl continued []

/-- The token that was read, if one was. -/
def Event.read? (event : Event) : Option Token := if event.1 = .next then event.2 else none

def tokensRead (line : List Event) : List Token := line.filterMap Event.read?

/-- The value of the last well-formed number, or zero. -/
def lastNumber (tokens : List Token) : Binary64 :=
  match tokens.reverse.find? fun token ↦ token.kind = .number with
  | some token => .ofLiteral token.lexeme.toList
  | none => .zero

theorem upToSave_concat_save (line : List Event) (answer : Option Token) :
    upToSave (line ++ [(.save, answer)]) = line ++ [(.save, answer)] :=
  List.rdropWhile_concat_neg _ _ _ (by simp)

theorem upToSave_concat {action : Action} (h : action ≠ .save) (line : List Event)
    (answer : Option Token) : upToSave (line ++ [(action, answer)]) = upToSave line :=
  List.rdropWhile_concat_pos _ _ _ (by simpa using h)

theorem upToSave_upToSave (line : List Event) : upToSave (upToSave line) = upToSave line :=
  List.rdropWhile_idempotent _ line

theorem tokensRead_concat_next (line : List Event) (token : Token) :
    tokensRead (line ++ [(.next, some token)]) = tokensRead line ++ [token] := by
  rw [tokensRead, List.filterMap_append]
  rfl

theorem tokensRead_concat {action : Action} (h : action ≠ .next) (line : List Event)
    (answer : Option Token) : tokensRead (line ++ [(action, answer)]) = tokensRead line := by
  rw [tokensRead, List.filterMap_append]
  simp [tokensRead, Event.read?, h]

/-- The line has read the first tokens of the stream, and the lexer stands behind them. -/
def StandsBehind (stream : Lexer) (line : List Event) (lexer : Lexer) : Prop :=
  ∃ n, tokensRead line = (List.range n).map stream.token ∧ lexer = stream.after n

namespace StandsBehind

variable {stream lexer : Lexer} {line line' : List Event}

theorem of_tokensRead_eq (h : StandsBehind stream line lexer)
    (heq : tokensRead line' = tokensRead line) : StandsBehind stream line' lexer := by
  obtain ⟨n, htokens, hlexer⟩ := h
  exact ⟨n, heq.trans htokens, hlexer⟩

theorem next (h : StandsBehind stream line lexer) :
    StandsBehind stream (line ++ [(.next, some lexer.next.1)]) lexer.next.2 := by
  obtain ⟨n, htokens, rfl⟩ := h
  refine ⟨n + 1, ?_, (stream.after_succ_eq_next n).symm⟩
  rw [tokensRead_concat_next, htokens, List.range_succ, List.map_append]
  rfl

/-- How many tokens a line has read determines all of them, and the lexer. -/
theorem iff_length : StandsBehind stream line lexer ↔
    tokensRead line = (List.range (tokensRead line).length).map stream.token ∧
      lexer = stream.after (tokensRead line).length := by
  refine ⟨fun ⟨n, htokens, hlexer⟩ ↦ ?_, fun h ↦ ⟨_, h⟩⟩
  have hlength : (tokensRead line).length = n := by rw [htokens, List.length_map, List.length_range]
  rw [hlength]
  exact ⟨htokens, hlexer⟩

theorem next_eq (h : StandsBehind stream line lexer) :
    lexer.next.1 = stream.token (tokensRead line).length := by
  rw [(iff_length.mp h).2, token]

/-- A lexer at the start of its stream, or behind the last token of a line that is not empty. -/
theorem start_or_behind (h : StandsBehind stream line lexer) :
    ((tokensRead line).getLast? = none ∧ lexer = stream) ∨
      ∃ n, (tokensRead line).getLast? = some (stream.token n) ∧ lexer = stream.after (n + 1) := by
  obtain ⟨n, htokens, hlexer⟩ := h
  rw [htokens, List.getLast?_map, List.getLast?_range]
  cases n with
  | zero => exact .inl ⟨rfl, hlexer⟩
  | succ n => exact .inr ⟨n, rfl, hlexer⟩

theorem offset_eq (h : StandsBehind stream line lexer) (hstart : stream.offset = 0) :
    lexer.offset = ((tokensRead line).getLast?.map Token.stop).getD 0 := by
  obtain ⟨hlast, rfl⟩ | ⟨n, hlast, rfl⟩ := h.start_or_behind
  · rw [hlast, hstart]
    rfl
  · rw [hlast, after_succ_eq_next, next_offset]
    rfl

theorem word_eq (h : StandsBehind stream line lexer) (hstart : stream.word = "") :
    lexer.word = ((tokensRead line).getLast?.map Token.word).getD "" := by
  obtain ⟨hlast, rfl⟩ | ⟨n, hlast, rfl⟩ := h.start_or_behind
  · rw [hlast, hstart]
    rfl
  · rw [hlast, after_word]
    rfl

theorem number_eq (h : StandsBehind stream line lexer) (hstart : stream.number = .zero) :
    lexer.number = lastNumber (tokensRead line) := by
  obtain ⟨n, htokens, rfl⟩ := h
  rw [after_number hstart, htokens]
  rfl

end StandsBehind

namespace Session

/-- The lexer stands behind the current line, and the one that is kept aside behind the last save
on it. -/
structure Follows (stream : Lexer) (line : List Event) (session : Session) : Prop where
  lexer : StandsBehind stream line session.lexer
  saved : StandsBehind stream (upToSave line) session.saved

variable {stream : Lexer} {line : List Event} {session : Session}

theorem follows_start (stream : Lexer) : Follows stream [] (start stream) :=
  ⟨⟨0, rfl, rfl⟩, ⟨0, rfl, rfl⟩⟩

theorem Follows.perform (h : Follows stream line session) (action : Action) :
    Follows stream (continued line (action, (session.perform action).1))
      (session.perform action).2 := by
  cases action with
  | next =>
    refine ⟨h.lexer.next, ?_⟩
    rw [continued, if_neg (by simp), upToSave_concat (by simp)]
    exact h.saved
  | peek =>
    refine ⟨h.lexer.of_tokensRead_eq (tokensRead_concat (by simp) line _), ?_⟩
    rw [continued, if_neg (by simp), upToSave_concat (by simp)]
    exact h.saved
  | save =>
    have hne : Action.save ≠ .next := by simp
    have hsaved := h.lexer.of_tokensRead_eq (tokensRead_concat hne line none)
    refine ⟨hsaved, ?_⟩
    rw [continued, if_neg (by simp)]
    exact (upToSave_concat_save line none).symm ▸ hsaved
  | load =>
    refine ⟨h.saved, ?_⟩
    rw [continued, if_pos rfl, upToSave_upToSave]
    exact h.saved

/-- The actions with what each of them yields. -/
def events (session : Session) (actions : List Action) : List Event :=
  actions.zip (session.performAll actions).1

theorem events_cons (session : Session) (action : Action) (rest : List Action) :
    session.events (action :: rest) =
      (action, (session.perform action).1) :: (session.perform action).2.events rest := rfl

theorem Follows.performAll (h : Follows stream line session) (actions : List Action) :
    Follows stream ((session.events actions).foldl continued line)
      (session.performAll actions).2 := by
  induction actions generalizing line session with
  | nil => exact h
  | cons action rest ih => exact ih (h.perform action)

/-- Without the looks at tokens the other actions yield the same. -/
theorem events_filter_peek (session : Session) (actions : List Action) :
    session.events (actions.filter (· ≠ .peek)) =
        (session.events actions).filter (fun event ↦ event.1 ≠ .peek) ∧
      (session.performAll (actions.filter (· ≠ .peek))).2 = (session.performAll actions).2 := by
  induction actions generalizing session with
  | nil => exact ⟨rfl, rfl⟩
  | cons action rest ih =>
    obtain ⟨hevents, hsession⟩ := ih (session.perform action).2
    by_cases hpeek : action = .peek
    · subst hpeek
      rw [List.filter_cons_of_neg (by simp), events_cons, List.filter_cons_of_neg (by simp)]
      exact ⟨hevents, hsession⟩
    · rw [List.filter_cons_of_pos (by simpa using hpeek), events_cons, events_cons,
        List.filter_cons_of_pos (by simpa using hpeek), hevents]
      exact ⟨rfl, hsession⟩

/-- After any actions the tokens read along the current line are the first ones of the stream, the
next one is the same whether it is looked at or read, and what the lexer holds is determined by
those that were read: it stands behind the last one, holds its text if it was a word, and holds the
value of the last well-formed number.  Where tokens were looked at makes no difference. -/
theorem reads_along_current_line (source : String) (file : Option String) (actions : List Action) :
    let stream := ofSource source file
    let session := ((start stream).performAll actions).2
    let events := (start stream).events actions
    let read := tokensRead (currentLine events)
    read = (List.range read.length).map stream.token ∧
      session.perform .peek = (some (stream.token read.length), session) ∧
      (session.perform .next).1 = some (stream.token read.length) ∧
      session.lexer.offset = (read.getLast?.map Token.stop).getD 0 ∧
      session.lexer.word = (read.getLast?.map Token.word).getD "" ∧
      session.lexer.number = lastNumber read ∧
      (start stream).events (actions.filter (· ≠ .peek)) =
        events.filter (fun event ↦ event.1 ≠ .peek) ∧
      ((start stream).performAll (actions.filter (· ≠ .peek))).2 = session := by
  intro stream session events read
  have hbehind : StandsBehind stream (currentLine events) session.lexer :=
    ((follows_start stream).performAll actions).lexer
  have hnext : (session.perform .next).1 = some (stream.token read.length) :=
    congrArg some hbehind.next_eq
  obtain ⟨hevents, hsession⟩ := events_filter_peek (start stream) actions
  refine ⟨(StandsBehind.iff_length.mp hbehind).1, ?_, hnext, hbehind.offset_eq rfl,
    hbehind.word_eq rfl, hbehind.number_eq rfl, hevents, hsession⟩
  rw [← hnext]
  rfl

end Session

end ExprLang.Lexer
