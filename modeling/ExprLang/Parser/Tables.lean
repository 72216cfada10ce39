import ExprLang.Token

/-!
# Parser Tables

A parser looks up what a token starts: a statement, a primary expression, or the right side of a
binary operation with its power.  The default tables hold the grammar of the language; entries may
be added or replaced.
-/

namespace ExprLang

/-- How tightly a binary operator binds, the loosest first. -/
inductive BindingPower where
  | lowest
  | relational
  | additive
  | multiplicative
deriving DecidableEq, Repr

def BindingPower.rank : BindingPower → Nat
  | lowest => 0
  | relational => 1
  | additive => 2
  | multiplicative => 3

/-- How many powers there are. -/
def BindingPower.count : Nat := 4

theorem BindingPower.rank_lt_count (power : BindingPower) : power.rank < count := by
  cases power <;> decide

/-- How a primary expression is read.  A table holds these forms only: a client can register one for
any token, but cannot bring a form of its own. -/
inductive PrimaryForm where
  | number
  | name
  | parenthesised
deriving DecidableEq, Repr

/-- How a statement is read.  As with primary expressions, a client brings no form of its own. -/
inductive StatementForm where
  | assignment
  | result
  | conditional
  | loop
deriving DecidableEq, Repr

/-- What each kind of token stands for; a kind has at most one entry. -/
abbrev Table (α : Type) := List (TokenKind × α)

namespace Table

variable {α : Type}

def find? (table : Table α) (kind : TokenKind) : Option α := table.lookup kind

/-- Replaces the entry of a kind or adds one. -/
def register (table : Table α) (kind : TokenKind) (value : α) : Table α :=
  (kind, value) :: table.filter fun entry ↦ entry.1 ≠ kind

end Table

structure Tables where
  statements : Table StatementForm
  primaries : Table PrimaryForm
  powers : Table BindingPower
deriving DecidableEq, Repr

/-- The tables of the language. -/
def Tables.default : Tables where
  statements :=
    [(.keyword .result, .result), (.keyword .branch, .conditional), (.keyword .loop, .loop)]
  primaries := [(.number, .number), (.identifier, .name), (.char '(', .parenthesised)]
  powers :=
    [(.char '<', .relational), (.char '>', .relational), (.char '+', .additive),
      (.char '-', .additive), (.char '*', .multiplicative), (.char '/', .multiplicative)]

end ExprLang
