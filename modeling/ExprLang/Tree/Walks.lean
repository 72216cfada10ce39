import ExprLang.Tree.Outline

/-!
# Several Walks at Once

Any number of walks through the outline of one node, each with its own progress.  Walks are counted
from zero in the order in which they were added.
-/

namespace ExprLang

structure Walks where
  node : Node
  walks : List Walk

namespace Walks

inductive Action where
  /-- Takes the next line of a walk. -/
  | next (index : Nat)
  /-- Takes all lines of a walk that are left. -/
  | rest (index : Nat)
  /-- Adds a walk that goes on from where another one stands. -/
  | fork (index : Nat)
  /-- Adds a walk that starts at the beginning. -/
  | fresh
deriving DecidableEq, Repr

inductive Answer where
  | line (line : Option String)
  | lines (lines : List String)
  /-- The number of the walk that was added. -/
  | added (index : Nat)
deriving DecidableEq, Repr

/-- One walk, which stands at the beginning. -/
def start (node : Node) : Walks := ⟨node, [node.walk]⟩

/-- The walk of a number.  A walk that was not added is over. -/
def walk (walks : Walks) (index : Nat) : Walk := walks.walks.getD index .exhausted

def replace (walks : Walks) (index : Nat) (walk : Walk) : Walks :=
  { walks with walks := walks.walks.set index walk }

def add (walks : Walks) (walk : Walk) : Answer × Walks :=
  (.added walks.walks.length, { walks with walks := walks.walks ++ [walk] })

def perform (walks : Walks) : Action → Answer × Walks
  | .next index =>
    match (walks.walk index).next? with
    | none => (.line none, walks)
    | some (line, walk) => (.line (some line), walks.replace index walk)
  | .rest index => (.lines (walks.walk index).rest, walks.replace index .exhausted)
  | .fork index => walks.add (walks.walk index)
  | .fresh => walks.add walks.node.walk

/-- What each of the actions yields. -/
def performAll (walks : Walks) : List Action → List Answer
  | [] => []
  | action :: rest =>
    let (answer, walks) := walks.perform action
    answer :: walks.performAll rest

end Walks

end ExprLang
