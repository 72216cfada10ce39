import ExprLang.Proofs.Listings
import ExprLang.Tree.Walks
import Mathlib.Data.List.GetD

/-!
# Readers of One Listing

Several walks through one outline behave like readers of its listing, each of which knows only how
many lines it has read.  No walk notices what is drawn from the others.
-/

namespace ExprLang

namespace Walk

theorem rest_eq (walk : Walk) :
    walk.rest = walk.pending.flatMap fun entry ↦ entry.2.lines entry.1 :=
  take_eq (Nat.le_refl _)

theorem rest_walk (node : Node) : node.walk.rest = node.listing 0 := node.dump_eq_listing

/-- A walk is over, or it yields the first of its lines and the others are left. -/
theorem next?_cases (walk : Walk) : walk.next? = none ∧ walk.rest = [] ∨
    ∃ line after, walk.next? = some (line, after) ∧ walk.rest = line :: after.rest := by
  obtain ⟨_ | ⟨⟨depth, ⟨label, parts⟩⟩, pending⟩⟩ := walk
  · exact .inl ⟨rfl, rfl⟩
  · refine .inr ⟨_, _, rfl, ?_⟩
    simp [rest_eq, Outline.lines, Outline.linesAll_eq, List.flatMap_map, Outline.label,
      Outline.parts]

end Walk

namespace Walks

theorem performAll_cons (walks : Walks) (action : Action) (rest : List Action) :
    walks.performAll (action :: rest) =
      (walks.perform action).1 :: (walks.perform action).2.performAll rest := rfl

/-- The walks after some actions. -/
def after (walks : Walks) (actions : List Action) : Walks :=
  actions.foldl (fun walks action ↦ (walks.perform action).2) walks

end Walks

/-- Readers of one list of lines, with the number of lines that each of them has behind it. -/
structure Readers where
  lines : List String
  behind : List Nat

namespace Readers

open Walks (Action Answer)

/-- One reader, which stands at the beginning. -/
def start (lines : List String) : Readers := ⟨lines, [0]⟩

/-- A reader that was not added has all lines behind it. -/
def position (readers : Readers) (index : Nat) : Nat :=
  readers.behind.getD index readers.lines.length

def move (readers : Readers) (index position : Nat) : Readers :=
  { readers with behind := readers.behind.set index position }

def add (readers : Readers) (position : Nat) : Answer × Readers :=
  (.added readers.behind.length, { readers with behind := readers.behind ++ [position] })

def perform (readers : Readers) : Action → Answer × Readers
  | .next index =>
    let position := readers.position index
    (.line readers.lines[position]?, readers.move index (position + 1))
  | .rest index =>
    (.lines (readers.lines.drop (readers.position index)),
      readers.move index readers.lines.length)
  | .fork index => readers.add (readers.position index)
  | .fresh => readers.add 0

/-- What each of the actions yields. -/
def performAll (readers : Readers) : List Action → List Answer
  | [] => []
  | action :: rest => (readers.perform action).1 :: (readers.perform action).2.performAll rest

end Readers

namespace Walks

/-- What is left to each walk is what is left to its reader. -/
structure ReadBy (walks : Walks) (readers : Readers) : Prop where
  lines_eq : readers.lines = walks.node.listing 0
  rests_eq : walks.walks.map Walk.rest = readers.behind.map readers.lines.drop

/-- To replace a walk that is over by a walk that is over changes nothing. -/
theorem replace_walk (walks : Walks) (index : Nat) :
    walks.replace index (walks.walk index) = walks := by
  have hset : walks.walks.set index (walks.walk index) = walks.walks := by
    by_cases hindex : index < walks.walks.length
    · rw [walk, List.getD_eq_getElem _ _ hindex, List.set_getElem_self]
    · exact List.set_eq_of_length_le (Nat.not_lt.mp hindex)
  rw [replace, hset]

namespace ReadBy

variable {walks : Walks} {readers : Readers}

theorem start (node : Node) : (Walks.start node).ReadBy (.start (node.listing 0)) where
  lines_eq := rfl
  rests_eq := by simp [Walks.start, Readers.start, Walk.rest_walk]

theorem length_eq (h : walks.ReadBy readers) : walks.walks.length = readers.behind.length := by
  simpa using congrArg List.length h.rests_eq

theorem rest_eq (h : walks.ReadBy readers) (index : Nat) :
    (walks.walk index).rest = readers.lines.drop (readers.position index) := by
  have hrest : Walk.exhausted.rest = [] := rfl
  have hend : readers.lines.drop readers.lines.length = [] := List.drop_length
  rw [walk, Readers.position, ← List.getD_map _ _ Walk.rest,
    ← List.getD_map _ _ readers.lines.drop, h.rests_eq, hrest, hend]

theorem move (h : walks.ReadBy readers) (index : Nat) {walk : Walk} {position : Nat}
    (hrest : walk.rest = readers.lines.drop position) :
    (walks.replace index walk).ReadBy (readers.move index position) where
  lines_eq := h.lines_eq
  rests_eq := by
    simp only [replace, Readers.move, List.map_set, h.rests_eq, hrest]

theorem add (h : walks.ReadBy readers) {walk : Walk} {position : Nat}
    (hrest : walk.rest = readers.lines.drop position) :
    (walks.add walk).1 = (readers.add position).1 ∧
      (walks.add walk).2.ReadBy (readers.add position).2 := by
  refine ⟨?_, h.lines_eq, ?_⟩
  · simp only [Walks.add, Readers.add, h.length_eq]
  · simp only [Walks.add, Readers.add, List.map_append, h.rests_eq, List.map_cons, List.map_nil,
      hrest]

/-- The readers answer as the walks do, and go on as they do. -/
theorem perform (h : walks.ReadBy readers) (action : Action) :
    (walks.perform action).1 = (readers.perform action).1 ∧
      (walks.perform action).2.ReadBy (readers.perform action).2 := by
  cases action with
  | next index =>
    have hrest := h.rest_eq index
    have hnext : readers.lines[readers.position index]? = (walks.walk index).rest.head? := by
      rw [hrest, List.head?_drop]
    have hbehind : readers.lines.drop (readers.position index + 1) =
        (walks.walk index).rest.tail := by
      rw [hrest, List.tail_drop]
    rcases (walks.walk index).next?_cases with ⟨hover, hnil⟩ | ⟨line, after, hline, hcons⟩
    · -- the reader goes one line past the end, where nothing is left either
      have hstay : (walks.perform (.next index)).2 = walks.replace index (walks.walk index) := by
        simp only [Walks.perform, hover, replace_walk]
      refine ⟨?_, ?_⟩
      · simp [Walks.perform, Readers.perform, hover, hnext, hnil]
      · rw [hstay]
        exact h.move index (by rw [hbehind, hnil]; rfl)
    · refine ⟨?_, ?_⟩
      · simp [Walks.perform, Readers.perform, hline, hnext, hcons]
      · simp only [Walks.perform, hline]
        exact h.move index (by rw [hbehind, hcons]; rfl)
  | rest index =>
    refine ⟨congrArg Answer.lines (h.rest_eq index), h.move index ?_⟩
    rw [List.drop_length]
    rfl
  | fork index => exact h.add (h.rest_eq index)
  | fresh =>
    refine h.add ?_
    rw [Walk.rest_walk, h.lines_eq]
    rfl

theorem performAll (h : walks.ReadBy readers) (actions : List Action) :
    walks.performAll actions = readers.performAll actions := by
  induction actions generalizing walks readers with
  | nil => rfl
  | cons action rest ih =>
    obtain ⟨hanswer, hafter⟩ := h.perform action
    rw [performAll_cons, Readers.performAll, hanswer, ih hafter]

end ReadBy

/-- The action takes lines of the walk of a number. -/
def Action.drawsFrom (index : Nat) : Action → Bool
  | next taken | rest taken => taken = index
  | fork _ | fresh => false

/-- The lines that an answer hands out. -/
def Answer.handedOut : Answer → List String
  | line given => given.toList
  | lines given => given
  | added _ => []

/-- What those actions yield that take lines of the walk of a number. -/
def drawn (walks : Walks) (index : Nat) (actions : List Action) : List Answer :=
  ((actions.zip (walks.performAll actions)).filter fun performed ↦
    performed.1.drawsFrom index).map Prod.snd

variable {walks other : Walks} {index : Nat}

theorem drawn_cons (walks : Walks) (index : Nat) (action : Action) (rest : List Action) :
    walks.drawn index (action :: rest) =
      if action.drawsFrom index then
        (walks.perform action).1 :: (walks.perform action).2.drawn index rest
      else (walks.perform action).2.drawn index rest := by
  rw [drawn, performAll_cons, List.zip_cons_cons, List.filter_cons]
  split <;> rfl

theorem walk_replace (hindex : index < walks.walks.length) (walk : Walk) :
    (walks.replace index walk).walk index = walk := by
  simp [replace, Walks.walk, hindex]

theorem walk_replace_ne {replaced : Nat} (hne : replaced ≠ index) (walk : Walk) :
    (walks.replace replaced walk).walk index = walks.walk index := by
  simp [replace, Walks.walk, hne]

theorem walk_add (hindex : index < walks.walks.length) (walk : Walk) :
    (walks.add walk).2.walk index = walks.walk index :=
  List.getD_append _ _ _ _ hindex

/-- No walk is ever taken away. -/
theorem length_perform (walks : Walks) (action : Action) :
    walks.walks.length ≤ (walks.perform action).2.walks.length := by
  cases action with
  | next index =>
    simp only [perform]
    split <;> simp [replace]
  | rest index => simp [perform, replace]
  | fork index => simp [perform, add]
  | fresh => simp [perform, add]

/-- An action that takes no lines of a walk leaves the walk where it stands. -/
theorem walk_perform (hindex : index < walks.walks.length) {action : Action}
    (haction : action.drawsFrom index = false) :
    (walks.perform action).2.walk index = walks.walk index := by
  cases action with
  | next taken =>
    have hne : taken ≠ index := by simpa [Action.drawsFrom] using haction
    simp only [perform]
    split
    · rfl
    · exact walk_replace_ne hne _
  | rest taken =>
    have hne : taken ≠ index := by simpa [Action.drawsFrom] using haction
    exact walk_replace_ne hne _
  | fork forked => exact walk_add hindex _
  | fresh => exact walk_add hindex _

/-- What an action takes of a walk, and where the walk stands then, depends on this walk alone. -/
theorem perform_congr (hindex : index < walks.walks.length) (hother : index < other.walks.length)
    (hwalk : walks.walk index = other.walk index) {action : Action}
    (haction : action.drawsFrom index = true) :
    (walks.perform action).1 = (other.perform action).1 ∧
      (walks.perform action).2.walk index = (other.perform action).2.walk index := by
  cases action with
  | next taken =>
    obtain rfl : taken = index := by simpa [Action.drawsFrom] using haction
    rcases hnext : (walks.walk taken).next? with _ | ⟨line, after⟩
    · simp [perform, ← hwalk, hnext]
    · simp [perform, ← hwalk, hnext, walk_replace, hindex, hother]
  | rest taken =>
    obtain rfl : taken = index := by simpa [Action.drawsFrom] using haction
    simp [perform, ← hwalk, walk_replace, hindex, hother]
  | fork forked => cases haction
  | fresh => cases haction

/-- What is drawn from a walk does not depend on the other actions. -/
theorem drawn_eq_performAll_filter (hindex : index < walks.walks.length)
    (hother : index < other.walks.length) (hwalk : walks.walk index = other.walk index)
    (actions : List Action) :
    walks.drawn index actions = other.performAll (actions.filter (Action.drawsFrom index)) := by
  -- the runs have different numbers of walks, but the one with this index stands at the same place
  induction actions generalizing walks other with
  | nil => rfl
  | cons action rest ih =>
    have hlength := Nat.lt_of_lt_of_le hindex (walks.length_perform action)
    rw [drawn_cons]
    by_cases haction : action.drawsFrom index = true
    · obtain ⟨hanswer, hafter⟩ := perform_congr hindex hother hwalk haction
      rw [if_pos haction, List.filter_cons_of_pos haction, performAll_cons, hanswer,
        ih hlength (Nat.lt_of_lt_of_le hother (other.length_perform action)) hafter]
    · rw [if_neg haction, List.filter_cons_of_neg haction]
      refine ih hlength hother ?_
      rw [walk_perform hindex (Bool.eq_false_iff.mpr haction), hwalk]

/-- An action hands out the first lines that are left to its walk and leaves the others. -/
theorem handedOut_append_rest (hindex : index < walks.walks.length) {action : Action}
    (haction : action.drawsFrom index = true) :
    (walks.perform action).1.handedOut ++ ((walks.perform action).2.walk index).rest =
      (walks.walk index).rest := by
  cases action with
  | next taken =>
    obtain rfl : taken = index := by simpa [Action.drawsFrom] using haction
    rcases (walks.walk taken).next?_cases with ⟨hover, hnil⟩ | ⟨line, after, hline, hcons⟩
    · simp [perform, hover, hnil, Answer.handedOut]
    · simp [perform, hline, hcons, Answer.handedOut, walk_replace, hindex]
  | rest taken =>
    obtain rfl : taken = index := by simpa [Action.drawsFrom] using haction
    have hrest : Walk.exhausted.rest = [] := rfl
    simp [perform, Answer.handedOut, walk_replace, hindex, hrest]
  | fork forked => cases haction
  | fresh => cases haction

/-- The lines drawn from a walk and those that are left to it in the end are those that were left to
it in the beginning. -/
theorem drawn_append_rest (hindex : index < walks.walks.length) (actions : List Action) :
    (walks.drawn index actions).flatMap Answer.handedOut ++
      ((walks.after actions).walk index).rest = (walks.walk index).rest := by
  induction actions generalizing walks with
  | nil => rfl
  | cons action rest ih =>
    have hlength := Nat.lt_of_lt_of_le hindex (walks.length_perform action)
    have hafter : walks.after (action :: rest) = (walks.perform action).2.after rest := rfl
    rw [drawn_cons, hafter]
    by_cases haction : action.drawsFrom index = true
    · rw [if_pos haction, List.flatMap_cons, List.append_assoc, ih hlength,
        handedOut_append_rest hindex haction]
    · rw [if_neg haction, ih hlength, walk_perform hindex (Bool.eq_false_iff.mpr haction)]

/-- A walk yields no line exactly if none is left to it. -/
theorem perform_next_eq_none_iff :
    (walks.perform (.next index)).1 = .line none ↔ (walks.walk index).rest = [] := by
  rcases (walks.walk index).next?_cases with ⟨hover, hnil⟩ | ⟨line, after, hline, hcons⟩
  · simp [perform, hover, hnil]
  · simp [perform, hline, hcons]

theorem rest_after_eq_nil (hindex : index < walks.walks.length)
    (hnil : (walks.walk index).rest = []) (actions : List Action) :
    ((walks.after actions).walk index).rest = [] := by
  have hdrawn := drawn_append_rest hindex actions
  rw [hnil] at hdrawn
  exact (List.append_eq_nil_iff.mp hdrawn).2

end Walks

/-- A dump has the lines of the recursive listing, one for each node.  Any number of walks, whatever
is done with them, answer like readers of the dump.  What a walk yields does not depend on what is
done with the others: it yields the lines that are left to it, in their order, and no line ever
again once it is over. -/
theorem Node.walks_read_dump (node : Node) :
    node.dump = node.listing 0 ∧ node.dump.length = node.nodes.length ∧
      (∀ actions, (Walks.start node).performAll actions =
        (Readers.start node.dump).performAll actions) ∧
      ∀ before later index,
        let walks := (Walks.start node).after before
        index < walks.walks.length →
          walks.drawn index later =
              walks.performAll (later.filter (Walks.Action.drawsFrom index)) ∧
            (walks.drawn index later).flatMap Walks.Answer.handedOut ++
              ((walks.after later).walk index).rest = (walks.walk index).rest ∧
            ((walks.perform (.next index)).1 = .line none →
              ((walks.after later).perform (.next index)).1 = .line none) := by
  refine ⟨node.dump_eq_listing, ?_, fun actions ↦ ?_, fun before later index ↦ ?_⟩
  · rw [dump_eq_listing, length_listing]
  · rw [dump_eq_listing]
    exact (Walks.ReadBy.start node).performAll actions
  · intro walks hindex
    refine ⟨Walks.drawn_eq_performAll_filter hindex hindex rfl later,
      Walks.drawn_append_rest hindex later, fun hover ↦ ?_⟩
    rw [Walks.perform_next_eq_none_iff] at hover ⊢
    exact Walks.rest_after_eq_nil hindex hover later

end ExprLang
