import ExprLang.Proofs.Labels
import ExprLang.Proofs.Listings
import ExprLang.Tree.Survey
import Mathlib.Data.List.TakeWhile

/-!
# Surveys and Listings

A survey and a listing visit the nodes of a tree in the same order.  So the calls of a tree can be
read off its listing, one on each line that tells of a call.
-/

namespace ExprLang

/-- The name on a line for a call, whatever the depth of the line. -/
def calleeOnLine? (line : String) : Option String :=
  ("- CallExpr: ".toList.isPrefixOf? (line.toList.dropWhile (· = ' '))).map String.ofList

theorem calleeOnLine?_eq_some_iff {line name : String} : calleeOnLine? line = some name ↔
    ∃ n, line = String.ofList (List.replicate n ' ') ++ "- " ++ ("CallExpr: " ++ name) := by
  rw [calleeOnLine?, Option.map_eq_some_iff]
  constructor
  · rintro ⟨rest, hrest, rfl⟩
    rw [List.isPrefixOf?_eq_some_iff_append_eq] at hrest
    have hblanks : ∀ c ∈ line.toList.takeWhile (· = ' '), c = ' ' := fun c hc ↦
      of_decide_eq_true (List.mem_takeWhile_imp (p := (· = ' ')) hc)
    refine ⟨(line.toList.takeWhile (· = ' ')).length, String.toList_inj.mp ?_⟩
    calc
      line.toList = line.toList.takeWhile (· = ' ') ++ ("- CallExpr: ".toList ++ rest) := by
        rw [hrest, List.takeWhile_append_dropWhile]
      _ = _ := by
        rw [← List.eq_replicate_of_mem hblanks]
        simp
  · rintro ⟨n, rfl⟩
    refine ⟨name.toList, ?_, String.ofList_toList⟩
    rw [List.isPrefixOf?_eq_some_iff_append_eq]
    simp [List.dropWhile_append_of_pos]

namespace Label

/-- The function that is called where a label tells of a call. -/
def callee? : Label → Option String
  | call callee => some callee
  | _ => none

theorem callee?_eq_some_iff {label : Label} {name : String} :
    label.callee? = some name ↔ label.text = "CallExpr: " ++ name := by
  constructor
  · intro h
    cases label <;> cases h
    rfl
  · intro h
    have hinitials : label.initials = (call name).initials := initials_eq_of_text_eq h
    cases label with
    | call callee => rw [callee?, (String.append_right_inj _).mp h]
    | _ => cases hinitials

/-- No other line looks like one for a call, whatever names there are in the tree. -/
theorem calleeOnLine?_line (label : Label) (depth : Nat) :
    calleeOnLine? (label.line depth) = label.callee? := by
  ext name
  rw [calleeOnLine?_eq_some_iff]
  cases hunit : label.isUnit with
  | true =>
    refine iff_of_false ?_ (by cases label <;> cases hunit; simp [callee?])
    rintro ⟨n, h⟩
    -- the line of a unit starts with a letter
    have hhead : label.line depth = label.text := by cases label <;> cases hunit; rfl
    have hinitials := label.take_text
    rw [← hhead, h] at hinitials
    cases label <;> cases hunit
    rcases n with _ | _ | n <;> simp [initials, List.replicate_succ] at hinitials
  | false =>
    rw [callee?_eq_some_iff, line_eq hunit]
    constructor
    · rintro ⟨n, h⟩
      have hn : 2 * depth = n := by
        have hindentation := congrArg indentation h
        simpa [indentation, List.takeWhile_append_of_pos] using hindentation
      rw [hn] at h
      exact (String.append_right_inj _).mp h
    · rintro h
      exact ⟨2 * depth, by rw [h]⟩

end Label

theorem Expr.calleesAll_eq (xs : List Expr) : calleesAll xs = xs.flatMap callees := by
  induction xs with
  | nil => rfl
  | cons x xs ih => rw [calleesAll, ih, List.flatMap_cons]

theorem Stmt.calleesAll_eq (ss : List Stmt) : calleesAll ss = ss.flatMap callees := by
  induction ss with
  | nil => rfl
  | cons s ss ih => rw [calleesAll, ih, List.flatMap_cons]

theorem SourceUnit.callees_survey (unit : SourceUnit) :
    unit.survey.callees = unit.definitions.flatMap fun d ↦ Stmt.calleesAll d.body := by
  rw [survey]
  induction unit.definitions with
  | nil => rfl
  | cons d ds ih => rw [List.foldr_cons, Survey.append, ih, List.flatMap_cons, Definition.survey]

namespace Node

/-- The functions that are called in a node, in the order of its survey. -/
def callees (node : Node) : List String := node.survey.callees

theorem callees_expr (x : Expr) :
    x.callees = x.label.callee?.toList ++ x.children.flatMap callees := by
  cases x with
  | number value => rfl
  | var name => rfl
  | binary operator left right => exact (congrArg _ (List.append_nil _)).symm
  | call callee arguments =>
    rw [Expr.callees, Expr.calleesAll_eq, Expr.children, List.flatMap_map]
    rfl

theorem callees_block (body : Block) : (block body).callees = (body.map stmt).flatMap callees := by
  rw [List.flatMap_map]
  exact Stmt.calleesAll_eq body

theorem callees_else (otherwise : ElseBranch) :
    Stmt.calleesElse otherwise = otherwise.children.flatMap callees := by
  cases otherwise <;> exact (List.append_nil _).symm

theorem callees_stmt (s : Stmt) :
    s.callees = s.label.callee?.toList ++ s.children.flatMap callees := by
  cases s with
  | expression value => exact callees_expr value
  | compound body => exact callees_block body
  | assignment targets value =>
    have htargets : (targets.map fun name ↦ expr (.var name)).flatMap callees = [] := by
      rw [List.flatMap_map, List.flatMap_eq_nil_iff]
      exact fun name _ ↦ rfl
    rw [Stmt.children, List.flatMap_append, htargets]
    exact (List.append_nil _).symm
  | result value => exact (List.append_nil _).symm
  | conditional condition body otherwise =>
    rw [Stmt.callees, callees_else, List.append_assoc]
    rfl
  | loop index initial condition step body =>
    simp only [Stmt.callees, List.append_assoc]
    rw [← List.append_nil (Stmt.calleesAll body)]
    rfl

/-- A survey tells of the call that a node is and then of those below its children. -/
theorem callees_eq (node : Node) :
    node.callees = node.label.callee?.toList ++ node.children.flatMap callees := by
  cases node with
  | expr x => exact callees_expr x
  | stmt s => exact callees_stmt s
  | block body => exact callees_block body
  | prototype p => rfl
  | definition d => exact (List.append_nil _).symm
  | unit u =>
    have hprototypes : (u.prototypes.map prototype).flatMap callees = [] := by
      rw [List.flatMap_map, List.flatMap_eq_nil_iff]
      exact fun p _ ↦ rfl
    rw [children, List.flatMap_append, hprototypes, List.flatMap_map]
    exact u.callees_survey

theorem filterMap_listing (depth : Nat) (node : Node) :
    (node.listing depth).filterMap calleeOnLine? = node.callees := by
  induction node using byChildren generalizing depth with
  | above node ih =>
    have hline : [node.line depth].filterMap calleeOnLine? = node.label.callee?.toList := by
      rw [← line_label, List.filterMap_cons, Label.calleeOnLine?_line]
      cases node.label.callee? <;> rfl
    have hbelow : (node.children.flatMap (listing (depth + 1))).filterMap calleeOnLine? =
        node.children.flatMap callees := by
      rw [List.filterMap_flatMap]
      exact List.flatMap_congr fun child hchild ↦ ih child hchild (depth + 1)
    rw [listing_eq, ← List.singleton_append, List.filterMap_append, hline, hbelow, ← callees_eq]

end Node

/-- The body of the definition is empty, or its last statement is no result. -/
def Definition.EndsWithoutResult (definition : Definition) : Prop :=
  definition.body = [] ∨ ∃ before s, definition.body = before ++ [s] ∧ ∀ value, s ≠ .result value

theorem Stmt.isResult_eq_false_iff {s : Stmt} :
    s.isResult = false ↔ ∀ value, s ≠ .result value := by
  cases s <;> simp [isResult]

theorem Definition.endsInResult_eq_false_iff {definition : Definition} :
    endsInResult definition.body = false ↔ definition.EndsWithoutResult := by
  rw [EndsWithoutResult, endsInResult]
  rcases List.eq_nil_or_concat definition.body with hbody | ⟨before, s, hbody⟩
  · simp [hbody]
  · simp [hbody, Stmt.isResult_eq_false_iff]

instance (definition : Definition) : Decidable definition.EndsWithoutResult :=
  decidable_of_iff _ definition.endsInResult_eq_false_iff

theorem SourceUnit.implicitReturns_survey (unit : SourceUnit) : unit.survey.implicitReturns =
    (unit.definitions.filter fun d ↦ d.EndsWithoutResult).map fun d ↦ d.prototype.name := by
  rw [survey]
  induction unit.definitions with
  | nil => rfl
  | cons d ds ih =>
    rw [List.foldr_cons, Survey.append, ih, Definition.survey, List.filter_cons]
    simp only [← Definition.endsInResult_eq_false_iff]
    cases endsInResult d.body <;> rfl

/-- A survey of a node tells of the calls in its dump, one for each line of a call and in the order
of the lines, and a survey of a unit names the definitions without a result at the end of their
body, in their order. -/
theorem Node.survey_reads_dump :
    (∀ node : Node, node.survey.callees = node.dump.filterMap calleeOnLine?) ∧
      (∀ line name, calleeOnLine? line = some name ↔ ∃ n, line =
        String.ofList (List.replicate n ' ') ++ "- " ++ ("CallExpr: " ++ name)) ∧
      ∀ unit : SourceUnit, (Node.unit unit).survey.implicitReturns =
        (unit.definitions.filter fun d ↦ d.EndsWithoutResult).map fun d ↦ d.prototype.name := by
  refine ⟨fun node ↦ ?_, fun line name ↦ calleeOnLine?_eq_some_iff,
    fun unit ↦ unit.implicitReturns_survey⟩
  rw [dump_eq_listing, filterMap_listing, callees]

end ExprLang
