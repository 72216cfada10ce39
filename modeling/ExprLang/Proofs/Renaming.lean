import ExprLang.Proofs.Grouping
import ExprLang.Proofs.Grammar

/-!
# Renaming

A map of names acts on the symbols of a source and on the trees that are made of them.  Whatever the
parser makes of parts commutes with it.
-/

namespace ExprLang

/-- The symbol with another name, if it is a name. -/
def Symbol.rename (naming : String → String) (symbol : Symbol) : Symbol :=
  if symbol.kind = .identifier then .name (naming symbol.lexeme) else symbol

variable (naming : String → String)

@[simp]
theorem Symbol.rename_kind (symbol : Symbol) : (symbol.rename naming).kind = symbol.kind := by
  unfold Symbol.rename
  split
  · next hkind => rw [hkind, name_kind]
  · rfl

@[simp]
theorem Symbol.rename_id (symbol : Symbol) : symbol.rename id = symbol := by
  unfold Symbol.rename
  split
  · next hkind => rw [Symbol.name, ← hkind, id]
  · rfl

namespace Expr

mutual

def rename : Expr → Expr
  | number value => .number value
  | var name => .var (naming name)
  | binary operator left right => .binary operator (rename left) (rename right)
  | call callee arguments => .call (naming callee) (renameAll arguments)

def renameAll : List Expr → List Expr
  | [] => []
  | x :: xs => rename x :: renameAll xs

end

theorem renameAll_eq (exprs : List Expr) : renameAll naming exprs = exprs.map (rename naming) := by
  induction exprs with
  | nil => rfl
  | cons x xs ih => rw [renameAll, ih, List.map_cons]

mutual

theorem rename_id : (expr : Expr) → expr.rename id = expr
  | number _ => rfl
  | var _ => rfl
  | binary operator left right => by rw [rename, rename_id left, rename_id right]
  | call callee arguments => by rw [rename, renameAll_id arguments, id]

theorem renameAll_id : (exprs : List Expr) → renameAll id exprs = exprs
  | [] => rfl
  | x :: xs => by rw [renameAll, rename_id x, renameAll_id xs]

end

end Expr

def Operation.rename (operation : Operation) : Operation :=
  { operation with operand := operation.operand.rename naming }

def OpenOperation.rename (operation : OpenOperation) : OpenOperation :=
  { operation with left := operation.left.rename naming }

theorem OpenOperation.close_rename (rank : Nat) (stack : List OpenOperation) (operand : Expr) :
    close rank (stack.map (rename naming)) (operand.rename naming) =
      ((close rank stack operand).1.map (rename naming),
        (close rank stack operand).2.rename naming) := by
  induction stack generalizing operand with
  | nil => rfl
  | cons inner outer ih =>
    have hpower : (inner.rename naming).power = inner.power := rfl
    rw [List.map_cons, close, close, hpower]
    split
    · exact ih (.binary inner.operator inner.left operand)
    · rfl

theorem Operation.assembleWithin_rename (stack : List OpenOperation) (operand : Expr)
    (operations : List Operation) :
    assembleWithin (stack.map (OpenOperation.rename naming)) (operand.rename naming)
        (operations.map (rename naming)) =
      (assembleWithin stack operand operations).rename naming := by
  induction operations generalizing stack operand with
  | nil => rw [List.map_nil, assembleWithin, assembleWithin, OpenOperation.close_rename]
  | cons operation rest ih =>
    have hpower : (operation.rename naming).power = operation.power := rfl
    rw [List.map_cons, assembleWithin, assembleWithin, hpower]
    simp only [OpenOperation.close_rename]
    set closed := OpenOperation.close operation.power.rank stack operand
    exact ih (⟨closed.2, operation.operator, operation.power⟩ :: closed.1) operation.operand

theorem Operation.assemble_rename (first : Expr) (operations : List Operation) :
    assemble (first.rename naming) (operations.map (rename naming)) =
      (assemble first operations).rename naming :=
  assembleWithin_rename naming [] first operations

namespace Stmt

mutual

def rename : Stmt → Stmt
  | expression value => .expression (value.rename naming)
  | compound body => .compound (renameAll body)
  | assignment targets value => .assignment (targets.map naming) (value.rename naming)
  | result value => .result (value.rename naming)
  | conditional condition body otherwise =>
    .conditional (condition.rename naming) (renameAll body) (renameElse otherwise)
  | loop index initial condition step body =>
    .loop (naming index) (initial.rename naming) (condition.rename naming) (step.rename naming)
      (renameAll body)

def renameAll : List Stmt → List Stmt
  | [] => []
  | s :: ss => rename s :: renameAll ss

def renameElse : ElseBranch → ElseBranch
  | .absent => .absent
  | .elseIf condition body otherwise =>
    .elseIf (condition.rename naming) (renameAll body) (renameElse otherwise)
  | .block body => .block (renameAll body)

end

theorem renameAll_eq (body : Block) : renameAll naming body = body.map (rename naming) := by
  induction body with
  | nil => rfl
  | cons s ss ih => rw [renameAll, ih, List.map_cons]

mutual

theorem rename_id : (stmt : Stmt) → stmt.rename id = stmt
  | expression value => by rw [rename, value.rename_id]
  | compound body => by rw [rename, renameAll_id body]
  | assignment targets value => by rw [rename, value.rename_id, List.map_id]
  | result value => by rw [rename, value.rename_id]
  | conditional condition body otherwise => by
    rw [rename, condition.rename_id, renameAll_id body, renameElse_id otherwise]
  | loop index initial condition step body => by
    rw [rename, initial.rename_id, condition.rename_id, step.rename_id, renameAll_id body, id]

theorem renameAll_id : (body : List Stmt) → renameAll id body = body
  | [] => rfl
  | s :: ss => by rw [renameAll, rename_id s, renameAll_id ss]

theorem renameElse_id : (branch : ElseBranch) → renameElse id branch = branch
  | .absent => rfl
  | .elseIf condition body otherwise => by
    rw [renameElse, condition.rename_id, renameAll_id body, renameElse_id otherwise]
  | .block body => by rw [renameElse, renameAll_id body]

end

end Stmt

/-- The statements of a block under other names. -/
def Block.rename (body : Block) : Block := body.map (Stmt.rename naming)

def Link.rename (link : Link) : Link :=
  ⟨link.condition.rename naming, Block.rename naming link.body⟩

theorem ElseBranch.ofLinks_rename (links : List Link) (last : Option Block) :
    ofLinks (links.map (Link.rename naming)) (last.map (Block.rename naming)) =
      Stmt.renameElse naming (ofLinks links last) := by
  induction links with
  | nil =>
    cases last with
    | none => rfl
    | some body => exact congrArg ElseBranch.block (Stmt.renameAll_eq naming body).symm
  | cons link links ih =>
    rw [List.map_cons, ofLinks, ih, ofLinks, Stmt.renameElse, Stmt.renameAll_eq]
    rfl

theorem Stmt.ofLinks_rename (first : Link) (others : List Link) (last : Option Block) :
    ofLinks (first.rename naming) (others.map (Link.rename naming))
        (last.map (Block.rename naming)) = (ofLinks first others last).rename naming := by
  rw [ofLinks, ElseBranch.ofLinks_rename, ofLinks, rename, renameAll_eq]
  rfl

theorem Stmt.assign_rename (targets : List String) (value : Expr) :
    assign (targets.map naming) (value.rename naming) =
      (assign targets value).map (rename naming) := by
  cases targets with
  | nil => rfl
  | cons target targets => rfl

theorem Stmt.forLoop_rename {index : String} (h : index ≠ "") (h' : naming index ≠ "")
    (initial condition step : Expr) (body : Block) :
    forLoop (naming index) (initial.rename naming) (condition.rename naming) (step.rename naming)
        (Block.rename naming body) =
      (forLoop index initial condition step body).map (rename naming) := by
  simp only [forLoop, String.isEmpty_iff, h, h', if_false, Except.map, rename, renameAll_eq]
  rfl

def Prototype.rename (prototype : Prototype) : Prototype :=
  ⟨naming prototype.name, prototype.parameters.map naming⟩

def Definition.rename (definition : Definition) : Definition :=
  ⟨definition.prototype.rename naming, Block.rename naming definition.body⟩

def Item.rename : Item → Item
  | .separator => .separator
  | .declaration prototype => .declaration (prototype.rename naming)
  | .definition function => .definition (function.rename naming)
  | .run body => .run (Block.rename naming body)

theorem Block.rename_id (body : Block) : Block.rename id body = body := by
  rw [Block.rename, ← Stmt.renameAll_eq, Stmt.renameAll_id]

theorem Item.rename_id (item : Item) : item.rename id = item := by
  cases item with
  | separator => rfl
  | declaration prototype =>
    rw [Item.rename, Prototype.rename, List.map_id, id]
  | definition function =>
    rw [Item.rename, Definition.rename, Prototype.rename, Block.rename_id, List.map_id, id]
  | run body => rw [Item.rename, Block.rename_id]

theorem Item.map_rename_id (items : List Item) : items.map (Item.rename id) = items := by
  rw [List.map_congr_left fun item _ ↦ item.rename_id, List.map_id']

end ExprLang
