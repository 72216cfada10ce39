import ExprLang.Proofs.Outlines

/-!
# Listings by Recursion

The listing of a node is its own line and then, one level deeper, the listings of its children.  A
walk recurses nowhere: it keeps a stack of entries, and what is still to come of it are the listings
of these entries, one after the other.
-/

namespace ExprLang

/-- The part of a node that its own line tells. -/
def Expr.label : Expr → Label
  | number value => .number value
  | var name => .var name
  | binary operator _ _ => .binary operator
  | call callee _ => .call callee

def Expr.children : Expr → List Node
  | number _ | var _ => []
  | binary _ left right => [.expr left, .expr right]
  | call _ arguments => arguments.map .expr

def Stmt.label : Stmt → Label
  | expression value => value.label
  | compound _ => .compound
  | assignment _ _ => .assignment
  | result _ => .result
  | conditional _ _ otherwise => .conditional otherwise.isPresent
  | loop index _ _ _ _ => .loop index

/-- The node that an else branch adds to the children of its conditional statement. -/
def ElseBranch.children : ElseBranch → List Node
  | absent => []
  | elseIf condition body otherwise => [.stmt (.conditional condition body otherwise)]
  | block body => [.block body]

/-- An expression that stands as a statement is one node with its statement. -/
def Stmt.children : Stmt → List Node
  | expression value => value.children
  | compound body => body.map .stmt
  | assignment targets value => targets.map (fun name ↦ .expr (.var name)) ++ [.expr value]
  | result value => [.expr value]
  | conditional condition body otherwise =>
    .expr condition :: .block body :: otherwise.children
  | loop _ initial condition step body =>
    [.expr initial, .expr condition, .expr step, .block body]

namespace Node

def label : Node → Label
  | expr x => x.label
  | stmt s => s.label
  | block _ => .compound
  | prototype p => .prototype p.name p.parameters
  | definition _ => .definition
  | unit u => .unit u.name

/-- The nodes right below a node, in the order of their lines. -/
def children : Node → List Node
  | expr x => x.children
  | stmt s => s.children
  | block body => body.map stmt
  | prototype _ => []
  | definition d => [prototype d.prototype, block d.body]
  | unit u => u.prototypes.map prototype ++ u.definitions.map definition

theorem sizeOf_lt_of_mem_map {α : Type} [SizeOf α] {f : α → Node}
    (hf : ∀ a, sizeOf (f a) = 1 + sizeOf a) {as : List α} {child : Node} (h : child ∈ as.map f) :
    sizeOf child < 1 + sizeOf as := by
  obtain ⟨a, ha, rfl⟩ := List.mem_map.mp h
  rw [hf]
  exact Nat.add_lt_add_left (List.sizeOf_lt_of_mem ha) 1

theorem sizeOf_lt_of_mem_expr {x : Expr} {child : Node} (h : child ∈ x.children) :
    sizeOf child < 1 + sizeOf x := by
  cases x with
  | number value => cases h
  | var name => cases h
  | binary operator left right =>
    simp only [Expr.children, List.mem_cons, List.not_mem_nil, or_false] at h
    rw [Expr.binary.sizeOf_spec]
    rcases h with rfl | rfl <;> rw [expr.sizeOf_spec] <;> omega
  | call callee arguments =>
    have hlt := sizeOf_lt_of_mem_map expr.sizeOf_spec h
    rw [Expr.call.sizeOf_spec]
    omega

theorem sizeOf_lt_of_mem_else {otherwise : ElseBranch} {child : Node}
    (h : child ∈ otherwise.children) : sizeOf child < 2 + sizeOf otherwise := by
  cases otherwise with
  | absent => cases h
  | elseIf condition body otherwise =>
    obtain rfl := List.mem_singleton.mp h
    rw [stmt.sizeOf_spec, Stmt.conditional.sizeOf_spec, ElseBranch.elseIf.sizeOf_spec]
    omega
  | block body =>
    obtain rfl := List.mem_singleton.mp h
    rw [block.sizeOf_spec, ElseBranch.block.sizeOf_spec]
    omega

theorem sizeOf_lt_of_mem_stmt {s : Stmt} {child : Node} (h : child ∈ s.children) :
    sizeOf child < 1 + sizeOf s := by
  cases s with
  | expression value =>
    have hlt := sizeOf_lt_of_mem_expr h
    rw [Stmt.expression.sizeOf_spec]
    omega
  | compound body =>
    have hlt := sizeOf_lt_of_mem_map stmt.sizeOf_spec h
    rw [Stmt.compound.sizeOf_spec]
    omega
  | assignment targets value =>
    rw [Stmt.assignment.sizeOf_spec]
    rcases List.mem_append.mp h with htarget | hvalue
    · obtain ⟨name, hname, rfl⟩ := List.mem_map.mp htarget
      have hlt := List.sizeOf_lt_of_mem hname
      rw [expr.sizeOf_spec, Expr.var.sizeOf_spec]
      omega
    · obtain rfl := List.mem_singleton.mp hvalue
      rw [expr.sizeOf_spec]
      omega
  | result value =>
    obtain rfl := List.mem_singleton.mp h
    rw [expr.sizeOf_spec, Stmt.result.sizeOf_spec]
    omega
  | conditional condition body otherwise =>
    simp only [Stmt.children, List.mem_cons] at h
    rw [Stmt.conditional.sizeOf_spec]
    rcases h with rfl | rfl | hotherwise
    · rw [expr.sizeOf_spec]
      omega
    · rw [block.sizeOf_spec]
      omega
    · have hlt := sizeOf_lt_of_mem_else hotherwise
      omega
  | loop index initial condition step body =>
    simp only [Stmt.children, List.mem_cons, List.not_mem_nil, or_false] at h
    rw [Stmt.loop.sizeOf_spec]
    rcases h with rfl | rfl | rfl | rfl <;>
      simp only [expr.sizeOf_spec, block.sizeOf_spec] <;> omega

/-- A node is larger than its children, so what recurses to the children comes to an end. -/
theorem sizeOf_lt_of_mem_children {node child : Node} (h : child ∈ node.children) :
    sizeOf child < sizeOf node := by
  cases node with
  | expr x =>
    rw [expr.sizeOf_spec]
    exact sizeOf_lt_of_mem_expr h
  | stmt s =>
    rw [stmt.sizeOf_spec]
    exact sizeOf_lt_of_mem_stmt h
  | block body =>
    rw [block.sizeOf_spec]
    exact sizeOf_lt_of_mem_map stmt.sizeOf_spec h
  | prototype p => cases h
  | definition d =>
    simp only [children, List.mem_cons, List.not_mem_nil, or_false] at h
    obtain ⟨head, body⟩ := d
    rw [definition.sizeOf_spec, Definition.mk.sizeOf_spec]
    rcases h with rfl | rfl <;> simp only [prototype.sizeOf_spec, block.sizeOf_spec] <;> omega
  | unit u =>
    obtain ⟨name, prototypes, definitions⟩ := u
    rw [unit.sizeOf_spec, SourceUnit.mk.sizeOf_spec]
    rcases List.mem_append.mp h with hprototype | hdefinition
    · have hlt : sizeOf child < 1 + sizeOf prototypes :=
        sizeOf_lt_of_mem_map prototype.sizeOf_spec hprototype
      omega
    · have hlt : sizeOf child < 1 + sizeOf definitions :=
        sizeOf_lt_of_mem_map definition.sizeOf_spec hdefinition
      omega

/-- What holds of a node as soon as it holds of its children holds of every node. -/
theorem byChildren {motive : Node → Prop}
    (above : ∀ node, (∀ child ∈ node.children, motive child) → motive node) (node : Node) :
    motive node :=
  above node fun child hchild ↦
    have := sizeOf_lt_of_mem_children hchild
    byChildren above child
termination_by sizeOf node

/-- The line of a node: two blanks for each level and a bullet before its text, but only the text if
the node is a unit. -/
def line (depth : Nat) : Node → String
  | unit u => (Label.unit u.name).text
  | node => String.ofList (List.replicate (2 * depth) ' ') ++ "- " ++ node.label.text

/-- The lines of a node at a depth and of everything below it. -/
def listing (depth : Nat) (node : Node) : List String :=
  node.line depth :: node.children.attach.flatMap fun child ↦ child.1.listing (depth + 1)
termination_by sizeOf node
decreasing_by
  exact sizeOf_lt_of_mem_children child.2

/-- A node and everything below it. -/
def nodes (node : Node) : List Node :=
  node :: node.children.attach.flatMap fun child ↦ child.1.nodes
termination_by sizeOf node
decreasing_by
  exact sizeOf_lt_of_mem_children child.2

theorem listing_eq (depth : Nat) (node : Node) : node.listing depth =
    node.line depth :: node.children.flatMap (listing (depth + 1)) := by
  rw [listing]
  simp

theorem nodes_eq (node : Node) : node.nodes = node :: node.children.flatMap nodes := by
  rw [nodes]
  simp

/-- A listing has one line for each node. -/
theorem length_listing (depth : Nat) (node : Node) :
    (node.listing depth).length = node.nodes.length := by
  induction node using byChildren generalizing depth with
  | above node ih =>
    have below : node.children.map (fun child ↦ (child.listing (depth + 1)).length) =
        node.children.map fun child ↦ child.nodes.length :=
      List.map_congr_left fun child hchild ↦ ih child hchild (depth + 1)
    rw [listing_eq, nodes_eq, List.length_cons, List.length_cons, List.length_flatMap,
      List.length_flatMap, below]

end Node

theorem Expr.outlineAll_eq (xs : List Expr) : outlineAll xs = xs.map outline := by
  induction xs with
  | nil => rfl
  | cons x xs ih => rw [outlineAll, ih, List.map_cons]

theorem Stmt.outlineAll_eq (ss : List Stmt) : outlineAll ss = ss.map outline := by
  induction ss with
  | nil => rfl
  | cons s ss ih => rw [outlineAll, ih, List.map_cons]

namespace Node

theorem outline_expr (x : Expr) :
    x.outline = .entry x.label (x.children.map outline) := by
  cases x with
  | number value => rfl
  | var name => rfl
  | binary operator left right => rfl
  | call callee arguments =>
    simp [Expr.outline, Expr.label, Expr.children, Expr.outlineAll_eq, outline]

theorem outline_block (body : Block) :
    (block body).outline = .entry .compound ((body.map stmt).map outline) := by
  simp [outline, blockOutline, Stmt.outlineAll_eq]

theorem outline_else (otherwise : ElseBranch) :
    Stmt.outlineElse otherwise = otherwise.children.map outline := by
  cases otherwise <;> rfl

theorem outline_stmt (s : Stmt) : s.outline = .entry s.label (s.children.map outline) := by
  cases s with
  | expression value => exact outline_expr value
  | compound body => exact outline_block body
  | assignment targets value =>
    simp [Stmt.outline, Stmt.label, Stmt.children, outline, Expr.outline]
  | result value => rfl
  | conditional condition body otherwise =>
    simp [Stmt.outline, Stmt.label, Stmt.children, outline, blockOutline, outline_else]
  | loop index initial condition step body => rfl

theorem outline_eq (node : Node) :
    node.outline = .entry node.label (node.children.map outline) := by
  cases node with
  | expr x => exact outline_expr x
  | stmt s => exact outline_stmt s
  | block body => exact outline_block body
  | prototype p => rfl
  | definition d => rfl
  | unit u => simp [outline, SourceUnit.outline, label, children, Function.comp_def]

theorem line_label (depth : Nat) (node : Node) : node.label.line depth = node.line depth := by
  cases node with
  | expr x => cases x <;> rfl
  | stmt s =>
    cases s with
    | expression value => cases value <;> rfl
    | _ => rfl
  | _ => rfl

theorem lines_outline (depth : Nat) (node : Node) :
    node.outline.lines depth = node.listing depth := by
  induction node using byChildren generalizing depth with
  | above node ih =>
    have below : (node.children.map outline).flatMap (Outline.lines (depth + 1)) =
        node.children.flatMap (listing (depth + 1)) := by
      rw [List.flatMap_map]
      exact List.flatMap_congr fun child hchild ↦ ih child hchild (depth + 1)
    rw [outline_eq, Outline.lines, Outline.linesAll_eq, below, line_label, listing_eq]

/-- A dump is the listing that starts at the outermost level. -/
theorem dump_eq_listing (node : Node) : node.dump = node.listing 0 := by
  rw [dump_eq, lines_outline]

end Node
end ExprLang
