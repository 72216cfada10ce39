import ExprLang.Proofs.Descriptions
import ExprLang.Proofs.Dumps

/-!
# Reading Trees Back from Their Descriptions

A description names every construction and every part of it.  It has one link for each condition of
a chain and the block behind the chain apart from them, so a chain in a block is never taken for
more links of the chain around it.  A description determines its tree, up to numbers that are
written in the same way.
-/

namespace ExprLang

open Description

namespace Binary64

/-- The numbers are written in the same way where whole numbers are told from others. -/
def SameTaggedText (value value' : Binary64) : Prop := value.taggedText = value'.taggedText

theorem allBare_toDigits (n : Nat) : AllBare (Nat.toDigits 10 n) := by
  intro c hc
  have hdigit : c.isDigit = true := Nat.isDigit_of_mem_toDigits (by decide) (by decide) hc
  simp [isBareChar, Char.isAlphanum, hdigit]

theorem allBare_zeros (n : Nat) : AllBare (List.replicate n '0') := by
  intro c hc
  rw [List.eq_of_mem_replicate hc]
  decide

theorem allBare_decimal (d : Decimal) : AllBare d.toDigits.digits := by
  intro c hc
  rw [Decimal.toDigits, List.mem_reverse] at hc
  exact allBare_toDigits _ c (List.mem_reverse.mp ((List.dropWhile_sublist _).subset hc))

theorem allBare_integerText (n : Int) : AllBare (integerText n) := by
  rw [integerText]
  split
  · exact List.forall_mem_cons.mpr ⟨by decide, allBare_toDigits _⟩
  · exact allBare_toDigits _

variable {d : Digits}

theorem allBare_positional (h : AllBare d.digits) : AllBare (d.positional ['.', '0']) := by
  have hpoint (cs : List Char) (hcs : AllBare cs) : AllBare ('.' :: cs) :=
    List.forall_mem_cons.mpr ⟨by decide, hcs⟩
  rw [Digits.positional]
  split
  · exact List.forall_mem_cons.mpr
      ⟨by decide, hpoint _ (List.forall_mem_append.mpr ⟨allBare_zeros _, h⟩)⟩
  split
  · exact List.forall_mem_append.mpr
      ⟨List.forall_mem_append.mpr ⟨h, allBare_zeros _⟩, hpoint _ (allBare_zeros 1)⟩
  · exact List.forall_mem_append.mpr ⟨fun c hc ↦ h c (List.mem_of_mem_take hc),
      hpoint _ fun c hc ↦ h c (List.mem_of_mem_drop hc)⟩

theorem allBare_scientific (h : AllBare d.digits) : AllBare d.scientific := by
  have hfraction : AllBare (d.digits.drop 1) := fun c hc ↦ h c (List.mem_of_mem_drop hc)
  refine List.forall_mem_append.mpr ⟨List.forall_mem_append.mpr ⟨?_, ?_⟩, ?_⟩
  · exact fun c hc ↦ h c (List.mem_of_mem_take hc)
  · split
    · exact List.forall_mem_nil _
    · exact List.forall_mem_cons.mpr ⟨by decide, hfraction⟩
  · exact List.forall_mem_cons.mpr ⟨by decide, allBare_integerText _⟩

theorem tagged_digits_ne_nil (d : Digits) : Layout.tagged.digits d ≠ [] := by
  rw [Layout.digits, Digits.positional, Digits.scientific]
  split
  · simp
  split
  · simp
  · split <;> simp [Layout.tagged]

/-- A number stands in a description without quotes. -/
theorem isBare_taggedText (value : Binary64) : IsBare value.taggedText := by
  have hdigits (decimal : Decimal) : AllBare (Layout.tagged.digits decimal.toDigits) := by
    rw [Layout.digits]
    split
    · exact allBare_scientific (allBare_decimal decimal)
    · exact allBare_positional (allBare_decimal decimal)
  have hsign (negative : Bool) : AllBare (if negative then ['-'] else []) := by
    cases negative <;> decide
  rw [taggedText, IsBare, String.toList_ofList, Ne, ← String.toList_inj, String.toList_ofList,
    Layout.text]
  split
  · decide
  refine ⟨fun h ↦ ?_, List.forall_mem_append.mpr ⟨hsign _, (?_ : AllBare _)⟩⟩
  · obtain ⟨-, h⟩ := List.append_eq_nil_iff.mp h
    split at h
    · cases h
    split at h
    · exact tagged_digits_ne_nil _ h
    · cases h
  · split
    · decide
    split
    · exact hdigits _
    · decide

end Binary64

/-! ## Descriptions that can be read back -/

namespace Description

theorem string_injective : Function.Injective string :=
  fun _ _ h ↦ Text.quoted_injective (atom.inj h)

/-- Named parts that can be read back. -/
def ReadableParts (parts : List (String × Description)) : Prop :=
  ∀ part ∈ parts, IsBare part.1 ∧ Readable part.2

theorem ReadableParts.nil : ReadableParts [] := List.forall_mem_nil _

theorem ReadableParts.cons {name : String} {d : Description} {parts : List (String × Description)}
    (hname : IsBare name) (h : Readable d) (hparts : ReadableParts parts) :
    ReadableParts ((name, d) :: parts) :=
  List.forall_mem_cons.mpr ⟨⟨hname, h⟩, hparts⟩

theorem ReadableParts.record {name : String} {parts : List (String × Description)}
    (hparts : ReadableParts parts) (hname : IsBare name) :
    Readable (Description.record name parts) := by
  refine .record hname ?_
  rw [List.forall_mem_map]
  exact fun part hpart ↦ .named (hparts part hpart).1 (hparts part hpart).2

theorem readable_strings (texts : List String) : ∀ part ∈ texts.map string, Readable part :=
  List.forall_mem_map.mpr fun text _ ↦ .string text

theorem readable_block {statements : List Description}
    (h : ∀ part ∈ statements, Readable part) : Readable (describeBlock statements) :=
  (ReadableParts.nil.cons (by decide) (.list h)).record (by decide)

theorem readable_link {condition body : Description} (hcondition : Readable condition)
    (hbody : Readable body) : Readable (describeLink condition body) :=
  ((ReadableParts.nil.cons (by decide) hbody).cons (by decide) hcondition).record (by decide)

end Description

namespace Expr

mutual

theorem readable_describe : (x : Expr) → x.describe.Readable
  | number value =>
    .choice (by decide) ((ReadableParts.nil.cons (by decide)
      (.word value.isBare_taggedText)).record (by decide))
  | var name =>
    .choice (by decide) ((ReadableParts.nil.cons (by decide) (.string name)).record (by decide))
  | binary operator left right =>
    have hoperator : IsBare operator.name := by cases operator <;> decide
    .choice (by decide) ((((ReadableParts.nil.cons (by decide) (readable_describe right)).cons
      (by decide) (readable_describe left)).cons (by decide) (.word hoperator)).record (by decide))
  | call callee arguments =>
    .choice (by decide) (((ReadableParts.nil.cons (by decide)
      (.list (readable_describeAll arguments))).cons (by decide) (.string callee)).record
        (by decide))

theorem readable_describeAll : (xs : List Expr) → ∀ part ∈ describeAll xs, part.Readable
  | [] => by simp [describeAll]
  | x :: xs => List.forall_mem_cons.mpr ⟨readable_describe x, readable_describeAll xs⟩

end

end Expr

namespace Stmt

mutual

theorem readable_describe : (s : Stmt) → s.describe.Readable
  | expression value => .choice (by decide) value.readable_describe
  | compound body => .choice (by decide) (readable_block (readable_describeAll body))
  | assignment targets value => by
    have htargets : ∀ part ∈ targets.map (fun name ↦
        Description.record "VariableExpr" [("name", Description.string name)]), part.Readable :=
      List.forall_mem_map.mpr fun name _ ↦
        (ReadableParts.nil.cons (by decide) (.string name)).record (by decide)
    exact .choice (by decide) (((ReadableParts.nil.cons (by decide)
      value.readable_describe).cons (by decide) (.list htargets)).record (by decide))
  | result value =>
    .choice (by decide) ((ReadableParts.nil.cons (by decide)
      value.readable_describe).record (by decide))
  | conditional condition body otherwise =>
    have hlinks := List.forall_mem_cons.mpr ⟨readable_link condition.readable_describe
      (readable_block (readable_describeAll body)), readable_describeLinks otherwise⟩
    .choice (by decide) (((ReadableParts.nil.cons (by decide)
      (readable_describeLast otherwise)).cons (by decide) (.list hlinks)).record (by decide))
  | loop index initial condition step body =>
    .choice (by decide) ((((((ReadableParts.nil.cons (by decide)
      (readable_block (readable_describeAll body))).cons (by decide)
      step.readable_describe).cons (by decide) condition.readable_describe).cons (by decide)
      initial.readable_describe).cons (by decide) (.string index)).record (by decide))

theorem readable_describeAll : (body : Block) → ∀ part ∈ describeAll body, part.Readable
  | [] => by simp [describeAll]
  | s :: body => List.forall_mem_cons.mpr ⟨readable_describe s, readable_describeAll body⟩

theorem readable_describeLinks : (branch : ElseBranch) →
    ∀ part ∈ describeLinks branch, part.Readable
  | .absent => by simp [describeLinks]
  | .elseIf condition body otherwise => List.forall_mem_cons.mpr
    ⟨readable_link condition.readable_describe (readable_block (readable_describeAll body)),
      readable_describeLinks otherwise⟩
  | .block _ => by simp [describeLinks]

theorem readable_describeLast : (branch : ElseBranch) → (describeLast branch).Readable
  | .absent => .word (by decide)
  | .elseIf _ _ otherwise => readable_describeLast otherwise
  | .block body => .choice (by decide) (readable_block (readable_describeAll body))

end

end Stmt

theorem Prototype.readable_describe (p : Prototype) : p.describe.Readable :=
  ((ReadableParts.nil.cons (by decide) (.list (readable_strings p.parameters))).cons (by decide)
    (.string p.name)).record (by decide)

theorem Definition.readable_describe (d : Definition) : d.describe.Readable :=
  ((ReadableParts.nil.cons (by decide) (readable_block (Stmt.readable_describeAll d.body))).cons
    (by decide) d.prototype.readable_describe).record (by decide)

theorem SourceUnit.readable_describe (u : SourceUnit) : u.describe.Readable :=
  (((ReadableParts.nil.cons (by decide) (.list (List.forall_mem_map.mpr fun d _ ↦
    Definition.readable_describe d))).cons (by decide) (.list (List.forall_mem_map.mpr fun p _ ↦
      Prototype.readable_describe p))).cons (by decide) (.string u.name)).record (by decide)

theorem Node.readable_describe (node : Node) : node.describe.Readable := by
  cases node with
  | expr x => exact x.readable_describe
  | stmt s => exact s.readable_describe
  | block body => exact readable_block (Stmt.readable_describeAll body)
  | prototype p => exact p.readable_describe
  | definition d => exact d.readable_describe
  | unit u => exact u.readable_describe

/-! ## Trees told apart -/

theorem BinaryOperator.name_injective : Function.Injective name := by
  intro operator operator'
  cases operator <;> cases operator' <;> decide

namespace Expr

mutual

theorem alike_of_describe (x y : Expr) (h : x.describe = y.describe) :
    x.Alike Binary64.SameTaggedText y := by
  cases x with
  | number value =>
    cases y with
    | number value' =>
      have hvalue : value.taggedText = value'.taggedText := by
        simpa [describe, choice, record] using h
      exact .number hvalue
    | _ => simp [describe, choice] at h
  | var name =>
    cases y with
    | var name' =>
      obtain rfl : name = name' := by
        simpa [describe, choice, record, string_injective.eq_iff] using h
      exact .var name
    | _ => simp [describe, choice] at h
  | binary operator left right =>
    cases y with
    | binary operator' left' right' =>
      obtain ⟨hoperator, hleft, hright⟩ : operator.name = operator'.name ∧
          left.describe = left'.describe ∧ right.describe = right'.describe := by
        simpa [describe, choice, record] using h
      rw [BinaryOperator.name_injective hoperator]
      exact .binary operator' (alike_of_describe left left' hleft)
        (alike_of_describe right right' hright)
    | _ => simp [describe, choice] at h
  | call callee arguments =>
    cases y with
    | call callee' arguments' =>
      obtain ⟨rfl, harguments⟩ : callee = callee' ∧
          describeAll arguments = describeAll arguments' := by
        simpa [describe, choice, record, list, string_injective.eq_iff] using h
      exact .call callee (alike_of_describeAll arguments arguments' harguments)
    | _ => simp [describe, choice] at h

theorem alike_of_describeAll (xs ys : List Expr) (h : describeAll xs = describeAll ys) :
    List.Forall₂ (Alike Binary64.SameTaggedText) xs ys := by
  cases xs with
  | nil =>
    cases ys with
    | nil => exact .nil
    | cons y ys => cases h
  | cons x xs =>
    cases ys with
    | nil => cases h
    | cons y ys =>
      obtain ⟨hfirst, hrest⟩ := List.cons.inj h
      exact .cons (alike_of_describe x y hfirst) (alike_of_describeAll xs ys hrest)

end

end Expr

namespace Description

theorem describeBlock_injective : Function.Injective describeBlock := by
  intro statements statements' h
  simpa [describeBlock, record, list] using h

theorem eq_of_describeLink_eq {condition condition' body body' : Description}
    (h : describeLink condition body = describeLink condition' body') :
    condition = condition' ∧ body = body' := by
  simpa [describeLink, record] using h

theorem variable_injective :
    Function.Injective fun name : String ↦ record "VariableExpr" [("name", string name)] := by
  intro name name' h
  simpa [record, string_injective.eq_iff] using h

end Description

namespace Stmt

mutual

theorem alike_of_describe (s t : Stmt) (h : s.describe = t.describe) :
    s.Alike Binary64.SameTaggedText t := by
  cases s with
  | expression value =>
    cases t with
    | expression value' =>
      have hvalue : value.describe = value'.describe := by simpa [describe, choice] using h
      exact .expression (value.alike_of_describe value' hvalue)
    | _ => simp [describe, choice] at h
  | compound body =>
    cases t with
    | compound body' =>
      have hbody : describeAll body = describeAll body' := by
        simpa [describe, choice, describeBlock_injective.eq_iff] using h
      exact .compound (alike_of_describeAll body body' hbody)
    | _ => simp [describe, choice] at h
  | assignment targets value =>
    cases t with
    | assignment targets' value' =>
      obtain ⟨htargets, hvalue⟩ :
          (targets.map fun name ↦ record "VariableExpr" [("name", string name)]) =
            (targets'.map fun name ↦ record "VariableExpr" [("name", string name)]) ∧
          value.describe = value'.describe := by
        simpa [describe, choice, record, list] using h
      rw [List.map_injective_iff.mpr variable_injective htargets]
      exact .assignment targets' (value.alike_of_describe value' hvalue)
    | _ => simp [describe, choice] at h
  | result value =>
    cases t with
    | result value' =>
      have hvalue : value.describe = value'.describe := by
        simpa [describe, choice, record] using h
      exact .result (value.alike_of_describe value' hvalue)
    | _ => simp [describe, choice] at h
  | conditional condition body otherwise =>
    cases t with
    | conditional condition' body' otherwise' =>
      obtain ⟨⟨hlink, hlinks⟩, hlast⟩ :
          (describeLink condition.describe (describeBlock (describeAll body)) =
              describeLink condition'.describe (describeBlock (describeAll body')) ∧
            describeLinks otherwise = describeLinks otherwise') ∧
          describeLast otherwise = describeLast otherwise' := by
        simpa [describe, choice, record, list] using h
      obtain ⟨hcondition, hbody⟩ := eq_of_describeLink_eq hlink
      exact .conditional (condition.alike_of_describe condition' hcondition)
        (alike_of_describeAll body body' (describeBlock_injective hbody))
        (alike_of_describeElse otherwise otherwise' hlinks hlast)
    | _ => simp [describe, choice] at h
  | loop index initial condition step body =>
    cases t with
    | loop index' initial' condition' step' body' =>
      obtain ⟨rfl, hinitial, hcondition, hstep, hbody⟩ : index = index' ∧
          initial.describe = initial'.describe ∧ condition.describe = condition'.describe ∧
          step.describe = step'.describe ∧ describeAll body = describeAll body' := by
        simpa [describe, choice, record, string_injective.eq_iff, describeBlock_injective.eq_iff]
          using h
      exact .loop index (initial.alike_of_describe initial' hinitial)
        (condition.alike_of_describe condition' hcondition) (step.alike_of_describe step' hstep)
        (alike_of_describeAll body body' hbody)
    | _ => simp [describe, choice] at h

theorem alike_of_describeAll (body body' : Block) (h : describeAll body = describeAll body') :
    List.Forall₂ (Alike Binary64.SameTaggedText) body body' := by
  cases body with
  | nil =>
    cases body' with
    | nil => exact .nil
    | cons t body' => cases h
  | cons s body =>
    cases body' with
    | nil => cases h
    | cons t body' =>
      obtain ⟨hfirst, hrest⟩ := List.cons.inj h
      exact .cons (alike_of_describe s t hfirst) (alike_of_describeAll body body' hrest)

/-- The links tell how long a chain is, and what is described apart from them tells how it ends. -/
theorem alike_of_describeElse (branch branch' : ElseBranch)
    (hlinks : describeLinks branch = describeLinks branch')
    (hlast : describeLast branch = describeLast branch') :
    branch.Alike Binary64.SameTaggedText branch' := by
  cases branch with
  | absent =>
    cases branch' with
    | absent => exact .absent
    | elseIf condition' body' otherwise' => cases hlinks
    | block body' => cases hlast
  | elseIf condition body otherwise =>
    cases branch' with
    | elseIf condition' body' otherwise' =>
      obtain ⟨hlink, hlinks⟩ := List.cons.inj hlinks
      obtain ⟨hcondition, hbody⟩ := eq_of_describeLink_eq hlink
      exact .elseIf (condition.alike_of_describe condition' hcondition)
        (alike_of_describeAll body body' (describeBlock_injective hbody))
        (alike_of_describeElse otherwise otherwise' hlinks hlast)
    | _ => cases hlinks
  | block body =>
    cases branch' with
    | absent => cases hlast
    | elseIf condition' body' otherwise' => cases hlinks
    | block body' =>
      have hbody : describeAll body = describeAll body' := by
        simpa [describeLast, choice, describeBlock_injective.eq_iff] using hlast
      exact .block (alike_of_describeAll body body' hbody)

end

end Stmt

theorem Prototype.describe_injective : Function.Injective describe := by
  rintro ⟨name, parameters⟩ ⟨name', parameters'⟩ h
  obtain ⟨rfl, hparameters⟩ : name = name' ∧ parameters.map string = parameters'.map string := by
    simpa [describe, record, list, string_injective.eq_iff] using h
  rw [List.map_injective_iff.mpr string_injective hparameters]

theorem Definition.alike_of_describe {d e : Definition} (h : d.describe = e.describe) :
    d.Alike Binary64.SameTaggedText e := by
  obtain ⟨hprototype, hbody⟩ : d.prototype.describe = e.prototype.describe ∧
      Stmt.describeAll d.body = Stmt.describeAll e.body := by
    simpa [describe, record, describeBlock_injective.eq_iff] using h
  exact ⟨Prototype.describe_injective hprototype, Stmt.alike_of_describeAll d.body e.body hbody⟩

theorem SourceUnit.alike_of_describe {u v : SourceUnit} (h : u.describe = v.describe) :
    u.Alike Binary64.SameTaggedText v := by
  obtain ⟨hname, hprototypes, hdefinitions⟩ : u.name = v.name ∧
      u.prototypes.map Prototype.describe = v.prototypes.map Prototype.describe ∧
      u.definitions.map Definition.describe = v.definitions.map Definition.describe := by
    simpa [describe, record, list, string_injective.eq_iff] using h
  rw [← List.forall₂_eq_eq_eq, List.forall₂_map_left_iff, List.forall₂_map_right_iff]
    at hdefinitions
  exact ⟨hname, List.map_injective_iff.mpr Prototype.describe_injective hprototypes,
    hdefinitions.imp fun d e ↦ Definition.alike_of_describe⟩

theorem Node.alike_of_describe {node other : Node} (htype : node.SameType other)
    (h : node.describe = other.describe) : node.Alike Binary64.SameTaggedText other := by
  cases htype with
  | expr x y => exact .expr (x.alike_of_describe y h)
  | stmt s t => exact .stmt (s.alike_of_describe t h)
  | block body body' =>
    exact .block (Stmt.alike_of_describeAll body body' (describeBlock_injective h))
  | prototype p q =>
    rw [Prototype.describe_injective h]
    exact .prototype q
  | definition d e => exact .definition (Definition.alike_of_describe h)
  | unit u v => exact .unit (SourceUnit.alike_of_describe h)

def Link.describe (link : Link) : Description :=
  describeLink link.condition.describe (describeBlock (Stmt.describeAll link.body))

/-- How the end of a chain is described: by nothing or by a block, never by one more link. -/
def describeEnd : Option Block → Description
  | none => .atom "None"
  | some body => choice "Else" (describeBlock (Stmt.describeAll body))

theorem Stmt.describeLinks_eq (branch : ElseBranch) :
    describeLinks branch = branch.links.map Link.describe :=
  match branch with
  | .absent => rfl
  | .elseIf _ _ otherwise => by
    rw [describeLinks, describeLinks_eq otherwise, ElseBranch.links, List.map_cons]
    rfl
  | .block _ => rfl

theorem Stmt.describeLast_eq (branch : ElseBranch) :
    describeLast branch = describeEnd branch.last :=
  match branch with
  | .absent => rfl
  | .elseIf _ _ otherwise => by rw [describeLast, describeLast_eq otherwise, ElseBranch.last]
  | .block _ => rfl

/-- A chain of any length is described by the list of its links, one for each condition and in their
order, and by its end. -/
theorem Stmt.describe_conditional (condition : Expr) (body : Block) (otherwise : ElseBranch) :
    (conditional condition body otherwise).describe = choice "If" (record "IfStmt"
      [("links", list ((⟨condition, body⟩ :: otherwise.links : List Link).map Link.describe)),
        ("else", describeEnd otherwise.last)]) := by
  rw [describe, describeLinks_eq, describeLast_eq, List.map_cons]
  rfl

namespace Node

/-- Nodes of the same type are alike if the texts of their descriptions are the same, although a
chain of conditions is described by the list of its links and its end. -/
theorem alike_of_description_eq :
    (∀ node other : Node, node.SameType other → node.describe.text = other.describe.text →
      node.Alike Binary64.SameTaggedText other) ∧
    ∀ (condition : Expr) (body : Block) (otherwise : ElseBranch),
      (Stmt.conditional condition body otherwise).describe = choice "If" (record "IfStmt"
        [("links", list ((⟨condition, body⟩ :: otherwise.links : List Link).map Link.describe)),
          ("else", describeEnd otherwise.last)]) := by
  refine ⟨fun node other htype htext ↦ alike_of_describe htype ?_, Stmt.describe_conditional⟩
  exact node.readable_describe.eq_of_text_eq other.readable_describe htext

/-- A NaN is described without its sign. -/
theorem alike_of_description_eq_nan :
    (openSample (nan false)).describe.text = (openSample (nan true)).describe.text ∧
      (openSample (nan false)).Alike Binary64.SameTaggedText (openSample (nan true)) := by
  have htext : (openSample (nan false)).describe.text = (openSample (nan true)).describe.text := by
    decide +kernel
  exact ⟨htext, alike_of_description_eq.1 _ _ (.unit _ _) htext⟩

end Node

end ExprLang
