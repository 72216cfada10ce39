import ExprLang.Proofs.Grouping
import ExprLang.Proofs.Repetition

/-!
# Climbing Reads a Row

The parser climbs from power to power and builds the tree on its way.  The same tree comes out if
the operations are read one after the other, without a look at how they are grouped, and are then
put together by a stack of open operations.  A row may be read in two parts, the first one up to an
operator that binds less tightly than some rank, and both loops of a climb are such first parts.
-/

namespace ExprLang

namespace Operation

/-- What binds at least as tightly as some rank is one operand for what follows. -/
theorem assemble_append {rank : Nat} {front back : List Operation} (first : Expr)
    (hfront : ∀ operation ∈ front, rank ≤ operation.power.rank) (hback : NextWithin rank back) :
    assemble first (front ++ back) = assemble (assemble first front) back := by
  have hgroups := groups_assemble_of_le first hfront
  exact assembleWithin_of_groups hgroups (by simp [OpenBelow]) hback

/-- The operations after an operand that bind more tightly than the operator before it belong to
the operand. -/
theorem assemble_cons (operation : Operation) {front back : List Operation} (first : Expr)
    (hfront : ∀ next ∈ front, operation.power.rank < next.power.rank)
    (hback : NextWithin operation.power.rank back) :
    assemble first (operation :: (front ++ back)) =
      assemble (.binary operation.operator first (assemble operation.operand front)) back := by
  have hgroups := groups_assemble_of_le operation.operand hfront
  have hbelow : OpenBelow (operation.power.rank + 1)
      [⟨first, operation.operator, operation.power⟩] := by simp [OpenBelow]
  have hwithin : NextWithin (operation.power.rank + 1) back :=
    fun next hnext ↦ Nat.le_succ_of_le (hback next hnext)
  rw [assemble, assembleWithin, OpenOperation.close,
    assembleWithin_of_groups hgroups hbelow hwithin, assembleWithin_cons_of_nextWithin _ _ hback]
  rfl

end Operation

namespace Parser

variable (inner : Step (Option Expr))

/-- The next operator with the operand after it, if it has at least the given rank. -/
def nextOperation (rank : Nat) : Step (Option Operation) := do
  match (← get).operator? with
  | none => pure none
  | some (operator, power) =>
    if power.rank < rank then pure none
    else
      (fun operand ↦ some ⟨operator, power, operand⟩) <$> operandAfter inner operator

/-- All the operations that follow with at least the given rank. -/
def row (rank : Nat) : Step (List Operation) := many (nextOperation inner rank)

/-- The tree of an operand and the row of operations after it. -/
def treeOver (rank : Nat) (first : Expr) : Step Expr :=
  Operation.assemble first <$> row inner rank

/-- The operator that a parser has come to binds less tightly than the given rank, if there is
one. -/
def StopsBelow (rank : Nat) (parser : Parser) : Prop :=
  ∀ operator power, parser.operator? = some (operator, power) → power.rank < rank

/-- Either no operation follows, or one with the operator that stands there. -/
theorem stopsBelow_or (parser : Parser) (rank : Nat) : parser.StopsBelow rank ∨
    ∃ operator power, parser.operator? = some (operator, power) ∧ rank ≤ power.rank := by
  cases hoperator : parser.operator? with
  | none => exact .inl fun operator power h ↦ by simp [hoperator] at h
  | some operation =>
    obtain ⟨operator, power⟩ := operation
    rcases Nat.lt_or_ge power.rank rank with hlt | hle
    · refine .inl fun operator' power' h ↦ ?_
      rw [hoperator] at h
      cases h
      exact hlt
    · exact .inr ⟨operator, power, rfl, hle⟩

section

variable {inner} {parser parser' : Parser} {rank : Nat} {operator : BinaryOperator}
  {power : BindingPower}

theorem nextOperation_of_stopsBelow (h : parser.StopsBelow rank) :
    nextOperation inner rank parser = .ok none parser := by
  rw [nextOperation, get_bind_apply]
  cases hoperator : parser.operator? with
  | none => rfl
  | some operation =>
    simp only [if_pos (h _ _ hoperator)]
    rfl

theorem nextOperation_of_operator (h : parser.operator? = some (operator, power))
    (hle : rank ≤ power.rank) : nextOperation inner rank parser =
      ((fun operand ↦ some ⟨operator, power, operand⟩) <$> operandAfter inner operator) parser := by
  rw [nextOperation, get_bind_apply, h]
  simp only [if_neg (Nat.not_lt.mpr hle)]

/-- What a step for the next operation can yield. -/
theorem nextOperation_cases {result : Option Operation}
    (h : nextOperation inner rank parser = .ok result parser') :
    (result = none ∧ parser' = parser ∧ parser.StopsBelow rank) ∨
      ∃ operation : Operation, result = some operation ∧ rank ≤ operation.power.rank ∧
        parser.operator? = some (operation.operator, operation.power) ∧
        operandAfter inner operation.operator parser = .ok operation.operand parser' := by
  rcases stopsBelow_or parser rank with hstop | ⟨operator, power, hoperator, hle⟩
  · rw [nextOperation_of_stopsBelow hstop] at h
    obtain ⟨rfl, rfl⟩ := EStateM.Result.ok.inj h
    exact .inl ⟨rfl, rfl, hstop⟩
  · rw [nextOperation_of_operator hoperator hle] at h
    obtain ⟨operand, hoperand, rfl⟩ := exists_of_map_ok h
    exact .inr ⟨⟨operator, power, operand⟩, rfl, hle, hoperator, hoperand⟩

theorem kind_of_operator? (h : parser.operator? = some (operator, power)) :
    parser.current.kind ≠ .endOfInput := by
  intro hend
  rw [operator?, hend] at h
  cases h

variable {climb : BindingPower → Expr → Step Expr}

theorem tighterWith_of_operator (h : parser.operator? = some (operator, power))
    {limit : BindingPower} (hlt : limit.rank < power.rank) (right : Expr) :
    tighterWith climb limit right parser = (some <$> climb power right) parser := by
  rw [tighterWith, get_bind_apply, h]
  simp only [if_neg (Nat.not_le.mpr hlt)]

theorem tighterWith_of_stopsBelow {limit : BindingPower} (h : parser.StopsBelow (limit.rank + 1))
    (right : Expr) : tighterWith climb limit right parser = .ok none parser := by
  rw [tighterWith, get_bind_apply]
  cases hoperator : parser.operator? with
  | none => rfl
  | some operation =>
    simp only [if_pos (Nat.le_of_lt_succ (h _ _ hoperator))]
    rfl

theorem operationWith_of_stopsBelow {least : BindingPower} (h : parser.StopsBelow least.rank)
    (left : Expr) : operationWith inner climb least left parser = .ok none parser := by
  rw [operationWith, get_bind_apply]
  cases hoperator : parser.operator? with
  | none => rfl
  | some operation =>
    simp only [if_pos (h _ _ hoperator)]
    rfl

theorem operationWith_of_operator {least : BindingPower}
    (h : parser.operator? = some (operator, power)) (hle : least.rank ≤ power.rank) (left : Expr) :
    operationWith inner climb least left parser = (do
      let operand ← operandAfter inner operator
      let right ← iterate (tighterWith climb power) operand
      pure (some (Expr.binary operator left right))) parser := by
  rw [operationWith_eq, get_bind_apply, h]
  simp only [if_neg (Nat.not_lt.mpr hle)]

variable [Skips inner]

instance Skips.nextOperation (rank : Nat) : Skips (Parser.nextOperation inner rank) := by
  unfold Parser.nextOperation
  refine @bind _ _ MonadState.get _ _ fun parser ↦ ?_
  split <;> infer_instance

instance Skips.row (rank : Nat) : Skips (Parser.row inner rank) :=
  Skips.many (Parser.nextOperation inner rank)

instance Skips.treeOver (rank : Nat) (first : Expr) :
    Skips (Parser.treeOver inner rank first) := by
  unfold Parser.treeOver
  infer_instance

/-- Behind an operator and its operand fewer tokens are left. -/
theorem size_lt_of_operandAfter {operand : Expr} (hkind : parser.current.kind ≠ .endOfInput)
    (h : operandAfter inner operator parser = .ok operand parser') :
    parser'.size < parser.size := by
  rw [operandAfter, bind_apply, discard_apply, advance_apply] at h
  by_cases hmalformed : parser.shifted.current.kind = .malformedNumber
  · rw [if_pos hmalformed] at h
    cases h
  · rw [if_neg hmalformed] at h
    change (primaryWith inner >>= operandOf operator) parser.shifted = _ at h
    obtain ⟨n, rfl⟩ := exists_skip_of_ok h
    exact size_skip_lt parser n hkind

/-- And no step behind the operand brings a token back. -/
theorem size_lt_of_operandAfter_bind {α : Type} {next : Expr → Step α}
    [∀ operand, Skips (next operand)] {a : α} (hkind : parser.current.kind ≠ .endOfInput)
    (h : (operandAfter inner operator >>= next) parser = .ok a parser') :
    parser'.size < parser.size := by
  obtain ⟨operand, middle, hoperand, hnext⟩ := exists_of_bind_ok h
  exact (size_le_of_ok hnext).trans_lt (size_lt_of_operandAfter hkind hoperand)

/-- An operation takes its operator, whatever the parser. -/
theorem progressesAmong_nextOperation (rank : Nat) :
    ProgressesAmong (fun _ ↦ True) (nextOperation inner rank) := by
  intro parser operation parser' _ hstep
  rcases nextOperation_cases hstep with ⟨hnone, -⟩ | ⟨operation, -, -, hoperator, hoperand⟩
  · cases hnone
  · exact ⟨trivial, size_lt_of_operandAfter (kind_of_operator? hoperator) hoperand⟩

/-! ## Rows -/

theorem row_eq (rank : Nat) (parser : Parser) :
    row inner rank parser =
      (nextOperation inner rank >>= further (nextOperation inner rank)) parser :=
  (progressesAmong_nextOperation rank).many_eq trivial

theorem row_of_stopsBelow (h : parser.StopsBelow rank) : row inner rank parser = .ok [] parser := by
  rw [row_eq, bind_of_ok _ (nextOperation_of_stopsBelow h)]
  rfl

theorem row_of_operator (h : parser.operator? = some (operator, power)) (hle : rank ≤ power.rank) :
    row inner rank parser = (do
      let operand ← operandAfter inner operator
      List.cons (⟨operator, power, operand⟩ : Operation) <$> row inner rank) parser := by
  rw [row_eq, bind_apply, nextOperation_of_operator h hle, map_apply, bind_apply]
  cases operandAfter inner operator parser <;> rfl

/-- The operations of a row have the rank that was asked for, and the operator after them has
not. -/
theorem row_spec {operations : List Operation}
    (h : row inner rank parser = .ok operations parser') :
    (∀ operation ∈ operations, rank ≤ operation.power.rank) ∧ parser'.StopsBelow rank := by
  refine (progressesAmong_nextOperation rank).many_rec (motive := fun _ operations parser' ↦
    (∀ operation ∈ operations, rank ≤ operation.power.rank) ∧ parser'.StopsBelow rank)
    ?_ ?_ trivial h
  · intro parser parser' _ hstep
    rcases nextOperation_cases hstep with ⟨-, rfl, hstop⟩ | ⟨operation, hnone, -⟩
    · exact ⟨List.forall_mem_nil _, hstop⟩
    · cases hnone
  · rintro parser operation middle operations parser' - hstep ⟨hrank, hstop⟩
    rcases nextOperation_cases hstep with ⟨hnone, -⟩ | ⟨operation, ⟨⟩, hle, -⟩
    · cases hnone
    · exact ⟨List.forall_mem_cons.mpr ⟨hle, hrank⟩, hstop⟩

/-- The first operation of a row has the power of the operator that stands there. -/
theorem lt_of_mem_head? {operations : List Operation} {bound : Nat}
    (h : row inner rank parser = .ok operations parser') (hstop : parser.StopsBelow bound) :
    ∀ operation ∈ operations.head?, operation.power.rank < bound := by
  rcases stopsBelow_or parser rank with hnone | ⟨operator, power, hoperator, hle⟩
  · rw [row_of_stopsBelow hnone] at h
    obtain ⟨rfl, -⟩ := EStateM.Result.ok.inj h
    simp
  · rw [row_of_operator hoperator hle] at h
    obtain ⟨operand, middle, -, hrow⟩ := exists_of_bind_ok h
    obtain ⟨others, -, rfl⟩ := exists_of_map_ok hrow
    simpa using hstop operator power hoperator

/-- A row is read in two parts, the first one up to an operator that binds less tightly. -/
theorem row_append {bound : Nat} (hle : rank ≤ bound) :
    row inner rank = row inner bound >>= fun front ↦ (front ++ ·) <$> row inner rank := by
  funext parser
  induction hsize : parser.size using Nat.strong_induction_on generalizing parser with
  | _ size ih =>
    rcases stopsBelow_or parser bound with hstop | ⟨operator, power, hoperator, hbound⟩
    · rw [bind_of_ok _ (row_of_stopsBelow hstop), map_apply]
      cases row inner rank parser <;> rfl
    · have hrest (operand : Expr) (middle : Parser)
          (hoperand : operandAfter inner operator parser = .ok operand middle) :
          (List.cons (⟨operator, power, operand⟩ : Operation) <$> row inner rank) middle =
            (List.cons ⟨operator, power, operand⟩ <$>
              (row inner bound >>= fun front ↦ (front ++ ·) <$> row inner rank)) middle := by
        have hlt := size_lt_of_operandAfter (kind_of_operator? hoperator) hoperand
        exact map_apply_congr (ih _ (hsize ▸ hlt) middle rfl) fun _ _ _ ↦ rfl
      rw [row_of_operator hoperator (hle.trans hbound), bind_apply_congr rfl hrest,
        bind_apply_congr (row_of_operator hoperator hbound) fun _ _ _ ↦ rfl]
      simp only [map_bind, bind_assoc, bind_map_left, Functor.map_map, List.cons_append]

theorem treeOver_of_stopsBelow (h : parser.StopsBelow rank) (first : Expr) :
    treeOver inner rank first parser = .ok first parser := by
  rw [treeOver, map_apply, row_of_stopsBelow h]
  rfl

/-- What is built of a whole row may be built in two parts, if the first part is one operand for the
second. -/
theorem map_row_eq {bound : Nat} (hle : rank ≤ bound) {build left : List Operation → Expr}
    (h : ∀ front back : List Operation, (∀ operation ∈ front, bound ≤ operation.power.rank) →
      (∀ operation ∈ back.head?, operation.power.rank < bound) →
      build (front ++ back) = Operation.assemble (left front) back) :
    build <$> row inner rank = left <$> row inner bound >>= treeOver inner rank := by
  have hback (parser middle : Parser) (front : List Operation)
      (hfront : row inner bound parser = .ok front middle) :
      ((fun back ↦ build (front ++ back)) <$> row inner rank) middle =
        treeOver inner rank (left front) middle := by
    obtain ⟨hrank, hstop⟩ := row_spec hfront
    exact map_apply_congr rfl fun back parser' hback ↦
      h front back hrank (lt_of_mem_head? hback hstop)
  calc build <$> row inner rank
      = build <$> (row inner bound >>= fun front ↦ (front ++ ·) <$> row inner rank) :=
        congrArg (build <$> ·) (row_append hle)
    _ = row inner bound >>= fun front ↦ (fun back ↦ build (front ++ back)) <$> row inner rank := by
        simp only [map_bind, Functor.map_map]
    _ = row inner bound >>= fun front ↦ treeOver inner rank (left front) :=
        funext fun parser ↦ bind_apply_congr rfl fun front middle ↦ hback parser middle front
    _ = left <$> row inner bound >>= treeOver inner rank := (bind_map_left _ _ _).symm

/-- The tree of a row is that of its second part, with the tree of its first part as the operand. -/
theorem treeOver_append {bound : Nat} (hle : rank ≤ bound) (first : Expr) :
    treeOver inner rank first = treeOver inner bound first >>= treeOver inner rank :=
  map_row_eq hle fun _ _ hfront hback ↦
    Operation.assemble_append first hfront fun operation h ↦ (hback operation h).le

/-- The operations after an operand that bind more tightly than the operator before it belong to the
operand. -/
theorem assemble_row_cons (operation : Operation) (hle : rank ≤ operation.power.rank)
    (first : Expr) :
    Operation.assemble first <$> List.cons operation <$> row inner rank =
      treeOver inner (operation.power.rank + 1) operation.operand >>= fun right ↦
        treeOver inner rank (.binary operation.operator first right) := by
  rw [Functor.map_map, treeOver, bind_map_left, map_row_eq (Nat.le_succ_of_le hle), bind_map_left]
  exact fun front back hfront hback ↦ Operation.assemble_cons operation first hfront fun next h ↦
    Nat.le_of_lt_succ (hback next h)

theorem treeOver_of_operator (h : parser.operator? = some (operator, power))
    (hle : rank ≤ power.rank) (first : Expr) : treeOver inner rank first parser = (do
      let operand ← operandAfter inner operator
      let right ← treeOver inner (power.rank + 1) operand
      treeOver inner rank (.binary operator first right)) parser := by
  calc treeOver inner rank first parser
      = (Operation.assemble first <$> (operandAfter inner operator >>= fun operand ↦
          List.cons (⟨operator, power, operand⟩ : Operation) <$> row inner rank)) parser :=
        map_apply_congr (row_of_operator h hle) fun _ _ _ ↦ rfl
    _ = (operandAfter inner operator >>= fun operand ↦ Operation.assemble first <$>
          List.cons (⟨operator, power, operand⟩ : Operation) <$> row inner rank) parser := by
        rw [map_bind]
    _ = (operandAfter inner operator >>= fun operand ↦
          treeOver inner (power.rank + 1) operand >>= fun right ↦
            treeOver inner rank (.binary operator first right)) parser :=
        bind_apply_congr rfl fun operand middle _ ↦
          congrFun (assemble_row_cons ⟨operator, power, operand⟩ hle first) middle

/-! ## Climbs -/

/-- The step climbs like the reading of a row, to powers above the given rank. -/
def ClimbsAbove (inner : Step (Option Expr)) (rank : Nat)
    (climb : BindingPower → Expr → Step Expr) : Prop :=
  ∀ least : BindingPower, rank < least.rank → climb least = treeOver inner least.rank

theorem size_lt_of_treeOver {tree : Expr} (h : parser.operator? = some (operator, power))
    (hle : rank ≤ power.rank) (first : Expr)
    (htree : treeOver inner rank first parser = .ok tree parser') : parser'.size < parser.size := by
  rw [treeOver_of_operator h hle] at htree
  exact size_lt_of_operandAfter_bind (kind_of_operator? h) htree

theorem progressesAmong_tighterWith (hclimb : ClimbsAbove inner power.rank climb) (right : Expr) :
    ProgressesAmong (fun _ ↦ True) (tighterWith climb power right) := by
  intro parser tree parser' _ hstep
  rcases stopsBelow_or parser (power.rank + 1) with hstop | ⟨operator, next, hoperator, hlt⟩
  · rw [tighterWith_of_stopsBelow hstop] at hstep
    cases hstep
  · rw [tighterWith_of_operator hoperator hlt, hclimb next hlt] at hstep
    obtain ⟨tree, htree, -⟩ := exists_of_map_ok hstep
    exact ⟨trivial, size_lt_of_treeOver hoperator le_rfl right htree⟩

/-- The loop over a right operand reads the operations that bind more tightly than the operator
before it. -/
theorem iterate_tighterWith (hclimb : ClimbsAbove inner power.rank climb) (right : Expr) :
    iterate (tighterWith climb power) right = treeOver inner (power.rank + 1) right := by
  funext parser
  induction hsize : parser.size using Nat.strong_induction_on generalizing parser right with
  | _ size ih =>
    rw [iterate_eq (progressesAmong_tighterWith hclimb) trivial]
    rcases stopsBelow_or parser (power.rank + 1) with hstop | ⟨operator, next, hoperator, hlt⟩
    · rw [bind_of_ok _ (tighterWith_of_stopsBelow hstop right),
        treeOver_of_stopsBelow hstop]
      rfl
    · have hstep : tighterWith climb power right parser =
          (some <$> treeOver inner next.rank right) parser := by
        rw [tighterWith_of_operator hoperator hlt, hclimb next hlt]
      calc (tighterWith climb power right >>= onward (tighterWith climb power) right) parser
          = ((some <$> treeOver inner next.rank right) >>=
              onward (tighterWith climb power) right) parser :=
            bind_apply_congr hstep fun _ _ _ ↦ rfl
        _ = (treeOver inner next.rank right >>= iterate (tighterWith climb power)) parser := by
            rw [bind_map_left]
            rfl
        _ = (treeOver inner next.rank right >>= treeOver inner (power.rank + 1)) parser :=
            bind_apply_congr rfl fun tree middle htree ↦
              ih _ (hsize ▸ size_lt_of_treeOver hoperator le_rfl right htree) tree middle rfl
        _ = treeOver inner (power.rank + 1) right parser := by rw [← treeOver_append hlt]

theorem progressesAmong_operationWith [∀ least left, Skips (climb least left)]
    (least : BindingPower) (left : Expr) :
    ProgressesAmong (fun _ ↦ True) (operationWith inner climb least left) := by
  intro parser tree parser' _ hstep
  rcases stopsBelow_or parser least.rank with hstop | ⟨operator, power, hoperator, hle⟩
  · rw [operationWith_of_stopsBelow hstop] at hstep
    cases hstep
  · rw [operationWith_of_operator hoperator hle] at hstep
    exact ⟨trivial, size_lt_of_operandAfter_bind (kind_of_operator? hoperator) hstep⟩

/-- The loop over a left operand reads the operations that bind at least as tightly as the given
power. -/
theorem iterate_operationWith [∀ least left, Skips (climb least left)] {least : BindingPower}
    (hclimb : ClimbsAbove inner least.rank climb) (left : Expr) :
    iterate (operationWith inner climb least) left = treeOver inner least.rank left := by
  funext parser
  induction hsize : parser.size using Nat.strong_induction_on generalizing parser left with
  | _ size ih =>
    rw [iterate_eq (progressesAmong_operationWith least) trivial]
    rcases stopsBelow_or parser least.rank with hstop | ⟨operator, power, hoperator, hle⟩
    · rw [bind_of_ok _ (operationWith_of_stopsBelow hstop left), treeOver_of_stopsBelow hstop]
      rfl
    · have htighter (operand : Expr) : iterate (tighterWith climb power) operand =
          treeOver inner (power.rank + 1) operand :=
        iterate_tighterWith (fun next hlt ↦ hclimb next (hle.trans_lt hlt)) operand
      calc (operationWith inner climb least left >>=
              onward (operationWith inner climb least) left) parser
          = ((operandAfter inner operator >>= fun operand ↦
              iterate (tighterWith climb power) operand >>= fun right ↦
                pure (some (Expr.binary operator left right))) >>=
              onward (operationWith inner climb least) left) parser :=
            bind_apply_congr (operationWith_of_operator hoperator hle left) fun _ _ _ ↦ rfl
        _ = (operandAfter inner operator >>= fun operand ↦
              treeOver inner (power.rank + 1) operand >>= fun right ↦
                iterate (operationWith inner climb least) (.binary operator left right))
              parser := by
            simp only [bind_assoc, pure_bind, htighter]
            rfl
        _ = (operandAfter inner operator >>= fun operand ↦
              treeOver inner (power.rank + 1) operand >>= fun right ↦
                treeOver inner least.rank (.binary operator left right)) parser := by
            refine bind_apply_congr rfl fun operand middle hoperand ↦ ?_
            refine bind_apply_congr rfl fun right parser' hright ↦ ?_
            have hless := size_lt_of_operandAfter (kind_of_operator? hoperator) hoperand
            exact ih _ (hsize ▸ (size_le_of_ok hright).trans_lt hless) _ parser' rfl
        _ = treeOver inner least.rank left parser :=
            (treeOver_of_operator hoperator hle left).symm

variable (inner) in
/-- A climb never runs out of powers. -/
theorem climbWithin_eq (n : Nat) (least : BindingPower) (h : BindingPower.count ≤ n + least.rank) :
    climbWithin inner n least = treeOver inner least.rank := by
  induction n generalizing least with
  | zero =>
    have hlt := least.rank_lt_count
    omega
  | succ n ih =>
    funext left
    rw [climbWithin]
    exact iterate_operationWith (fun next hlt ↦ ih next (by omega)) left

/-- Climbing reads the operations one after the other and builds the tree that a stack of open
operations builds. -/
theorem operationsWith_eq (inner : Step (Option Expr)) [Skips inner] (least : BindingPower)
    (first : Expr) : operationsWith inner least first =
      Operation.assemble first <$> many (nextOperation inner least.rank) := by
  rw [operationsWith, climbWithin_eq inner _ least (Nat.le_add_right _ _)]
  rfl

end

end Parser

end ExprLang
