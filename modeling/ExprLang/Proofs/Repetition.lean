import ExprLang.Proofs.Frame

/-!
# Repetition

A repeated step takes a token whenever it yields something.  So the bound on the repetitions is
never met, and a repetition goes on until the step yields nothing.  The same holds of a step that
replaces a value again and again.
-/

namespace ExprLang.Parser

variable {α : Type} {step : Step (Option α)}

theorem upTo_succ_apply (step : Step (Option α)) (n : Nat) (parser : Parser) :
    upTo step (n + 1) parser = match step parser with
      | .error halt parser' => .error halt parser'
      | .ok none parser' => .ok [] parser'
      | .ok (some a) parser' => (List.cons a <$> upTo step n) parser' := by
  rw [upTo, bind_apply]
  cases hstep : step parser with
  | error halt parser' => rfl
  | ok result parser' =>
    cases result with
    | none => rfl
    | some a =>
      change (upTo step n >>= fun as ↦ pure (a :: as)) parser' =
        (List.cons a <$> upTo step n) parser'
      rw [map_apply, bind_apply]
      rfl

theorem many_apply (step : Step (Option α)) (parser : Parser) :
    many step parser = upTo step (parser.lexer.rest.length + 2) parser := rfl

/-- What a repetition does after the first step. -/
def further (step : Step (Option α)) : Option α → Step (List α)
  | none => pure []
  | some a => List.cons a <$> many step

instance Skips.further (step : Step (Option α)) [Skips step] (result : Option α) :
    Skips (Parser.further step result) := by
  cases result
  · exact Skips.pure []
  · exact Skips.map _ (Parser.many step)

/-- Whenever the step yields something at one of the parsers, it leaves another one of them with
fewer tokens. -/
def ProgressesAmong (good : Parser → Prop) (step : Step (Option α)) : Prop :=
  ∀ (parser : Parser) (a : α) (parser' : Parser), good parser →
    step parser = .ok (some a) parser' → good parser' ∧ parser'.size < parser.size

/-- Whenever the step yields something, fewer tokens are left. -/
abbrev Progresses (step : Step (Option α)) : Prop := ProgressesAmong Ready step

variable {good : Parser → Prop}

namespace ProgressesAmong

theorem progresses [Skips step] (h : ProgressesAmong (fun _ ↦ True) step) : Progresses step := by
  intro parser a parser' hready hstep
  have hlt := (h parser a parser' trivial hstep).2
  obtain ⟨n, rfl⟩ := exists_skip_of_ok hstep
  exact ⟨hready.skip n, hlt⟩

theorem upTo_eq (h : ProgressesAmong good step) {parser : Parser} (hgood : good parser) {m n : Nat}
    (hm : parser.size < m) (hn : parser.size < n) : upTo step m parser = upTo step n parser := by
  induction m generalizing parser n with
  | zero => omega
  | succ m ih =>
    obtain ⟨n, rfl⟩ := Nat.exists_eq_succ_of_ne_zero (by omega : n ≠ 0)
    simp only [upTo_succ_apply]
    cases hstep : step parser with
    | error halt parser' => rfl
    | ok result parser' =>
      cases result with
      | none => rfl
      | some a =>
        obtain ⟨hgood', hlt⟩ := h parser a parser' hgood hstep
        have hupTo := ih hgood' (by omega : parser'.size < m) (by omega : parser'.size < n)
        simp only [map_apply, hupTo]

/-- A repetition is one step and, if that yields something, a repetition after it. -/
theorem many_eq (h : ProgressesAmong good step) {parser : Parser} (hgood : good parser) :
    many step parser = (step >>= further step) parser := by
  rw [many_apply, upTo_succ_apply, bind_apply]
  cases hstep : step parser with
  | error halt parser' => rfl
  | ok result parser' =>
    cases result with
    | none => rfl
    | some a =>
      obtain ⟨hgood', hlt⟩ := h parser a parser' hgood hstep
      have hsize := parser.size_lt
      have hupTo := h.upTo_eq hgood' (by omega : parser'.size < parser.lexer.rest.length + 1)
        parser'.size_lt
      simp only [further, map_apply, many_apply, hupTo]

theorem many_of_some (h : ProgressesAmong good step) {parser parser' : Parser}
    (hgood : good parser) {a : α} (hstep : step parser = .ok (some a) parser') :
    many step parser = (List.cons a <$> many step) parser' := by
  rw [h.many_eq hgood, bind_of_ok _ hstep, further]

theorem many_of_error (h : ProgressesAmong good step) {parser parser' : Parser}
    (hgood : good parser) {halt : Halt} (hstep : step parser = .error halt parser') :
    many step parser = .error halt parser' := by
  rw [h.many_eq hgood, bind_of_error _ hstep]

theorem many_bind_of_none {β : Type} (h : ProgressesAmong good step) {parser : Parser}
    (hgood : good parser) (next : List α → Step β) (hnone : step parser = .ok none parser) :
    (many step >>= next) parser = next [] parser := by
  rw [bind_apply, h.many_eq hgood, bind_apply, hnone]
  rfl

/-- What holds of a repetition that ends at once and goes on holding with one more result in front
holds of every repetition that succeeds. -/
theorem many_rec {motive : Parser → List α → Parser → Prop} (h : ProgressesAmong good step)
    (hnone : ∀ parser parser', good parser → step parser = .ok none parser' →
      motive parser [] parser')
    (hsome : ∀ parser a middle as parser', good parser → step parser = .ok (some a) middle →
      motive middle as parser' → motive parser (a :: as) parser')
    {parser parser' : Parser} (hgood : good parser) {as : List α}
    (hmany : many step parser = .ok as parser') : motive parser as parser' := by
  induction hsize : parser.size using Nat.strong_induction_on generalizing parser as with
  | _ size ih =>
    rw [h.many_eq hgood] at hmany
    obtain ⟨result, middle, hstep, hfurther⟩ := exists_of_bind_ok hmany
    cases result with
    | none =>
      obtain ⟨rfl, rfl⟩ := EStateM.Result.ok.inj hfurther
      exact hnone _ _ hgood hstep
    | some a =>
      obtain ⟨hgood', hlt⟩ := h parser a middle hgood hstep
      obtain ⟨others, hrest, rfl⟩ := exists_of_map_ok hfurther
      exact hsome _ _ _ _ _ hgood hstep (ih _ (hsize ▸ hlt) hgood' hrest rfl)

/-- A repetition ends where the step yields nothing. -/
theorem exists_stop (h : ProgressesAmong good step) {parser parser' : Parser}
    (hgood : good parser) {as : List α} (hmany : many step parser = .ok as parser') :
    ∃ last : Parser, good last ∧ step last = .ok none parser' ∧ (as = [] → last = parser) := by
  refine h.many_rec (motive := fun parser as parser' ↦
    ∃ last : Parser, good last ∧ step last = .ok none parser' ∧ (as = [] → last = parser))
    ?_ ?_ hgood hmany
  · exact fun parser parser' hgood hstep ↦ ⟨parser, hgood, hstep, fun _ ↦ rfl⟩
  · rintro parser a middle as parser' - - ⟨last, hlast, hstop, -⟩
    exact ⟨last, hlast, hstop, by simp⟩

end ProgressesAmong

theorem iterateUpTo_succ_apply (step : α → Step (Option α)) (n : Nat) (a : α) (parser : Parser) :
    iterateUpTo step (n + 1) a parser = match step a parser with
      | .error halt parser' => .error halt parser'
      | .ok none parser' => .ok a parser'
      | .ok (some b) parser' => iterateUpTo step n b parser' := by
  rw [iterateUpTo, bind_apply]
  cases step a parser with
  | error halt parser' => rfl
  | ok result parser' => cases result <;> rfl

theorem iterate_apply (step : α → Step (Option α)) (a : α) (parser : Parser) :
    iterate step a parser = iterateUpTo step (parser.lexer.rest.length + 2) a parser := rfl

section

variable {step : α → Step (Option α)}

theorem iterateUpTo_eq (h : ∀ a, ProgressesAmong good (step a)) {parser : Parser}
    (hgood : good parser) {m n : Nat} (hm : parser.size < m) (hn : parser.size < n) (a : α) :
    iterateUpTo step m a parser = iterateUpTo step n a parser := by
  induction m generalizing parser n a with
  | zero => omega
  | succ m ih =>
    obtain ⟨n, rfl⟩ := Nat.exists_eq_succ_of_ne_zero (by omega : n ≠ 0)
    simp only [iterateUpTo_succ_apply]
    cases hstep : step a parser with
    | error halt parser' => rfl
    | ok result parser' =>
      cases result with
      | none => rfl
      | some b =>
        obtain ⟨hgood', hlt⟩ := h a parser b parser' hgood hstep
        exact ih hgood' (by omega) (by omega) b

/-- What an iteration does after the first step. -/
def onward (step : α → Step (Option α)) (a : α) : Option α → Step α
  | none => pure a
  | some b => iterate step b

/-- An iteration is one step and, if that yields another value, an iteration from there. -/
theorem iterate_eq (h : ∀ a, ProgressesAmong good (step a)) {parser : Parser} (hgood : good parser)
    (a : α) : iterate step a parser = (step a >>= onward step a) parser := by
  rw [iterate_apply, iterateUpTo_succ_apply, bind_apply]
  cases hstep : step a parser with
  | error halt parser' => rfl
  | ok result parser' =>
    cases result with
    | none => rfl
    | some b =>
      obtain ⟨hgood', hlt⟩ := h a parser b parser' hgood hstep
      have hsize := parser.size_lt
      exact iterateUpTo_eq h hgood' (by omega) parser'.size_lt b

end

/-- What is made of the value by results that do not depend on it may wait until they are all
there. -/
theorem iterate_map_eq {β : Type} (f : α → β → α) (step : Step (Option β)) (a : α) :
    iterate (fun a ↦ Option.map (f a) <$> step) a = List.foldl f a <$> many step := by
  have hupTo (n : Nat) (a : α) (parser : Parser) :
      iterateUpTo (fun a ↦ Option.map (f a) <$> step) n a parser =
        (List.foldl f a <$> upTo step n) parser := by
    induction n generalizing a parser with
    | zero => rfl
    | succ n ih =>
      rw [iterateUpTo_succ_apply, map_apply, map_apply, upTo_succ_apply]
      cases hstep : step parser with
      | error halt parser' => rfl
      | ok result parser' =>
        cases result with
        | none => rfl
        | some b =>
          simp only [Option.map_some, ih, map_apply]
          cases upTo step n parser' <;> rfl
  funext parser
  exact hupTo _ a parser

end ExprLang.Parser
