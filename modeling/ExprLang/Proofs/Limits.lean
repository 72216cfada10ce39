import ExprLang.Proofs.CorrectPrefix
import ExprLang.Proofs.MirroringItems
import Mathlib.Data.Nat.Find

/-!
# The Limit of Nesting

For every source there is a number of levels that it needs.  With as many or more the result is
always the same.  With fewer the parser fails for want of levels, the later the more it has.  What
the grammar derives needs the depth of its derivation.
-/

namespace ExprLang

/-- The result of a parse under another limit. -/
def resultWithin (source : String) (options : Options) (limit : Nat) : Except Halt SourceUnit :=
  (parse source { options with maxNestingDepth := limit }).result

variable {source : String} {options : Options} {limit limit' : Nat}

open ExprLang.Parser

theorem Parser.twins_start (source : String) (options : Options) (h : limit ≤ limit') :
    (start source { options with maxNestingDepth := limit }).Twins id
      (start source { options with maxNestingDepth := limit' }) where
  ready := ready_start source _
  ready' := ready_start source _
  symbol n := by simp only [skip_start_current, Symbol.rename_id]
  room_le := h

/-- Only a want of levels tells the limit. -/
theorem Parser.Fault.halt_start (fault : Fault) (n : Nat) :
    fault.halt ((start source { options with maxNestingDepth := limit }).skip n) =
        .failure ⟨.nestingTooDeep limit, ((start source options).skip n).position⟩ ∨
      fault.halt ((start source { options with maxNestingDepth := limit' }).skip n) =
        fault.halt ((start source { options with maxNestingDepth := limit }).skip n) := by
  cases fault with
  | tooDeep =>
    left
    simp only [halt, skip_options, start_options, skip_start_position]
  | _ =>
    right
    simp only [halt, skip_start_current, skip_start_position]

theorem resultWithin_of_malformed (h : (start source options).current.kind = .malformedNumber)
    (limit : Nat) : resultWithin source options limit = .error (.failure
      ⟨.malformedNumber (start source options).current.lexeme, (start source options).position⟩) :=
  parse_of_malformed h

theorem resultWithin_of_not_malformed
    (h : (start source options).current.kind ≠ .malformedNumber) (limit : Nat) :
    resultWithin source options limit =
      unitOf options (many item (start source { options with maxNestingDepth := limit })) := by
  have hresult : resultWithin source options limit =
      unitOf { options with maxNestingDepth := limit }
        (many item (start source { options with maxNestingDepth := limit })) :=
    parse_of_not_malformed h
  rw [hresult]
  cases many item (start source { options with maxNestingDepth := limit }) <;> rfl

theorem position_of_error {n : Nat} {halt : Halt}
    (hleaving : leaving (many item (start source { options with maxNestingDepth := limit })) =
      (start source { options with maxNestingDepth := limit }).skip n)
    (h : unitOf options (many item (start source { options with maxNestingDepth := limit })) =
      .error halt) :
    ∃ cause, halt = .failure ⟨cause, ((start source options).skip n).position⟩ := by
  cases hitems : many item (start source { options with maxNestingDepth := limit }) with
  | ok items parser' =>
    rw [hitems] at h
    cases h
  | error halt' parser' =>
    obtain ⟨m, cause, rfl, rfl, -⟩ := (reads_start source _).exists_of_error hitems
    rw [hitems, leaving_error] at hleaving
    rw [hitems] at h
    obtain rfl := Except.error.inj h
    obtain rfl := skip_injective hleaving
    exact ⟨cause, by rw [skip_start_position, skip_start_position]⟩

/-- More levels change nothing but a failure for want of levels, and what comes instead is no
earlier failure. -/
theorem resultWithin_of_le (source : String) (options : Options) (h : limit ≤ limit') :
    resultWithin source options limit' = resultWithin source options limit ∨
      ∃ n, resultWithin source options limit = .error (.failure
          ⟨.nestingTooDeep limit, ((start source options).skip n).position⟩) ∧
        ∀ halt, resultWithin source options limit' = .error halt → ∃ m ≥ n, ∃ cause,
          halt = .failure ⟨cause, ((start source options).skip m).position⟩ := by
  by_cases hmalformed : (start source options).current.kind = .malformedNumber
  · left
    rw [resultWithin_of_malformed hmalformed, resultWithin_of_malformed hmalformed]
  rw [resultWithin_of_not_malformed hmalformed, resultWithin_of_not_malformed hmalformed]
  cases Mirrors.items (twins_start source options h) with
  | ok n items hitems hitems' =>
    left
    rw [hitems, hitems', Item.map_rename_id]
    rfl
  | halt n fault hitems hitems' =>
    rcases fault.halt_start n with hdeep | heq
    · have hleaving := congrArg leaving hitems'
      refine .inr ⟨n, ?_, fun halt hhalt ↦ ⟨n, le_rfl, position_of_error hleaving hhalt⟩⟩
      rw [hitems]
      exact congrArg Except.error hdeep
    · left
      rw [hitems, hitems']
      exact congrArg Except.error heq
  | short n m hroom hitems hitems' =>
    right
    refine ⟨n, ?_, fun halt hhalt ↦ ⟨n + m, Nat.le_add_right n m, position_of_error hitems' hhalt⟩⟩
    rw [hitems]
    simp only [unitOf, Fault.halt, skip_options, start_options, skip_start_position]

/-- A failure for want of levels names the limit and takes as many tokens as there are levels. -/
theorem le_length_of_tooDeep {deep : Nat} {position : Position}
    (h : resultWithin source options limit = .error (.failure ⟨.nestingTooDeep deep, position⟩)) :
    deep = limit ∧ limit ≤ (sourceSymbols source).length := by
  obtain ⟨n, cause, hhalt, hcompletable, hnesting, -⟩ := exists_of_parse_error h
  obtain ⟨rfl, -⟩ := Diagnostic.mk.inj (Halt.failure.inj hhalt)
  obtain ⟨hlimit, hle⟩ := hnesting rfl
  have hlt := lt_length_of_proper hcompletable.proper
  exact ⟨Cause.nestingTooDeep.inj hlimit, hle.trans hlt⟩

/-- Under the limit the parse fails for want of levels. -/
def TooFew (source : String) (options : Options) (limit : Nat) : Prop :=
  ∃ position, resultWithin source options limit =
    .error (.failure ⟨.nestingTooDeep limit, position⟩)

theorem resultWithin_of_not_tooFew (h : ¬ TooFew source options limit) (hle : limit ≤ limit') :
    resultWithin source options limit' = resultWithin source options limit := by
  rcases resultWithin_of_le source options hle with heq | ⟨n, hdeep, -⟩
  · exact heq
  · exact absurd ⟨_, hdeep⟩ h

theorem offset_le_of_tooFew {position position' : Position} (hle : limit ≤ limit')
    (h : resultWithin source options limit =
      .error (.failure ⟨.nestingTooDeep limit, position⟩))
    (h' : resultWithin source options limit' =
      .error (.failure ⟨.nestingTooDeep limit', position'⟩)) :
    position.offset ≤ position'.offset := by
  rcases resultWithin_of_le source options hle with heq | ⟨n, hdeep, hnext⟩
  · rw [h, h'] at heq
    obtain ⟨-, rfl⟩ := Diagnostic.mk.inj (Halt.failure.inj (Except.error.inj heq))
    exact le_rfl
  · rw [h] at hdeep
    obtain ⟨-, rfl⟩ := Diagnostic.mk.inj (Halt.failure.inj (Except.error.inj hdeep))
    obtain ⟨m, hm, cause, hhalt⟩ := hnext _ h'
    obtain ⟨-, rfl⟩ := Diagnostic.mk.inj (Halt.failure.inj hhalt)
    rw [skip_start_position, skip_start_position]
    exact Lexer.token_start_mono _ hm

theorem tooFew_iff_of_derived {unit : SourceUnit} {depth : Nat}
    (h : unit.Derived options depth (sourceSymbols source)) (limit : Nat) :
    TooFew source options limit ↔ limit < depth := by
  have hparse := parse_of_derived (h.of_limit limit)
  constructor
  · rintro ⟨position, hdeep⟩
    by_contra hle
    rw [if_pos (Nat.le_of_not_lt hle)] at hparse
    rw [resultWithin, hparse] at hdeep
    cases hdeep
  · intro hlt
    rwa [if_neg (Nat.not_le_of_lt hlt)] at hparse

/-- Every source has a number of levels from which on the result is always the same.  With fewer
levels the parse fails for want of them, at a place that never moves back as levels are added.  A
derived source needs as many levels as its derivation is deep. -/
theorem nesting_threshold (source : String) (options : Options) : ∃ threshold : Nat,
    (∀ limit ≥ threshold,
      resultWithin source options limit = resultWithin source options threshold) ∧
    (∀ (limit : Nat) (position : Position), resultWithin source options threshold ≠
      .error (.failure ⟨.nestingTooDeep limit, position⟩)) ∧
    (∃ place : Nat → Position,
      (∀ limit < threshold, resultWithin source options limit =
        .error (.failure ⟨.nestingTooDeep limit, place limit⟩)) ∧
      ∀ limit limit' : Nat, limit ≤ limit' → limit' < threshold →
        (place limit).offset ≤ (place limit').offset) ∧
    ∀ (unit : SourceUnit) (depth : Nat),
      unit.Derived options depth (sourceSymbols source) → threshold = depth := by
  classical
  have hexists : ∃ limit, ¬ TooFew source options limit := by
    refine ⟨(sourceSymbols source).length + 1, ?_⟩
    rintro ⟨position, hdeep⟩
    have hle := (le_length_of_tooDeep hdeep).2
    omega
  have hfew (limit : Nat) (hlt : limit < Nat.find hexists) : TooFew source options limit :=
    of_not_not (Nat.find_min hexists hlt)
  have hplace (limit : Nat) : ∃ position, limit < Nat.find hexists →
      resultWithin source options limit =
        .error (.failure ⟨.nestingTooDeep limit, position⟩) := by
    by_cases hlt : limit < Nat.find hexists
    · obtain ⟨position, hdeep⟩ := hfew limit hlt
      exact ⟨position, fun _ ↦ hdeep⟩
    · exact ⟨.nowhere, fun h ↦ absurd h hlt⟩
  choose place hplace using hplace
  refine ⟨Nat.find hexists, ?_, ?_, ⟨place, hplace, ?_⟩, ?_⟩
  · exact fun limit hle ↦ resultWithin_of_not_tooFew (Nat.find_spec hexists) hle
  · intro limit position hdeep
    obtain ⟨rfl, -⟩ := le_length_of_tooDeep hdeep
    exact Nat.find_spec hexists ⟨position, hdeep⟩
  · intro limit limit' hle hlt
    exact offset_le_of_tooFew hle (hplace limit (hle.trans_lt hlt)) (hplace limit' hlt)
  · intro unit depth hderived
    rw [Nat.find_eq_iff]
    simp only [tooFew_iff_of_derived hderived]
    exact ⟨lt_irrefl depth, fun limit hlt ↦ not_not.mpr hlt⟩

end ExprLang
