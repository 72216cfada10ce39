import ExprLang.Binary64.Shortest
import Mathlib.Data.List.TakeWhile
import Mathlib.Tactic.Ring

/-!
# Decimal Numbers That Read Back

The magnitude nearest to a quotient depends on the value of the quotient only, and a finite
magnitude is nearest to its own value.  So the shortest decimal number of a finite magnitude reads
back to it.
-/

namespace ExprLang.Binary64

theorem roundHalfEven_mul (numerator denominator : Nat) {factor : Nat} (h : 0 < factor) :
    roundHalfEven (numerator * factor) (denominator * factor) =
      roundHalfEven numerator denominator := by
  have hquotient : numerator * factor / (denominator * factor) = numerator / denominator :=
    Nat.mul_div_mul_right numerator denominator h
  have hless : 2 * (numerator % denominator * factor) < denominator * factor ↔
      2 * (numerator % denominator) < denominator := by
    rw [← Nat.mul_assoc]
    exact Nat.mul_lt_mul_right h
  have hhalf : 2 * (numerator % denominator * factor) = denominator * factor ↔
      2 * (numerator % denominator) = denominator := by
    rw [← Nat.mul_assoc]
    exact Nat.mul_left_inj (Nat.ne_of_gt h)
  simp only [roundHalfEven, hquotient, Nat.mul_mod_mul_right, hless, hhalf]

theorem magnitudeNearest_mul (numerator denominator : Nat) {factor : Nat} (h : 0 < factor) :
    magnitudeNearest (numerator * factor) (denominator * factor) =
      magnitudeNearest numerator denominator := by
  have hquotient : numerator * factor / (denominator * factor) = numerator / denominator :=
    Nat.mul_div_mul_right numerator denominator h
  have hshift (scale : Nat) :
      (denominator * factor) <<< scale = denominator <<< scale * factor := by
    rw [Nat.shiftLeft_eq, Nat.shiftLeft_eq, Nat.mul_right_comm]
  simp only [magnitudeNearest, hquotient, hshift, roundHalfEven_mul _ _ h]

/-- Quotients of the same value have the same nearest magnitude. -/
theorem magnitudeNearest_congr {numerator denominator numerator' denominator' : Nat}
    (hpos : 0 < denominator) (hpos' : 0 < denominator')
    (h : numerator * denominator' = numerator' * denominator) :
    magnitudeNearest numerator denominator = magnitudeNearest numerator' denominator' :=
  calc
    magnitudeNearest numerator denominator =
        magnitudeNearest (numerator * denominator') (denominator * denominator') :=
      (magnitudeNearest_mul numerator denominator hpos').symm
    _ = magnitudeNearest (numerator' * denominator) (denominator' * denominator) := by
      rw [h, Nat.mul_comm denominator denominator']
    _ = magnitudeNearest numerator' denominator' :=
      magnitudeNearest_mul numerator' denominator' hpos

/-- The whole number of units of its own scale that a magnitude stands for. -/
def significand (magnitude : Nat) : Nat := magnitude - scale magnitude <<< 52

theorem units_eq (magnitude : Nat) :
    units magnitude = significand magnitude * 2 ^ scale magnitude :=
  Nat.shiftLeft_eq (significand magnitude) (scale magnitude)

/-- A magnitude is made of its scale and its significand, which fills 53 bits unless the scale is
the smallest. -/
theorem significand_spec (magnitude : Nat) :
    scale magnitude * 2 ^ 52 + significand magnitude = magnitude ∧
      significand magnitude < 2 ^ 53 ∧
      (0 < scale magnitude → 2 ^ 52 ≤ significand magnitude) := by
  have hsignificand : significand magnitude = magnitude - scale magnitude * 2 ^ 52 := by
    unfold significand
    rw [Nat.shiftLeft_eq]
  have hscale : scale magnitude = magnitude / 2 ^ 52 - 1 := by
    unfold scale
    rw [Nat.shiftRight_eq_div_pow]
  have hdiv := Nat.div_add_mod magnitude (2 ^ 52)
  have hmod := Nat.mod_lt magnitude (Nat.two_pow_pos 52)
  omega

theorem log2_units (magnitude : Nat) : (units magnitude).log2 - 52 = scale magnitude := by
  obtain ⟨-, hlt, hle⟩ := significand_spec magnitude
  rw [units_eq]
  rcases Nat.eq_zero_or_pos (scale magnitude) with hzero | hpos
  · rw [hzero, Nat.pow_zero, Nat.mul_one]
    rcases Nat.eq_zero_or_pos (significand magnitude) with hnone | hsome
    · rw [hnone]
      rfl
    · have hlog := (Nat.log2_lt (Nat.ne_of_gt hsome)).mpr hlt
      omega
  · have hlog : (significand magnitude * 2 ^ scale magnitude).log2 = 52 + scale magnitude := by
      have hne : significand magnitude * 2 ^ scale magnitude ≠ 0 :=
        Nat.mul_ne_zero (by have hbit := hle hpos; omega) (Nat.two_pow_pos _).ne'
      rw [Nat.log2_eq_iff hne]
      constructor
      · rw [Nat.pow_add]
        exact Nat.mul_le_mul_right _ (hle hpos)
      · rw [show 52 + scale magnitude + 1 = 53 + scale magnitude by omega, Nat.pow_add]
        exact Nat.mul_lt_mul_of_pos_right hlt (Nat.two_pow_pos _)
    omega

/-- A finite magnitude is nearest to its own value. -/
theorem magnitudeNearest_units {magnitude : Nat} (h : magnitude < infinity) :
    magnitudeNearest (units magnitude) 1 = magnitude := by
  obtain ⟨hmagnitude, -, -⟩ := significand_spec magnitude
  have hexact :
      roundHalfEven (units magnitude) (1 <<< scale magnitude) = significand magnitude := by
    have hpos : 0 < 2 ^ scale magnitude := Nat.two_pow_pos _
    rw [units_eq, Nat.one_shiftLeft, roundHalfEven]
    simp only [Nat.mul_div_cancel _ hpos, Nat.mul_mod_left, Nat.mul_zero, hpos, true_or, if_true]
  rw [magnitudeNearest, Nat.div_one, log2_units, hexact, Nat.shiftLeft_eq, hmagnitude]
  exact Nat.min_eq_left (Nat.le_of_lt h)

namespace Decimal

/-- A number of units with as many decimal places as binary ones. -/
theorem magnitudeNearest_places (units places : Nat) :
    magnitudeNearest (units * Nat.pow 5 places * Nat.pow 10 0 * 1 <<< places)
        (Nat.pow 10 places) =
      magnitudeNearest units 1 := by
  have hten : Nat.pow 5 places * 2 ^ places = 10 ^ places := (Nat.mul_pow 5 2 places).symm
  have hnumerator : units * Nat.pow 5 places * Nat.pow 10 0 * 1 <<< places =
      units * 10 ^ places :=
    calc
      units * Nat.pow 5 places * Nat.pow 10 0 * 1 <<< places =
          units * (Nat.pow 5 places * 2 ^ places) := by
        rw [Nat.one_shiftLeft, show Nat.pow 10 0 = 1 from rfl, Nat.mul_one, Nat.mul_assoc]
      _ = units * 10 ^ places := by rw [hten]
  have hpos : 0 < 10 ^ places := Nat.pow_pos (by decide)
  calc
    magnitudeNearest (units * Nat.pow 5 places * Nat.pow 10 0 * 1 <<< places)
        (Nat.pow 10 places) = magnitudeNearest (units * 10 ^ places) (1 * 10 ^ places) := by
      rw [hnumerator, Nat.one_mul]
      rfl
    _ = magnitudeNearest units 1 := magnitudeNearest_mul units 1 hpos

theorem magnitude_exact {magnitude : Nat} (h : magnitude < infinity) :
    (exact (units magnitude)).magnitude = magnitude := by
  have hwhole : (-1074 : Int).toNat = 0 := rfl
  have hplaces : (-(-1074 : Int)).toNat = 1074 := rfl
  rw [exact, Decimal.magnitude, hwhole, hplaces, unitsPerOne]
  generalize 1074 = places
  rw [magnitudeNearest_places, magnitudeNearest_units h]

/-- The shortest decimal number of a finite magnitude reads back to it. -/
theorem magnitude_shortest_of_finite {magnitude : Nat} (h : magnitude < infinity) :
    (shortest magnitude).magnitude = magnitude :=
  magnitude_shortest magnitude (magnitude_exact h)

/-- A text is what is left of it without the zeros at its end, and these zeros. -/
theorem eq_append_zeros (digits : List Char) :
    digits = (digits.reverse.dropWhile (· = '0')).reverse ++
      List.replicate (digits.reverse.takeWhile (· = '0')).length '0' := by
  have hzeros : (digits.reverse.takeWhile (· = '0')).reverse =
      List.replicate (digits.reverse.takeWhile (· = '0')).length '0' :=
    List.eq_replicate_iff.mpr ⟨List.length_reverse, fun c hc ↦ by
      simpa using List.mem_takeWhile_imp (List.mem_reverse.mp hc)⟩
  calc
    digits = (digits.reverse.takeWhile (· = '0') ++
        digits.reverse.dropWhile (· = '0')).reverse := by
      rw [List.takeWhile_append_dropWhile, List.reverse_reverse]
    _ = (digits.reverse.dropWhile (· = '0')).reverse ++
        (digits.reverse.takeWhile (· = '0')).reverse := List.reverse_append
    _ = _ := by rw [hzeros]

/-- Digits with zeros behind them denote the digits times a power of ten. -/
theorem ofDigitChars_append_zeros (core : List Char) (zeros : Nat) :
    Nat.ofDigitChars 10 (core ++ List.replicate zeros '0') 0 =
      10 ^ zeros * Nat.ofDigitChars 10 core 0 := by
  rw [Nat.ofDigitChars_append, Nat.ofDigitChars_replicate_zero]

/-- The digits of a decimal number without the zeros at their end. -/
theorem exists_toDigits_eq (d : Decimal) (h : 0 < d.digits) : ∃ (core : List Char) (zeros : Nat),
    d.toDigits = ⟨core, core.length + zeros + d.exponent⟩ ∧ core ≠ [] ∧
      (∀ c ∈ core, c.isDigit) ∧ d.digits = 10 ^ zeros * Nat.ofDigitChars 10 core 0 := by
  set digits := Nat.toDigits 10 d.digits with hdigits
  set core := (digits.reverse.dropWhile (· = '0')).reverse with hcore
  set zeros := (digits.reverse.takeWhile (· = '0')).length with hzeros
  have hsplit : digits = core ++ List.replicate zeros '0' := eq_append_zeros digits
  have hvalue : d.digits = 10 ^ zeros * Nat.ofDigitChars 10 core 0 :=
    calc
      d.digits = Nat.ofDigitChars 10 digits 0 := Nat.ofDigitChars_ten_toDigits.symm
      _ = 10 ^ zeros * Nat.ofDigitChars 10 core 0 := by
        rw [hsplit, ofDigitChars_append_zeros]
  refine ⟨core, zeros, ?_, ?_, fun c hc ↦ ?_, hvalue⟩
  · rw [toDigits, ← hdigits, ← hcore, hsplit, List.length_append, List.length_replicate,
      Nat.cast_add]
  · intro hnil
    rw [hnil, Nat.ofDigitChars_nil, Nat.mul_zero] at hvalue
    omega
  · have hmem : c ∈ digits := by
      rw [hsplit]
      exact List.mem_append_left _ hc
    exact Nat.isDigit_of_mem_toDigits (by decide) (by decide) hmem

end Decimal

/-- A quotient of the same value as a decimal number has its magnitude. -/
theorem magnitude_ofRatio_eq {numerator places : Nat} {d : Decimal}
    (h : numerator * 10 ^ (-d.exponent).toNat = d.digits * 10 ^ d.exponent.toNat * 10 ^ places) :
    (ofRatio numerator (10 ^ places)).magnitude.toNat = d.magnitude := by
  have hpos (n : Nat) : 0 < 10 ^ n := Nat.pow_pos (by decide)
  rw [magnitude_ofRatio, Decimal.magnitude]
  refine magnitudeNearest_congr (hpos places) (hpos _) ?_
  calc
    numerator * unitsPerOne * 10 ^ (-d.exponent).toNat =
        numerator * 10 ^ (-d.exponent).toNat * unitsPerOne := Nat.mul_right_comm _ _ _
    _ = d.digits * 10 ^ d.exponent.toNat * unitsPerOne * 10 ^ places := by
      rw [h, Nat.mul_right_comm]

end ExprLang.Binary64
