import ExprLang.Proofs.Grammar
import ExprLang.Proofs.ShortestDecimals

/-!
# Texts of Numbers

The text of a finite number that is not negative is a run of digits with at most one point, and it
reads back to the number.
-/

namespace ExprLang.Binary64

/-- The text is made of digits and perhaps of a point with more digits behind it. -/
structure IsDecimalText (whole fraction text : List Char) : Prop where
  ne_nil : whole ≠ []
  isDigit : ∀ c ∈ whole ++ fraction, c.isDigit
  text_eq : text = whole ++ '.' :: fraction ∨ fraction = [] ∧ text = whole

namespace IsDecimalText

variable {whole fraction text : List Char}

theorem ne_point (h : IsDecimalText whole fraction text) : ∀ c ∈ whole ++ fraction, c ≠ '.' := by
  rintro c hc rfl
  exact absurd (h.isDigit _ hc) (by decide)

theorem ofLiteral_eq (h : IsDecimalText whole fraction text) : ofLiteral text =
    ofRatio (Nat.ofDigitChars 10 (whole ++ fraction) 0) (10 ^ fraction.length) := by
  have hwhole : ∀ c ∈ whole, decide (c ≠ '.') = true := fun c hc ↦
    decide_eq_true (h.ne_point c (List.mem_append_left fraction hc))
  rw [ofLiteral]
  rcases h.text_eq with rfl | ⟨rfl, rfl⟩
  · rw [List.takeWhile_append_of_pos hwhole, List.dropWhile_append_of_pos hwhole]
    simp
  · rw [List.takeWhile_eq_self_iff.mpr hwhole, List.dropWhile_eq_nil_iff.mpr hwhole]
    rfl

theorem isRun (h : IsDecimalText whole fraction text) : IsRun text := by
  obtain ⟨hne, hdigit, htext⟩ := h
  obtain ⟨c, cs, rfl⟩ := List.exists_cons_of_ne_nil hne
  rw [List.cons_append, List.forall_mem_cons, List.forall_mem_append] at hdigit
  obtain ⟨hc, hcs, hfraction⟩ := hdigit
  rcases htext with rfl | ⟨rfl, rfl⟩
  · refine .intro hc fun d hd ↦ ?_
    rcases List.mem_append.mp hd with hd | hd
    · exact .inl (hcs d hd)
    · exact (List.mem_cons.mp hd).symm.imp_left (hfraction d)
  · exact .intro hc fun d hd ↦ .inl (hcs d hd)

theorem count_point_le (h : IsDecimalText whole fraction text) : text.count '.' ≤ 1 := by
  have hnone : (whole ++ fraction).count '.' = 0 :=
    List.count_eq_zero.mpr fun hpoint ↦ h.ne_point _ hpoint rfl
  rw [List.count_append] at hnone
  rcases h.text_eq with rfl | ⟨rfl, rfl⟩
  · rw [List.count_append, List.count_cons_self]
    omega
  · omega

theorem isNumber (h : IsDecimalText whole fraction text) : IsNumber (String.ofList text) := by
  refine ⟨?_, by simp⟩
  rw [Symbol.number, String.toList_ofList]
  exact .number h.isRun (by simp [Ends]) h.count_point_le

end IsDecimalText

/-- Digits with zeros before them denote what the digits denote. -/
theorem ofDigitChars_zeros_append (zeros : Nat) (core : List Char) :
    Nat.ofDigitChars 10 (List.replicate zeros '0' ++ core) 0 = Nat.ofDigitChars 10 core 0 := by
  rw [Nat.ofDigitChars_append, Nat.ofDigitChars_replicate_zero, Nat.mul_zero]

/-- Wherever the point comes to stand, the text denotes the digits times the power of ten that the
place of the point stands for. -/
theorem Digits.exists_positional (d : Digits) (hne : d.digits ≠ [])
    (hdigits : ∀ c ∈ d.digits, c.isDigit) : ∃ (whole fraction : List Char) (zeros : Nat),
      IsDecimalText whole fraction (d.positional []) ∧
        Nat.ofDigitChars 10 (whole ++ fraction) 0 = 10 ^ zeros * Nat.ofDigitChars 10 d.digits 0 ∧
          fraction.length + d.point = d.digits.length + zeros := by
  have hzeros (n : Nat) : ∀ c ∈ List.replicate n '0', c.isDigit = true := fun c hc ↦ by
    rw [List.eq_of_mem_replicate hc]
    rfl
  obtain ⟨digits, point⟩ := d
  rw [positional]
  dsimp only at hne hdigits ⊢
  split
  · next hpoint =>
    refine ⟨['0'], List.replicate (-point).toNat '0' ++ digits, 0, ⟨by simp, ?_, .inl rfl⟩, ?_, ?_⟩
    · simp only [List.forall_mem_append]
      exact ⟨hzeros 1, hzeros _, hdigits⟩
    · rw [← List.append_assoc, Nat.pow_zero, Nat.one_mul]
      exact ofDigitChars_zeros_append ((-point).toNat + 1) digits
    · rw [List.length_append, List.length_replicate]
      omega
  · next hpoint =>
    split
    · next hle =>
      refine ⟨digits ++ List.replicate (point.toNat - digits.length) '0', [],
        point.toNat - digits.length, ⟨by simp [hne], ?_, .inr ⟨rfl, by simp⟩⟩, ?_, ?_⟩
      · simp only [List.append_nil, List.forall_mem_append]
        exact ⟨hdigits, hzeros _⟩
      · rw [List.append_nil]
        exact Decimal.ofDigitChars_append_zeros digits _
      · rw [List.length_nil]
        omega
    · next hlt =>
      refine ⟨digits.take point.toNat, digits.drop point.toNat, 0, ⟨?_, ?_, .inl rfl⟩, ?_, ?_⟩
      · rw [Ne, List.take_eq_nil_iff, not_or]
        exact ⟨by omega, hne⟩
      · rwa [List.take_append_drop]
      · rw [List.take_append_drop, Nat.pow_zero, Nat.one_mul]
      · rw [List.length_drop]
        omega

namespace Decimal

/-- The text of a decimal number denotes a quotient of the same value. -/
theorem exists_positional (d : Decimal) (h : 0 < d.digits) : ∃ whole fraction : List Char,
    IsDecimalText whole fraction (d.toDigits.positional []) ∧
      Nat.ofDigitChars 10 (whole ++ fraction) 0 * 10 ^ (-d.exponent).toNat =
        d.digits * 10 ^ d.exponent.toNat * 10 ^ fraction.length := by
  obtain ⟨core, zeros, hdigits, hne, hcore, hvalue⟩ := d.exists_toDigits_eq h
  rw [hdigits]
  obtain ⟨whole, fraction, zeros', htext, hnumerator, hpoint⟩ :=
    Digits.exists_positional ⟨core, core.length + zeros + d.exponent⟩ hne hcore
  dsimp only at hnumerator hpoint
  have hpowers : zeros' + (-d.exponent).toNat = zeros + d.exponent.toNat + fraction.length := by
    omega
  refine ⟨whole, fraction, htext, ?_⟩
  calc
    Nat.ofDigitChars 10 (whole ++ fraction) 0 * 10 ^ (-d.exponent).toNat =
        10 ^ (zeros' + (-d.exponent).toNat) * Nat.ofDigitChars 10 core 0 := by
      rw [hnumerator, Nat.pow_add]
      ring
    _ = d.digits * 10 ^ d.exponent.toNat * 10 ^ fraction.length := by
      rw [hpowers, hvalue, Nat.pow_add, Nat.pow_add]
      ring

theorem digits_pos_of_magnitude {d : Decimal} (h : 0 < d.magnitude) : 0 < d.digits := by
  refine Nat.pos_of_ne_zero fun hzero ↦ ?_
  rw [Decimal.magnitude, hzero] at h
  simp [magnitudeNearest, roundHalfEven] at h

end Decimal

theorem eq_of_magnitude {x y : Binary64} (hsign : x.negative = y.negative)
    (h : x.magnitude.toNat = y.magnitude.toNat) : x = y := by
  obtain ⟨_, _⟩ := x
  obtain ⟨_, _⟩ := y
  exact (Binary64.mk.injEq ..).mpr ⟨hsign, BitVec.eq_of_toNat_eq h⟩

/-- A finite number that is not negative is written with digits that denote it. -/
theorem exists_isDecimalText {value : Binary64} (hsign : value.negative = false)
    (hfinite : value.isFinite) : ∃ whole fraction : List Char,
      IsDecimalText whole fraction (Layout.plain.text value) ∧
        ofRatio (Nat.ofDigitChars 10 (whole ++ fraction) 0) (10 ^ fraction.length) = value := by
  have hlt : value.magnitude.toNat < infinity := of_decide_eq_true hfinite
  have hnan : value.isNaN = false := decide_eq_false (Nat.not_lt.mpr hlt.le)
  simp only [Layout.text, hnan, hsign, Bool.false_eq_true, if_false, List.nil_append, hfinite,
    if_true]
  split
  · next hzero =>
    refine ⟨['0'], [], ⟨by simp, by simp, .inr ⟨rfl, rfl⟩⟩, ?_⟩
    refine eq_of_magnitude hsign.symm ?_
    rw [of_decide_eq_true hzero]
    rfl
  · next hzero =>
    have hpos : 0 < value.magnitude.toNat := Nat.pos_of_ne_zero fun h ↦ hzero (decide_eq_true h)
    have hshortest := Decimal.magnitude_shortest_of_finite hlt
    obtain ⟨whole, fraction, htext, hvalue⟩ := (Decimal.shortest _).exists_positional
      (Decimal.digits_pos_of_magnitude (hshortest ▸ hpos))
    refine ⟨whole, fraction, htext, eq_of_magnitude hsign.symm ?_⟩
    rw [magnitude_ofRatio_eq hvalue, hshortest]

/-- The text of a finite number that is not negative is the text of one token. -/
theorem isNumber_toString {value : Binary64} (hsign : value.negative = false)
    (hfinite : value.isFinite) : IsNumber (toString value) := by
  obtain ⟨whole, fraction, htext, -⟩ := exists_isDecimalText hsign hfinite
  exact htext.isNumber

/-- The text of a finite number that is not negative reads back to the number. -/
theorem ofLiteral_toString {value : Binary64} (hsign : value.negative = false)
    (hfinite : value.isFinite) : ofLiteral (toString value).toList = value := by
  obtain ⟨whole, fraction, htext, hvalue⟩ := exists_isDecimalText hsign hfinite
  change ofLiteral (String.ofList (Layout.plain.text value)).toList = value
  rw [String.toList_ofList, htext.ofLiteral_eq, hvalue]

end ExprLang.Binary64
