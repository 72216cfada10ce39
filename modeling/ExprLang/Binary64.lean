/-!
# Numbers in the Binary64 Format

A number is a sign and a magnitude, the 63 bits below the sign.  Magnitudes grow with the value, so
the magnitude of a decimal literal is found by one exact rounding of natural numbers.  Equality is
that of the format: zero equals its negative and a NaN equals nothing.
-/

namespace ExprLang

/-- A binary64 number: its sign bit and the 63 bits of exponent and fraction. -/
structure Binary64 where
  negative : Bool
  magnitude : BitVec 63
deriving DecidableEq

namespace Binary64

/-- The magnitude of the infinities.  Finite numbers lie below it and NaNs above. -/
def infinity : Nat := 2047 <<< 52

/-- The number with the given 64 bits. -/
def ofBits (bits : Nat) : Binary64 :=
  ⟨bits.testBit 63, BitVec.ofNat 63 bits⟩

def zero : Binary64 := ⟨false, 0⟩

def isNaN (x : Binary64) : Bool := infinity < x.magnitude.toNat

def isFinite (x : Binary64) : Bool := x.magnitude.toNat < infinity

def isZero (x : Binary64) : Bool := x.magnitude.toNat = 0

/-- Equality of the format. -/
def beq (x y : Binary64) : Bool :=
  !x.isNaN && !y.isNaN && (decide (x = y) || (x.isZero && y.isZero))

instance : BEq Binary64 := ⟨beq⟩

theorem beq_self_iff (x : Binary64) : (x == x) = true ↔ x.isNaN = false := by
  change beq x x = true ↔ _
  simp [beq]

theorem beq_symm (x y : Binary64) : (x == y) = (y == x) := by
  change beq x y = beq y x
  simp only [beq, eq_comm (a := x), Bool.and_comm x.isZero, Bool.and_comm (!x.isNaN)]

/-- The number of units in one. -/
def unitsPerOne : Nat := 1 <<< 1074

/-- How far the unit of a finite magnitude lies above the smallest one, as a power of two. -/
def scale (magnitude : Nat) : Nat := magnitude >>> 52 - 1

/-- The value of a finite magnitude, counted in units of 2⁻¹⁰⁷⁴. -/
def units (magnitude : Nat) : Nat :=
  (magnitude - scale magnitude <<< 52) <<< scale magnitude

/-- The whole number nearest to a quotient; a half goes to the even neighbour. -/
def roundHalfEven (numerator denominator : Nat) : Nat :=
  let quotient := numerator / denominator
  let twice := 2 * (numerator % denominator)
  if twice < denominator ∨ (twice = denominator ∧ quotient % 2 = 0) then quotient
  else quotient + 1

/-- The magnitude nearest to a quotient of units; a half goes to the even magnitude, and what is
too large is infinite. -/
def magnitudeNearest (numerator denominator : Nat) : Nat :=
  let scale := (numerator / denominator).log2 - 52
  min (scale <<< 52 + roundHalfEven numerator (denominator <<< scale)) infinity

theorem magnitudeNearest_le (numerator denominator : Nat) :
    magnitudeNearest numerator denominator ≤ infinity := Nat.min_le_right ..

/-- The number nearest to a quotient of natural numbers. -/
def ofRatio (numerator denominator : Nat) : Binary64 :=
  ⟨false, BitVec.ofNat 63 (magnitudeNearest (numerator * unitsPerOne) denominator)⟩

theorem magnitude_ofRatio (numerator denominator : Nat) :
    (ofRatio numerator denominator).magnitude.toNat =
      magnitudeNearest (numerator * unitsPerOne) denominator := by
  have hle := magnitudeNearest_le (numerator * unitsPerOne) denominator
  rw [ofRatio, BitVec.toNat_ofNat]
  exact Nat.mod_eq_of_lt (Nat.lt_of_le_of_lt hle (by decide))

/-- The number nearest to what decimal digits with at most one point among them denote. -/
def ofLiteral (digits : List Char) : Binary64 :=
  let whole := digits.takeWhile (· ≠ '.')
  let fraction := (digits.dropWhile (· ≠ '.')).drop 1
  ofRatio (Nat.ofDigitChars 10 (whole ++ fraction) 0) (Nat.pow 10 fraction.length)

theorem ofLiteral_nonnegative (digits : List Char) : (ofLiteral digits).negative = false := rfl

theorem ofLiteral_not_isNaN (digits : List Char) : (ofLiteral digits).isNaN = false := by
  apply decide_eq_false
  rw [ofLiteral, magnitude_ofRatio]
  exact Nat.not_lt.2 (magnitudeNearest_le ..)

end Binary64

end ExprLang
