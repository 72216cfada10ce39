import ExprLang.Binary64

/-!
# Shortest Decimal Text

A number is written with the fewest decimal digits that read back to it.  Of two texts of that
length the nearer one is taken, and of two equally near ones the greater.  The digits are found by
trying the two neighbours of the value on ever finer decimal grids.
-/

namespace ExprLang.Binary64

/-- A decimal number: its digits as a whole number, times a power of ten. -/
structure Decimal where
  digits : Nat
  exponent : Int
deriving DecidableEq, Repr

namespace Decimal

/-- The magnitude nearest to the decimal number. -/
def magnitude (d : Decimal) : Nat :=
  magnitudeNearest (d.digits * Nat.pow 10 d.exponent.toNat * unitsPerOne)
    (Nat.pow 10 (-d.exponent).toNat)

/-- All decimal digits of a number of units. -/
def exact (units : Nat) : Decimal := ⟨units * Nat.pow 5 1074, -1074⟩

/-- The two neighbours of a number of units on the grid of multiples of a power of ten, the nearer
one first.  The greater one comes first when both are equally near. -/
def neighbours (units : Nat) (exponent : Int) : List Decimal :=
  let numerator := units * Nat.pow 10 (-exponent).toNat
  let denominator := unitsPerOne * Nat.pow 10 exponent.toNat
  let low := numerator / denominator
  if 2 * (numerator % denominator) < denominator then
    [⟨low, exponent⟩, ⟨low + 1, exponent⟩]
  else
    [⟨low + 1, exponent⟩, ⟨low, exponent⟩]

/-- The least power of ten above a positive number of units. -/
def order (units : Nat) : Int :=
  if unitsPerOne ≤ units then (Nat.toDigits 10 (units / unitsPerOne)).length
  else 1 - (Nat.toDigits 10 ((unitsPerOne - 1) / units)).length

/-- The shortest decimal number that is nearest to the given finite magnitude. -/
def shortest (magnitude : Nat) : Decimal :=
  let value := units magnitude
  let found := (List.range 17).findSome? fun n : Nat ↦
    (neighbours value (order value - (n + 1))).find? fun d ↦ d.magnitude = magnitude
  found.getD (exact value)

theorem magnitude_shortest (magnitude : Nat)
    (h : (exact (units magnitude)).magnitude = magnitude) :
    (shortest magnitude).magnitude = magnitude := by
  unfold shortest
  simp only
  generalize hfound : List.findSome? _ (List.range 17) = found
  cases found with
  | none => exact h
  | some d =>
    obtain ⟨n, -, hn⟩ := List.exists_of_findSome?_eq_some hfound
    simpa using List.find?_some hn

end Decimal

/-- Digits without zeros at their end, and the place of the decimal point before or among them: the
value is `0.digits` times ten to the power of `point`. -/
structure Digits where
  digits : List Char
  point : Int
deriving DecidableEq, Repr

/-- The digits of a decimal number. -/
def Decimal.toDigits (d : Decimal) : Digits :=
  let digits := Nat.toDigits 10 d.digits
  ⟨(digits.reverse.dropWhile (· = '0')).reverse, digits.length + d.exponent⟩

/-- What a way of writing numbers decides beyond their digits. -/
structure Layout where
  /-- What follows the digits of a whole number. -/
  wholeEnd : List Char
  /-- The places of the point for which a power of ten is written. -/
  scientific : Int → Bool

/-- Every number is written in positional notation and whole numbers have no point. -/
def Layout.plain : Layout := ⟨[], fun _ ↦ false⟩

/-- A whole number ends in `.0`.  A power of ten is written below 10⁻⁴ and from 10¹⁶ on. -/
def Layout.tagged : Layout := ⟨['.', '0'], fun point ↦ point < -3 || 16 < point⟩

/-- Digits in positional notation. -/
def Digits.positional (wholeEnd : List Char) (d : Digits) : List Char :=
  if d.point ≤ 0 then
    '0' :: '.' :: (List.replicate (-d.point).toNat '0' ++ d.digits)
  else if d.digits.length ≤ d.point.toNat then
    d.digits ++ List.replicate (d.point.toNat - d.digits.length) '0' ++ wholeEnd
  else
    d.digits.take d.point.toNat ++ '.' :: d.digits.drop d.point.toNat

/-- An integer in decimal notation. -/
def integerText (n : Int) : List Char :=
  if n < 0 then '-' :: Nat.toDigits 10 n.natAbs else Nat.toDigits 10 n.natAbs

/-- Digits with one of them before the point, times a power of ten. -/
def Digits.scientific (d : Digits) : List Char :=
  let fraction := d.digits.drop 1
  d.digits.take 1 ++ (if fraction.isEmpty then [] else '.' :: fraction) ++
    'e' :: integerText (d.point - 1)

def Layout.digits (layout : Layout) (d : Digits) : List Char :=
  if layout.scientific d.point then d.scientific else d.positional layout.wholeEnd

/-- The text of a number in a layout. -/
def Layout.text (layout : Layout) (x : Binary64) : List Char :=
  if x.isNaN then ['N', 'a', 'N']
  else
    (if x.negative then ['-'] else []) ++
      (if x.isZero then '0' :: layout.wholeEnd
      else if x.isFinite then layout.digits (Decimal.shortest x.magnitude.toNat).toDigits
      else ['i', 'n', 'f'])

instance : ToString Binary64 := ⟨fun x ↦ String.ofList (Layout.plain.text x)⟩

/-- The text of a number that shows its kind: a whole number has a point or a power of ten too. -/
def taggedText (x : Binary64) : String := String.ofList (Layout.tagged.text x)

end ExprLang.Binary64
