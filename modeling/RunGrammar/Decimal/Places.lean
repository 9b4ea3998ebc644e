/-!
# Decimals with a fixed number of places

A float stands for an exact fraction, its significand times a power of two. To
print it with some places it is multiplied by that power of ten, rounded to the
nearest whole number, a half going to the even neighbour, and cut in front of
the last places. All of this is exact arithmetic on natural numbers.
-/

namespace RunGrammar.Decimal

/-- A non-negative fraction. -/
structure Fraction where
  numerator : Nat
  denominator : Nat
deriving DecidableEq, Repr

/-- The magnitude that the bits of a finite double stand for. Subnormal numbers have the smallest
exponent and no leading one. -/
def magnitude (bits : UInt64) : Fraction :=
  let low := bits.toNat % (1 <<< 52)
  let field := bits.toNat >>> 52 % (1 <<< 11)
  let significand := if field = 0 then low else 1 <<< 52 + low
  let exponent := max field 1
  ⟨significand <<< (exponent - 1075), 1 <<< (1075 - exponent)⟩

/-- The nearest whole number to a fraction; a half goes to the even neighbour. -/
def roundToEven (x : Fraction) : Nat :=
  let quotient := x.numerator / x.denominator
  let twice := 2 * (x.numerator % x.denominator)
  if twice < x.denominator then quotient
  else if x.denominator < twice then quotient + 1
  else quotient + quotient % 2

/-- The decimal digits of a number, filled up with zeros to at least `width` of them. -/
def digits (width value : Nat) : List Char :=
  let shown := Nat.toDigits 10 value
  List.replicate (width - shown.length) '0' ++ shown

/-- A number of units at the last of some places, with the point in front of the places. -/
def withPoint (places units : Nat) : String :=
  let shown := digits (places + 1) units
  let whole := shown.length - places
  .ofList (shown.take whole ++ '.' :: shown.drop whole)

/-- The magnitude of a finite float with this many places, of which there is at least one. -/
def ofFloat (places : Nat) (x : Float) : String :=
  let exact := magnitude x.toBits
  withPoint places (roundToEven ⟨exact.numerator * Nat.pow 10 places, exact.denominator⟩)

/-- The rounded number is at most half a unit away from the fraction. -/
theorem roundToEven_near (x : Fraction) (h : 0 < x.denominator) :
    2 * (roundToEven x * x.denominator) ≤ 2 * x.numerator + x.denominator ∧
      2 * x.numerator ≤ 2 * (roundToEven x * x.denominator) + x.denominator := by
  have parts : x.denominator * (x.numerator / x.denominator) + x.numerator % x.denominator
      = x.numerator := Nat.div_add_mod ..
  have small : x.numerator % x.denominator < x.denominator := Nat.mod_lt _ h
  simp only [roundToEven]
  generalize x.numerator / x.denominator = q at *
  generalize x.numerator % x.denominator = r at *
  have next : (q + 1) * x.denominator = x.denominator * q + x.denominator := by
    rw [Nat.add_mul, Nat.one_mul, Nat.mul_comm]
  have same : q * x.denominator = x.denominator * q := Nat.mul_comm ..
  rcases Nat.mod_two_eq_zero_or_one q with even | odd
  · simp only [even, Nat.add_zero]
    split
    · omega
    · split <;> omega
  · simp only [odd]
    split
    · omega
    · split <;> omega

end RunGrammar.Decimal
