import JsonQuery.Bytes

/-!
# Doubles

The binary64 numbers, each finite one as a whole number of the smallest positive double, which is
two to the power of -1074.  Comparing two of them compares whole numbers, and rounding a fraction
keeps the 53 highest bits of one.

- `Double.ofDecimal` is the double nearest to a decimal, a tie going to the even neighbour;
- `Double.toBits` and `Double.ofBits` are the interchange format.
-/

namespace JsonQuery

/-- A binary64 number. -/
inductive Double where
  | nan
  | infinite (negative : Bool)
  /-- A sign and a magnitude in units of the smallest positive double. -/
  | finite (negative : Bool) (units : Nat)
  deriving DecidableEq, Repr, Inhabited

namespace Double

/-! ## Scale -/

/-- The units that make up the number one. -/
def unitsPerOne : Nat :=
  Nat.pow 2 1074

/-- The first magnitude past all finite doubles. -/
def limit : Nat :=
  Nat.pow 2 2098

/-- The bits of a significand. -/
def precision : Nat :=
  53

/-- Positive zero. -/
def zero : Double :=
  finite false 0

/-- The number one. -/
def one : Double :=
  finite false unitsPerOne

/-! ## Rounding -/

/-- A fraction as the nearest whole number, a tie going to the even neighbour. -/
def nearestEven (numerator denominator : Nat) : Nat :=
  let whole := numerator / denominator
  let twice := 2 * (numerator % denominator)
  if denominator < twice || (twice = denominator && whole % 2 = 1) then whole + 1 else whole

/-- The bits of a magnitude below its significand. -/
def lowBits (whole : Nat) : Nat :=
  whole.log2 + 1 - precision

/-- A fraction of units as the nearest magnitude of a double. -/
def roundUnits (numerator denominator : Nat) : Nat :=
  let step := Nat.pow 2 (lowBits (numerator / denominator))
  nearestEven numerator (denominator * step) * step

/-- A magnitude with a sign; one past all finite doubles is infinite. -/
def ofUnits (negative : Bool) (units : Nat) : Double :=
  if units < limit then finite negative units else infinite negative

/-- The double nearest to a fraction. -/
def ofRatio (negative : Bool) (numerator denominator : Nat) : Double :=
  ofUnits negative (roundUnits (numerator * unitsPerOne) denominator)

/-- The magnitude nearest to a whole number. -/
def wholeUnits (n : Nat) : Nat :=
  roundUnits (n * unitsPerOne) 1

/-- The product of two magnitudes, rounded. -/
def mulUnits (a b : Nat) : Nat :=
  roundUnits (a * b) unitsPerOne

/-- The quotient of two magnitudes, rounded. -/
def divUnits (a b : Nat) : Nat :=
  roundUnits (a * unitsPerOne) b

/-- A power of ten that takes every nonzero whole number out of the range of doubles. -/
def hugeExponent : Nat :=
  400

/-- The double nearest to `digits * 10 ^ exponent`.  Exponents that leave no doubt about the result
are answered without computing the power. -/
def ofDecimal (negative : Bool) (digits : Nat) (exponent : Int) : Double :=
  if digits = 0 then finite negative 0
  else
    match exponent with
    | .ofNat up =>
      if hugeExponent < up then infinite negative else ofRatio negative (digits * Nat.pow 10 up) 1
    -- `digits` has at most `digits.log2 / 3 + 1` decimal digits
    | .negSucc down =>
      if digits.log2 / 3 + 2 + hugeExponent < down then finite negative 0
      else ofRatio negative digits (Nat.pow 10 (down + 1))

/-! ## Signs, order and whole numbers -/

/-- The number with the opposite sign. -/
def neg : Double → Double
  | nan => nan
  | infinite negative => infinite !negative
  | finite negative units => finite (!negative) units

/-- The place of a number in the order of all numbers; both zeros have the same one. -/
def rank : Double → Option Int
  | nan => none
  | infinite negative => some (if negative then -limit else limit)
  | finite negative units => some (if negative then -units else units)

/-- Strict order; nothing is less or greater than a NaN. -/
def less (a b : Double) : Bool :=
  match a.rank, b.rank with
  | some x, some y => x < y
  | _, _ => false

/-- Numeric equality; the zeros are equal, and a NaN equals nothing. -/
def equal (a b : Double) : Bool :=
  match a.rank, b.rank with
  | some x, some y => x == y
  | _, _ => false

/-- Either of the zeros. -/
def isZero (a : Double) : Bool :=
  a.equal zero

/-- A number without its fraction. -/
def truncate (negative : Bool) (units : Nat) : Int :=
  let whole : Int := (units / unitsPerOne : Nat)
  if negative then -whole else whole

/-- The largest magnitude up to which every whole number is a double: `2 ^ 53 - 1`. -/
def maxSafe : Nat :=
  Nat.pow 2 precision - 1

/-- The whole number in front of the fraction, in the range where doubles hold all of them. -/
def safeInt? : Double → Option Int
  | finite negative units =>
    if units ≤ maxSafe * unitsPerOne then some (truncate negative units) else none
  | _ => none

/-- The nearest number of a range, without the fraction; a NaN counts as zero. -/
def clamp (low high : Int) : Double → Int
  | nan => 0
  | infinite negative => if negative then low else high
  | finite negative units => min high (max low (truncate negative units))

/-! ## Interchange format -/

/-- The bit of the sign. -/
def signBit (negative : Bool) : Nat :=
  if negative then Nat.pow 2 63 else 0

/-- The leading bit of a significand, which the format leaves out. -/
def hiddenBit : Nat :=
  Nat.pow 2 52

/-- The bits of an infinite number without its sign. -/
def infiniteBits : Nat :=
  0x7FF * hiddenBit

/-- The bits of a finite magnitude. -/
def magnitudeBits (units : Nat) : Nat :=
  let low := lowBits units
  if units < hiddenBit then units
  else units / Nat.pow 2 low - hiddenBit + (low + 1) * hiddenBit

/-- The 64 bits of a number; all NaNs have the same ones. -/
def toBits : Double → Nat
  | nan => infiniteBits + hiddenBit / 2
  | infinite negative => signBit negative + infiniteBits
  | finite negative units => signBit negative + magnitudeBits units

/-- The number with the given 64 bits. -/
def ofBits (bits : Nat) : Double :=
  let negative := Nat.pow 2 63 ≤ bits
  let exponent := bits / hiddenBit % 0x800
  let fraction := bits % hiddenBit
  if exponent = 0x7FF then if fraction = 0 then infinite negative else nan
  -- The unit is the step between subnormal numbers
  else if exponent = 0 then finite negative fraction
  else finite negative ((hiddenBit + fraction) * Nat.pow 2 (exponent - 1))

end Double

end JsonQuery
