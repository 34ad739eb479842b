import JsonQuery.Number.Double

/-!
# Shortest decimals

The decimal with the fewest digits that reads back as a given double, the nearest to the double of
all with that many digits.  A number of digits fixes a grid of decimals.  If any point of the grid
reads back, one of the two neighbours of the double on that grid does, so only these are tried, on
finer and finer grids.
-/

namespace JsonQuery

/-- A positive decimal: `0.d₁d₂… * 10 ^ point`, without zeros at its end. -/
structure Decimal where
  /-- The digits as they are written. -/
  digits : Bytes
  /-- The place of the decimal point, counted from the first digit. -/
  point : Int
  deriving DecidableEq, Repr, Inhabited

namespace Shortest

/-- The neighbour that is taken when both are equally near. -/
inductive Tie where
  | up
  | toEven
  deriving DecidableEq, Repr

/-- The most digits that a double needs. -/
def maxDigits : Nat :=
  17

/-- A double and the numbers that read back as it, as multiples of one small fraction. -/
structure Target where
  value : Nat
  low : Nat
  high : Nat
  /-- Whether `low` and `high` read back as well. -/
  closed : Bool
  /-- The number one. -/
  one : Nat

/-- The numbers that round to a magnitude: halfway to its neighbours on either side, the lower
neighbour being nearer at a power of two. -/
def Target.ofUnits (units : Nat) : Target :=
  let low := Double.lowBits units
  let gap := Nat.pow 2 low
  let below := if low ≠ 0 && units = Nat.pow 2 52 * gap then gap else 2 * gap
  { value := 4 * units
    low := 4 * units - below
    high := 4 * units + 2 * gap
    closed := units / gap % 2 = 0
    one := 4 * Double.unitsPerOne }

/-- A number that reads back. -/
def Target.holds (t : Target) (x : Nat) : Bool :=
  if t.closed then t.low ≤ x && x ≤ t.high else t.low < x && x < t.high

/-- The exponent of the first digit: the largest power of ten up to the number. -/
def Target.leading (t : Target) : Int :=
  if t.one ≤ t.value then ((Nat.toDigits 10 (t.value / t.one)).length : Int) - 1
  else -((Nat.toDigits 10 ((t.one - 1) / t.value)).length : Int)

/-- The multiple of a grid's step that reads back, the nearer one if both neighbours do. -/
def Target.hit? (tie : Tie) (t : Target) (step : Nat) : Option Nat :=
  let count := t.value / step
  let down := t.value - count * step
  let up := (count + 1) * step - t.value
  match t.holds (count * step), t.holds ((count + 1) * step) with
  -- Both neighbours read back: the nearer one is taken
  | true, true =>
    if down < up then some count
    else if up < down then some (count + 1)
    else
      match tie with
      | .up => some (count + 1)
      | .toEven => some (if count % 2 = 0 then count else count + 1)
  | true, false => some count
  | false, true => some (count + 1)
  | false, false => none

/-- The hit on the grid of the multiples of `10 ^ exponent`. -/
def Target.on (tie : Tie) (t : Target) (exponent : Int) : Option Nat :=
  match exponent with
  | .ofNat up => t.hit? tie (t.one * Nat.pow 10 up)
  -- A step below one: scale the target up instead, so that all stays whole
  | .negSucc down =>
    let scale := Nat.pow 10 (down + 1)
    { t with value := t.value * scale, low := t.low * scale, high := t.high * scale }.hit? tie t.one

/-- The decimal `count * 10 ^ exponent`. -/
def decimal (count : Nat) (exponent : Int) : Decimal :=
  let digits := Bytes.ofNat count
  ⟨(digits.reverse.dropWhile (· == Ascii.zero)).reverse, exponent + digits.length⟩

/-- Tries the grids from one exponent downwards. -/
def Target.search (tie : Tie) (t : Target) (exponent : Int) : Nat → Option Decimal
  | 0 => none
  | grids + 1 =>
    match t.on tie exponent with
    | some count => some (decimal count exponent)
    | none => t.search tie (exponent - 1) grids

end Shortest

/-- The shortest decimal of a positive magnitude. -/
def Double.shortest (tie : Shortest.Tie) (units : Nat) : Decimal :=
  let target := Shortest.Target.ofUnits units
  (target.search tie target.leading Shortest.maxDigits).getD ⟨[], 0⟩

end JsonQuery
