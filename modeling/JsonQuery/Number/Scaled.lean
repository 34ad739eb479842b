import JsonQuery.Number.Reading

/-!
# Numbers as scaled words

A quick reading of decimals.  The digits in front make a whole number of 64 bits, and this number,
as a double, is multiplied or divided by a power of ten, as a double.  Every step rounds, so the
result is near the decimal but not always the double nearest to it.

- `Number.Parts.scaled` is the whole number and the exponent that a decimal amounts to;
- `Number.Scaled.units` is the magnitude that the steps lead to;
- `Number.scaled?` reads a text.
-/

namespace JsonQuery.Number

/-- A whole number of 64 bits, scaled by a power of ten. -/
structure Scaled where
  word : Nat
  exponent : Int
  deriving DecidableEq, Repr, Inhabited

/-! ## Digits -/

/-- Appends digits to a number up to the first one with which 64 bits do not hold it any more, and
counts those that were appended. -/
def appendDigits (n count : Nat) : Bytes → Nat × Nat
  | [] => (n, count)
  | c :: rest =>
    let next := n * 10 + Ascii.digitValue c
    if next < wordLimit then appendDigits next (count + 1) rest else (n, count)

/-- The scaled word of a decimal.  A digit that is left out in front of the point raises the
exponent, one that is kept behind it lowers the exponent.  After digits in front of the point were
left out, one behind it may still be kept. -/
def Parts.scaled (p : Parts) : Scaled :=
  let (word, kept) := appendDigits 0 0 p.whole
  let (word, keptBehind) := appendDigits word 0 p.part
  ⟨word, p.exponent + (p.whole.length - kept : Nat) - keptBehind⟩

/-! ## Scaling -/

namespace Scaled

/-- The largest exponent of a power of ten that is a finite double. -/
def maxTens : Nat :=
  308

/-- The magnitude nearest to a power of ten. -/
def tens (exponent : Nat) : Nat :=
  Double.wholeUnits (Nat.pow 10 exponent)

/-- The magnitude of a scaled word.  A division takes off no more than `maxTens` powers of ten, and
what is left after two of them is too small for any further one to matter. -/
def units (s : Scaled) : Nat :=
  let word := Double.wholeUnits s.word
  match s.exponent with
  | .ofNat up =>
    if s.word = 0 then 0
    else if maxTens < up then Double.limit
    else Double.mulUnits word (tens up)
  | .negSucc down =>
    let first := min (down + 1) maxTens
    let second := min (down + 1 - first) maxTens
    Double.divUnits (Double.divUnits word (tens first)) (tens second)

/-- The double of a scaled word, unless it is out of range. -/
def double? (negative : Bool) (s : Scaled) : Option Double :=
  if s.units < Double.limit then some (.finite negative s.units) else none

end Scaled

/-- A decimal with an optional minus in front, read as a scaled word. -/
def scaled? (text : Bytes) : Option Double :=
  (parts? (dropSign (· == Ascii.minus) text)).bind fun p =>
    p.scaled.double? (startsWith Ascii.minus text)

end JsonQuery.Number
