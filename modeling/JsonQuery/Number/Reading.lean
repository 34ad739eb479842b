import JsonQuery.Number.Shortest

/-!
# Numbers as texts

The readings of a text as a double, a 64-bit integer or an array position, and the plain text of a
double.

- `Number.double?` also reads infinities and NaN, in any case;
- `Number.signed?` and `Number.unsigned?` wrap at 64 bits;
- `Number.signedExact?` and `Number.unsignedExact?` refuse what 64 bits do not hold.
-/

namespace JsonQuery.Number

open Ascii

/-! ## Integers -/

/-- A run of digits that is not empty. -/
def isDigits (text : Bytes) : Bool :=
  !text.isEmpty && text.all isDigit

/-- The first value that 64 bits do not hold. -/
def wordLimit : Nat :=
  Nat.pow 2 64

/-- Takes off a sign that a test recognizes. -/
def dropSign (isSign : UInt8 → Bool) : Bytes → Bytes
  | [] => []
  | c :: rest => if isSign c then rest else c :: rest

/-- Whether a text starts with a byte. -/
def startsWith (c : UInt8) (text : Bytes) : Bool :=
  text.head? == some c

/-- The word that digits spell, each one counting for itself and ten times those before it.  Whatever
64 bits do not hold is lost on the way. -/
def word (digits : Bytes) : UInt64 :=
  digits.foldl (fun n c => n * 10 + UInt64.ofNat (digitValue c)) 0

/-- A run of digits, modulo `2 ^ 64`. -/
def unsigned? (text : Bytes) : Option UInt64 :=
  if isDigits text then some (word text) else none

/-- A run of digits with an optional minus in front, modulo `2 ^ 64`. -/
def signed? (text : Bytes) : Option Int64 :=
  (unsigned? (dropSign (· == minus) text)).map fun magnitude =>
    if startsWith minus text then -magnitude.toInt64 else magnitude.toInt64

/-- A run of digits that denotes a position, which 64 bits have to hold. -/
def position? (text : Bytes) : Option Nat :=
  if isDigits text then
    let n := Bytes.toNat text
    if n < wordLimit then some n else none
  else none

/-- A run of digits with an optional sign that a signed word holds. -/
def signedExact? (text : Bytes) : Option Int :=
  let digits := dropSign (fun c => c == minus || c == plus) text
  if isDigits digits then
    let n : Int := if startsWith minus text then -(Bytes.toNat digits) else Bytes.toNat digits
    if -Nat.pow 2 63 ≤ n && n < Nat.pow 2 63 then some n else none
  else none

/-- A run of digits with an optional plus that an unsigned word holds. -/
def unsignedExact? (text : Bytes) : Option Nat :=
  position? (dropSign (· == plus) text)

/-- A run of digits with an optional minus in front. -/
def isIntegerText (text : Bytes) : Bool :=
  isDigits (dropSign (· == minus) text)

/-! ## Doubles -/

/-- An exponent behind the digits of a number: nothing, or `e`, a sign and digits. -/
def exponent? : Bytes → Option Int
  | [] => some 0
  | c :: rest =>
    if c = lowerE || c = upperE then
      let digits := dropSign (fun c => c == minus || c == plus) rest
      if isDigits digits then
        some (if startsWith minus rest then -(Bytes.toNat digits) else Bytes.toNat digits)
      else none
    else none

/-- The digits behind a decimal point, and what follows them. -/
def fraction : Bytes → Bytes × Bytes
  | [] => ([], [])
  | c :: rest => if c = dot then rest.span isDigit else ([], c :: rest)

/-- The parts of a decimal without a sign. -/
structure Parts where
  /-- The digits in front of the point. -/
  whole : Bytes
  /-- The digits behind the point. -/
  part : Bytes
  exponent : Int
  deriving DecidableEq, Repr, Inhabited

/-- The parts of a decimal without a sign.  Digits may be missing on one side of the point. -/
def parts? (text : Bytes) : Option Parts :=
  let (whole, rest) := text.span isDigit
  let (part, rest) := fraction rest
  if whole.isEmpty && part.isEmpty then none
  else (exponent? rest).map fun exponent => ⟨whole, part, exponent⟩

/-- The double nearest to a decimal. -/
def Parts.nearest (negative : Bool) (p : Parts) : Double :=
  Double.ofDecimal negative (Bytes.toNat (p.whole ++ p.part)) (p.exponent - p.part.length)

/-- The spellings of an infinite number, in small letters. -/
def infinityWords : List Bytes :=
  [Bytes.ofString "inf", Bytes.ofString "infinity"]

/-- A number with an optional sign: a decimal, an infinity or a NaN. -/
def double? (text : Bytes) : Option Double :=
  let negative := startsWith minus text
  let body := dropSign (fun c => c == minus || c == plus) text
  let word := body.toLower
  if infinityWords.contains word then some (.infinite negative)
  else if word = Bytes.ofString "nan" then some .nan
  else (parts? body).map (Parts.nearest negative)

/-- A text as a number, zero when it is none. -/
def double (text : Bytes) : Double :=
  (double? text).getD Double.zero

/-! ## Plain text -/

/-- A run of zeros. -/
def zeros (n : Nat) : Bytes :=
  List.replicate n zero

/-- A decimal with its point, without exponent and without a point at its end. -/
def positional (d : Decimal) : Bytes :=
  match d.point with
  | .negSucc n => zero :: dot :: zeros (n + 1) ++ d.digits
  | .ofNat 0 => zero :: dot :: d.digits
  | .ofNat n =>
    if d.digits.length ≤ n then d.digits ++ zeros (n - d.digits.length)
    else d.digits.take n ++ dot :: d.digits.drop n

/-- The shortest decimal that reads back, written without exponent; a half goes up. -/
def plain : Double → Bytes
  | .nan => Bytes.ofString "NaN"
  | .infinite negative => Bytes.ofString (if negative then "-Inf" else "+Inf")
  | .finite negative units =>
    let body := if units = 0 then [zero] else positional (Double.shortest .up units)
    if negative then minus :: body else body

end JsonQuery.Number
