import JsonQuery.Number.Reading
import JsonQuery.Result.Basic

/-!
# Reading a result as text, truth value or number

Every reading is total: a kind that a reading does not apply to gives the empty text, `false` or
zero.
-/

namespace JsonQuery

open Ascii

/-! ## Texts -/

/-- The text of a string with the given source text. -/
def Value.stringText (raw : Bytes) : Bytes :=
  let body := (raw.drop 1).dropLast
  if body.contains backslash then Quoted.decode body else body

/-- Only a string with a backslash in it holds escapes to read. -/
theorem Value.stringText_quoted (body : Bytes) :
    stringText (Bytes.quoted body) =
      if body.contains backslash then Quoted.decode body else body := by
  simp [stringText, Bytes.quoted]

/-- The text of a number with the given source text: the source text of an integer, and the
shortest decimal without exponent for all other numbers. -/
def Value.numberText (raw : Bytes) : Bytes :=
  if Number.isIntegerText raw then raw else Number.plain (Number.double raw)

/-- A value as text: decoded strings, source text of containers, nothing for null. -/
def Value.text : Value → Bytes
  | missing | null => []
  | boolean b => if b then trueText else falseText
  | string raw => stringText raw
  | json raw => raw
  | number raw => numberText raw

namespace Result

/-- The result as text. -/
def text (r : Result) : Bytes :=
  r.value.text

/-! ## Truth values -/

/-- The texts that count as true, in small letters. -/
def trueTexts : List Bytes :=
  [Bytes.ofString "1", Bytes.ofString "t", Bytes.ofString "true"]

/-- Truth: `true`, numbers other than zero, and strings that spell it in any case. -/
def truth (r : Result) : Bool :=
  match r.value with
  | .boolean b => b
  | .number raw => !(Number.double raw).isZero
  | .string raw => trueTexts.contains (Value.stringText raw).toLower
  | _ => false

/-! ## Numbers -/

/-- The smallest signed word. -/
def minSigned : Int :=
  -Nat.pow 2 63

/-- The largest signed word. -/
def maxSigned : Int :=
  Nat.pow 2 63 - 1

/-- The largest unsigned word. -/
def maxUnsigned : Int :=
  Nat.pow 2 64 - 1

/-- A number as a signed word: through its double where doubles are exact, through its digits
otherwise, and as the nearest word when it is not written in digits. -/
def signedOfNumber (raw : Bytes) : Int64 :=
  let value := Number.double raw
  match value.safeInt? with
  | some n => Int64.ofInt n
  -- Digits keep what a double would round, modulo the size of a word
  | none => (Number.signed? raw).getD (Int64.ofInt (value.clamp minSigned maxSigned))

/-- A number as an unsigned word, by the same rule; the double of a negative number does not
count as exact. -/
def unsignedOfNumber (raw : Bytes) : UInt64 :=
  let value := Number.double raw
  match value.safeInt?.filter (0 ≤ ·) with
  | some n => UInt64.ofNat n.toNat
  | none =>
    (Number.unsigned? raw).getD (UInt64.ofNat (value.clamp 0 maxUnsigned).toNat)

/-- The result as a signed word. -/
def signed (r : Result) : Int64 :=
  match r.value with
  | .boolean b => if b then 1 else 0
  | .string raw => (Number.signed? (Value.stringText raw)).getD 0
  | .number raw => signedOfNumber raw
  | _ => 0

/-- The result as an unsigned word. -/
def unsigned (r : Result) : UInt64 :=
  match r.value with
  | .boolean b => if b then 1 else 0
  | .string raw => (Number.unsigned? (Value.stringText raw)).getD 0
  | .number raw => unsignedOfNumber raw
  | _ => 0

/-- The result as a double. -/
def double (r : Result) : Double :=
  match r.value with
  | .boolean b => if b then .one else .zero
  | .string raw => Number.double (Value.stringText raw)
  | .number raw => Number.double raw
  | _ => .zero

end Result

end JsonQuery
