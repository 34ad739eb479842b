import JsonQuery.Text.Utf8

/-!
# Quoted strings

The body of a string is what stands between its quotes.

- `Quoted.close?` finds the quote that ends a body;
- `Quoted.decode` reads the escapes of a body, `Quoted.encode` quotes a text and writes them.

Decoding never fails.  It stops at a raw control byte and at an escape it does not know, keeps a
`\u` without four digits as it is written, and reads half of a surrogate pair as U+FFFD.
-/

namespace JsonQuery.Quoted

open Ascii

/-! ## The end of a body -/

/-- A body that ends with a quote. -/
structure Body where
  /-- The number of bytes before the closing quote. -/
  length : Nat
  /-- Some byte of the body is a backslash. -/
  escaped : Bool
  deriving DecidableEq, Repr, Inhabited

/-- Continues the search for the closing quote with `length` bytes of the body behind. -/
def closeFrom (length : Nat) (escaped : Bool) : Bytes → Option Body
  | [] => none
  | c :: rest =>
    if c = quote then some ⟨length, escaped⟩
    else if c = backslash then
      -- Whatever stands behind a backslash ends nothing
      match rest with
      | [] => none
      | _ :: rest => closeFrom (length + 2) true rest
    else closeFrom (length + 1) escaped rest

/-- The body at the front of a text that starts behind the opening quote.  A backslash takes the
byte behind it along, whatever that is. -/
def close? (text : Bytes) : Option Body :=
  closeFrom 0 false text

/-! ## Reading escapes -/

/-- The UTF-16 unit spelled by the four hexadecimal digits at the front of a text. -/
def unit? : Bytes → Option Nat
  | a :: b :: c :: d :: _ => do
    let a ← hexValue? a
    let b ← hexValue? b
    let c ← hexValue? c
    let d ← hexValue? d
    return ((a * 16 + b) * 16 + c) * 16 + d
  | _ => none

/-- The first half of a surrogate pair. -/
def isHighSurrogate (unit : Nat) : Bool :=
  0xD800 ≤ unit && unit < 0xDC00

/-- The second half of a surrogate pair. -/
def isLowSurrogate (unit : Nat) : Bool :=
  0xDC00 ≤ unit && unit < 0xE000

/-- The second half of a surrogate pair, when the text starts with the escape of one. -/
def lowSurrogate? : Bytes → Option Nat
  | a :: b :: rest =>
    if a = backslash && b = lowerU then (unit? rest).filter isLowSurrogate else none
  | _ => none

/-- The character of a surrogate pair. -/
def pairChar (high low : Nat) : Char :=
  Char.ofNat (0x10000 + (high - 0xD800) * 0x400 + (low - 0xDC00))

/-- The character of a unit that stands alone. -/
def unitChar (unit : Nat) : Char :=
  if isHighSurrogate unit || isLowSurrogate unit then Utf8.replacement else Char.ofNat unit

/-- An escape: the text it stands for, and the bytes that spell it behind its backslash. -/
structure Escape where
  text : Bytes
  length : Nat
  deriving DecidableEq, Repr, Inhabited

/-- The byte that a one-letter escape stands for. -/
def short? (c : UInt8) : Option UInt8 :=
  if c = backslash || c = slash || c = quote then some c
  else if c = lowerB then some backspace
  else if c = lowerF then some formFeed
  else if c = lowerN then some lineFeed
  else if c = lowerR then some carriageReturn
  else if c = lowerT then some tab
  else none

/-- The escape of a code unit, read behind its `\u`. -/
def unitEscape (rest : Bytes) : Escape :=
  match unit? rest with
  -- Not four digits: the two bytes stand for themselves
  | none => ⟨[backslash, lowerU], 1⟩
  | some unit =>
    if isHighSurrogate unit then
      match lowSurrogate? (rest.drop 4) with
      -- `u`, four digits, and the six bytes of the other half
      | some low => ⟨Utf8.encode [pairChar unit low], 11⟩
      | none => ⟨Utf8.encode [Utf8.replacement], 5⟩
    else ⟨Utf8.encode [unitChar unit], 5⟩

/-- The escape behind a backslash, unless it is an unknown one. -/
def escape? : Bytes → Option Escape
  | [] => none
  | c :: rest => if c = lowerU then some (unitEscape rest) else (short? c).map (⟨[·], 1⟩)

/-- Reads a body after dropping `skip` bytes of it; `out` holds the text so far, last byte
first. -/
def decodeFrom (skip : Nat) (out : Bytes) : Bytes → Bytes
  | [] => out.reverse
  | c :: rest =>
    match skip with
    | skip + 1 => decodeFrom skip out rest
    | 0 =>
      if c < space then out.reverse
      else if c = backslash then
        match escape? rest with
        | some escape => decodeFrom escape.length (escape.text.reverse ++ out) rest
        | none => out.reverse
      else decodeFrom 0 (c :: out) rest

/-- The text of a body, with its escapes read and as valid UTF-8. -/
def decode (body : Bytes) : Bytes :=
  Utf8.lossy (decodeFrom 0 [] body)

/-! ## Writing escapes -/

/-- A byte as it is written in a body: short escapes where there are any, `\u00xx` for other
control bytes, and all else as it is. -/
def spell (c : UInt8) : Bytes :=
  if c = quote || c = backslash then [backslash, c]
  else if c = backspace then [backslash, lowerB]
  else if c = formFeed then [backslash, lowerF]
  else if c = lineFeed then [backslash, lowerN]
  else if c = carriageReturn then [backslash, lowerR]
  else if c = tab then [backslash, lowerT]
  else if c < space then
    [backslash, lowerU, zero, zero, hexDigit (c.toNat / 16), hexDigit (c.toNat % 16)]
  else [c]

/-- A text as a quoted string. -/
def encode (text : Bytes) : Bytes :=
  Bytes.quoted (text.flatMap spell)

end JsonQuery.Quoted
