import JsonQuery.Text.Quoted

/-!
# How far a value extends

Values are never taken apart to be passed over: the first byte says what kind a value is, and a
scan to its last byte says how long it is.  The scans are lenient.  A number runs to the next
space, comma or closing bracket whatever it holds, a word is a run of small letters, and the
brackets of a container are only counted, all three kinds alike.

- `Lead.of?` is the kind of the value at the front of a text;
- `Extent.ofValue?` is the length of that value, or nothing when the text ends before it does.
-/

namespace JsonQuery

open Ascii

/-! ## The first byte of a value -/

/-- The kinds of values that the first bytes tell apart. -/
inductive Lead where
  | object
  | array
  | string
  | number
  /-- One of the words `true`, `false` and `null`. -/
  | word
  deriving DecidableEq, Repr, Inhabited

/-- A bracket that an object or an array opens with. -/
def opensContainer (c : UInt8) : Bool :=
  c == openBrace || c == openBracket

/-- Bytes that a number can start with, `n` apart: the lenient forms include `inf` and `NaN`. -/
def startsNumber (c : UInt8) : Bool :=
  isDigit c || c == plus || c == minus || c == lowerI || c == upperI || c == upperN

/-- Bytes that a value can start with. -/
def startsValue (c : UInt8) : Bool :=
  opensContainer c || c == quote || c == lowerT || c == lowerF || c == lowerN || startsNumber c

/-- Bytes up to and including the space separate values. -/
def isSpace (c : UInt8) : Bool :=
  c ≤ space

namespace Lead

/-- An `n` starts a number, such as `nan`, unless a `u` or the end of the text follows. -/
def afterN : Bytes → Lead
  | [] => .word
  | c :: _ => if c = lowerU then .word else .number

/-- The kind of value that a text starts with. -/
def of? : Bytes → Option Lead
  | [] => none
  | c :: rest =>
    if c = openBrace then some .object
    else if c = openBracket then some .array
    else if c = quote then some .string
    else if c = lowerN then some (afterN rest)
    else if c = lowerT || c = lowerF then some .word
    else if startsNumber c then some .number
    else none

/-- A value with members or elements. -/
def isContainer : Lead → Bool
  | .object | .array => true
  | _ => false

end Lead

namespace Extent

/-! ## Scalars -/

/-- The space at the front of a text. -/
def ofSpace (text : Bytes) : Nat :=
  (text.takeWhile isSpace).length

/-- Bytes that end a number. -/
def endsNumber (c : UInt8) : Bool :=
  isSpace c || c == comma || c == closeBracket || c == closeBrace

/-- A number at the front of a text: its first byte, and all bytes up to one that ends it. -/
def ofNumber : Bytes → Nat
  | [] => 0
  | _ :: rest => (rest.takeWhile (!endsNumber ·)).length + 1

/-- A word at the front of a text: its first byte, and the small letters behind it. -/
def ofWord : Bytes → Nat
  | [] => 0
  | _ :: rest => (rest.takeWhile isLower).length + 1

/-- A string at the front of a text, both quotes included. -/
def ofString? : Bytes → Option Nat
  | [] => none
  | _ :: rest => (Quoted.close? rest).map (·.length + 2)

/-! ## Containers -/

/-- Where a scan over the inside of a container stands. -/
inductive Place where
  /-- Outside of strings. -/
  | plain
  /-- Inside a string. -/
  | quoted
  /-- Inside a string, behind a backslash. -/
  | escaped
  deriving DecidableEq, Repr, Inhabited

/-- Continues a scan with `length` bytes behind it and `depth` brackets open besides the first. -/
def closeFrom (place : Place) (depth length : Nat) : Bytes → Option Nat
  | [] => none
  | c :: rest =>
    match place with
    | .escaped => closeFrom .quoted depth (length + 1) rest
    | .quoted =>
      if c = quote then closeFrom .plain depth (length + 1) rest
      else if c = backslash then closeFrom .escaped depth (length + 1) rest
      else closeFrom .quoted depth (length + 1) rest
    | .plain =>
      if c = quote then closeFrom .quoted depth (length + 1) rest
      else if isOpener c then closeFrom .plain (depth + 1) (length + 1) rest
      else if isCloser c then
        -- Any bracket that closes counts against any that opens
        match depth with
        | 0 => some (length + 1)
        | depth + 1 => closeFrom .plain depth (length + 1) rest
      else closeFrom .plain depth (length + 1) rest

/-- The container that opens at the front of a text, both brackets included.  Brackets inside of
strings do not count. -/
def ofContainer? : Bytes → Option Nat
  | [] => none
  | _ :: rest => closeFrom .plain 0 1 rest

/-! ## Values -/

/-- A value of a known kind at the front of a text. -/
def ofLead? (lead : Lead) (text : Bytes) : Option Nat :=
  match lead with
  -- Only a container or a string can be cut off by the end of the text
  | .object | .array => ofContainer? text
  | .string => ofString? text
  | .number => some (ofNumber text)
  | .word => some (ofWord text)

/-- The value at the front of a text, when it starts with one and does not end inside it. -/
def ofValue? (text : Bytes) : Option Nat :=
  (Lead.of? text).bind (ofLead? · text)

/-- The argument at the front of a piece of a path: a string or a bracketed text as far as it
goes, and all of the text otherwise. -/
def ofArgument (text : Bytes) : Nat :=
  match text with
  | [] => 0
  | c :: _ =>
    if c = quote then (ofString? text).getD text.length
    else if isOpener c then (ofContainer? text).getD text.length
    else text.length

end Extent

end JsonQuery
