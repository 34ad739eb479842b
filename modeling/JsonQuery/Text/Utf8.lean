import JsonQuery.Bytes

/-!
# UTF-8

A machine that reads UTF-8 one byte at a time, and three readings built on it.

- `Utf8.isValid`: whether a text is UTF-8 from end to end;
- `Utf8.chars`: the characters of a text, with one replacement character for each maximal part
  that can not be continued to a character;
- `Utf8.lossy`: a text itself when it is UTF-8, and its characters written anew when it is not.
-/

namespace JsonQuery.Utf8

/-! ## The machine -/

/-- What the next byte has to be. -/
inductive State where
  /-- Any byte that starts a character. -/
  | lead
  /-- The last continuation byte of a character. -/
  | tail1
  /-- The first of two continuation bytes. -/
  | tail2
  /-- The first of three continuation bytes. -/
  | tail3
  /-- The continuation after `E0`, which rules out overlong forms. -/
  | afterE0
  /-- The continuation after `ED`, which rules out surrogates. -/
  | afterED
  /-- The continuation after `F0`, which rules out overlong forms. -/
  | afterF0
  /-- The continuation after `F4`, which rules out code points past the last one. -/
  | afterF4
  deriving DecidableEq, Repr, Inhabited

/-- A byte in a range leads on to a state; all other bytes are refused. -/
def State.within (low high : UInt8) (b : UInt8) (after : State) : Option State :=
  if low ≤ b && b ≤ high then some after else none

/-- The state after the first byte of a character. -/
def State.afterLead (b : UInt8) : Option State :=
  if b ≤ 0x7F then some .lead
  -- Continuation bytes, and leads of two-byte forms for characters of one byte
  else if b < 0xC2 then none
  else if b ≤ 0xDF then some .tail1
  else if b = 0xE0 then some .afterE0
  else if b = 0xED then some .afterED
  else if b ≤ 0xEF then some .tail2
  else if b = 0xF0 then some .afterF0
  else if b ≤ 0xF3 then some .tail3
  else if b = 0xF4 then some .afterF4
  else none

/-- The state after one more byte, or nothing where no character continues with it. -/
def State.next : State → UInt8 → Option State
  | .lead, b => afterLead b
  | .tail1, b => within 0x80 0xBF b .lead
  | .tail2, b => within 0x80 0xBF b .tail1
  | .tail3, b => within 0x80 0xBF b .tail2
  | .afterE0, b => within 0xA0 0xBF b .tail1
  | .afterED, b => within 0x80 0x9F b .tail1
  | .afterF0, b => within 0x90 0xBF b .tail2
  | .afterF4, b => within 0x80 0x8F b .tail2

/-- The machine reads the text to its end and stops between two characters. -/
def State.accepts : State → Bytes → Bool
  | state, [] => state == .lead
  | state, b :: rest =>
    match state.next b with
    | some after => after.accepts rest
    | none => false

/-- A text is UTF-8 from end to end. -/
def isValid (text : Bytes) : Bool :=
  State.lead.accepts text

/-! ## Reading characters -/

/-- The bits that the first byte of a character contributes to its code point. -/
def leadBits (b : UInt8) : Nat :=
  if b < 0x80 then b.toNat
  else if b < 0xE0 then b.toNat % 0x20
  else if b < 0xF0 then b.toNat % 0x10
  else b.toNat % 0x08

/-- A reading in progress. -/
structure Decoder where
  /-- Characters read so far, the latest first; nothing stands for an invalid part. -/
  found : List (Option Char)
  /-- What the next byte has to be. -/
  state : State
  /-- The bits of the character being read. -/
  code : Nat
  deriving Inhabited

namespace Decoder

/-- The reading before the first byte. -/
def start : Decoder :=
  ⟨[], .lead, 0⟩

/-- Goes on with a byte that stands where a character has to start. -/
def begin (found : List (Option Char)) (b : UInt8) : Decoder :=
  match State.afterLead b with
  | none => ⟨none :: found, .lead, 0⟩
  | some .lead => ⟨some (Char.ofNat b.toNat) :: found, .lead, 0⟩
  | some after => ⟨found, after, leadBits b⟩

/-- Goes on with any byte.  A byte that does not fit ends the part before it, which is invalid, and
is read again as the start of a character. -/
def feed (decoder : Decoder) (b : UInt8) : Decoder :=
  match decoder.state with
  | .lead => begin decoder.found b
  | state =>
    let code := decoder.code * 0x40 + b.toNat % 0x40
    match state.next b with
    | some .lead => ⟨some (Char.ofNat code) :: decoder.found, .lead, 0⟩
    | some after => ⟨decoder.found, after, code⟩
    -- The part so far is a maximal one: with `b` no character could go on
    | none => begin (none :: decoder.found) b

/-- What was read, in order; a character cut off by the end is an invalid part. -/
def finish (decoder : Decoder) : List (Option Char) :=
  match decoder.state with
  | .lead => decoder.found.reverse
  | _ => (none :: decoder.found).reverse

end Decoder

/-- The characters of a text in order, with nothing for each maximal invalid part. -/
def decode (text : Bytes) : List (Option Char) :=
  (text.foldl Decoder.feed Decoder.start).finish

/-- The replacement character U+FFFD. -/
def replacement : Char :=
  Char.ofNat 0xFFFD

/-- The characters of a text, with the replacement character for each maximal invalid part. -/
def chars (text : Bytes) : List Char :=
  (decode text).map (·.getD replacement)

/-- A byte inside of a character, behind its first byte. -/
def isContinuation (b : UInt8) : Bool :=
  0x80 ≤ b && b ≤ 0xBF

/-- The number of characters of a text that is UTF-8. -/
def length (text : Bytes) : Nat :=
  text.countP (!isContinuation ·)

/-! ## Writing characters -/

/-- The bytes of characters. -/
def encode (cs : List Char) : Bytes :=
  cs.flatMap String.utf8EncodeChar

/-- A text as UTF-8: itself when it is valid, with replacement characters otherwise. -/
def lossy (text : Bytes) : Bytes :=
  if isValid text then text else encode (chars text)

end JsonQuery.Utf8
