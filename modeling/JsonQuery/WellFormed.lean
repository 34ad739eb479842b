import JsonQuery.Text.Utf8

/-!
# Well-formed documents

A machine that reads a document byte by byte and accepts exactly the texts that hold one JSON value
between optional spaces.  It keeps the open containers on a stack, so nesting has no bound.

- `WellFormed.validate` runs the machine and says where it stopped;
- `isWellFormed` is its verdict.
-/

namespace JsonQuery

open Ascii

namespace WellFormed

/-! ## States -/

/-- A container that is open. -/
inductive Frame where
  | object
  | array
  deriving DecidableEq, Repr, Inhabited

/-- What may come between two tokens. -/
inductive Expect where
  /-- Any value. -/
  | value
  /-- A value, or the bracket of an empty array. -/
  | firstValue
  /-- A key. -/
  | key
  /-- A key, or the brace of an empty object. -/
  | firstKey
  /-- The colon behind a key. -/
  | colon
  /-- A comma, the end of the container, or the end of the document. -/
  | next
  deriving DecidableEq, Repr, Inhabited

/-- The part of a number that was read last. -/
inductive NumberPart where
  | minus
  /-- A zero in front, behind which no digit may stand. -/
  | zero
  | whole
  | point
  | fraction
  | exponentMark
  | exponentSign
  | exponent
  deriving DecidableEq, Repr, Inhabited

/-- Where the machine stands. -/
inductive Mode where
  | between (expect : Expect)
  /-- Inside a string, which may be a key. -/
  | string (isKey : Bool)
  /-- Behind a backslash. -/
  | escape (isKey : Bool)
  /-- Before the last `left` digits of a code unit. -/
  | unit (isKey : Bool) (left : Nat)
  | number (part : NumberPart)
  /-- Inside a word, of which `behind` bytes were read and `ahead` is still to come. -/
  | word (behind : Nat) (ahead : Bytes)
  deriving DecidableEq, Repr, Inhabited

/-- A state of the machine. -/
structure State where
  /-- The open containers, the innermost first. -/
  stack : List Frame
  mode : Mode
  deriving DecidableEq, Repr, Inhabited

namespace State

/-- The state before the first byte. -/
def start : State :=
  ⟨[], .between .value⟩

/-- The state between two tokens. -/
def expect (e : Expect) (s : State) : State :=
  ⟨s.stack, .between e⟩

/-- The state behind a container that was opened. -/
def push (frame : Frame) (e : Expect) (s : State) : State :=
  ⟨frame :: s.stack, .between e⟩

/-- The state behind a container that was closed. -/
def pop (s : State) : State :=
  ⟨s.stack.tail, .between .next⟩

/-- The state inside a token. -/
def enter (mode : Mode) (s : State) : State :=
  ⟨s.stack, mode⟩

/-- The state behind a string. -/
def closeString (isKey : Bool) (s : State) : State :=
  s.expect (if isKey then .colon else .next)

end State

/-! ## Steps -/

/-- The four bytes of space that documents may hold between tokens. -/
def isGap (c : UInt8) : Bool :=
  c == space || c == tab || c == lineFeed || c == carriageReturn

/-- The letter of an escape, `u` apart. -/
def isShortEscape (c : UInt8) : Bool :=
  c == quote || c == backslash || c == slash || c == lowerB || c == lowerF || c == lowerN
    || c == lowerR || c == lowerT

/-- The words behind their first letters. -/
def wordTail? (c : UInt8) : Option Bytes :=
  if c = lowerT then some (Bytes.ofString "rue")
  else if c = lowerF then some (Bytes.ofString "alse")
  else if c = lowerN then some (Bytes.ofString "ull")
  else none

namespace State

/-- The first byte of a value. -/
def startValue (s : State) (c : UInt8) : Option State :=
  if c = openBrace then some (s.push .object .firstKey)
  else if c = openBracket then some (s.push .array .firstValue)
  else if c = quote then some (s.enter (.string false))
  else if c = minus then some (s.enter (.number .minus))
  else if c = zero then some (s.enter (.number .zero))
  else if isDigit c then some (s.enter (.number .whole))
  else (wordTail? c).map fun ahead => s.enter (.word 1 ahead)

/-- The first byte of a key. -/
def startKey (s : State) (c : UInt8) : Option State :=
  if c = quote then some (s.enter (.string true)) else none

/-- The byte behind a value. -/
def afterValue (s : State) (c : UInt8) : Option State :=
  match s.stack with
  | [] => none
  | .object :: _ =>
    if c = comma then some (s.expect .key) else if c = closeBrace then some s.pop else none
  | .array :: _ =>
    if c = comma then some (s.expect .value) else if c = closeBracket then some s.pop else none

/-- A byte between two tokens. -/
def stepBetween (s : State) (e : Expect) (c : UInt8) : Option State :=
  if isGap c then some (s.expect e)
  else
    match e with
    -- Only right behind its opener may a container close without a member
    | .value => s.startValue c
    | .firstValue => if c = closeBracket then some s.pop else s.startValue c
    | .key => s.startKey c
    | .firstKey => if c = closeBrace then some s.pop else s.startKey c
    | .colon => if c = colon then some (s.expect .value) else none
    | .next => s.afterValue c

/-- A byte inside a string. -/
def stepString (s : State) (isKey : Bool) (c : UInt8) : Option State :=
  if c = quote then some (s.closeString isKey)
  else if c = backslash then some (s.enter (.escape isKey))
  else if c < space then none
  else some (s.enter (.string isKey))

/-- A byte behind a backslash. -/
def stepEscape (s : State) (isKey : Bool) (c : UInt8) : Option State :=
  if isShortEscape c then some (s.enter (.string isKey))
  else if c = lowerU then some (s.enter (.unit isKey 4))
  else none

/-- A digit of a code unit. -/
def stepUnit (s : State) (isKey : Bool) (left : Nat) (c : UInt8) : Option State :=
  if (hexValue? c).isSome then
    some (s.enter (if left ≤ 1 then .string isKey else .unit isKey (left - 1)))
  else none

/-- A byte inside of or behind a number. -/
def stepNumber (s : State) (part : NumberPart) (c : UInt8) : Option State :=
  let goOn (part : NumberPart) : Option State := some (s.enter (.number part))
  let isMark := c == lowerE || c == upperE
  match part with
  | .minus => if c = zero then goOn .zero else if isDigit c then goOn .whole else none
  -- A digit behind a leading zero is refused like any other byte that may not follow a value
  | .zero =>
    if c = dot then goOn .point
    else if isMark then goOn .exponentMark
    else s.stepBetween .next c
  | .whole =>
    if isDigit c then goOn .whole
    else if c = dot then goOn .point
    else if isMark then goOn .exponentMark
    else s.stepBetween .next c
  | .point => if isDigit c then goOn .fraction else none
  | .fraction =>
    if isDigit c then goOn .fraction
    else if isMark then goOn .exponentMark
    else s.stepBetween .next c
  | .exponentMark =>
    if c = plus || c = minus then goOn .exponentSign
    else if isDigit c then goOn .exponent
    else none
  | .exponentSign => if isDigit c then goOn .exponent else none
  | .exponent => if isDigit c then goOn .exponent else s.stepBetween .next c

/-- A byte inside a word. -/
def stepWord (s : State) (behind : Nat) (ahead : Bytes) (c : UInt8) : Option State :=
  match ahead with
  | [] => s.stepBetween .next c
  | d :: ahead =>
    if c = d then
      some (if ahead.isEmpty then s.expect .next else s.enter (.word (behind + 1) ahead))
    else none

/-- One byte: the state behind it, or nothing where no document goes on with it. -/
def step (s : State) (c : UInt8) : Option State :=
  match s.mode with
  | .between e => s.stepBetween e c
  | .string isKey => s.stepString isKey c
  | .escape isKey => s.stepEscape isKey c
  | .unit isKey left => s.stepUnit isKey left c
  | .number part => s.stepNumber part c
  | .word behind ahead => s.stepWord behind ahead c

/-- The document may end here. -/
def accepts (s : State) : Bool :=
  s.stack.isEmpty &&
    match s.mode with
    | .between .next => true
    | .number part => part == .zero || part == .whole || part == .fraction || part == .exponent
    | _ => false

/-- The bytes behind the machine that a refusal takes back: a wrong word is refused at its first
letter, and all else where it goes wrong. -/
def takenBack (s : State) : Nat :=
  match s.mode with
  | .word behind _ => behind
  | _ => 0

end State

/-! ## Verdict -/

/-- The outcome of a run. -/
structure Validation where
  valid : Bool
  /-- The length of a valid document, or the offset where another one goes wrong. -/
  offset : Nat
  deriving DecidableEq, Repr, Inhabited

/-- What a fault is answered with. -/
def errorMessage (detail : String) : String :=
  "JSON Query Error: " ++ detail

/-- Where a document goes wrong, in words. -/
def malformedAt (offset : Nat) : String :=
  "malformed input at byte " ++ toString offset

/-- What a document that is not valid is answered with. -/
def Validation.message? (verdict : Validation) : Option String :=
  if verdict.valid then none else some (errorMessage (malformedAt verdict.offset))

/-- Runs the machine from a state with `offset` bytes behind it. -/
def run (s : State) (offset : Nat) : Bytes → Validation
  | [] => if s.accepts then ⟨true, offset⟩ else ⟨false, offset - s.takenBack⟩
  | c :: rest =>
    match s.step c with
    | some after => run after (offset + 1) rest
    | none => ⟨false, offset - s.takenBack⟩

/-- Runs the machine over a document. -/
def validate (document : Bytes) : Validation :=
  run .start 0 document

end WellFormed

/-- The document is one JSON value between optional spaces. -/
def isWellFormed (document : Bytes) : Bool :=
  (WellFormed.validate document).valid

/-- The document is well-formed, and UTF-8 besides. -/
def isWellFormedUtf8 (document : Bytes) : Bool :=
  Utf8.isValid document && isWellFormed document

end JsonQuery
