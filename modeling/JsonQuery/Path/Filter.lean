import JsonQuery.Path.Glob
import JsonQuery.Result.Order

/-!
# Filters

A filter such as `#(age>40)` or `#[name%"A*"]#` selects elements of an array: a path inside of the
element, an operator and an operand.

- `Filter.parse?` reads a filter at the front of a path;
- `Filter.accepts` says whether a value found by its path passes.
-/

namespace JsonQuery

open Ascii

/-- How a value is compared with the operand of a filter. -/
inductive Comparison where
  /-- Being there is enough. -/
  | present
  | equal
  | notEqual
  | less
  | lessEqual
  | greater
  | greaterEqual
  /-- The operand matches as a glob pattern. -/
  | like
  /-- The operand does not match as a glob pattern. -/
  | notLike
  /-- Operator bytes without a meaning, which nothing passes. -/
  | unknown
  deriving DecidableEq, Repr, Inhabited

/-- A filter. -/
structure Filter where
  /-- Where to look inside of an element. -/
  path : Bytes
  comparison : Comparison
  /-- The operand, without the quotes around it. -/
  operand : Bytes
  /-- All elements that pass are collected, not only the first. -/
  collects : Bool
  deriving DecidableEq, Repr, Inhabited

namespace Filter

/-! ## Reading -/

/-- The inside of a filter's brackets. -/
structure Inside where
  /-- The number of bytes up to the closing bracket. -/
  length : Nat
  /-- The offset of the first operator byte outside of inner brackets and strings. -/
  operator? : Option Nat
  /-- Some string holds a backslash. -/
  escaped : Bool
  deriving DecidableEq, Repr, Inhabited

/-- Bytes that an operator starts with. -/
def startsOperator (c : UInt8) : Bool :=
  c == bang || c == equal || c == less || c == greater || c == percent

/-- Adds what was read before to an inside. -/
def insideFrom (inString : Bool) (depth : Nat) (inside : Inside) : Bytes → Option Inside
  | [] => none
  | c :: rest =>
    let next := { inside with length := inside.length + 1 }
    match inString with
    | true =>
      if c = backslash then
        match rest with
        | [] => none
        | _ :: rest =>
          insideFrom true depth { next with length := next.length + 1, escaped := true } rest
      else insideFrom (c != quote) depth next rest
    | false =>
      -- The operator is the first of its bytes that belongs to this filter and no inner one
      if depth = 0 && inside.operator?.isNone && startsOperator c then
        insideFrom false depth { next with operator? := some inside.length } rest
      else if c = backslash then
        match rest with
        | [] => none
        | _ :: rest => insideFrom false depth { next with length := next.length + 1 } rest
      else if c = openBracket || c = openParen then insideFrom false (depth + 1) next rest
      else if c = closeBracket || c = closeParen then
        match depth with
        | 0 => some inside
        | depth + 1 => insideFrom false depth next rest
      else insideFrom (c == quote) depth next rest

/-- The inside of the brackets whose opener stands before the text. -/
def inside? (text : Bytes) : Option Inside :=
  insideFrom false 0 ⟨0, none, false⟩ text

/-- Takes space off both ends. -/
def trim (text : Bytes) : Bytes :=
  ((text.dropWhile isSpace).reverse.dropWhile isSpace).reverse

/-- The operator at the front of a text, and the operand behind it. -/
def splitOperator : Bytes → Comparison × Bytes
  | [] => (.present, [])
  | c :: rest =>
    let doubled := rest.head? = some equal
    if c = bang then
      if doubled then (.notEqual, rest.drop 1)
      else if rest.head? = some percent then (.notLike, rest.drop 1)
      else if rest.isEmpty then (.unknown, [])
      -- A bang that starts no operator leaves the path alone to decide
      else (.present, c :: rest)
    else if c = less then if doubled then (.lessEqual, rest.drop 1) else (.less, rest)
    else if c = greater then if doubled then (.greaterEqual, rest.drop 1) else (.greater, rest)
    else if c = equal then if doubled then (.equal, rest.drop 1) else (.equal, rest)
    else if c = percent then (.like, rest)
    else (.present, c :: rest)

/-- An operand without the quotes around it, if there are any. -/
def unquote (escaped : Bool) (operand : Bytes) : Bytes :=
  if 2 ≤ operand.length && operand.head? = some quote && operand.getLast? = some quote then
    let body := (operand.drop 1).dropLast
    if escaped then Quoted.decode body else body
  else operand

/-- The filter with the given inside, read from the text behind its opening bracket. -/
def ofInside (inside : Inside) (text : Bytes) : Filter :=
  let collects := (text.drop (inside.length + 1)).head? = some hash
  let body := text.take inside.length
  match inside.operator? with
  | none => ⟨trim body, .present, [], collects⟩
  | some offset =>
    let (comparison, operand) := splitOperator (trim (body.drop offset))
    ⟨trim (body.take offset), comparison, unquote inside.escaped (trim operand), collects⟩

/-- Whether a path starts with a filter. -/
def starts : Bytes → Bool
  | a :: b :: _ => a == hash && (b == openParen || b == openBracket)
  | _ => false

/-- The filter at the front of a path, and the number of bytes up to and including its closing
bracket; nothing when the brackets never close. -/
def parse? (path : Bytes) : Option (Filter × Nat) :=
  if starts path then
    let text := path.drop 2
    (inside? text).map fun inside => (ofInside inside text, inside.length + 3)
  else none

/-! ## Evaluation -/

/-- Compares texts byte by byte. -/
def acceptsText (comparison : Comparison) (actual expected : Bytes) : Bool :=
  match comparison with
  | .equal => actual == expected
  | .notEqual => actual != expected
  | .less => Bytes.less actual expected
  | .lessEqual => !Bytes.less expected actual
  | .greater => Bytes.less expected actual
  | .greaterEqual => !Bytes.less actual expected
  | .like => Glob.isMatch actual expected
  | .notLike => !Glob.isMatch actual expected
  | .present | .unknown => false

/-- Compares doubles. -/
def acceptsNumber (comparison : Comparison) (actual expected : Double) : Bool :=
  match comparison with
  | .equal => actual.equal expected
  | .notEqual => !actual.equal expected
  | .less => actual.less expected
  | .lessEqual => actual.less expected || actual.equal expected
  | .greater => expected.less actual
  | .greaterEqual => expected.less actual || actual.equal expected
  | _ => false

/-- Compares truth values, `false` being the smaller one. -/
def acceptsBoolean (comparison : Comparison) (actual : Bool) (expected : Bytes) : Bool :=
  let same := if actual then Value.trueText else Value.falseText
  let other := if actual then Value.falseText else Value.trueText
  match comparison with
  | .equal => expected == same
  | .notEqual => expected != same
  | .less => !actual && expected == other
  | .lessEqual => !actual
  | .greater => actual && expected == other
  | .greaterEqual => actual
  | _ => false

/-- Compares a value with an operand. -/
def acceptsValue (comparison : Comparison) (expected : Bytes) (value : Value) : Bool :=
  if comparison = .present then value != .missing
  else
    match value with
    | .string raw => acceptsText comparison (Value.stringText raw) expected
    | .number raw => acceptsNumber comparison (Number.double raw) (Number.double expected)
    | .boolean b => acceptsBoolean comparison b expected
    | _ => false

/-- A candidate passes the filter.  With a tilde before the operand the truth of the candidate is
compared, and then a missing one counts as false. -/
def accepts (filter : Filter) (candidate : Result) : Bool :=
  match filter.operand with
  | c :: rest =>
    if c = tilde then acceptsValue filter.comparison rest (.boolean candidate.truth)
    else acceptsValue filter.comparison filter.operand candidate.value
  | [] => acceptsValue filter.comparison [] candidate.value

end Filter

end JsonQuery
