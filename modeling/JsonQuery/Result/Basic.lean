import JsonQuery.Extent

/-!
# Results

What a query answers: a value as the text it has in its document, and where it stands there.

- `Value` is the payload.  The double of a number and the text of a string are functions of the
  source text, so they are not stored.
- `Result` adds the offset, when the value was found in the document and not built, and the offsets
  of all its elements when it was gathered from several places.
-/

namespace JsonQuery

open Ascii

/-! ## Values -/

/-- The value of a result. -/
inductive Value where
  /-- Nothing was found. -/
  | missing
  | null
  | boolean (b : Bool)
  /-- A number by its source text, which may be any text behind the lead of a number. -/
  | number (raw : Bytes)
  /-- A string by its source text, quotes included. -/
  | string (raw : Bytes)
  /-- An object or an array by its source text. -/
  | json (raw : Bytes)
  deriving DecidableEq, Repr, Inhabited

namespace Value

/-- The spelling of `true`. -/
def trueText : Bytes :=
  Bytes.ofString "true"

/-- The spelling of `false`. -/
def falseText : Bytes :=
  Bytes.ofString "false"

/-- The spelling of `null`. -/
def nullText : Bytes :=
  Bytes.ofString "null"

/-- Words are told apart by their first byte. -/
def ofWord (span : Bytes) : Value :=
  if span.head? = some lowerT then boolean true
  else if span.head? = some lowerF then boolean false
  else null

/-- The value that a span of a document holds. -/
def ofSpan (lead : Lead) (span : Bytes) : Value :=
  match lead with
  | .object | .array => json (Utf8.lossy span)
  | .string => string (Utf8.lossy span)
  | .number => number (Utf8.lossy span)
  | .word => ofWord span

/-- The source text of a value. -/
def raw : Value → Bytes
  | missing => []
  | null => nullText
  | boolean b => if b then trueText else falseText
  | number raw | string raw | json raw => raw

end Value

/-! ## Kinds -/

/-- The kinds of values in ascending order; a missing value counts as null. -/
inductive Kind where
  | null
  | no
  | yes
  | json
  | number
  | string
  deriving DecidableEq, Repr, Inhabited

namespace Kind

/-- The place of a kind in the order. -/
def rank : Kind → Nat
  | null => 0
  | no => 1
  | yes => 2
  | json => 3
  | number => 4
  | string => 5

/-- The name of a kind. -/
def name : Kind → String
  | null => "Null"
  | no => "False"
  | yes => "True"
  | json => "JSON"
  | number => "Number"
  | string => "String"

end Kind

/-- The kind of a value. -/
def Value.kind : Value → Kind
  | missing | null => .null
  | boolean b => if b then .yes else .no
  | number _ => .number
  | string _ => .string
  | json _ => .json

/-! ## Results -/

/-- The answer to a query. -/
structure Result where
  value : Value
  /-- The offset of the value in the document, when it stands there. -/
  index : Option Nat := none
  /-- The offsets of the elements of a gathered array. -/
  indexes : Option (List Nat) := none
  deriving DecidableEq, Repr, Inhabited

namespace Result

/-- Nothing was found. -/
def missing : Result :=
  ⟨.missing, none, none⟩

/-- A value that stands nowhere in the document. -/
def built (value : Value) : Result :=
  ⟨value, none, none⟩

/-- A value at an offset of the document. -/
def located (value : Value) (offset : Nat) : Result :=
  ⟨value, some offset, none⟩

/-- A count. -/
def count (n : Nat) : Result :=
  built (.number (Bytes.ofNat n))

/-- The source text of the value, empty when nothing was found. -/
def raw (r : Result) : Bytes :=
  r.value.raw

/-- The kind of the value. -/
def kind (r : Result) : Kind :=
  r.value.kind

/-- Whether something was found. -/
def found (r : Result) : Bool :=
  r.value != .missing

/-- An object or array whose text starts with the given bracket. -/
def opensWith (c : UInt8) (r : Result) : Bool :=
  match r.value with
  | .json raw => raw.head? == some c
  | _ => false

/-- Whether the value is an object. -/
def isObject (r : Result) : Bool :=
  r.opensWith openBrace

/-- Whether the value is an array. -/
def isArray (r : Result) : Bool :=
  r.opensWith openBracket

/-- Whether the value is `true` or `false`. -/
def isBoolean (r : Result) : Bool :=
  match r.value with
  | .boolean _ => true
  | _ => false

/-- A result without any place in the document. -/
def detached (r : Result) : Result :=
  ⟨r.value, none, none⟩

/-- A result found inside of a value that stands at `base`, or inside of a built value. -/
def rebase (base : Option Nat) (r : Result) : Result :=
  match base with
  | some base => ⟨r.value, r.index.map (· + base), r.indexes.map (·.map (· + base))⟩
  | none => r.detached

end Result

end JsonQuery
