import JsonQuery.Document.Settings
import JsonQuery.Engine.Registry
import JsonQuery.Loop

/-!
# Built-in modifiers

- `pretty` and `ugly` lay a document out, `this` keeps it and `valid` keeps it if it is well-formed;
- `reverse`, `flatten`, `join`, `keys` and `values` rebuild an array or object from the texts of its
  children;
- `tostr` writes a text as a string, and `fromstr` reads one.
-/

namespace JsonQuery

open Ascii

namespace Modifier

/-! ## Arguments -/

/-- The truth of a member of an argument, the last one of its name. -/
def flag (argument : Bytes) (name : String) : Bool :=
  let named := (parse argument).children.filter fun child => child.key.text == Bytes.ofString name
  (named.getLast?.map fun child => child.value.truth).getD false

/-- A modifier that takes no argument and never fails. -/
def plain (f : Bytes → Bytes) : Modifier :=
  fun _ text _ => .ok (f text)

/-! ## Texts of containers -/

/-- An array of texts. -/
def arrayOf (items : List Bytes) : Bytes :=
  openBracket :: Bytes.commaJoin items ++ [closeBracket]

/-- An object of members, each with its key. -/
def objectOf (members : List Bytes) : Bytes :=
  openBrace :: Bytes.commaJoin members ++ [closeBrace]

/-- A member of an object. -/
def member (key value : Bytes) : Bytes :=
  key ++ colon :: value

/-! ## Layout -/

/-- The document laid out on lines, with options as argument. -/
def pretty : Modifier := fun _ text argument =>
  let options := if argument.isEmpty then .ok {} else Layout.schema.readText argument
  match options with
  | .error .malformed => .error .malformedArgument
  | .error .mistyped => .error .mistypedArgument
  | .ok layout => if layout.fault?.isSome then .error .refusedArgument else .ok (layout.pretty text)

/-- The document, if it is well-formed. -/
def valid (text : Bytes) : Bytes :=
  if isWellFormed text then text else []

/-! ## Children -/

/-- The children in reverse order; a scalar is kept. -/
def reverse (text : Bytes) : Bytes :=
  let value := parse text
  if value.isArray then arrayOf (value.values.map Result.raw).reverse
  else if value.isObject then
    objectOf (value.children.map fun child => member child.key.raw child.value.raw).reverse
  else text

/-- A text without blank characters at its ends. -/
def trimmed (text : Bytes) : Bytes :=
  Utf8.encode (Blank.trim (Utf8.chars text))

/-- The arrays inside one another that deep flattening opens. -/
def maxFlatLevels : Nat :=
  1024

/-- Flattening under way. -/
structure Flattening where
  /-- The elements that are left of each array that is open, the innermost array first. -/
  stack : List (List Result)
  /-- The texts so far, the last one first. -/
  texts : List Bytes
  deriving Repr, Inhabited

namespace Flattening

/-- An element is opened inside of the outer arrays: not more than one level of arrays is, or, on
demand, all that are not too deep. -/
def opens (deep : Bool) (item : Result) (outer : List (List Result)) : Bool :=
  item.isArray && (deep || outer.isEmpty) && outer.length < maxFlatLevels

/-- One turn of flattening: the next element of the innermost array is opened or written. -/
def turn (deep : Bool) : Flattening → Turn Flattening (List Bytes)
  | ⟨[], texts⟩ => .over texts.reverse
  | ⟨[] :: outer, texts⟩ => .again ⟨outer, texts⟩
  | ⟨(item :: items) :: outer, texts⟩ =>
    if opens deep item outer then .again ⟨item.elements :: items :: outer, texts⟩
    else .again ⟨items :: outer, trimmed item.raw :: texts⟩

/-- The most turns that are left. -/
def cost (flattening : Flattening) : Nat :=
  Loop.stackCost Result.elements maxFlatLevels flattening.stack

theorem cost_lt {deep : Bool} {flattening next : Flattening}
    (h : flattening.turn deep = .again next) : next.cost < flattening.cost := by
  unfold turn at h
  split at h
  · cases h
  · cases h
    exact Loop.stackCost_close
  · split at h
    · rename_i hopens
      cases h
      rw [opens, Bool.and_eq_true, decide_eq_true_eq] at hopens
      exact Loop.stackCost_open hopens.2
    · cases h
      exact Loop.stackCost_take

end Flattening

/-- Flattening ends where all elements are opened or written. -/
def flattening (deep : Bool) : Loop Flattening (List Bytes) Nat where
  turn := Flattening.turn deep
  left := Flattening.cost
  left_lt := Flattening.cost_lt

/-- The elements of an array with those of inner arrays in their places, one level of them or, on
demand, all. -/
def flatten : Modifier := fun _ text argument =>
  let value := parse text
  if value.isArray then
    .ok (arrayOf ((flattening (flag argument "deep")).run ⟨[value.elements], []⟩))
  else .ok text

/-- The values of one name. -/
structure Slot where
  name : Bytes
  /-- The key as it is spelled first. -/
  key : Bytes
  /-- The texts of the values, the last one first. -/
  values : List Bytes
  deriving DecidableEq, Repr, Inhabited

/-- Adds a member to the slot of its name, or as the last one a new slot; the value goes in place of
others unless they are preserved. -/
def addMember (preserve : Bool) (name key value : Bytes) : List Slot → List Slot
  | [] => [⟨name, key, [value]⟩]
  | slot :: slots =>
    -- Keys are the same if their texts are, however they are spelled
    if slot.name = name then
      { slot with values := if preserve then value :: slot.values else [value] } :: slots
    else slot :: addMember preserve name key value slots

/-- A slot as a member: its value, or the array of its values if there are several. -/
def Slot.text (slot : Slot) : Bytes :=
  match slot.values with
  | [value] => member slot.key value
  | values => member slot.key (arrayOf values.reverse)

/-- The objects of an array as one object. -/
def join : Modifier := fun _ text argument =>
  let value := parse text
  if value.isArray then
    let preserve := flag argument "preserve"
    let members := (value.values.filter Result.isObject).flatMap Result.children
    let slots := members.foldl (fun slots child =>
      addMember preserve child.key.text child.key.raw child.value.raw slots) []
    .ok (objectOf (slots.map Slot.text))
  else .ok text

/-- The keys of an object, or the positions of an array. -/
def keys (text : Bytes) : Bytes :=
  arrayOf ((parse text).children.map fun child =>
    if child.key.found then child.key.raw else Value.nullText)

/-- The values of an object; an array is kept. -/
def values (text : Bytes) : Bytes :=
  let value := parse text
  if value.isArray then text else arrayOf (value.values.map Result.raw)

/-! ## Strings -/

/-- The text of a string; nothing when the document is not well-formed. -/
def fromString (text : Bytes) : Bytes :=
  if isWellFormed text then (parse text).text else []

end Modifier

/-! ## Registry -/

/-- The built-in modifiers by their names. -/
def Registry.builtins : Registry :=
  ([("pretty", Modifier.pretty), ("ugly", .plain compact), ("reverse", .plain Modifier.reverse),
    ("this", .plain id), ("valid", .plain Modifier.valid), ("flatten", Modifier.flatten),
    ("join", Modifier.join), ("keys", .plain Modifier.keys), ("values", .plain Modifier.values),
    ("tostr", .plain Quoted.encode), ("fromstr", .plain Modifier.fromString)] :
      List (String × Modifier)).foldl
    (fun registry (name, modifier) => registry.register (Bytes.ofString name) modifier) .empty

end JsonQuery
