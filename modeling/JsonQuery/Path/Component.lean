import JsonQuery.Path.Escape
import JsonQuery.Path.Filter

/-!
# Components of a path

A path is read one component at a time, and what a component means depends on the container that it
meets: `1` is a position in an array and a key in an object.

- `KeyComponent.parse` reads a component that selects members of an object;
- `ElementComponent.parse?` reads one that selects elements of an array.
-/

namespace JsonQuery

open Ascii

/-! ## What follows a component -/

/-- What follows a component in its path. -/
inductive Tail where
  /-- The path ends. -/
  | done
  /-- The path goes on inside of the values that the component selects. -/
  | deeper (path : Bytes)
  /-- A path of its own is applied to the value that is found. -/
  | pipe (path : Bytes)
  deriving DecidableEq, Repr, Inhabited

/-- What decides whether a path behind a dot is applied as a whole. -/
structure Dialect where
  /-- Modifiers have a meaning, and so have sub-selectors behind a dot. -/
  modifiers : Bool
  /-- The names of modifiers. -/
  isModifier : Bytes → Bool

/-- Bytes that end the name of a modifier. -/
def endsModifierName (c : UInt8) : Bool :=
  c == dot || c == bar || c == colon

/-- The path behind a dot is applied as a whole: it starts with a sub-selector or a modifier. -/
def Dialect.pipesInto (dialect : Dialect) (path : Bytes) : Bool :=
  dialect.modifiers &&
    match path with
    | [] => false
    | c :: rest =>
      if c = atSign then dialect.isModifier (rest.takeWhile (!endsModifierName ·))
      else opensContainer c

/-- What follows a component that ends with a dot. -/
def Dialect.afterDot (dialect : Dialect) (path : Bytes) : Tail :=
  if dialect.pipesInto path then .pipe path else .deeper path

/-! ## Components that meet an object -/

/-- A component that selects members by their keys. -/
structure KeyComponent where
  /-- The component as it is written. -/
  pattern : Bytes
  /-- It holds a wildcard. -/
  wild : Bool
  /-- What follows it. -/
  tail : Tail
  deriving DecidableEq, Repr, Inhabited

namespace KeyComponent

/-- Reads on; `before` holds the component so far, last byte first. -/
def parseFrom (dialect : Dialect) (before : Bytes) (wild : Bool) : Bytes → KeyComponent
  | [] => ⟨before.reverse, wild, .done⟩
  | c :: rest =>
    if c = backslash then
      match rest with
      | [] => ⟨(c :: before).reverse, wild, .done⟩
      | d :: rest => parseFrom dialect (d :: c :: before) wild rest
    -- An unescaped bar or dot ends the component
    else if c = bar then ⟨before.reverse, wild, .pipe rest⟩
    else if c = dot then ⟨before.reverse, wild, dialect.afterDot rest⟩
    else parseFrom dialect (c :: before) (wild || c == star || c == question) rest

/-- The component at the front of a path. -/
def parse (dialect : Dialect) (path : Bytes) : KeyComponent :=
  parseFrom dialect [] false path

/-- The key that the component names when it holds no wildcard. -/
def key (component : KeyComponent) : Bytes :=
  Path.unescape component.pattern

/-- The component selects a key, given as it stands between its quotes. -/
def selects (component : KeyComponent) (body : Bytes) (escaped : Bool) : Bool :=
  if component.wild then
    Glob.isMatch (if escaped then Quoted.decode body else body) component.pattern
  else if escaped then Quoted.decode body == component.key
  else body == component.key

end KeyComponent

/-! ## Components that meet an array -/

/-- What a component selects from an array. -/
inductive Selection where
  /-- The element at a position; no element when the component names none. -/
  | position (n : Option Nat)
  /-- The number of elements. -/
  | count
  /-- What a path finds in each of the elements. -/
  | each (path : Bytes)
  /-- The elements that pass a filter. -/
  | filter (f : Filter)
  deriving DecidableEq, Repr, Inhabited

/-- A component that selects elements. -/
structure ElementComponent where
  selection : Selection
  /-- What follows it. -/
  tail : Tail
  deriving DecidableEq, Repr, Inhabited

namespace ElementComponent

/-- A component as it is written. -/
structure Part where
  text : Bytes
  /-- It holds a hash sign. -/
  counting : Bool
  tail : Tail
  deriving DecidableEq, Repr, Inhabited

/-- Reads on; `before` holds the component so far, last byte first.  Behind a hash sign a dot never
starts a path that is applied as a whole. -/
def partFrom (dialect : Dialect) (before : Bytes) (counting : Bool) : Bytes → Part
  | [] => ⟨before.reverse, counting, .done⟩
  | c :: rest =>
    if c = bar then ⟨before.reverse, counting, .pipe rest⟩
    else if c = dot then
      ⟨before.reverse, counting, if counting then .deeper rest else dialect.afterDot rest⟩
    else partFrom dialect (c :: before) (counting || c == hash) rest

/-- What a component without a filter selects. -/
def Part.selection (part : Part) : Selection :=
  if part.counting then
    if part.text = [hash] then
      match part.tail with
      | .deeper path => .each path
      | _ => .count
    -- A hash sign among other bytes names no position
    else .position none
  else .position (Number.position? part.text)

/-- The component at the front of a path; nothing when it is a filter that never closes. -/
def parse? (dialect : Dialect) (path : Bytes) : Option ElementComponent :=
  if Filter.starts path then
    (Filter.parse? path).map fun (filter, length) =>
      -- Up to the next separator only a hash sign right behind the bracket has a meaning, and that
      -- the filter holds
      ⟨.filter filter, (partFrom dialect [] true (path.drop length)).tail⟩
  else
    let part := partFrom dialect [] false path
    some ⟨part.selection, part.tail⟩

end ElementComponent

end JsonQuery
