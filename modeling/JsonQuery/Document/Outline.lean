import JsonQuery.Document.Token
import JsonQuery.Document.Tree
import JsonQuery.Number.Scaled

/-!
# Reading documents strictly

A document is read from its tokens up to the first fault, and what was read before it is kept: the
containers that are open there hold the values read so far.  So a later reading of the outline meets
the same things in the same order as the document has them, and the fault last.

- `Outline.Document.ofText` is the outline of a text;
- `Outline.Document.tree?` is the tree of a document without fault.
-/

namespace JsonQuery

open Ascii

/-- A value as it was read.  A string or key without text holds half a surrogate pair; a member
without value is the last one before a fault. -/
inductive Outline where
  | null
  | boolean (b : Bool)
  | number (raw : Bytes)
  | string (text : Option Bytes)
  | array (items : List Outline)
  | object (members : List (Option Bytes × Option Outline))
  deriving Inhabited

namespace Outline

/-- What was read of a document. -/
structure Document where
  value? : Option Outline
  /-- The document holds one value and nothing else. -/
  complete : Bool
  deriving Inhabited

/-! ## Open containers -/

/-- A container that is being read, the last item first. -/
inductive Open where
  | array (items : List Outline)
  /-- The first member has no value as long as that is awaited. -/
  | object (members : List (Option Bytes × Option Outline))
  deriving Inhabited

namespace Open

/-- The container with a value: the next element, or the value of the last key. -/
def add (value : Outline) : Open → Open
  | array items => array (value :: items)
  | object ((key, _) :: members) => object ((key, some value) :: members)
  | object [] => object []

/-- The container with a key that awaits its value. -/
def addKey (key : Option Bytes) : Open → Open
  | array items => array items
  | object members => object ((key, none) :: members)

/-- The container as a value. -/
def finish : Open → Outline
  | array items => .array items.reverse
  | object members => .object members.reverse

/-- Whether the container is an object. -/
def isObject : Open → Bool
  | array _ => false
  | object _ => true

end Open

/-- The value of all open containers, the innermost first, with a value inside of them. -/
def collapse (inner : Option Outline) : List Open → Option Outline
  | [] => inner
  | top :: outer =>
    collapse (some (match inner with
      | some value => (top.add value).finish
      | none => top.finish)) outer

/-! ## Reading -/

/-- What has to come next. -/
inductive Await where
  | value
  /-- A value, or the bracket of an empty array. -/
  | firstValue
  | key
  /-- A key, or the brace of an empty object. -/
  | firstKey
  | colon
  /-- A comma, or the end of the container. -/
  | next
  deriving DecidableEq, Repr, Inhabited

/-- The value of a token that is one. -/
def ofToken? : Token → Option Outline
  | .string text => some (string text)
  | .number raw => some (number raw)
  | .null => some null
  | .boolean b => some (boolean b)
  | .mark _ | .bad => none

/-- What one token leads to. -/
inductive Move where
  /-- Reading goes on. -/
  | go (stack : List Open) (await : Await)
  /-- A value is complete. -/
  | value (value : Outline) (outer : List Open)
  | fault

/-- A token where a value may start. -/
def startValue (stack : List Open) (token : Token) : Move :=
  if token = .mark openBrace then .go (.object [] :: stack) .firstKey
  else if token = .mark openBracket then .go (.array [] :: stack) .firstValue
  else
    match ofToken? token with
    | some value => .value value stack
    | none => .fault

/-- A token where a key may start. -/
def startKey (stack : List Open) (token : Token) : Move :=
  match token, stack with
  | .string key, top :: outer => .go (top.addKey key :: outer) .colon
  | _, _ => .fault

/-- The bracket that closes a container. -/
def closerOf (top : Open) : Token :=
  .mark (if top.isObject then closeBrace else closeBracket)

/-- The end of the innermost container. -/
def close (stack : List Open) : Move :=
  match stack with
  | [] => .fault
  | top :: outer => .value top.finish outer

/-- A token behind a value in a container. -/
def afterValue (stack : List Open) (token : Token) : Move :=
  match stack with
  | [] => .fault
  | top :: _ =>
    if token = closerOf top then close stack
    else if token = .mark comma then .go stack (if top.isObject then .key else .value)
    else .fault

/-- One token. -/
def move (stack : List Open) (await : Await) (token : Token) : Move :=
  match await with
  | .value => startValue stack token
  | .firstValue => if token = .mark closeBracket then close stack else startValue stack token
  | .key => startKey stack token
  | .firstKey => if token = .mark closeBrace then close stack else startKey stack token
  | .colon => if token = .mark colon then .go stack .value else .fault
  | .next => afterValue stack token

/-- Reads tokens inside of open containers. -/
def readFrom (stack : List Open) (await : Await) : List Token → Document
  | [] => ⟨collapse none stack, false⟩
  | token :: tokens =>
    match move stack await token with
    | .go stack await => readFrom stack await tokens
    -- The value of the document: nothing may follow
    | .value value [] => ⟨some value, tokens.isEmpty⟩
    | .value value (top :: outer) => readFrom (top.add value :: outer) .next tokens
    | .fault => ⟨collapse none stack, false⟩

/-- The outline of a text. -/
def Document.ofText (text : Bytes) : Document :=
  readFrom [] .value (Token.ofText text)

/-! ## Trees -/

/-- The containers inside one another that a document may have to be read as a tree. -/
def maxDepth : Nat :=
  127

/-- A member with its value read in a given way. -/
def memberTree? (read : Outline → Option Tree) (member : Option Bytes × Option Outline) :
    Option (Bytes × Tree) := do
  let name ← member.1
  let value ← member.2.bind read
  return (name, value)

/-- The tree of a number: an integer if 64 bits hold it, else a float, if that is in range.  Zero
with a minus is no integer, since the minus would be lost. -/
def numberTree? (raw : Bytes) : Option Tree :=
  let integer? := if raw = [minus, zero] then none else Tree.integer? raw
  match integer? with
  | some n => some (.integer n)
  | none => (Number.scaled? raw).map .float

/-- The tree of a value with a number of levels left; nothing when it is nested deeper, or holds a
number out of range or half a surrogate pair.  The last member of a name counts. -/
def tree? : (levels : Nat) → Outline → Option Tree
  | levels, value =>
    match value with
    | null => some .null
    | boolean b => some (.boolean b)
    | number raw => numberTree? raw
    | string text => text.map .string
    | array items =>
      match levels with
      | 0 => none
      | levels + 1 => (items.mapM (tree? levels)).map .array
    | object members =>
      match levels with
      | 0 => none
      | levels + 1 =>
        (members.mapM (memberTree? (tree? levels))).map fun members => .ofMembers members.reverse

/-- The tree of a document. -/
def Document.tree? (document : Document) : Option Tree :=
  if document.complete then document.value?.bind (Outline.tree? maxDepth) else none

end Outline

/-- The tree of a text that is a document in the strict sense. -/
def Tree.ofText? (text : Bytes) : Option Tree :=
  (Outline.Document.ofText text).tree?

end JsonQuery
