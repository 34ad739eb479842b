import JsonQuery.Path.Escape
import JsonQuery.Text.Quoted
import JsonQuery.WellFormed

/-!
# Sub-selectors

A sub-selector in braces or brackets lists paths, each with an optional name, that build a new
object or array from what they find.

- `Selector.parse?` reads the parts of a sub-selector;
- `Selector.label` is the key of a part in the new object.
-/

namespace JsonQuery

open Ascii

/-- A part of a sub-selector. -/
structure Selector where
  /-- The name in front of a colon. -/
  name : Option Bytes
  path : Bytes
  deriving DecidableEq, Repr, Inhabited

namespace Selector

/-! ## Reading -/

/-- The part that is being read. -/
structure Draft where
  /-- The name, once its colon was read. -/
  name : Option Bytes := none
  /-- The bytes read since the start or since the colon, last byte first. -/
  text : Bytes := []
  /-- A modifier was read, behind which colons belong to arguments. -/
  modifier : Bool := false
  deriving Inhabited

namespace Draft

/-- The draft with one more byte. -/
def push (draft : Draft) (c : UInt8) : Draft :=
  { draft with text := c :: draft.text }

/-- The draft behind the colon of its name. -/
def takeName (draft : Draft) : Draft :=
  { draft with name := some draft.text.reverse, text := [] }

/-- A modifier may start here: at the start of the part, or behind a dot or a bar. -/
def atComponent (draft : Draft) : Bool :=
  match draft.text with
  | [] => draft.name.isNone
  | c :: _ => c == dot || c == bar

/-- The finished part. -/
def finish (draft : Draft) : Selector :=
  ⟨draft.name, draft.text.reverse⟩

end Draft

/-- Reads on inside of the brackets; `depth` counts inner brackets that are open, and `found` lists
the finished parts, last one first.  The answer holds the path behind the closing bracket. -/
def parseFrom (inString : Bool) (depth : Nat) (draft : Draft) (found : List Selector) :
    Bytes → Option (List Selector × Bytes)
  | [] => none
  | c :: rest =>
    if c = backslash then
      -- An escaped byte belongs to the part, inside of strings and outside
      match rest with
      | [] => none
      | d :: rest => parseFrom inString depth ((draft.push c).push d) found rest
    else
      match inString with
      | true => parseFrom (c != quote) depth (draft.push c) found rest
      | false =>
        if c = atSign && draft.atComponent then
          parseFrom false depth { draft.push c with modifier := true } found rest
        -- The first colon of a part ends its name
        else if c = colon && !draft.modifier && draft.name.isNone && depth = 0 then
          parseFrom false depth draft.takeName found rest
        else if c = comma && depth = 0 then parseFrom false depth {} (draft.finish :: found) rest
        else if isOpener c then parseFrom false (depth + 1) (draft.push c) found rest
        else if isCloser c then
          match depth with
          | 0 => some ((draft.finish :: found).reverse, rest)
          | depth + 1 => parseFrom false depth (draft.push c) found rest
        else parseFrom (c == quote) depth (draft.push c) found rest

/-- The parts of the sub-selector at the front of a path and the path behind it; nothing when it
never closes. -/
def parse? (path : Bytes) : Option (List Selector × Bytes) :=
  parseFrom false 0 {} [] (path.drop 1)

/-! ## Labels -/

/-- The bytes of reversed text before its first separator without a backslash before it. -/
def lastFrom (found : Bytes) : Bytes → Bytes
  | [] => found
  | c :: before =>
    if (c = dot || c = bar) && before.head? != some backslash then found
    else lastFrom (c :: found) before

/-- The last component of a path. -/
def lastComponent (path : Bytes) : Bytes :=
  lastFrom [] path.reverse

/-- Bytes that a component used as a label must not hold. -/
def unfitForLabel (c : UInt8) : Bool :=
  c < space || isOpener c || isCloser c || c == hash || c == bar || c == bang

/-- The label of a part whose last component names no key. -/
def blankLabel : Bytes :=
  [underscore]

/-- The key of a part in the new object, with its quotes: the name, if need be in quotes, or else
the last component of the path. -/
def label (selector : Selector) : Bytes :=
  match selector.name with
  | some name =>
    if name.head? = some quote && isWellFormed name then name else Quoted.encode name
  | none =>
    let last := lastComponent selector.path
    Quoted.encode (if last.any unfitForLabel then blankLabel else Path.unescape last)

end Selector

end JsonQuery
