import JsonQuery.Bytes

/-!
# Escapes in path components

A backslash in a path takes the meaning away from the byte behind it.
-/

namespace JsonQuery.Path

open Ascii

/-- Bytes that mean nothing but themselves in a component. -/
def isSafe (c : UInt8) : Bool :=
  isAlphanumeric c || c == underscore || c == minus || c == colon || c ≤ space || tilde < c

/-- A component that names a key: a backslash before every byte with a meaning. -/
def escape (key : Bytes) : Bytes :=
  key.flatMap fun c => if isSafe c then [c] else [backslash, c]

theorem escape_cons (c : UInt8) (key : Bytes) :
    escape (c :: key) = (if isSafe c then [c] else [backslash, c]) ++ escape key :=
  List.flatMap_cons

/-- A component without its backslashes; a byte behind a backslash is kept whatever it is. -/
def unescape : Bytes → Bytes
  | [] => []
  | c :: rest =>
    if c = backslash then
      match rest with
      | [] => []
      | kept :: rest => kept :: unescape rest
    else c :: unescape rest

/-- The separator of two components. -/
def separator : Bytes :=
  [dot]

/-- A path from its components, each written as it is. -/
def ofComponents (components : List Bytes) : Bytes :=
  Bytes.join separator components

theorem ofComponents_nil : ofComponents [] = [] :=
  Bytes.join_nil _

theorem ofComponents_singleton (c : Bytes) : ofComponents [c] = c :=
  Bytes.join_singleton _ _

theorem ofComponents_cons_cons (c next : Bytes) (components : List Bytes) :
    ofComponents (c :: next :: components) = c ++ dot :: ofComponents (next :: components) :=
  Bytes.join_cons_cons _ _ _ _

end JsonQuery.Path
