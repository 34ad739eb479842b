import JsonQuery.Document.Outline

/-!
# Layered documents

Later layers override earlier ones: objects are merged key by key, and any other value takes the
place of what was there before.

- `Tree.merge` puts one layer on another;
- `Layer.readAll` reads layers from texts, and says which one is at fault and where.
-/

namespace JsonQuery

/-! ## Merging -/

namespace Tree

/-- Changes the member of a name, or adds one, keeping the order of names. -/
def alter (name : Bytes) (f : Option Tree → Tree) : List (Bytes × Tree) → List (Bytes × Tree)
  | [] => [(name, f none)]
  | (other, value) :: rest =>
    if name = other then (other, f (some value)) :: rest
    else if name < other then (name, f none) :: (other, value) :: rest
    else (other, value) :: alter name f rest

mutual

/-- Puts a layer on a base. -/
def merge : (layer base : Tree) → Tree
  | object members, .object base => .object (mergeMembers members base)
  | layer, _ => layer

/-- Puts the members of a layer on those of a base, one after the other. -/
def mergeMembers : (members base : List (Bytes × Tree)) → List (Bytes × Tree)
  | [], base => base
  | (name, value) :: members, base =>
    mergeMembers members (alter name (mergeOver value) base)

/-- Puts a value on what is there, if anything is. -/
def mergeOver : (layer : Tree) → Option Tree → Tree
  | layer, none => layer
  | layer, some base => merge layer base

end

/-- All layers put on each other in order, starting from the empty object. -/
def mergeAll (layers : List Tree) : Tree :=
  layers.foldl (fun base layer => merge layer base) (object [])

end Tree

/-! ## Layers -/

/-- A layer: its name, and its text if it is there. -/
structure Layer where
  name : String
  text? : Option Bytes
  deriving Repr, Inhabited

/-- Why layers can not be read. -/
inductive LayerError where
  /-- The layer is not there. -/
  | absent (name : String)
  /-- The layer is not well-formed from an offset on. -/
  | malformed (name : String) (offset : Nat)
  /-- The layer is well-formed, but no tree. -/
  | unreadable
  deriving DecidableEq, Repr

/-- What layers that can not be read are answered with, if there are words for it. -/
def LayerError.message? : LayerError → Option String
  | absent name =>
    some (WellFormed.errorMessage (name ++ ": No such file or directory (os error 2)"))
  | malformed name offset =>
    some (WellFormed.errorMessage (name ++ ": " ++ WellFormed.malformedAt offset))
  | unreadable => none

namespace Layer

/-- Reads a layer. -/
def read (layer : Layer) : Except LayerError Tree :=
  match layer.text? with
  | none => .error (.absent layer.name)
  | some text =>
    let verdict := WellFormed.validate text
    if verdict.valid then
      match Tree.ofText? text with
      | some tree => .ok tree
      | none => .error .unreadable
    else .error (.malformed layer.name verdict.offset)

/-- Reads all layers in order and merges them; the first fault counts. -/
def readAll (layers : List Layer) : Except LayerError Tree :=
  (layers.mapM read).map Tree.mergeAll

end Layer

end JsonQuery
