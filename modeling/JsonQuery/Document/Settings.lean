import JsonQuery.Document.Outline
import JsonQuery.Document.Printer
import JsonQuery.Engine.Config
import JsonQuery.Modifier.Layout

/-!
# Settings in documents

Records such as the configuration of an engine are read from documents: from an object by the names
of the fields, or from an array by their order.  Fields that are not given keep their defaults, and
names of no field are passed over.  Reading ends at the first fault that the document has, be it one
of form or one of type.
-/

namespace JsonQuery

open Ascii

/-- Why settings can not be read. -/
inductive SettingsError where
  /-- The text is not a document. -/
  | malformed
  /-- A value has the wrong type, or a field is given twice. -/
  | mistyped
  deriving DecidableEq, Repr

/-- A field of a record: its name, and how a value of the right type is put into it. -/
structure Field (α : Type) where
  name : Bytes
  set : Tree → α → Option α

/-- How a record is read. -/
structure Schema (α : Type) where
  defaults : α
  fields : List (Field α)

namespace Schema

/-! ## Values of fields -/

/-- The value for a field; no field takes a container. -/
def scalar (value : Outline) : Except SettingsError Tree :=
  match value with
  | .array _ | .object _ => .error .mistyped
  | value =>
    match Outline.tree? 0 value with
    | some tree => .ok tree
    | none => .error .malformed

/-- Puts a value into a field. -/
def setTree {α : Type} (field : Field α) (tree : Tree) (record : α) : Except SettingsError α :=
  match field.set tree record with
  | some record => .ok record
  | none => .error .mistyped

/-- Puts a value of a document into a field; where it is missing the document has a fault. -/
def setOutline {α : Type} (field : Field α) (value? : Option Outline) (record : α) :
    Except SettingsError α :=
  match value? with
  | none => .error .malformed
  | some value => (scalar value).bind fun tree => setTree field tree record

/-! ## Records in texts -/

/-- Reads members; `seen` lists the names of the fields read before. -/
def readMembers {α : Type} (fields : List (Field α)) (seen : List Bytes) (record : α) :
    List (Option Bytes × Option Outline) → Except SettingsError α
  | [] => .ok record
  | (none, _) :: _ => .error .malformed
  | (some name, value?) :: members =>
    match fields.find? fun field => field.name == name with
    | none => readMembers fields seen record members
    | some field =>
      -- The name alone counts, before its value is looked at
      if seen.contains name then .error .mistyped
      else
        match setOutline field value? record with
        | .ok record => readMembers fields (name :: seen) record members
        | .error fault => .error fault

/-- Reads elements into fields in order.  More elements than fields are a fault of form. -/
def readElements {α : Type} (record : α) :
    List (Field α) → List Outline → Except SettingsError α
  | _, [] => .ok record
  | [], _ :: _ => .error .malformed
  | field :: fields, value :: values =>
    match setOutline field (some value) record with
    | .ok record => readElements record fields values
    | .error fault => .error fault

/-- Reads a record from what was read of a document. -/
def readDocument {α : Type} (schema : Schema α) (document : Outline.Document) :
    Except SettingsError α :=
  let read : Except SettingsError α :=
    match document.value? with
    | none => .error .malformed
    | some (.object members) => readMembers schema.fields [] schema.defaults members
    | some (.array items) => readElements schema.defaults schema.fields items
    | some value => (scalar value).bind fun _ => .error .mistyped
  read.bind fun record => if document.complete then .ok record else .error .malformed

/-- Reads a record from a text. -/
def readText {α : Type} (schema : Schema α) (text : Bytes) : Except SettingsError α :=
  schema.readDocument (.ofText text)

/-! ## Records in trees -/

/-- Puts members of a tree into fields. -/
def readTreeMembers {α : Type} (fields : List (Field α)) (record : α) :
    List (Bytes × Tree) → Except SettingsError α
  | [] => .ok record
  | (name, value) :: members =>
    match fields.find? fun field => field.name == name with
    | none => readTreeMembers fields record members
    | some field =>
      match setTree field value record with
      | .ok record => readTreeMembers fields record members
      | .error fault => .error fault

/-- Puts elements of a tree into fields in order.  More elements than fields do not fit. -/
def readTreeElements {α : Type} (record : α) :
    List (Field α) → List Tree → Except SettingsError α
  | _, [] => .ok record
  | [], _ :: _ => .error .mistyped
  | field :: fields, value :: values =>
    match setTree field value record with
    | .ok record => readTreeElements record fields values
    | .error fault => .error fault

/-- Reads a record from a tree. -/
def readTree {α : Type} (schema : Schema α) (tree : Tree) : Except SettingsError α :=
  match tree with
  | .object members => readTreeMembers schema.fields schema.defaults members
  | .array items => readTreeElements schema.defaults schema.fields items
  | _ => .error .mistyped

end Schema

/-! ## Types of values -/

namespace Tree

/-- A number that counts something. -/
def nat? : Tree → Option Nat
  | integer n => if 0 ≤ n then some n.toNat else none
  | _ => none

/-- A truth value. -/
def boolean? : Tree → Option Bool
  | boolean b => some b
  | _ => none

/-- A text. -/
def string? : Tree → Option Bytes
  | string text => some text
  | _ => none

end Tree

/-! ## The records -/

/-- How a configuration is read. -/
def Config.schema : Schema Config where
  defaults := {}
  fields :=
    [⟨Bytes.ofString "max_depth", fun tree config =>
        tree.nat?.map fun n => { config with maxDepth := n }⟩,
      ⟨Bytes.ofString "modifiers_enabled", fun tree config =>
        tree.boolean?.map fun b => { config with modifiers := b }⟩]

/-- A configuration as a document. -/
def Config.dump (config : Config) : Bytes :=
  let field (name : String) (value : Bytes) : Bytes :=
    Quoted.encode (Bytes.ofString name) ++ colon :: value
  openBrace :: Bytes.commaJoin
    [field "max_depth" (Bytes.ofNat config.maxDepth),
      field "modifiers_enabled" (Tree.boolean config.modifiers).dump] ++ [closeBrace]

/-- How options for the layout of documents are read. -/
def Layout.schema : Schema Layout where
  defaults := {}
  fields :=
    [⟨Bytes.ofString "width", fun tree layout =>
        tree.nat?.map fun n => { layout with width := n }⟩,
      ⟨Bytes.ofString "prefix", fun tree layout =>
        tree.string?.map fun text => { layout with margin := text }⟩,
      ⟨Bytes.ofString "indent", fun tree layout =>
        tree.string?.map fun text => { layout with indent := text }⟩,
      ⟨Bytes.ofString "sortKeys", fun tree layout =>
        tree.boolean?.map fun b => { layout with sortKeys := b }⟩]

/-- Options for the layout of documents, as a document. -/
def Layout.dump (layout : Layout) : Bytes :=
  let field (name : String) (value : Bytes) : Bytes :=
    Quoted.encode (Bytes.ofString name) ++ colon :: value
  openBrace :: Bytes.commaJoin
    [field "width" (Bytes.ofNat layout.width), field "prefix" (Quoted.encode layout.margin),
      field "indent" (Quoted.encode layout.indent),
      field "sortKeys" (Tree.boolean layout.sortKeys).dump] ++ [closeBrace]

end JsonQuery
