import JsonQuery.Engine.Config
import JsonQuery.Engine.Registry
import JsonQuery.Engine.Walk
import JsonQuery.Path.Invocation
import JsonQuery.Path.Literal
import JsonQuery.Path.Selector

/-!
# Resolving paths

A path is a chain: modifiers, literals and pipes each hand a text on to the rest of the path, and
everything else is a walk through the text at hand.

- `Engine.resolve` resolves a path inside of a text;
- `Engine.get` is the same with all the room there is, counted as one get.

Two bounds keep resolution finite in depth.  The room for nested paths counts filters, projections
and sub-selectors that are resolved inside one another.  The depth of the configuration also counts
the containers that a walk enters and the links of a chain.  Where either is used up nothing is
found, and a depth hit is counted.
-/

namespace JsonQuery

open Ascii

/-- A configuration and the modifiers that paths may call. -/
structure Engine where
  config : Config
  registry : Registry

namespace Engine

/-- An engine with a configuration moved into range. -/
def new (config : Config) (registry : Registry) : Engine :=
  ⟨config.clamped, registry⟩

/-- How the engine reads paths. -/
def dialect (engine : Engine) : Dialect :=
  ⟨engine.config.modifiers, engine.registry.contains⟩

/-- How many paths may be resolved inside one another. -/
def pathNesting : Nat :=
  128

/-- Finding nothing because a bound is used up. -/
def cutShort : Counted Result :=
  ⟨.missing, .oneDepthHit⟩

/-! ## The links of a chain -/

/-- A function that resolves a path inside of a text with some depth left. -/
abbrev Nested :=
  (text path : Bytes) → (depth : Nat) → Counted Result

/-- The text that a modifier or a literal hands on. -/
structure Output where
  text : Bytes
  /-- The path behind it. -/
  rest : Bytes
  counts : Counters
  deriving Repr, Inhabited

/-- Runs a modifier.  One that fails hands its input on. -/
def runModifier (modifier : Modifier) (room : Nat) (text : Bytes) (call : Invocation) : Output :=
  let input := Utf8.lossy text
  match modifier room input call.argument with
  | .ok output => ⟨output, call.behind, .oneCall false⟩
  | .error _ => ⟨input, call.behind, .oneCall true⟩

/-- The object or array of what the parts of a sub-selector find; parts that find nothing are left
out. -/
def selectParts (nested : Nested) (object : Bool) (depth : Nat) (text : Bytes) (found : List Bytes)
    (counts : Counters) : List Selector → Counted Result
  | [] =>
    let (opener, closer) := if object then (openBrace, closeBrace) else (openBracket, closeBracket)
    ⟨.built (.json (opener :: Bytes.commaJoin found.reverse ++ [closer])), counts⟩
  | part :: parts =>
    let value := nested text part.path depth
    let counts := counts + value.counts
    if value.value.found then
      let raw := value.value.raw
      let item := if object then part.label ++ colon :: raw else raw
      selectParts nested object depth text (item :: found) counts parts
    else selectParts nested object depth text found counts parts

/-- The path behind a sub-selector: none at its end, and nothing at all where the path goes on
without a separator. -/
def selectorTail? (rest : Bytes) : Option (Option Bytes) :=
  if rest.isEmpty then some none else (Path.continuation? rest).map some

/-- What a path that starts with a sub-selector finds; nothing when it is not one. -/
def select? (nested : Nested) (depth : Nat) (text path : Bytes) : Option (Counted Result) :=
  (Selector.parse? path).bind fun (parts, rest) =>
    (selectorTail? rest).map fun next? =>
      let selected := selectParts nested (path.head? == some openBrace) depth text [] .zero parts
      match next? with
      | none => selected
      | some next =>
        ((nested selected.value.raw next depth).map Result.detached).after selected.counts

/-- What the first component of a path asks for. -/
inductive Link where
  /-- A text that the rest of the path is applied to. -/
  | output (output : Output)
  /-- The result of a sub-selector and of all that follows it. -/
  | selected (result : Counted Result)
  /-- A call of a modifier that there is none of, with the path behind its name. -/
  | unknown (rest : Bytes)
  /-- Components that are matched by walking. -/
  | components

/-- The first link of a path.  A path of a single byte is always a component. -/
def link (engine : Engine) (nested : Nested) (room depth : Nat) (text path : Bytes) : Link :=
  match path with
  | c :: _ :: _ =>
    if c = atSign && engine.config.modifiers then
      let call := Invocation.parse path
      match engine.registry.find? call.name with
      | some modifier => .output (runModifier modifier room text call)
      | none => .unknown call.rest
    else if c = bang then
      match Literal.parse? path with
      | some (text, rest) => .output ⟨text, rest, .zero⟩
      | none => .components
    else if opensContainer c then
      match select? nested depth text path with
      | some result => .selected result
      | none => .components
    else .components
  | _ => .components

/-- The offset of a value found inside of a value found at `base`; none if either has none. -/
def shift (base index : Option Nat) : Option Nat :=
  base.bind fun b => index.map (b + ·)

/-! ## The chain -/

/-- Resolves a path inside of a text.  `base` is where the text stands in the text that resolution
began with, and `depth` is the depth that is left. -/
def chain (engine : Engine) (nested : Nested) (room : Nat) (text path : Bytes) (base : Option Nat)
    (counts : Counters) : (depth : Nat) → Counted Result
  | 0 => cutShort.after counts
  | depth + 1 =>
    let env : Surroundings := ⟨engine.dialect, nested⟩
    match engine.link nested room depth text path with
    | .output output =>
      let counts := counts + output.counts
      -- What was built has no place in the document
      match Path.continuation? output.rest with
      | none => ⟨(parse output.text).detached, counts⟩
      | some next => engine.chain nested room output.text next none counts depth
    | .selected result => (result.map (·.rebase base)).after counts
    -- A name that no modifier has may still be a key; if it is none, the text passes through
    | .unknown rest =>
      let walk := Walk.start env text path (depth + 1)
      let counts := counts + walk.counts
      let found :=
        match walk.pipe with
        | some pipe => env.descend walk.value pipe depth
        | none => .quiet walk.value
      let counts := counts + found.counts
      if found.value.found then ⟨found.value.rebase base, counts⟩
      else
        match Path.continuation? rest with
        | none => ⟨(parse text).rebase base, counts⟩
        | some next => engine.chain nested room text next base counts depth
    -- A pipe goes on inside of what the walk found, also when that is nothing
    | .components =>
      let walk := Walk.start env text path (depth + 1)
      let counts := counts + walk.counts
      match walk.pipe with
      | none => ⟨walk.value.rebase base, counts⟩
      | some pipe =>
        engine.chain nested room walk.value.raw pipe (shift base walk.value.index) counts depth

/-- Resolves a path inside of a text, with room for nested paths and some depth left. -/
def resolve (engine : Engine) : (room : Nat) → Nested
  | 0, _, _, _ => cutShort
  | room + 1, text, path, depth =>
    engine.chain (engine.resolve room) room text path (some 0) .zero depth

/-! ## Queries -/

/-- Resolves a path inside of a document. -/
def get (engine : Engine) (document path : Bytes) : Counted Result :=
  (engine.resolve pathNesting document path engine.config.maxDepth).after .oneGet

/-- Resolves a path inside of a result, with room for nested paths.  Offsets stay those of the
document that the result comes from. -/
def descend (engine : Engine) (room : Nat) (r : Result) (path : Bytes) : Counted Result :=
  (engine.resolve room r.raw path engine.config.maxDepth).map (·.rebase r.index)

/-- Resolves a path inside of a result. -/
def getFrom (engine : Engine) (r : Result) (path : Bytes) : Counted Result :=
  engine.descend pathNesting r path

end Engine

end JsonQuery
