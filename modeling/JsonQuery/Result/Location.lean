import JsonQuery.Extent.Backward
import JsonQuery.Path.Escape
import JsonQuery.Result.Children

/-!
# Paths of results

The path of a value is found from its offset alone: a scan to the left meets the keys and the
element positions on the way from the value to the root of the document.
-/

namespace JsonQuery

open Ascii

/-- A step from a container to one of its children. -/
inductive Step where
  /-- A member, by the source text of its key. -/
  | key (raw : Bytes)
  /-- An element, by its position. -/
  | position (n : Nat)
  deriving DecidableEq, Repr, Inhabited

namespace Step

/-- The component of a path that takes the step. -/
def component? : Step → Option Bytes
  | key raw =>
    let name := parse raw
    if name.found then some (Path.escape name.text) else none
  | position n => some (Bytes.ofNat n)

/-- A byte that closes a container or a string. -/
def endsValue (c : UInt8) : Bool :=
  c == closeBracket || c == closeBrace || c == quote

/-- Scans reversed text for the steps to a place.  While elements are counted, `counted?` holds
their number so far; `found` holds the steps below the scan, the outermost first. -/
def scanBack (counted? : Option Nat) (found : List Step) : Bytes → Option (List Step)
  | [] => if counted?.isSome then none else some found
  | c :: rest =>
    match counted? with
    -- Passing over the elements that stand before the place
    | some counted =>
      if c = colon then none
      else if c = comma then scanBack (some (counted + 1)) found rest
      else if c = openBracket then scanBack none (position counted :: found) rest
      else if endsValue c then
        scanBack (some counted) found (rest.drop (Extent.ofReversed (c :: rest) - 1))
      else scanBack (some counted) found rest
    | none =>
      if isSpace c then scanBack none found rest
      else if c = colon then
        -- The place is the value of a member: read its key, and go on before the object
        let text := rest.dropWhile (· != quote)
        let outside := text.drop (Extent.ofReversed text)
        if outside.isEmpty then none
        else
          let raw := (text.take (Extent.ofReversed text)).reverse
          scanBack none (key raw :: found) (outside.drop (Extent.ofReversed outside))
      else if c = openBrace then none
      else if c = comma then scanBack (some 1) found rest
      else if c = openBracket then scanBack none (position 0 :: found) rest
      else scanBack none found rest
termination_by text => text.length
decreasing_by
  all_goals
    have hle := (List.dropWhile_suffix (l := rest) (· != quote)).length_le
    simp only [List.length_cons, List.length_drop]
    omega

/-- The steps from the root to a place in a document. -/
def ofOffset? (document : Bytes) (offset : Nat) : Option (List Step) :=
  scanBack none [] (document.take offset).reverse

end Step

namespace Result

/-- The path of the root of a document. -/
def rootPath : Bytes :=
  Bytes.ofString "@this"

/-- The path to a text that stands at an offset of a document. -/
def pathOfSpan? (document : Bytes) (offset : Nat) (raw : Bytes) : Option Bytes :=
  if raw.isEmpty || !raw.isPrefixOf (document.drop offset) then none
  else
    (Step.ofOffset? document offset).bind fun steps =>
      if steps.isEmpty then some rootPath
      else (steps.mapM Step.component?).map Path.ofComponents

/-- The path of a result in a document; empty when the result does not stand where it says. -/
def path (document : Bytes) (r : Result) : Bytes :=
  (pathOfSpan? document (r.index.getD 0) r.raw).getD []

/-- The paths of all elements of a gathered array; empty for other results. -/
def paths (document : Bytes) (r : Result) : List Bytes :=
  match r.indexes with
  | none => []
  | some indexes =>
    let found := r.values.map (path document)
    if found.length = indexes.length then found else []

end Result

end JsonQuery
