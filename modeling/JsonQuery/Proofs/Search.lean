import JsonQuery.Engine.Batch
import JsonQuery.Proofs.Extents

/-!
# Search in trees

What a plain path asks of a document, told on its tree: a component selects branches of a container,
and a path is searched for depth first, the leftmost branch first.

## Layers

- **Components**: `Component` is a list of pieces, each a literal byte or a wildcard, and `pathOf`
  the path that is written with some.
- **Search**: `Component.selects` and `search`.
- **Names and positions**: `Component.ofName` escapes a name, and the literal bytes of a component
  are what the escapes leave.
-/

namespace JsonQuery.Grammar

open Ascii

/-! ## Components -/

/-- A byte that stands for itself wherever it is in a path. -/
def isLiteral (c : UInt8) : Bool :=
  !Batch.isSpecial c && c != dot

theorem isLiteral_of_isSafe {c : UInt8} (h : Path.isSafe c = true) : isLiteral c = true := by
  have hspecial : Batch.isSpecial c = false := by
    apply Bool.eq_false_iff.2
    intro hspecial
    simp only [Batch.isSpecial, isOpener, isCloser, Bool.or_eq_true, beq_iff_eq] at hspecial
    -- No special byte is safe, which is checked one by one
    rcases hspecial with (((((((rfl | rfl) | rfl) | rfl) | rfl) | rfl) | rfl) |
      ((rfl | rfl) | rfl)) | ((rfl | rfl) | rfl) <;> exact absurd h (by decide)
  have hdot : c ≠ dot := by
    rintro rfl
    exact absurd h (by decide)
  simp [isLiteral, hspecial, hdot]

theorem ne_of_isLiteral {b c : UInt8} (h : isLiteral c = true) (hb : isLiteral b = false) :
    c ≠ b := by
  rintro rfl
  rw [hb] at h
  cases h

/-- A piece of a component. -/
inductive Piece where
  /-- A byte that is written as it is. -/
  | plain (c : UInt8) (h : isLiteral c = true)
  /-- Any byte, behind a backslash. -/
  | escaped (c : UInt8)
  /-- A star. -/
  | any
  /-- A question mark. -/
  | one

namespace Piece

/-- What is written for a piece. -/
def text : Piece → Bytes
  | plain c _ => [c]
  | escaped c => [backslash, c]
  | any => [star]
  | one => [question]

/-- The byte of a piece without its escape. -/
def byte : Piece → UInt8
  | plain c _ => c
  | escaped c => c
  | any => star
  | one => question

/-- Whether a piece is a wildcard. -/
def isWild : Piece → Bool
  | any | one => true
  | _ => false

/-- A literal byte, escaped where it has a meaning. -/
def ofByte (c : UInt8) : Piece :=
  if h : Path.isSafe c = true then plain c (isLiteral_of_isSafe h) else escaped c

end Piece

/-- A component of a plain path. -/
abbrev Component := List Piece

namespace Component

/-- What is written for a component. -/
def text (c : Component) : Bytes :=
  c.flatMap Piece.text

/-- The bytes of a component without its escapes. -/
def name (c : Component) : Bytes :=
  c.map Piece.byte

/-- Whether a component is a pattern. -/
def isWild (c : Component) : Bool :=
  c.any Piece.isWild

/-- The component that selects the members of a name. -/
def ofName (name : Bytes) : Component :=
  name.map Piece.ofByte

/-- Whether a component selects a child by what the child is called: a member of its name, or one
whose name its pattern matches, or the element whose position its digits denote.  Positions are
words of 64 bits. -/
def selects (c : Component) : Label → Bool
  | .key name => if c.isWild then Glob.isMatch name c.text else name == c.name
  | .position n =>
    Number.isDigits c.text && (Bytes.toNat c.text == n && decide (n < Number.wordLimit))

end Component

/-- The path that is written for components, with dots between them. -/
def pathOf (components : List Component) : Bytes :=
  Path.ofComponents (components.map Component.text)

@[simp] theorem pathOf_nil : pathOf [] = [] :=
  Path.ofComponents_nil

/-! ## Search -/

/-- The leftmost depth-first search for components below a place: the last component takes the
first branch that it selects, and any other the first one below which the rest is found. -/
def search : List Component → Spot → Option Spot
  | [] => some
  | c :: components => fun s =>
    (s.branches.filter fun b => c.selects b.label).findSome? fun b =>
      search components b.toSpot

theorem search_cons (c : Component) (components : List Component) (s : Spot) :
    search (c :: components) s =
      (s.branches.filter fun b => c.selects b.label).findSome? fun b =>
        search components b.toSpot :=
  rfl

/-- Only containers have branches. -/
theorem Spot.branches_scalar {s : Spot} (h : s.node.isContainer = false) : s.branches = [] := by
  obtain ⟨offset, node⟩ := s
  cases node with
  | word w => rfl
  | number n => rfl
  | string body => rfl
  | array gap items => cases h
  | object gap members => cases h

/-- Nothing is found below a scalar. -/
theorem search_scalar {components : List Component} (hne : components ≠ []) {s : Spot}
    (h : s.node.isContainer = false) : search components s = none := by
  cases components with
  | nil => exact absurd rfl hne
  | cons c components =>
    rw [search_cons, Spot.branches_scalar h]
    rfl

/-! ## Names and positions -/

section Names

theorem Piece.text_ofByte (c : UInt8) :
    (Piece.ofByte c).text = if Path.isSafe c then [c] else [backslash, c] := by
  by_cases hsafe : Path.isSafe c = true
  · simp [ofByte, hsafe, text]
  · simp [ofByte, hsafe, text]

/-- The component of a name is written with the escapes of the name. -/
theorem Component.text_ofName (name : Bytes) : (ofName name).text = Path.escape name := by
  simp [text, ofName, Path.escape, List.flatMap_map, Piece.text_ofByte]

theorem Piece.byte_ofByte (c : UInt8) : (Piece.ofByte c).byte = c := by
  unfold ofByte
  split <;> rfl

@[simp] theorem Component.name_ofName (name : Bytes) : (ofName name).name = name := by
  simp [Component.name, ofName, Function.comp_def, Piece.byte_ofByte]

theorem Piece.isWild_ofByte (c : UInt8) : (Piece.ofByte c).isWild = false := by
  unfold ofByte
  split <;> rfl

@[simp] theorem Component.isWild_ofName (name : Bytes) : (ofName name).isWild = false := by
  simp [isWild, ofName, Piece.isWild_ofByte]

/-- The component of a name selects the members of that name. -/
theorem Component.selects_ofName (name other : Bytes) :
    (ofName name).selects (.key other) = (other == name) := by
  simp [selects]

theorem Component.selects_position (c : Component) (n : Nat) :
    c.selects (.position n) = (Number.position? c.text == some n) := by
  -- Digits that denote too large a number name no position
  cases hdigits : Number.isDigits c.text with
  | false => simp [selects, Number.position?, hdigits]
  | true =>
    by_cases hlt : Bytes.toNat c.text < Number.wordLimit
    · by_cases heq : Bytes.toNat c.text = n
      · simp [selects, Number.position?, hdigits, hlt, ← heq]
      · simp [selects, Number.position?, hdigits, hlt, heq]
    · by_cases heq : Bytes.toNat c.text = n
      · simp [selects, Number.position?, hdigits, hlt, ← heq]
      · simp [selects, Number.position?, hdigits, hlt, heq]

end Names

end JsonQuery.Grammar
