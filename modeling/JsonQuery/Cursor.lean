import JsonQuery.Extent

/-!
# Cursors

A cursor is a place in a text: how many bytes are behind it, and the bytes ahead.  Moving a cursor
never adds bytes, which is why every scan in the library ends.
-/

namespace JsonQuery

open Ascii

/-- A place in a text. -/
structure Cursor where
  /-- The number of bytes behind the cursor. -/
  offset : Nat
  /-- The bytes ahead. -/
  rest : Bytes
  deriving DecidableEq, Repr, Inhabited

namespace Cursor

/-- The first place of a text. -/
def start (text : Bytes) : Cursor :=
  ⟨0, text⟩

/-- The number of bytes ahead. -/
def left (c : Cursor) : Nat :=
  c.rest.length

/-- The place `n` bytes further on. -/
def advance (n : Nat) (c : Cursor) : Cursor :=
  ⟨c.offset + n, c.rest.drop n⟩

/-- The end of the text. -/
def toEnd (c : Cursor) : Cursor :=
  ⟨c.offset + c.rest.length, []⟩

/-- Searches a text for a byte, starting at a known offset. -/
def findFrom (p : UInt8 → Bool) (offset : Nat) : Bytes → Cursor
  | [] => ⟨offset, []⟩
  | c :: rest => if p c then ⟨offset, c :: rest⟩ else findFrom p (offset + 1) rest

/-- The first place from here on whose byte passes a test, or the end of the text. -/
def find (p : UInt8 → Bool) (c : Cursor) : Cursor :=
  findFrom p c.offset c.rest

/-- The next key, or the brace that ends the object before it. -/
def toKey (c : Cursor) : Cursor :=
  c.find fun b => b == quote || b == closeBrace

/-- The next value, or the bracket that ends the container before it. -/
def toValue (closer : UInt8) (c : Cursor) : Cursor :=
  c.find fun b => startsValue b || b == closer

/-- The next object or array. -/
def toContainer (c : Cursor) : Cursor :=
  c.find opensContainer

/-- The byte at the cursor. -/
def peek? (c : Cursor) : Option UInt8 :=
  c.rest.head?

/-! ## Cursors only move on -/

theorem left_advance (n : Nat) (c : Cursor) : (c.advance n).left = c.left - n := by
  simp [left, advance]

theorem left_advance_le (n : Nat) (c : Cursor) : (c.advance n).left ≤ c.left := by
  rw [left_advance]
  omega

theorem length_findFrom_le (p : UInt8 → Bool) (offset : Nat) (text : Bytes) :
    (findFrom p offset text).rest.length ≤ text.length := by
  induction text generalizing offset with
  | nil => simp [findFrom]
  | cons c rest ih =>
    rw [findFrom]
    split
    · exact Nat.le_refl _
    · exact Nat.le_trans (ih _) (by simp)

theorem left_find_le (p : UInt8 → Bool) (c : Cursor) : (c.find p).left ≤ c.left :=
  length_findFrom_le p c.offset c.rest

theorem left_toKey_le (c : Cursor) : c.toKey.left ≤ c.left :=
  left_find_le _ c

theorem left_toValue_le (closer : UInt8) (c : Cursor) : (c.toValue closer).left ≤ c.left :=
  left_find_le _ c

end Cursor

end JsonQuery
