import JsonQuery.Extent

/-!
# Pipes in a path

The first bar of a path that stands outside of filters and of a sub-selector in front splits it
into two: a path, and one for what that finds.
-/

namespace JsonQuery.Pipe

open Ascii

/-- A bracket that a filter opens with. -/
def opensFilter : Bytes → Bool
  | [] => false
  | c :: _ => c == openBracket || c == openParen

/-- The offset of the first bar, with `offset` bytes behind; nothing when there is none, or when a
filter before it never closes. -/
def barFrom? (offset : Nat) : Bytes → Option Nat
  | [] => none
  | c :: rest =>
    if c = bar then some offset
    else if c = backslash then barFrom? (offset + 2) (rest.drop 1)
    else if c = hash && opensFilter rest then
      match Extent.ofContainer? rest with
      | some length => barFrom? (offset + 1 + length) (rest.drop length)
      | none => none
    else barFrom? (offset + 1) rest
termination_by text => text.length
decreasing_by all_goals simp only [List.length_cons, List.length_drop]; omega

/-- The offset of the bar that splits a path.  Behind a sub-selector in front only a bar right
behind its closing bracket does. -/
def bar? : Bytes → Option Nat
  | [] => none
  | c :: rest =>
    if opensContainer c then
      (Extent.ofContainer? (c :: rest)).filter fun length => (c :: rest)[length]? == some bar
    else barFrom? 0 (c :: rest)

/-- A path up to its first bar, and the path behind the bar. -/
def split (path : Bytes) : Bytes × Option Bytes :=
  match bar? path with
  | some offset => (path.take offset, some (path.drop (offset + 1)))
  | none => (path, none)

end JsonQuery.Pipe
