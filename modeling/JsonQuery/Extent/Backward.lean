import JsonQuery.Extent

/-!
# Values from their last byte

The scan of `Extent` in the other direction: the length of the value that a text ends with.  The
scan runs over the reversed text.
-/

namespace JsonQuery.Extent

open Ascii

/-- A quote that closes a run of an odd number of backslashes belongs to the inside of a string. -/
def followsOddBackslashes (before : Bytes) : Bool :=
  (before.takeWhile (· == backslash)).length % 2 == 1

/-- Continues a scan to the left with `length` bytes behind it; `inString` between the quotes of a
string, `depth` counts the brackets whose openers are still to come.  The scan ends at the opener
or at the opening quote that leaves nothing open, or else with the text. -/
def openFrom (inString : Bool) (depth length : Nat) : Bytes → Nat
  | [] => length
  | c :: rest =>
    match inString with
    | true =>
      -- An opening quote, unless it is escaped inside of the string
      if c = quote && !followsOddBackslashes rest then
        if depth = 0 then length + 1 else openFrom false depth (length + 1) rest
      else openFrom true depth (length + 1) rest
    | false =>
      if c = quote then openFrom true depth (length + 1) rest
      else if isCloser c then openFrom false (depth + 1) (length + 1) rest
      else if isOpener c then
        if depth ≤ 1 then length + 1 else openFrom false (depth - 1) (length + 1) rest
      else openFrom false depth (length + 1) rest

/-- The value at the end of a text given last byte first.  A last byte that closes nothing is taken
for the inside of a container. -/
def ofReversed : Bytes → Nat
  | [] => 0
  | c :: rest =>
    if c = quote then openFrom true 0 1 rest
    else if isCloser c then openFrom false 1 1 rest
    else openFrom false 1 0 (c :: rest)

/-- The value at the end of a text. -/
def ofTrailing (text : Bytes) : Nat :=
  ofReversed text.reverse

end JsonQuery.Extent
