import JsonQuery.Extent

/-!
# Literals in a path

A component such as `!5` or `!"text"` stands for a value of its own, whatever the document holds.
-/

namespace JsonQuery.Literal

open Ascii

/-- The words that are literals, in small letters. -/
def words : List Bytes :=
  ["true", "false", "null", "nan", "inf"].map Bytes.ofString

/-- The closing byte of a literal with the given first byte. -/
def closer? (c : UInt8) : Option UInt8 :=
  if c = openBrace then some closeBrace
  else if c = openBracket then some closeBracket
  else if c = quote then some quote
  else none

/-- A string or a container, if it is closed.  A lone quote closes nothing. -/
def closed? (closer : UInt8) (text : Bytes) : Option Nat :=
  let length := Extent.ofArgument text
  if 2 ≤ length && (text.take length).getLast? = some closer then some length else none

/-- The literal behind a bang and the path behind that, if the path starts with one. -/
def parse? (path : Bytes) : Option (Bytes × Bytes) :=
  match path.drop 1 with
  | [] => none
  | c :: rest =>
    let text := c :: rest
    match closer? c with
    | some closer => (closed? closer text).map fun length => (text.take length, text.drop length)
    | none =>
      if c = plus || c = minus || isDigit c then
        -- A dot belongs to a number; only a bar ends one for certain
        let length :=
          if text.contains bar then (text.takeWhile (· != bar)).length else Extent.ofNumber text
        some (text.take length, text.drop length)
      else
        let (word, rest) := text.span fun c => c != dot && c != bar
        let word := Bytes.toLower word
        if words.contains word then some (word, rest) else none

end JsonQuery.Literal
