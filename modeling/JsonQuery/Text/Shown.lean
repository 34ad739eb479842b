import JsonQuery.Text.Hidden
import JsonQuery.Text.Utf8

/-!
# Texts in messages

A text that a message quotes is written so that every character can be seen: in quotes, with
escapes for quotes, backslashes and hidden characters.
-/

namespace JsonQuery.Shown

open Ascii

/-- The escape of a code point. -/
def codePoint (c : Char) : Bytes :=
  let digits := (Nat.toDigits 16 c.toNat).map fun d => UInt8.ofNat d.toNat
  backslash :: lowerU :: openBrace :: digits ++ [closeBrace]

/-- A character as it is written between quotes. -/
def spell (c : Char) : Bytes :=
  if c.toNat = 0 then [backslash, zero]
  else if c.toNat = tab.toNat then [backslash, lowerT]
  else if c.toNat = lineFeed.toNat then [backslash, lowerN]
  else if c.toNat = carriageReturn.toNat then [backslash, lowerR]
  else if c.toNat = quote.toNat then [backslash, quote]
  else if c.toNat = backslash.toNat then [backslash, backslash]
  else if Hidden.isHidden c then codePoint c
  else Utf8.encode [c]

/-- A text in quotes. -/
def ofText (text : Bytes) : Bytes :=
  Bytes.quoted ((Utf8.chars text).flatMap spell)

end JsonQuery.Shown
