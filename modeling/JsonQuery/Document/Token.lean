import JsonQuery.Number.Reading
import JsonQuery.Result.Basic
import JsonQuery.WellFormed

/-!
# Tokens of strict documents

A document is cut into tokens up to its end or to the first byte that no token starts with.  Strings
and numbers have to follow the strict grammar of JSON to be tokens.
-/

namespace JsonQuery

open Ascii

/-- A token. -/
inductive Token where
  /-- A bracket, a comma or a colon. -/
  | mark (c : UInt8)
  /-- A string and its text, if it has one: half a surrogate pair has none. -/
  | string (text : Option Bytes)
  | number (raw : Bytes)
  | null
  | boolean (b : Bool)
  /-- Bytes that are no token. -/
  | bad
  deriving DecidableEq, Repr, Inhabited

namespace Token

/-! ## Strings -/

/-- Continues to the closing quote with `length` bytes of the body behind. -/
def bodyFrom? (length : Nat) : Bytes → Option Nat
  | [] => none
  | c :: rest =>
    if c = quote then some length
    else if c = backslash then
      match rest with
      | [] => none
      | e :: rest =>
        if WellFormed.isShortEscape e || (e = lowerU && (Quoted.unit? rest).isSome) then
          bodyFrom? (length + 2) rest
        else none
    else if c < space then none
    else bodyFrom? (length + 1) rest

/-- Every surrogate in the escapes of a body, after dropping `skip` bytes, stands in a pair. -/
def pairsUp (skip : Nat) : Bytes → Bool
  | [] => true
  | c :: rest =>
    match skip with
    | skip + 1 => pairsUp skip rest
    | 0 =>
      if c = backslash then
        match rest with
        | [] => true
        | e :: rest =>
          match if e = lowerU then Quoted.unit? rest else none with
          | none => pairsUp 0 rest
          | some unit =>
            -- Both halves of a pair are passed at once, so a second half met here is alone
            if Quoted.isHighSurrogate unit then
              (Quoted.lowSurrogate? (rest.drop 4)).isSome && pairsUp 10 rest
            else !Quoted.isLowSurrogate unit && pairsUp 4 rest
      else pairsUp 0 rest

/-- The text of a string with the given body. -/
def bodyText? (body : Bytes) : Option Bytes :=
  if pairsUp 0 body && Utf8.isValid body then some (Quoted.decode body) else none

/-! ## Numbers -/

/-- The length of a run of digits, if there is one. -/
def digits? (text : Bytes) : Option Nat :=
  let length := (text.takeWhile isDigit).length
  if length = 0 then none else some length

/-- The length of the digits in front of a point: a lone zero, or digits that start with none. -/
def whole? (text : Bytes) : Option Nat :=
  (digits? text).filter fun length => length == 1 || text.head? != some zero

/-- The length of an optional fraction. -/
def fraction? (text : Bytes) : Option Nat :=
  if text.head? = some dot then (digits? (text.drop 1)).map (· + 1) else some 0

/-- The length of an optional exponent. -/
def exponent? (text : Bytes) : Option Nat :=
  if text.head? = some lowerE || text.head? = some upperE then
    let rest := text.drop 1
    let sign := if rest.head? = some plus || rest.head? = some minus then 1 else 0
    (digits? (rest.drop sign)).map (· + 1 + sign)
  else some 0

/-- The length of a number. -/
def number? (text : Bytes) : Option Nat := do
  let sign := if text.head? = some minus then 1 else 0
  let whole ← whole? (text.drop sign)
  let fraction ← fraction? (text.drop (sign + whole))
  let exponent ← exponent? (text.drop (sign + whole + fraction))
  return sign + whole + fraction + exponent

/-! ## Tokens -/

/-- A bracket, a comma or a colon. -/
def isMark (c : UInt8) : Bool :=
  c == openBrace || c == closeBrace || c == openBracket || c == closeBracket || c == comma
    || c == colon

/-- The words and what they are. -/
def words : List (Bytes × Token) :=
  [(Value.nullText, null), (Value.trueText, boolean true), (Value.falseText, boolean false)]

/-- The token at the front of a text that does not start with space, and its length. -/
def first : Bytes → Token × Nat
  | [] => (bad, 0)
  | c :: rest =>
    if isMark c then (mark c, 1)
    else if c = quote then
      match bodyFrom? 0 rest with
      | some length => (string (bodyText? (rest.take length)), length + 2)
      | none => (bad, 1)
    else if c = minus || isDigit c then
      match number? (c :: rest) with
      | some length => (number ((c :: rest).take length), length)
      | none => (bad, 1)
    else
      match words.find? fun word => word.1.isPrefixOf (c :: rest) with
      | some (spelling, word) => (word, spelling.length)
      | none => (bad, 1)

/-- Continues with the tokens so far, the last one first. -/
def ofTextFrom (found : List Token) (text : Bytes) : List Token :=
  match text with
  | [] => found.reverse
  | c :: rest =>
    if WellFormed.isGap c then ofTextFrom found rest
    else
      match first (c :: rest) with
      | (bad, _) => (bad :: found).reverse
      | (token, length) => ofTextFrom (token :: found) (rest.drop (length - 1))
termination_by text.length
decreasing_by
  · simp only [List.length_cons]
    omega
  · simp only [List.length_cons, List.length_drop]
    omega

/-- The tokens of a document, a bad one last if there is any. -/
def ofText (text : Bytes) : List Token :=
  ofTextFrom [] text

end Token

end JsonQuery
