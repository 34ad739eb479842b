import JsonQuery.Result.Conversion

/-!
# Timestamps

Dates with a time and an offset from universal time, such as `2024-02-29T12:30:00.25+01:00`.  The
letter between date and time may be a space, fractions of a second have any number of digits of
which nine count, and a leap second is second 59 with a second's worth of nanoseconds more.
-/

namespace JsonQuery

open Ascii

/-- A moment, and the offset in which it was written. -/
structure Timestamp where
  /-- Seconds since the start of 1970 in universal time. -/
  seconds : Int
  /-- Nanoseconds within the second, a thousand million more in a leap second. -/
  nanoseconds : Nat
  /-- Seconds that the local time is ahead of universal time. -/
  offset : Int
  deriving DecidableEq, Repr, Inhabited

namespace Timestamp

/-! ## The calendar -/

/-- A year with a 29th of February. -/
def isLeap (year : Nat) : Bool :=
  year % 4 = 0 && (year % 100 ≠ 0 || year % 400 = 0)

/-- The lengths of the months of a year. -/
def monthLengths (year : Nat) : List Nat :=
  [31, if isLeap year then 29 else 28, 31, 30, 31, 30, 31, 31, 30, 31, 30, 31]

/-- The days before a year, from the start of the year zero. -/
def daysBefore (year : Nat) : Nat :=
  365 * year + (year + 3) / 4 - (year + 99) / 100 + (year + 399) / 400

/-- The days from the start of 1970 to a date, when there is such a date. -/
def days? (year month day : Nat) : Option Int :=
  match (monthLengths year)[month - 1]? with
  | none => none
  | some length =>
    if 1 ≤ month && 1 ≤ day && day ≤ length then
      let before := ((monthLengths year).take (month - 1)).foldl (· + ·) 0
      some ((daysBefore year + before + (day - 1) : Nat) - daysBefore 1970)
    else none

/-! ## Reading -/

/-- A reader takes bytes off the front of a text. -/
abbrev Reader (α : Type) := StateT Bytes Option α

/-- One byte that passes a test. -/
def byte (p : UInt8 → Bool) : Reader UInt8 := fun text =>
  match text with
  | [] => none
  | c :: rest => if p c then some (c, rest) else none

/-- Two digits. -/
def twoDigits : Reader Nat := do
  let a ← byte isDigit
  let b ← byte isDigit
  return digitValue a * 10 + digitValue b

/-- A run of digits, which may be empty. -/
def digits : Reader Bytes := fun text =>
  some (text.span isDigit)

/-- The digits behind the point of a fraction, in nanoseconds. -/
def nanosecondsOf (digits : Bytes) : Nat :=
  Bytes.toNat (digits.take 9) * Nat.pow 10 (9 - digits.length)

/-- An optional fraction of a second. -/
def fraction : Reader Nat := do
  if (← get).head? = some dot then
    let _ ← byte (· == dot)
    let ds ← digits
    guard !ds.isEmpty
    return nanosecondsOf ds
  else return 0

/-- The minus sign U+2212, which may stand for a hyphen. -/
def wideMinus : Bytes :=
  Utf8.encode [Char.ofNat 0x2212]

/-- The sign of an offset. -/
def sign : Reader Int := fun text =>
  if text.head? = some plus then some (1, text.drop 1)
  else if text.head? = some minus then some (-1, text.drop 1)
  else if wideMinus.isPrefixOf text then some (-1, text.drop wideMinus.length)
  else none

/-- The offset from universal time in seconds; `Z` for none. -/
def zone : Reader Int := do
  if (← get).head? = some upperZ || (← get).head? = some lowerZ then
    let _ ← byte fun _ => true
    return 0
  else
    let s ← sign
    let hours ← twoDigits
    let _ ← byte (· == colon)
    let minutes ← twoDigits
    guard (minutes ≤ 59)
    guard (hours * 3600 + minutes * 60 < 86400)
    return s * (hours * 3600 + minutes * 60 : Nat)

/-- The days of a date from the start of 1970. -/
def date : Reader Int := do
  let century ← twoDigits
  let year ← twoDigits
  let _ ← byte (· == minus)
  let month ← twoDigits
  let _ ← byte (· == minus)
  let day ← twoDigits
  days? (century * 100 + year) month day

/-- The seconds of a time of day, and the nanoseconds that come with a leap second. -/
def time : Reader (Nat × Nat) := do
  let hour ← twoDigits
  let _ ← byte (· == colon)
  let minute ← twoDigits
  let _ ← byte (· == colon)
  let second ← twoDigits
  guard (hour ≤ 23 && minute ≤ 59 && second ≤ 60)
  let whole := hour * 3600 + minute * 60
  -- A leap second prolongs the second before it
  return if second = 60 then (whole + 59, Nat.pow 10 9) else (whole + second, 0)

/-- A timestamp. -/
def timestamp : Reader Timestamp := do
  let days ← date
  let _ ← byte fun c => c == upperT || c == lowerT || c == space
  let (seconds, leap) ← time
  let nanoseconds ← fraction
  let offset ← zone
  return ⟨days * 86400 + seconds - offset, nanoseconds + leap, offset⟩

/-- The timestamp that a whole text spells. -/
def ofText? (text : Bytes) : Option Timestamp :=
  match timestamp text with
  | some (stamp, []) => some stamp
  | _ => none

end Timestamp

/-- The result as a timestamp. -/
def Result.timestamp? (r : Result) : Option Timestamp :=
  Timestamp.ofText? r.text

end JsonQuery
