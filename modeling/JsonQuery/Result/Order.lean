import JsonQuery.Result.Conversion

/-!
# Order of results

Kinds come first.  Within a kind strings compare by their texts, numbers by their doubles, and all
else by source text.
-/

namespace JsonQuery

/-- Lexical order of bytes. -/
def Bytes.less (a b : Bytes) : Bool :=
  a < b

namespace Result

/-- Order within a kind; with `folded` the case of letters in strings does not count. -/
def lessWithin (folded : Bool) (a b : Result) : Bool :=
  match a.value, b.value with
  | .string x, .string y =>
    if folded then Bytes.less (Value.stringText x).toLower (Value.stringText y).toLower
    else Bytes.less (Value.stringText x) (Value.stringText y)
  | .number x, .number y => (Number.double x).less (Number.double y)
  | _, _ => Bytes.less a.raw b.raw

/-- The order of results. -/
def less (folded : Bool) (a b : Result) : Bool :=
  if a.kind = b.kind then lessWithin folded a b else a.kind.rank < b.kind.rank

/-- Equality of results as answers: a number that is a NaN is not even equal to itself. -/
def sameAs (a b : Result) : Bool :=
  match a.value with
  | .number raw => a == b && (Number.double raw).equal (Number.double raw)
  | _ => a == b

end Result

end JsonQuery
