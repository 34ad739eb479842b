import JsonQuery.Document.Tree

/-!
# Writing documents

- `Tree.render` writes a tree without any space, with a given way to write floats;
- `Tree.dump` writes floats with the fewest digits that read back.
-/

namespace JsonQuery

open Ascii

/-! ## Floats -/

namespace FloatText

/-- The digits up to which a number is written without exponent. -/
def maxPoint : Nat :=
  16

/-- The zeros behind the point up to which a small number is written without exponent. -/
def maxLeadingZeros : Nat :=
  4

/-- A decimal with a signed exponent behind its first digit. -/
def scientific (d : Decimal) : Bytes :=
  let exponent := d.point - 1
  let sign := if exponent < 0 then minus else plus
  let tail := lowerE :: sign :: Bytes.ofNat exponent.natAbs
  match d.digits with
  | first :: second :: rest => first :: dot :: second :: rest ++ tail
  | digits => digits ++ tail

/-- A decimal as it is written in documents: at least one digit behind the point, or an exponent for
very large and very small numbers. -/
def ofDecimal (d : Decimal) : Bytes :=
  match d.point with
  | .negSucc zeros =>
    if zeros < maxLeadingZeros then zero :: dot :: Number.zeros (zeros + 1) ++ d.digits
    else scientific d
  | .ofNat 0 => zero :: dot :: d.digits
  | .ofNat point =>
    if maxPoint < point then scientific d
    else if d.digits.length ≤ point then
      d.digits ++ Number.zeros (point - d.digits.length) ++ [dot, zero]
    else d.digits.take point ++ dot :: d.digits.drop point

/-- A double as it is written in documents; a half goes to the even digit. -/
def ofDouble : Double → Bytes
  | .finite negative units =>
    let body :=
      if units = 0 then [zero, dot, zero] else ofDecimal (Double.shortest .toEven units)
    if negative then minus :: body else body
  | _ => Value.nullText

end FloatText

/-! ## Trees -/

/-- An integer in decimal. -/
def Bytes.ofInt (n : Int) : Bytes :=
  if n < 0 then minus :: Bytes.ofNat n.natAbs else Bytes.ofNat n.natAbs

namespace Tree

mutual

/-- A tree as a document without space. -/
def render (float : Double → Bytes) : Tree → Bytes
  | null => Value.nullText
  | boolean b => if b then Value.trueText else Value.falseText
  | integer n => Bytes.ofInt n
  | .float d => float d
  | string text => Quoted.encode text
  | array items => openBracket :: Bytes.commaJoin (renderItems float items) ++ [closeBracket]
  | object members => openBrace :: Bytes.commaJoin (renderMembers float members) ++ [closeBrace]

/-- The items of an array, each by itself. -/
def renderItems (float : Double → Bytes) : List Tree → List Bytes
  | [] => []
  | item :: items => render float item :: renderItems float items

/-- The members of an object, each by itself. -/
def renderMembers (float : Double → Bytes) : List (Bytes × Tree) → List Bytes
  | [] => []
  | (name, value) :: members =>
    (Quoted.encode name ++ colon :: render float value) :: renderMembers float members

end

/-- A tree as a document. -/
def dump (tree : Tree) : Bytes :=
  tree.render FloatText.ofDouble

end Tree

end JsonQuery
