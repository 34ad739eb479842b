import JsonQuery.Path.Component
import JsonQuery.Result.Reading

/-!
# Calls of modifiers in a path

A call is an at sign, a name and, behind a colon, an argument.  An argument that is a JSON value
ends where the value does; any other one goes on to the next bar outside of brackets and strings.
-/

namespace JsonQuery

open Ascii

/-- A call of a modifier, before its argument is cut off. -/
structure Invocation where
  name : Bytes
  /-- The path behind the name, without the colon of an argument. -/
  rest : Bytes
  /-- The rest starts with an argument. -/
  hasArgument : Bool
  deriving DecidableEq, Repr, Inhabited

namespace Invocation

/-- The call at the front of a path. -/
def parse (path : Bytes) : Invocation :=
  let (name, rest) := (path.drop 1).span (!endsModifierName ·)
  match rest with
  | [] => ⟨name, [], false⟩
  | c :: behind => if c = colon then ⟨name, behind, !behind.isEmpty⟩ else ⟨name, rest, false⟩

/-- The length of an argument that is not a JSON value, with `length` bytes of it behind. -/
def looseFrom (length : Nat) : Bytes → Nat
  | [] => length
  | c :: rest =>
    if c = bar then length
    else if c = quote || isOpener c then
      let skipped := Extent.ofArgument (c :: rest)
      looseFrom (length + skipped) (rest.drop (skipped - 1))
    else looseFrom (length + 1) rest
termination_by text => text.length
decreasing_by all_goals simp only [List.length_cons, List.length_drop]; omega

/-- The lead of a JSON argument. -/
def startsJson (text : Bytes) : Bool :=
  match text with
  | [] => false
  | c :: _ => opensContainer c || c == quote

/-- The length of the argument at the front of a text. -/
def argumentLength (text : Bytes) : Nat :=
  if startsJson text && (JsonQuery.parse text).found then Extent.ofArgument text
  else looseFrom 0 text

/-- The argument, which is empty when there is none. -/
def argument (call : Invocation) : Bytes :=
  if call.hasArgument then call.rest.take (argumentLength call.rest) else []

/-- The path behind the argument. -/
def behind (call : Invocation) : Bytes :=
  if call.hasArgument then call.rest.drop (argumentLength call.rest) else call.rest

end Invocation

namespace Path

/-- The path behind a separator, when one comes next. -/
def continuation? : Bytes → Option Bytes
  | [] => none
  | c :: rest => if c = bar || c = dot then some rest else none

end Path

end JsonQuery
