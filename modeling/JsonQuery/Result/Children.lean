import JsonQuery.Result.Conversion
import JsonQuery.Result.Reading

/-!
# Children of a result

The members of an object with their keys, or the elements of an array with their positions.  The
reading is lenient: it ends at the first member that can not be read.
-/

namespace JsonQuery

open Ascii

/-- A child and what it is called: a key, a position, or nothing. -/
structure Child where
  key : Result
  value : Result
  deriving DecidableEq, Repr, Inhabited

/-! ## Keys -/

/-- A string of a document before it is read. -/
structure Key where
  /-- The offset of the opening quote. -/
  offset : Nat
  /-- The string, quotes included. -/
  span : Bytes
  /-- Some byte is a backslash. -/
  escaped : Bool
  /-- The place behind the closing quote. -/
  next : Cursor
  deriving Repr, Inhabited

/-- The body of a key, as it is written. -/
def Key.body (key : Key) : Bytes :=
  (key.span.drop 1).dropLast

/-- The key as a result. -/
def Key.result (key : Key) : Result :=
  .located (.ofSpan .string key.span) key.offset

/-- The string that starts at the cursor. -/
def Cursor.keyHere? (c : Cursor) : Option Key :=
  match c.rest with
  | [] => none
  | lead :: rest =>
    if lead = quote then
      (Quoted.close? rest).map fun body =>
        ⟨c.offset, c.rest.take (body.length + 2), body.escaped, c.advance (body.length + 2)⟩
    else none

/-- The key of the next member of an object; nothing when a brace comes first, or none at all. -/
def Cursor.key? (c : Cursor) : Option Key :=
  c.toKey.keyHere?

theorem Cursor.left_le_of_keyHere? {c : Cursor} {key : Key} (h : c.keyHere? = some key) :
    key.next.left ≤ c.left := by
  unfold keyHere? at h
  split at h
  · cases h
  · split at h
    · obtain ⟨_, _, rfl⟩ := Option.map_eq_some_iff.1 h
      exact left_advance_le _ _
    · cases h

theorem Cursor.left_le_of_key? {c : Cursor} {key : Key} (h : c.key? = some key) :
    key.next.left ≤ c.left :=
  Nat.le_trans (left_le_of_keyHere? h) (left_toKey_le c)

/-! ## Members and elements -/

/-- Bytes between a key and its value, and between two children. -/
def isSeparator (c : UInt8) : Bool :=
  isSpace c || c == comma || c == colon

/-- What a child is called, and the place behind that. -/
def Cursor.label? (object : Bool) (position : Nat) (c : Cursor) : Option (Result × Cursor) :=
  if object then c.key?.map fun key => (key.result, key.next)
  else some (.count position, c)

theorem Cursor.left_le_of_label? {object : Bool} {position : Nat} {c next : Cursor} {label : Result}
    (h : c.label? object position = some (label, next)) : next.left ≤ c.left := by
  unfold label? at h
  split at h
  · obtain ⟨_, hkey, hpair⟩ := Option.map_eq_some_iff.1 h
    cases hpair
    exact left_le_of_key? hkey
  · cases h
    exact Nat.le_refl _

/-- The next child and the place behind it.  A bracket ends objects too. -/
def Cursor.child? (object : Bool) (position : Nat) (c : Cursor) : Option (Child × Cursor) :=
  match c.label? object position with
  | none => none
  | some (label, next) =>
    let start := next.find (!isSeparator ·)
    if start.peek? = some closeBracket then none
    else start.read?.map fun reading => (⟨label, reading.value⟩, reading.next)

theorem Cursor.left_lt_of_child? {object : Bool} {position : Nat} {c next : Cursor} {child : Child}
    (h : c.child? object position = some (child, next)) : next.left < c.left := by
  unfold child? at h
  split at h
  · cases h
  · rename_i label start hstart
    dsimp only at h
    split at h
    · cases h
    · obtain ⟨reading, hread, hpair⟩ := Option.map_eq_some_iff.1 h
      cases hpair
      have hlt := left_lt_of_read? hread
      have hle := left_find_le (!isSeparator ·) start
      have hlabel := left_le_of_label? hstart
      omega

/-- All children from a cursor on, behind the ones found before, which are listed last first. -/
def Cursor.childrenFrom (object : Bool) (found : List Child) (position : Nat) (c : Cursor) :
    List Child :=
  match _hchild : c.child? object position with
  | none => found.reverse
  | some (child, next) => next.childrenFrom object (child :: found) (position + 1)
termination_by c.left
decreasing_by exact left_lt_of_child? ‹_›

namespace Result

/-- The place of a child of the result: the recorded offset for a gathered array, and otherwise the
offset inside of the text of the result. -/
def placeChild (parent : Result) (position : Nat) (child : Child) : Child :=
  { key := child.key.rebase parent.index
    value :=
      match parent.indexes with
      | some indexes => { child.value with index := indexes[position]? }
      | none => child.value.rebase parent.index }

/-- The children in the text of an object or array, placed in that text. -/
def childrenOf (raw : Bytes) : List Child :=
  let c := (Cursor.start raw).find (!isSpace ·)
  if c.peek? = some openBrace then (c.advance 1).childrenFrom true [] 0
  else if c.peek? = some openBracket then (c.advance 1).childrenFrom false [] 0
  else []

/-- The children of a result.  A scalar is its own and only child, called nothing. -/
def children (r : Result) : List Child :=
  match r.value with
  | .missing => []
  | .json raw => (childrenOf raw).mapIdx fun position child => r.placeChild position child
  | _ => [⟨.missing, r⟩]

/-- The values of the children. -/
def values (r : Result) : List Result :=
  r.children.map Child.value

/-- A result as a list: the elements of an array, nothing for null, and the result alone
otherwise. -/
def elements (r : Result) : List Result :=
  match r.value with
  | .missing | .null => []
  | _ => if r.isArray then r.values else [r]

/-! ## Members by name -/

/-- Adds a member to a list in ascending order of names, unless there is one of that name. -/
def insertMember {α : Type} (name : Bytes) (value : α) :
    List (Bytes × α) → List (Bytes × α)
  | [] => [(name, value)]
  | (other, kept) :: rest =>
    if name = other then (other, kept) :: rest
    else if name < other then (name, value) :: (other, kept) :: rest
    else (other, kept) :: insertMember name value rest

/-- The members of an object in ascending order of names; of several with one name the first. -/
def members (r : Result) : List (Bytes × Result) :=
  if r.isObject then
    r.children.foldl (fun found child => insertMember child.key.text child.value found) []
  else []

end Result

end JsonQuery
