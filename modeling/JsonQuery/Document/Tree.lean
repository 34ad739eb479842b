import JsonQuery.Loop
import JsonQuery.Result.Children

/-!
# Documents as trees

- `Tree` is a document with all of its values read;
- `Result.tree` reads a result and all that is in it, leniently.

Objects list their members in ascending order of names, each name once.  Reading keeps a stack of
the containers that it is in.  Each of them waits for its children, and is put into the container
around it when it is finished.
-/

namespace JsonQuery

/-- A document that was read as a whole. -/
inductive Tree where
  | null
  | boolean (b : Bool)
  /-- A number that is an integer and fits into 64 bits, signed or not. -/
  | integer (n : Int)
  /-- Any other number. -/
  | float (d : Double)
  | string (text : Bytes)
  | array (items : List Tree)
  | object (members : List (Bytes × Tree))
  deriving Repr, Inhabited

namespace Tree

/-- The integer that a text denotes, if 64 bits hold it, signed or not. -/
def integer? (raw : Bytes) : Option Int :=
  match Number.signedExact? raw with
  | some n => some n
  | none => (Number.unsignedExact? raw).map Int.ofNat

/-- The number that a text denotes; nothing when it is not finite. -/
def ofNumber? (raw : Bytes) : Option Tree :=
  match integer? raw with
  | some n => some (integer n)
  | none =>
    match Number.double raw with
    | .finite negative units => some (float (.finite negative units))
    | _ => none

/-- An object from members in any order; of several with one name the first counts. -/
def ofMembers (members : List (Bytes × Tree)) : Tree :=
  object (members.foldl (fun found member => Result.insertMember member.1 member.2 found) [])

/-! ## Containers that are being built -/

/-- A container that is being built. -/
inductive Draft where
  /-- An object with its members in ascending order of names. -/
  | object (members : List (Bytes × Tree))
  /-- An array with its elements, the last one first. -/
  | array (items : List Tree)
  deriving Repr, Inhabited

namespace Draft

/-- A container without children. -/
def empty (object : Bool) : Draft :=
  if object then .object [] else .array []

/-- Adds a child, which has a name in an object; of several with one name the first counts. -/
def insert (name : Bytes) (tree : Tree) : Draft → Draft
  | object members => .object (Result.insertMember name tree members)
  | array items => .array (tree :: items)

/-- The finished container. -/
def tree : Draft → Tree
  | object members => .object members
  | array items => .array items.reverse

end Draft

/-- A container whose children are still being read. -/
structure Pending where
  /-- The name that the container has in the one around it. -/
  name : Bytes
  /-- The children that are left, with their names. -/
  children : List (Bytes × Result)
  draft : Draft
  deriving Repr, Inhabited

/-- What a result is at first sight. -/
inductive Opening where
  /-- A tree without children. -/
  | leaf (tree : Tree)
  /-- A container whose children have to be read. -/
  | container (pending : Pending)

end Tree

namespace Result

/-- The containers inside one another that are read as trees. -/
def maxTreeDepth : Nat :=
  1024

/-- The children of a container with their names; the elements of an array have none. -/
def namedChildren (r : Result) : List (Bytes × Result) :=
  r.children.map fun child => (if r.isObject then child.key.text else [], child.value)

/-- Opens a result inside of a number of containers.  A container that is too deep, and a number
that is not finite, read as null. -/
def openTree (depth : Nat) (r : Result) : Tree.Opening :=
  match r.value with
  | .missing | .null => .leaf .null
  | .boolean b => .leaf (.boolean b)
  | .string raw => .leaf (.string (Value.stringText raw))
  | .number raw => .leaf ((Tree.ofNumber? raw).getD .null)
  | .json _ =>
    if maxTreeDepth ≤ depth then .leaf .null
    else .container ⟨[], r.namedChildren, .empty r.isObject⟩

/-- Only containers that are not too deep are opened. -/
theorem openTree_eq_container {depth : Nat} {r : Result} {pending : Tree.Pending}
    (h : r.openTree depth = .container pending) :
    (∃ raw, r.value = .json raw) ∧ depth < maxTreeDepth ∧
      pending = ⟨[], r.namedChildren, .empty r.isObject⟩ := by
  unfold openTree at h
  cases hvalue : r.value with
  | json raw =>
    rw [hvalue] at h
    dsimp only at h
    split at h
    · cases h
    · cases h
      exact ⟨⟨raw, rfl⟩, by omega, rfl⟩
  | _ =>
    rw [hvalue] at h
    cases h

theorem namedChildren_values (r : Result) : r.namedChildren.map Prod.snd = r.values := by
  rw [namedChildren, List.map_map]
  rfl

end Result

/-! ## Building -/

namespace Tree

/-- Adds a child to a container. -/
def Pending.insert (name : Bytes) (tree : Tree) (pending : Pending) : Pending :=
  { pending with draft := pending.draft.insert name tree }

/-- One turn of building, with the containers that are being built, the innermost first: the next
child of the innermost one is read or opened, or else it is finished and put into the one around
it. -/
def buildTurn : List Pending → Turn (List Pending) Tree
  | [] => .over .null
  | ⟨name, (childName, child) :: children, draft⟩ :: outer =>
    match child.openTree (outer.length + 1) with
    | .leaf tree => .again (⟨name, children, draft.insert childName tree⟩ :: outer)
    | .container inner =>
      .again ({ inner with name := childName } :: ⟨name, children, draft⟩ :: outer)
  | [⟨_, [], draft⟩] => .over draft.tree
  | ⟨name, [], draft⟩ :: parent :: outer => .again (parent.insert name draft.tree :: outer)

/-- The results that are left to be read, by containers. -/
def waiting (stack : List Pending) : List (List Result) :=
  stack.map fun pending => pending.children.map Prod.snd

/-- The most turns that are left. -/
def buildCost (stack : List Pending) : Nat :=
  Loop.stackCost Result.values (Result.maxTreeDepth - 1) (waiting stack)

theorem buildCost_lt {stack next : List Pending} (h : buildTurn stack = .again next) :
    buildCost next < buildCost stack := by
  unfold buildTurn at h
  split at h
  · cases h
  · rename_i name childName child children draft outer
    split at h
    · cases h
      exact Loop.stackCost_take
    · rename_i inner hopen
      cases h
      obtain ⟨-, hdepth, rfl⟩ := Result.openTree_eq_container hopen
      have hlevels : (waiting outer).length < Result.maxTreeDepth - 1 := by
        rw [waiting, List.length_map]
        omega
      have hlt : Loop.stackCost Result.values (Result.maxTreeDepth - 1)
          (child.values :: children.map Prod.snd :: waiting outer) <
            buildCost (⟨name, (childName, child) :: children, draft⟩ :: outer) :=
        Loop.stackCost_open hlevels
      rwa [← Result.namedChildren_values] at hlt
  · cases h
  · rename_i name draft parent outer
    cases h
    exact Loop.stackCost_close

/-- Building ends where the outermost container is finished. -/
def building : Loop (List Pending) Tree Nat where
  turn := buildTurn
  left := buildCost
  left_lt := buildCost_lt

end Tree

/-- The tree of a result. -/
def Result.tree (r : Result) : Tree :=
  match r.openTree 0 with
  | .leaf tree => tree
  | .container pending => Tree.building.run [pending]

end JsonQuery
