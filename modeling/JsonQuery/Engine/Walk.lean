import JsonQuery.Engine.Counters
import JsonQuery.Path.Component
import JsonQuery.Path.Pipe
import JsonQuery.Result.Children

/-!
# Walking a document

A walk matches the components of a path against containers, from the outermost one inwards.  A scan
passes over the members of one container; where a component selects a container and the path goes
on, that container is scanned in turn, and if nothing is found in it the outer scan resumes behind
it.  The open scans form a stack, so neither the document nor the path bounds the walk.

- `Scan.step` takes a scan past one member or element;
- `Walk.run` drives the stack until something is found or no scan is left;
- `Walk.start` starts a walk at the first container of a text.

Counts, projections and filters of arrays look at all elements, and finish as soon as the array is
entered.
-/

namespace JsonQuery

open Ascii

/-! ## Scans -/

/-- A scan of one container. -/
inductive Scan where
  /-- Members whose keys a component selects. -/
  | members (component : KeyComponent)
  /-- The element at a position, with what follows it in the path and the number of elements
  passed. -/
  | elements (target : Option Nat) (tail : Tail) (passed : Nat)
  deriving DecidableEq, Repr, Inhabited

/-- What happens at one member or element. -/
inductive Event where
  /-- It is passed over. -/
  | skip (scan : Scan) (next : Cursor)
  /-- It is a container that the rest of the path is matched in. -/
  | enter (scan : Scan) (bracket : Cursor) (path : Bytes)
  /-- It is what the path asks for. -/
  | found (value : Result)
  /-- There is none: the container ends, or can not be read any further. -/
  | close (next : Cursor)
  deriving Repr, Inhabited

namespace Scan

/-- The value at a cursor that no component selects. -/
def pass (scan : Scan) (c : Cursor) : Event :=
  match c.skipHere? with
  | some next => .skip scan next
  | none => .close c.toEnd

/-- The value at a cursor that is asked for. -/
def take (c : Cursor) : Event :=
  match c.readHere? with
  | some reading => .found reading.value
  | none => .close c.toEnd

/-- A container starts at the cursor. -/
def atContainer (c : Cursor) : Bool :=
  ((Lead.of? c.rest).map Lead.isContainer).getD false

/-- The value at a cursor that a component selects: what is asked for if the path ends, and
otherwise a container to enter, or a scalar to pass over. -/
def select (scan : Scan) (tail : Tail) (c : Cursor) : Event :=
  match tail with
  | .deeper path => if atContainer c then .enter scan c path else scan.pass c
  | _ => take c

/-- One member of an object. -/
def stepMember (component : KeyComponent) (c : Cursor) : Event :=
  let start := c.toKey
  match start.keyHere? with
  | none => .close (if start.peek? = some closeBrace then start.advance 1 else start.toEnd)
  | some key =>
    let value := key.next.toValue closeBrace
    if value.peek? = some closeBrace then .close (value.advance 1)
    -- A member whose key fits but whose value does not lead on is passed over like any other
    else if component.selects key.body key.escaped then
      (members component).select component.tail value
    else (members component).pass value

/-- One element of an array. -/
def stepElement (target : Option Nat) (tail : Tail) (passed : Nat) (c : Cursor) : Event :=
  let value := c.toValue closeBracket
  let scan := elements target tail (passed + 1)
  if value.peek? = some closeBracket then .close (value.advance 1)
  else if target = some passed then scan.select tail value
  else scan.pass value

/-- One member or element. -/
def step (scan : Scan) (c : Cursor) : Event :=
  match scan with
  | members component => stepMember component c
  | elements target tail passed => stepElement target tail passed c

end Scan

/-! ## Scans only move on -/

/-- The places that an event names are behind a cursor. -/
def Event.Advances (c : Cursor) : Event → Prop
  | .skip _ next => next.left < c.left
  | .enter _ bracket _ => 0 < bracket.left ∧ bracket.left ≤ c.left
  | .found _ => True
  | .close next => next.left ≤ c.left

theorem Event.Advances.mono {c d : Cursor} (hle : d.left ≤ c.left) {event : Event}
    (h : event.Advances d) : event.Advances c := by
  cases event with
  | skip _ next => exact Nat.lt_of_lt_of_le h hle
  | enter _ bracket _ => exact ⟨h.1, Nat.le_trans h.2 hle⟩
  | found _ => trivial
  | close next => exact Nat.le_trans h hle

namespace Scan

theorem advances_close_toEnd (c : Cursor) : (Event.close c.toEnd).Advances c :=
  Nat.zero_le _

theorem advances_pass (scan : Scan) (c : Cursor) : (scan.pass c).Advances c := by
  unfold pass
  split
  · exact Cursor.left_lt_of_skipHere? ‹_›
  · exact advances_close_toEnd c

theorem advances_take (c : Cursor) : (take c).Advances c := by
  unfold take
  split
  · trivial
  · exact advances_close_toEnd c

theorem left_pos_of_atContainer {c : Cursor} (h : atContainer c = true) : 0 < c.left := by
  cases hrest : c.rest with
  | nil => simp [atContainer, hrest, Lead.of?] at h
  | cons => simp [Cursor.left, hrest]

theorem advances_select (scan : Scan) (tail : Tail) (c : Cursor) :
    (scan.select tail c).Advances c := by
  unfold select
  split
  · split
    · exact ⟨left_pos_of_atContainer ‹_›, Nat.le_refl _⟩
    · exact advances_pass scan c
  · exact advances_take c

theorem advances_stepMember (component : KeyComponent) (c : Cursor) :
    (stepMember component c).Advances c := by
  unfold stepMember
  have hstart := Cursor.left_toKey_le c
  dsimp only
  split
  · split
    · exact Nat.le_trans (Cursor.left_advance_le _ _) hstart
    · exact Nat.zero_le _
  · rename_i key hkey
    have hkey := Nat.le_trans (Cursor.left_le_of_keyHere? hkey) hstart
    have hvalue := Nat.le_trans (Cursor.left_toValue_le closeBrace key.next) hkey
    split
    · exact Nat.le_trans (Cursor.left_advance_le _ _) hvalue
    · split
      · exact (advances_select _ _ _).mono hvalue
      · exact (advances_pass _ _).mono hvalue

theorem advances_stepElement (target : Option Nat) (tail : Tail) (passed : Nat) (c : Cursor) :
    (stepElement target tail passed c).Advances c := by
  unfold stepElement
  have hvalue := Cursor.left_toValue_le closeBracket c
  dsimp only
  split
  · exact Nat.le_trans (Cursor.left_advance_le _ _) hvalue
  · split
    · exact (advances_select _ _ _).mono hvalue
    · exact (advances_pass _ _).mono hvalue

theorem advances_step (scan : Scan) (c : Cursor) : (scan.step c).Advances c := by
  cases scan with
  | members component => exact advances_stepMember component c
  | elements target tail passed => exact advances_stepElement target tail passed c

end Scan

/-! ## All elements of an array -/

/-- The elements of an array. -/
structure Elements where
  items : List Result
  next : Cursor
  /-- The array was read up to its bracket, or to the end of the text. -/
  complete : Bool
  deriving Repr, Inhabited

/-- Reads elements up to a closing bracket; `found` lists those before, the last one first. -/
def Cursor.elementsFrom (found : List Result) (c : Cursor) : Elements :=
  let value := c.toValue closeBracket
  if value.peek? = some closeBracket then ⟨found.reverse, value.advance 1, true⟩
  else
    match _hread : value.readHere? with
    | some reading => reading.next.elementsFrom (reading.value :: found)
    | none => ⟨found.reverse, value.toEnd, value.rest.isEmpty⟩
termination_by c.left
decreasing_by
  exact Nat.lt_of_lt_of_le (left_lt_of_readHere? _hread) (left_toValue_le closeBracket c)

theorem Cursor.left_elementsFrom_le (found : List Result) (c : Cursor) :
    (c.elementsFrom found).next.left ≤ c.left := by
  fun_induction elementsFrom found c with
  | case1 found c value h =>
    exact Nat.le_trans (left_advance_le _ _) (left_toValue_le closeBracket c)
  | case2 found c value h reading hread ih =>
    have hlt := left_lt_of_readHere? hread
    have hle := left_toValue_le closeBracket c
    exact Nat.le_trans ih (Nat.le_trans (Nat.le_of_lt hlt) hle)
  | case3 found c value h hread => exact Nat.zero_le _

/-! ## Gathering -/

/-- A value and its offset, as an item of a gathered array. -/
structure Gathered where
  raw : Bytes
  offset : Nat
  deriving DecidableEq, Repr, Inhabited

namespace Gathered

/-- A value found inside of an element; without a place of its own it counts as found where the
element is. -/
def ofResult (value element : Result) : Gathered :=
  ⟨value.raw, (value.index <|> element.index).getD 0⟩

/-- The array of all gathered values. -/
def collect (items : List Gathered) : Result :=
  let raw := openBracket :: Bytes.commaJoin (items.map Gathered.raw) ++ [closeBracket]
  if items.isEmpty then .built (.json raw) else ⟨.json raw, none, some (items.map offset)⟩

end Gathered

/-! ## Walks -/

/-- What a walk needs to know about its engine. -/
structure Surroundings where
  dialect : Dialect
  /-- Resolves a path inside of a text with some depth left. -/
  nested : (text path : Bytes) → (room : Nat) → Counted Result

/-- Resolves a path inside of a value. -/
def Surroundings.descend (env : Surroundings) (value : Result) (path : Bytes) (room : Nat) :
    Counted Result :=
  (env.nested value.raw path room).map (·.rebase value.index)

/-- What a walk has come to. -/
structure Walk where
  /-- The value found so far. -/
  value : Result := .missing
  /-- The path that is still to be applied to the value. -/
  pipe : Option Bytes := none
  counts : Counters := .zero
  deriving DecidableEq, Repr, Inhabited

/-- An open scan, and how many containers may be open from it inwards. -/
structure Frame where
  scan : Scan
  room : Nat
  deriving DecidableEq, Repr, Inhabited

/-- What entering a container leads to. -/
inductive Opening where
  /-- The container is scanned. -/
  | scan (frame : Frame)
  /-- The container was looked through without finding anything. -/
  | passed (next : Cursor)
  /-- The walk is over. -/
  | over
  deriving Repr, Inhabited

namespace Walk

/-- Adds to the counters. -/
def count (counts : Counters) (walk : Walk) : Walk :=
  { walk with counts := walk.counts + counts }

/-- Keeps the pipe behind a component that ends its path. -/
def keepPipe (tail : Tail) (walk : Walk) : Walk :=
  match tail with
  | .pipe path => { walk with pipe := some path }
  | _ => walk

/-- Keeps a pipe that was split off a path, if there is one. -/
def keepSplit (pipe : Option Bytes) (walk : Walk) : Walk :=
  match pipe with
  | some path => { walk with pipe := some path }
  | none => walk

/-! ## Projections and filters -/

/-- What a path finds in each of the elements, behind what it found before. -/
def project (env : Surroundings) (path : Bytes) (room : Nat) (walk : Walk) (kept : List Gathered) :
    List Result → Walk
  | [] => { walk with value := Gathered.collect kept.reverse }
  | element :: elements =>
    let found := env.descend element path room
    let walk := walk.count found.counts
    if found.value.found then
      project env path room walk (Gathered.ofResult found.value element :: kept) elements
    else project env path room walk kept elements

/-- Whether an element passes a filter.  Scalars have no inside, so only the empty path finds
anything in one. -/
def judge (env : Surroundings) (f : Filter) (room : Nat) (element : Result) : Counted Bool :=
  match element.value with
  | .json _ => (env.descend element f.path room).map f.accepts
  | _ => .quiet (f.path.isEmpty && f.accepts element)

/-- What is taken from an element that passes a filter. -/
def pick (env : Surroundings) (path : Option Bytes) (room : Nat) (element : Result) :
    Counted Result :=
  match path with
  | some path => env.descend element path room
  | none => .quiet element

/-- Where a filter leads to. -/
structure Filtered where
  walk : Walk
  /-- The values kept so far, the last one first. -/
  kept : List Gathered
  /-- A filter for the first match has found it. -/
  settled : Bool

/-- Applies a filter to elements in order.  `path` is what follows the filter, up to its pipe. -/
def filterFrom (env : Surroundings) (f : Filter) (path pipe : Option Bytes) (room : Nat)
    (walk : Walk) (kept : List Gathered) : List Result → Filtered
  | [] => ⟨walk, kept, false⟩
  | element :: elements =>
    let verdict := judge env f room element
    let walk := walk.count verdict.counts
    if verdict.value then
      let picked := pick env path room element
      -- The pipe is kept as soon as any element passes
      let walk := (walk.keepSplit pipe).count picked.counts
      if f.collects then
        let kept :=
          if picked.value.found then Gathered.ofResult picked.value element :: kept else kept
        filterFrom env f path pipe room walk kept elements
      else ⟨{ walk with value := picked.value }, kept, true⟩
    else filterFrom env f path pipe room walk kept elements

/-- The path inside of the elements that pass a filter, and the pipe split off it. -/
def insidePath : Tail → Option Bytes × Option Bytes
  | .deeper path => (some (Pipe.split path).1, (Pipe.split path).2)
  | _ => (none, none)

/-- Ends the look through an array.  The values that a filter collects count as found only if
nothing was found before, and do not end the walk. -/
def Filtered.close (collects : Bool) (array : Elements) (filtered : Filtered) : Walk × Opening :=
  if filtered.settled then (filtered.walk, .over)
  else if array.complete && collects && !filtered.walk.value.found then
    ({ filtered.walk with value := Gathered.collect filtered.kept.reverse }, .passed array.next)
  else (filtered.walk, .passed array.next)

/-- Applies a filter to an array. -/
def openFilter (env : Surroundings) (f : Filter) (tail : Tail) (room : Nat) (walk : Walk)
    (array : Elements) : Walk × Opening :=
  let (path, pipe) := insidePath tail
  (filterFrom env f path pipe room walk [] array.items).close f.collects array

theorem Filtered.opening_of_close_eq {collects : Bool} {array : Elements} {filtered : Filtered}
    {walk : Walk} {opening : Opening} (h : filtered.close collects array = (walk, opening)) :
    opening = .passed array.next ∨ opening = .over := by
  unfold Filtered.close at h
  split at h
  · cases h
    exact .inr rfl
  · split at h
    · cases h
      exact .inl rfl
    · cases h
      exact .inl rfl

/-! ## Entering a container -/

/-- Enters the array whose elements start at a cursor. -/
def openArray (env : Surroundings) (c : Cursor) (path : Bytes) (room : Nat) (walk : Walk) :
    Walk × Opening :=
  match ElementComponent.parse? env.dialect path with
  | none => (walk, .over)
  | some component =>
    let walk := walk.keepPipe component.tail
    match component.selection with
    | .position target => (walk, .scan ⟨.elements target component.tail 0, room⟩)
    -- The other selections look at every element, so nothing is left to scan
    | .count =>
      let array := c.elementsFrom []
      if array.complete then ({ walk with value := .count array.items.length }, .over)
      else (walk, .passed array.next)
    | .each path =>
      let array := c.elementsFrom []
      if array.complete then
        let (path, pipe) := Pipe.split path
        (project env path (room - 1) (walk.keepSplit pipe) [] array.items, .over)
      else (walk, .passed array.next)
    | .filter f => openFilter env f component.tail (room - 1) walk (c.elementsFrom [])

/-- Enters the object whose members start behind its brace. -/
def openObject (env : Surroundings) (path : Bytes) (room : Nat) (walk : Walk) : Walk × Opening :=
  let component := KeyComponent.parse env.dialect path
  (walk.keepPipe component.tail, .scan ⟨.members component, room⟩)

/-- Enters the container whose inside starts at a cursor.  Without room the walk is over. -/
def openAt (env : Surroundings) (object : Bool) (c : Cursor) (path : Bytes) (room : Nat)
    (walk : Walk) : Walk × Opening :=
  if room = 0 then (walk.count .oneDepthHit, .over)
  else if object then openObject env path room walk
  else openArray env c path room walk

/-- What entering a container leads to: a scan of it, the end of an array that was looked through,
or the end of the walk. -/
theorem openAt_cases {env : Surroundings} {object : Bool} {c : Cursor} {path : Bytes} {room : Nat}
    {walk after : Walk} {opening : Opening}
    (h : openAt env object c path room walk = (after, opening)) :
    (∃ scan, opening = .scan ⟨scan, room⟩ ∧ room ≠ 0) ∨
      (opening = .passed (c.elementsFrom []).next ∧ room ≠ 0) ∨ opening = .over := by
  unfold openAt at h
  split at h
  · cases h
    exact .inr (.inr rfl)
  · rename_i hroom
    split at h
    · cases h
      exact .inl ⟨_, rfl, hroom⟩
    · unfold openArray at h
      split at h
      · cases h
        exact .inr (.inr rfl)
      · dsimp only at h
        split at h
        · cases h
          exact .inl ⟨_, rfl, hroom⟩
        · split at h <;> cases h
          · exact .inr (.inr rfl)
          · exact .inr (.inl ⟨rfl, hroom⟩)
        · split at h <;> cases h
          · exact .inr (.inr rfl)
          · exact .inr (.inl ⟨rfl, hroom⟩)
        · obtain hopening | hopening := Filtered.opening_of_close_eq h
          · exact .inr (.inl ⟨hopening, hroom⟩)
          · exact .inr (.inr hopening)

/-- What is looked through is an array, up to its end. -/
theorem eq_next_of_openAt_eq_passed {env : Surroundings} {object : Bool} {c next : Cursor}
    {path : Bytes} {room : Nat} {walk after : Walk}
    (h : openAt env object c path room walk = (after, .passed next)) :
    next = (c.elementsFrom []).next := by
  obtain ⟨_, hscan, -⟩ | ⟨hpassed, -⟩ | hover := openAt_cases h
  · cases hscan
  · exact Opening.passed.inj hpassed
  · cases hover

/-- Entering a container leads no further back than its inside. -/
theorem left_openAt_passed_le {env : Surroundings} {object : Bool} {c next : Cursor} {path : Bytes}
    {room : Nat} {walk after : Walk}
    (h : openAt env object c path room walk = (after, .passed next)) : next.left ≤ c.left := by
  rw [eq_next_of_openAt_eq_passed h]
  exact Cursor.left_elementsFrom_le [] c

/-! ## The stack -/

/-- Drives the open scans, the innermost first, from a cursor on. -/
def run (env : Surroundings) (walk : Walk) (c : Cursor) : List Frame → Walk
  | [] => walk
  | frame :: frames =>
    match _hstep : frame.scan.step c with
    | .skip scan next => run env walk next ({ frame with scan } :: frames)
    | .close next => run env walk next frames
    | .found value => { walk with value }
    | .enter scan bracket path =>
      let object := bracket.peek? = some openBrace
      let outer := { frame with scan } :: frames
      match _hopen : openAt env object (bracket.advance 1) path (frame.room - 1) walk with
      | (walk, .scan inner) => run env walk (bracket.advance 1) (inner :: outer)
      -- Nothing was found inside: the outer scan resumes behind the container
      | (walk, .passed next) => run env walk next outer
      | (walk, .over) => walk
termination_by frames => 2 * c.left + frames.length
decreasing_by
  all_goals
    have hadv := Scan.advances_step frame.scan c
    rw [_hstep] at hadv
    simp only [Event.Advances] at hadv
    simp only [List.length_cons]
  · omega
  · omega
  · simp only [Cursor.left_advance]
    omega
  · have hle := left_openAt_passed_le _hopen
    rw [Cursor.left_advance] at hle
    omega

/-! ## Starting -/

/-- The path behind two dots, which make an array of the values of a text. -/
def lines? : Bytes → Option Bytes
  | a :: b :: rest => if a = dot && b = dot then some rest else none
  | _ => none

/-- Starts with the container whose inside starts at a cursor. -/
def enter (env : Surroundings) (object : Bool) (c : Cursor) (path : Bytes) (room : Nat) : Walk :=
  match openAt env object c path room {} with
  | (walk, .scan frame) => run env walk c [frame]
  | (walk, _) => walk

/-- Walks the first object or array of a text, wherever it is; behind two dots, the text itself as
an array of all its values. -/
def start (env : Surroundings) (text path : Bytes) (room : Nat) : Walk :=
  match lines? path with
  | some rest => enter env false (.start text) rest room
  | none =>
    let bracket := (Cursor.start text).toContainer
    match bracket.peek? with
    | none => {}
    | some b => enter env (b == openBrace) (bracket.advance 1) path room

end Walk

end JsonQuery
