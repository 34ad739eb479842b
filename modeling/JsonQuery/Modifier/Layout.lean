import JsonQuery.Loop
import JsonQuery.Result.Children
import JsonQuery.Text.Blank
import JsonQuery.Text.Shown

/-!
# Layout of documents

- `compact` takes the space between the tokens of a document away;
- `Layout.pretty` gives each member of a container a line of its own.  Arrays that are short enough
  stay on one line, together with all that is in them.

Both only move space about.  Containers that are nested too deep for lines are written compactly.
Writing keeps a frame for each container that is open.
-/

namespace JsonQuery

open Ascii

/-! ## Compact form -/

/-- Continues with the bytes kept so far, the last one first. -/
def compactFrom (place : Extent.Place) (kept : Bytes) : Bytes → Bytes
  | [] => kept.reverse
  | c :: rest =>
    match place with
    | .escaped => compactFrom .quoted (c :: kept) rest
    | .quoted =>
      if c = backslash then compactFrom .escaped (c :: kept) rest
      else if c = quote then compactFrom .plain (c :: kept) rest
      else compactFrom .quoted (c :: kept) rest
    | .plain =>
      if isSpace c then compactFrom .plain kept rest
      else if c = quote then compactFrom .quoted (c :: kept) rest
      else compactFrom .plain (c :: kept) rest

/-- A document without the space between its tokens. -/
def compact (document : Bytes) : Bytes :=
  compactFrom .plain [] document

/-! ## Options -/

/-- How a document is laid out. -/
structure Layout where
  /-- Arrays that end up to this column stay on one line. -/
  width : Nat := 80
  /-- Written at the start of every line. -/
  margin : Bytes := []
  /-- One level of indentation. -/
  indent : Bytes := [space, space]
  /-- The members of objects are put in the order of their keys. -/
  sortKeys : Bool := false
  deriving DecidableEq, Repr, Inhabited

/-- Why options are refused. -/
inductive LayoutError where
  | indentNotBlank (indent : Bytes)
  | marginNotBlank (margin : Bytes)
  deriving DecidableEq, Repr

/-- What refused options are answered with. -/
def LayoutError.message : LayoutError → Bytes
  | indentNotBlank text => notBlank "indent" text
  | marginNotBlank text => notBlank "prefix" text
where
  /-- The message for an option that is not blank. -/
  notBlank (name : String) (text : Bytes) : Bytes :=
    Bytes.ofString
        ("Invalid configuration parameter: " ++ name ++ " must contain only whitespace, got ")
      ++ Shown.ofText text

namespace Layout

/-- A text of blank characters. -/
def isBlankText (text : Bytes) : Bool :=
  (Utf8.chars text).all Blank.isBlank

/-- The fault of options, if they have one: texts that would be more than space. -/
def fault? (layout : Layout) : Option LayoutError :=
  if !isBlankText layout.indent then some (.indentNotBlank layout.indent)
  else if !isBlankText layout.margin then some (.marginNotBlank layout.margin)
  else none

/-! ## Items of a document -/

/-- A piece of a document.  An object holds its keys and values in turns. -/
inductive Item where
  | key (span : Bytes) (escaped : Bool)
  | scalar (span : Bytes)
  /-- A container with its items, the columns that it takes on one line, and its source: the
  document from its bracket on, and its length. -/
  | container (object : Bool) (items : List Item) (width : Nat) (source : Bytes) (length : Nat)
  /-- The closing bracket of a container, where an item is missing. -/
  | closer
  deriving Inhabited

namespace Item

/-- The text of an item that is no container. -/
def text : Item → Bytes
  | key span _ | scalar span => span
  | container .. | closer => []

/-- The name that an item has as a key. -/
def name : Item → Bytes
  | key span escaped =>
    let body := (span.drop 1).dropLast
    if escaped then Quoted.decode body else body
  | _ => []

end Item

/-! ## Reading items -/

/-- A container that is being read. -/
structure Draft where
  object : Bool
  /-- The place of its bracket. -/
  bracket : Cursor
  /-- The items so far, the last one first. -/
  items : List Item
  /-- The columns of the items so far. -/
  width : Nat
  /-- The number of values so far. -/
  members : Nat
  /-- A key comes next. -/
  awaitsKey : Bool
  deriving Inhabited

namespace Draft

/-- The container that opens at a cursor. -/
def openAt (object : Bool) (bracket : Cursor) : Draft :=
  ⟨object, bracket, [], 0, 0, object⟩

/-- The draft with a value of a known width. -/
def addValue (item : Item) (width : Nat) (draft : Draft) : Draft :=
  { draft with
    items := item :: draft.items
    width := draft.width + width
    members := draft.members + 1
    awaitsKey := draft.object }

/-- The draft with a key, which a colon and a space follow. -/
def addKey (key : Key) (draft : Draft) : Draft :=
  { draft with
    items := .key key.span key.escaped :: draft.items
    width := draft.width + Utf8.length key.span + 2
    awaitsKey := false }

/-- The columns of the whole container on one line: the items, the brackets, and a comma and a
space between neighbours. -/
def fullWidth (draft : Draft) : Nat :=
  draft.width + 2 + 2 * (draft.members - 1)

/-- The finished container, which ends at a cursor. -/
def finish (next : Cursor) (draft : Draft) : Item :=
  .container draft.object draft.items.reverse draft.fullWidth draft.bracket.rest
    (next.offset - draft.bracket.offset)

/-- Whether a bracket may close the container here. -/
def closesWith (c : UInt8) (draft : Draft) : Bool :=
  draft.object == (c == closeBrace) && (!draft.object || draft.awaitsKey)

end Draft

/-- Whether the innermost container expects a key. -/
def awaitsKey : List Draft → Bool
  | [] => false
  | draft :: _ => draft.awaitsKey

/-- One step of reading. -/
inductive Progress where
  /-- Reading goes on with other open containers. -/
  | more (drafts : List Draft) (next : Cursor)
  /-- The value is complete. -/
  | whole (item : Item)
  | failed

/-- Adds a value to the innermost container; without one it is the whole value. -/
def Progress.value (item : Item) (width : Nat) (next : Cursor) : List Draft → Progress
  | [] => .whole item
  | draft :: outer => .more (draft.addValue item width :: outer) next

/-- Reads the token at a cursor. -/
def readToken (drafts : List Draft) (c : Cursor) : Progress :=
  match c.rest with
  | [] => .failed
  | b :: _ =>
    if opensContainer b then
      .more (.openAt (b == openBrace) c :: drafts) (c.advance 1)
    else if b = closeBrace || b = closeBracket then
      match drafts with
      | [] => .failed
      | draft :: outer =>
        if draft.closesWith b then
          .value (draft.finish (c.advance 1)) draft.fullWidth (c.advance 1) outer
        else .failed
    else if awaitsKey drafts then
      match c.keyHere?, drafts with
      | some key, draft :: outer => .more (draft.addKey key :: outer) key.next
      | _, _ => .failed
    else
      match c.skipHere? with
      | some next =>
        let span := c.rest.take (next.offset - c.offset)
        .value (.scalar span) (Utf8.length span) next drafts
      | none => .failed

theorem left_lt_of_keyHere? {c : Cursor} {key : Key} (h : c.keyHere? = some key) :
    key.next.left < c.left := by
  unfold Cursor.keyHere? at h
  split at h
  · cases h
  · rename_i lead rest hrest
    split at h
    · obtain ⟨_, _, rfl⟩ := Option.map_eq_some_iff.1 h
      rw [Cursor.left_advance]
      simp only [Cursor.left, hrest, List.length_cons]
      omega
    · cases h

theorem Progress.next_of_value {item : Item} {width : Nat} {next place : Cursor}
    {drafts after : List Draft} (h : Progress.value item width next drafts = .more after place) :
    place = next := by
  unfold Progress.value at h
  split at h
  · cases h
  · cases h
    rfl

theorem left_readToken_lt {drafts after : List Draft} {c next : Cursor}
    (h : readToken drafts c = .more after next) : next.left < c.left := by
  unfold readToken at h
  split at h
  · cases h
  · rename_i b rest hrest
    have hadvance : (c.advance 1).left < c.left := by
      rw [Cursor.left_advance]
      simp only [Cursor.left, hrest, List.length_cons]
      omega
    split at h
    · cases h
      exact hadvance
    · split at h
      · split at h
        · cases h
        · split at h
          · exact Progress.next_of_value h ▸ hadvance
          · cases h
      · split at h
        · split at h
          · cases h
            exact left_lt_of_keyHere? ‹_›
          · cases h
        · split at h
          · rw [Progress.next_of_value h]
            exact Cursor.left_lt_of_skipHere? ‹_›
          · cases h

/-- Reads one value from a cursor on, inside of the open containers, the innermost first.  Commas
and colons are passed over like space. -/
def readFrom (drafts : List Draft) (c : Cursor) : Option Item :=
  match _hread : readToken drafts (c.find (!isSeparator ·)) with
  | .more drafts next => readFrom drafts next
  | .whole item => some item
  | .failed => none
termination_by c.left
decreasing_by exact Nat.lt_of_lt_of_le (left_readToken_lt _hread) (Cursor.left_find_le _ _)

/-- The first value of a document; nothing when it is not complete. -/
def read? (document : Bytes) : Option Item :=
  let c := (Cursor.start document).find (!isSpace ·)
  if (c.peek?.map startsValue).getD false then readFrom [] c else none

/-! ## Members -/

/-- A member of an object, or an element of an array without key. -/
structure Member where
  key : Option Item
  value : Item
  deriving Inhabited

mutual

/-- The number of tokens of an item. -/
def Item.size : Item → Nat
  | .container _ items _ _ _ => itemsSize items + 2
  | .key _ _ | .scalar _ | .closer => 1

/-- The number of tokens of items. -/
def itemsSize : List Item → Nat
  | [] => 0
  | item :: items => item.size + itemsSize items

end

theorem itemsSize_append (a b : List Item) : itemsSize (a ++ b) = itemsSize a + itemsSize b := by
  induction a with
  | nil => simp [itemsSize]
  | cons item items ih =>
    rw [List.cons_append, itemsSize, itemsSize, ih]
    omega

/-- The tokens of an object behind a key.  A container in the place of a key gives its opening
bracket for the key, and the tokens behind that follow. -/
def behindKey (key : Item) (rest : List Item) : List Item :=
  match key with
  | .container _ items _ _ _ => items ++ .closer :: rest
  | _ => rest

theorem itemsSize_behindKey_lt (key : Item) (rest : List Item) :
    itemsSize (behindKey key rest) < key.size + itemsSize rest := by
  cases key with
  | container object items width source length =>
    rw [behindKey, itemsSize_append, itemsSize, Item.size, Item.size]
    omega
  | _ =>
    rw [behindKey, Item.size]
    · omega
    all_goals simp

/-- The members of an object, keys and values in turns. -/
def pairs (items : List Item) : List Member :=
  match items with
  | [] => []
  | key :: rest =>
    match _hbehind : behindKey key rest with
    -- The bracket of the object stands where the value is missing
    | [] => [⟨some key, .closer⟩]
    | value :: rest => ⟨some key, value⟩ :: pairs rest
termination_by itemsSize items
decreasing_by
  rename_i tail
  have hlt := itemsSize_behindKey_lt key tail
  rw [_hbehind] at hlt
  simp only [itemsSize] at hlt ⊢
  omega

/-- The members in the order of their keys; those of one key keep their order. -/
def sortMembers (members : List Member) : List Member :=
  let named := members.map fun member => ((member.key.map Item.name).getD [], member)
  (named.mergeSort fun a b => !(b.1 < a.1)).map Prod.snd

/-- The members of a container in the order in which they are written. -/
def members (layout : Layout) (object : Bool) (items : List Item) : List Member :=
  if object then
    if layout.sortKeys then sortMembers (pairs items) else pairs items
  else items.map fun item => ⟨none, item⟩

/-! ## Writing -/

/-- A text that is being written. -/
structure Page where
  /-- The bytes so far, the last one first. -/
  written : Bytes := []
  /-- The characters since the start of the line. -/
  column : Nat := 0
  deriving Inhabited

namespace Page

/-- The page with one more byte. -/
def put (page : Page) (c : UInt8) : Page :=
  { written := c :: page.written
    column :=
      if c = lineFeed then 0
      else if Utf8.isContinuation c then page.column
      else page.column + 1 }

/-- The page with more text. -/
def push (text : Bytes) (page : Page) : Page :=
  text.foldl put page

end Page

/-- The number of levels that are written on lines of their own. -/
def maxLevels : Nat :=
  1024

/-- Starts a line at a level. -/
def startLine (layout : Layout) (level : Nat) (page : Page) : Page :=
  let page := (page.push [lineFeed]).push layout.margin
  level.repeat (Page.push layout.indent) page

/-- What stands before a member: a comma behind another one, and a new line or a space. -/
def separate (layout : Layout) (inline first : Bool) (level : Nat) (page : Page) : Page :=
  if inline then if first then page else page.push [comma, space]
  else layout.startLine level (if first then page else page.push [comma])

/-- The opening bracket of a container. -/
def opener (object : Bool) : UInt8 :=
  if object then openBrace else openBracket

/-- The closing bracket of a container. -/
def closing (object : Bool) : UInt8 :=
  if object then closeBrace else closeBracket

/-- Writes what stands in front of the value of a member, its key included. -/
def writeFront (layout : Layout) (inline first : Bool) (level : Nat) (member : Member)
    (page : Page) : Page :=
  let page := layout.separate inline first level page
  match member.key with
  | some key => (page.push key.text).push [colon, space]
  | none => page

/-- A container that is being written. -/
structure Frame where
  /-- The members that are left. -/
  members : List Member
  /-- No member is written so far. -/
  first : Bool
  level : Nat
  object : Bool
  /-- The container stays on one line. -/
  inline : Bool
  deriving Inhabited

/-- A document that is being written: the page, and the containers that are open, the innermost
first. -/
structure Printing where
  page : Page
  frames : List Frame
  deriving Inhabited

namespace Printing

/-- Writes an item at a level, or opens it; `inline` inside of an array on one line. -/
def enter (layout : Layout) (level : Nat) (inline : Bool) (item : Item) (printing : Printing) :
    Printing :=
  let ⟨page, frames⟩ := printing
  match item with
  | .container object items width source length =>
    if items.isEmpty then ⟨page.push [opener object, closing object], frames⟩
    -- Too deep for lines: the rest of the container goes on the current one
    else if maxLevels ≤ level then ⟨page.push (compact (source.take length)), frames⟩
    else
      let inline := inline || (!object && page.column + width ≤ layout.width)
      ⟨page.push [opener object],
        ⟨layout.members object items, true, level, object, inline⟩ :: frames⟩
  | item => ⟨page.push item.text, frames⟩

/-- One turn of writing: the next member of the innermost container is written up to its value,
which is written or opened, or else the container is closed. -/
def turn (layout : Layout) : Printing → Turn Printing Page
  | ⟨page, []⟩ => .over page
  | ⟨page, ⟨[], _, level, object, inline⟩ :: outer⟩ =>
    let page := if inline then page else layout.startLine level page
    .again ⟨page.push [closing object], outer⟩
  | ⟨page, ⟨member :: members, first, level, object, inline⟩ :: outer⟩ =>
    let page := layout.writeFront inline first (level + 1) member page
    .again (enter layout (level + 1) inline member.value
      ⟨page, ⟨members, false, level, object, inline⟩ :: outer⟩)

/-- The values in an item. -/
def inside (layout : Layout) : Item → List Item
  | .container object items _ _ _ => (layout.members object items).map Member.value
  | _ => []

/-- The most turns that are left for the containers that are open. -/
def framesCost (layout : Layout) : List Frame → Nat
  | [] => 0
  | frame :: outer =>
    Loop.listCost (Loop.cost (inside layout) (maxLevels - (frame.level + 1)))
      (frame.members.map Member.value) + framesCost layout outer

/-- The most turns that are left. -/
def cost (layout : Layout) (printing : Printing) : Nat :=
  framesCost layout printing.frames

/-- Writing or opening a value takes up what it costs the container around it. -/
theorem cost_enter_lt (layout : Layout) (member : Member) (frame : Frame) (page : Page)
    (outer : List Frame) :
    cost layout (enter layout (frame.level + 1) frame.inline member.value ⟨page, frame :: outer⟩) <
      framesCost layout ({ frame with members := member :: frame.members } :: outer) := by
  have htake : framesCost layout (frame :: outer) <
      framesCost layout ({ frame with members := member :: frame.members } :: outer) :=
    Nat.add_lt_add_right Loop.listCost_take _
  obtain ⟨key, item⟩ := member
  cases item with
  | key | scalar | closer => exact htake
  | container object items width source length =>
    unfold enter
    dsimp only
    split
    · exact htake
    · split
      · exact htake
      · -- The container has one level less than the one around it
        obtain ⟨below, hbelow⟩ : ∃ below, maxLevels - (frame.level + 1) = below + 1 :=
          ⟨maxLevels - (frame.level + 1) - 1, by omega⟩
        have hinner : maxLevels - (frame.level + 1 + 1) = below := by omega
        have hopen := Loop.listCost_open (inside layout) below
          (.container object items width source length) (frame.members.map Member.value)
        rw [cost, framesCost, framesCost, framesCost, hinner, hbelow, ← Nat.add_assoc]
        exact Nat.add_lt_add_right hopen _

theorem cost_lt {layout : Layout} {printing next : Printing}
    (h : printing.turn layout = .again next) : next.cost layout < printing.cost layout := by
  unfold turn at h
  split at h
  · cases h
  · cases h
    exact Nat.lt_add_of_pos_left (Loop.listCost_pos _ _)
  · rename_i page member members first level object inline outer
    cases h
    exact cost_enter_lt layout member ⟨members, false, level, object, inline⟩ _ outer

end Printing

/-- Writing ends where all containers are closed. -/
def writing (layout : Layout) : Loop Printing Page Nat where
  turn := Printing.turn layout
  left := Printing.cost layout
  left_lt := Printing.cost_lt

/-- A document laid out on lines, the last one ended.  One that does not start with a complete value
is left as it is. -/
def pretty (layout : Layout) (document : Bytes) : Bytes :=
  match read? document with
  | none => document
  | some item =>
    let page := layout.writing.run (.enter layout 0 false item ⟨Page.push layout.margin {}, []⟩)
    (page.push [lineFeed]).written.reverse

end Layout

end JsonQuery
