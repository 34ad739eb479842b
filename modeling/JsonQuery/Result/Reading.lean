import JsonQuery.Cursor
import JsonQuery.Result.Basic

/-!
# Reading values from a text

- `parse` classifies the value that a text starts with;
- `Cursor.read?` reads the next value from a place on and passes over all that starts none.
-/

namespace JsonQuery

/-! ## The first value -/

/-- The value that a text starts with.  An object or an array takes all the rest of the text. -/
def parse (text : Bytes) : Result :=
  let start := Extent.ofSpace text
  let rest := text.drop start
  match Lead.of? rest with
  | none => .missing
  | some lead =>
    if lead.isContainer then .located (.ofSpan lead rest) start
    else
      match Extent.ofLead? lead rest with
      | some length => .located (.ofSpan lead (rest.take length)) start
      | none => .missing

/-! ## The next value -/

/-- A value and the place behind it. -/
structure Reading where
  value : Result
  next : Cursor
  deriving Repr, Inhabited

/-- Reads the value that starts at the cursor. -/
def Cursor.readHere? (c : Cursor) : Option Reading :=
  (Lead.of? c.rest).bind fun lead =>
    (Extent.ofLead? lead c.rest).map fun length =>
      ⟨.located (.ofSpan lead (c.rest.take length)) c.offset, c.advance length⟩

/-- The place behind the value that starts at the cursor. -/
def Cursor.skipHere? (c : Cursor) : Option Cursor :=
  (Extent.ofValue? c.rest).map (c.advance ·)

/-- Reads the next value from the cursor on; nothing when there is none or the text ends inside of
it. -/
def Cursor.read? (c : Cursor) : Option Reading :=
  (c.find startsValue).readHere?

/-! ## Every reading moves on -/

namespace Extent

theorem lt_of_closeFrom {place : Place} {depth length n : Nat} {text : Bytes}
    (h : closeFrom place depth length text = some n) : length < n := by
  induction text generalizing place depth length with
  | nil => simp [closeFrom] at h
  | cons c rest ih =>
    unfold closeFrom at h
    split at h
    · exact Nat.lt_of_succ_lt (ih h)
    · repeat' split at h
      all_goals exact Nat.lt_of_succ_lt (ih h)
    · split at h
      · exact Nat.lt_of_succ_lt (ih h)
      · split at h
        · exact Nat.lt_of_succ_lt (ih h)
        · split at h
          · split at h
            · exact Option.some.inj h ▸ Nat.lt_succ_self _
            · exact Nat.lt_of_succ_lt (ih h)
          · exact Nat.lt_of_succ_lt (ih h)

theorem pos_of_ofLead? {lead : Lead} {text : Bytes} {n : Nat} (hlead : Lead.of? text = some lead)
    (h : ofLead? lead text = some n) : 0 < n := by
  cases text with
  | nil => simp [Lead.of?] at hlead
  | cons c rest =>
    cases lead with
    | object => exact Nat.lt_of_succ_lt (lt_of_closeFrom h)
    | array => exact Nat.lt_of_succ_lt (lt_of_closeFrom h)
    | string =>
      obtain ⟨_, _, rfl⟩ := Option.map_eq_some_iff.1 h
      omega
    | number => exact Option.some.inj h ▸ Nat.succ_pos _
    | word => exact Option.some.inj h ▸ Nat.succ_pos _

end Extent

/-- Reading a value and passing over it lead to the same place. -/
theorem Cursor.skipHere?_eq (c : Cursor) : c.skipHere? = c.readHere?.map Reading.next := by
  unfold skipHere? readHere? Extent.ofValue?
  cases Lead.of? c.rest with
  | none => rfl
  | some lead => cases h : Extent.ofLead? lead c.rest <;> simp [h]

theorem Cursor.left_lt_of_readHere? {c : Cursor} {r : Reading} (h : c.readHere? = some r) :
    r.next.left < c.left := by
  obtain ⟨lead, hlead, h⟩ := Option.bind_eq_some_iff.1 h
  obtain ⟨n, hn, rfl⟩ := Option.map_eq_some_iff.1 h
  have hpos := Extent.pos_of_ofLead? hlead hn
  have hne : 0 < c.left := by
    cases hrest : c.rest with
    | nil => simp [hrest, Lead.of?] at hlead
    | cons => simp [Cursor.left, hrest]
  rw [Cursor.left_advance]
  omega

theorem Cursor.left_lt_of_skipHere? {c next : Cursor} (h : c.skipHere? = some next) :
    next.left < c.left := by
  rw [skipHere?_eq] at h
  obtain ⟨reading, hread, rfl⟩ := Option.map_eq_some_iff.1 h
  exact left_lt_of_readHere? hread

theorem Cursor.left_lt_of_read? {c : Cursor} {r : Reading} (h : c.read? = some r) :
    r.next.left < c.left :=
  Nat.lt_of_lt_of_le (Cursor.left_lt_of_readHere? h) (Cursor.left_find_le _ _)

/-! ## All values -/

/-- Reads all values from a cursor on; `found` lists those before, the last one first. -/
def Cursor.readAllFrom (found : List Result) (c : Cursor) : List Result :=
  match _hread : c.read? with
  | none => found.reverse
  | some reading => reading.next.readAllFrom (reading.value :: found)
termination_by c.left
decreasing_by exact left_lt_of_read? _hread

/-- The values of a text one after the other, such as those of a document with one on each line. -/
def parseAll (text : Bytes) : List Result :=
  (Cursor.start text).readAllFrom []

end JsonQuery
