import JsonQuery.Proofs.Lookahead
import Mathlib.Data.List.Range
import Mathlib.Logic.Relation

/-!
# The stages of a walk

A walk goes from stage to stage: the innermost open scan passes over a member, ends, finds what the
path asks for, or comes to a container, which is entered or ends the walk.  No bound on the document
or the path is needed for the walk to end, since the place in the text never comes back, and lies
behind the bracket of every container that was ever descended into.

## Layers

- **Places**: `Cursor.Ahead` relates a place to those further on in the same text, which is all that
  scans lead to.
- **Stages**: `Walk.Stage.next?` is the stage behind a stage, and all of them have one outcome,
  which is that of the walk.
- **Order**: `Walk.Stage.Orderly` holds of the first stage and of the one behind an orderly one, so
  of all stages.
- **The last stage**: every stage leaves less of the walk, so there is a last one, by induction on
  what is left.
-/

namespace JsonQuery

open Ascii Grammar

/-! ## Places -/

/-- A place further on in whatever text the first one is a place of. -/
structure Cursor.Ahead (c next : Cursor) : Prop where
  offset_le : c.offset ≤ next.offset
  isIn : ∀ text, c.IsIn text → next.IsIn text

namespace Cursor

variable {c d next : Cursor}

theorem Ahead.refl (c : Cursor) : c.Ahead c :=
  ⟨Nat.le_refl _, fun _ => id⟩

theorem Ahead.trans (h : c.Ahead d) (hnext : d.Ahead next) : c.Ahead next :=
  ⟨Nat.le_trans h.offset_le hnext.offset_le, fun text hin => hnext.isIn text (h.isIn text hin)⟩

/-- Further on no more is left. -/
theorem Ahead.left_le {text : Bytes} (h : c.Ahead next) (hin : c.IsIn text) :
    next.left ≤ c.left := by
  have hoffset := h.offset_le
  have hnext := h.isIn text hin
  unfold IsIn at hin hnext
  rw [left, left, hin, hnext, List.length_drop, List.length_drop]
  omega

theorem ahead_advance (n : Nat) (c : Cursor) : c.Ahead (c.advance n) :=
  ⟨c.offset_le_advance n, fun _ hin => hin.advance n⟩

theorem ahead_find (p : UInt8 → Bool) (c : Cursor) : c.Ahead (c.find p) :=
  ⟨c.offset_le_find p, fun _ hin => hin.find p⟩

theorem ahead_toEnd (c : Cursor) : c.Ahead c.toEnd :=
  ⟨c.offset_le_toEnd, fun _ hin => hin.toEnd⟩

theorem ahead_of_skipHere? (h : c.skipHere? = some next) : c.Ahead next := by
  obtain ⟨n, -, rfl⟩ := Option.map_eq_some_iff.1 h
  exact c.ahead_advance n

theorem ahead_of_readHere? {reading : Reading} (h : c.readHere? = some reading) :
    c.Ahead reading.next :=
  ahead_of_skipHere? (by rw [skipHere?_eq, h, Option.map_some])

theorem ahead_of_keyHere? {key : Key} (h : c.keyHere? = some key) : c.Ahead key.next :=
  ahead_of_readHere? (readHere?_of_keyHere? h)

theorem ahead_elementsFrom (found : List Result) (c : Cursor) :
    c.Ahead (c.elementsFrom found).next := by
  fun_induction elementsFrom found c with
  | case1 found c value hcloser => exact (c.ahead_find _).trans (ahead_advance 1 value)
  | case2 found c value hcloser reading hread ih =>
    exact (c.ahead_find _).trans ((ahead_of_readHere? hread).trans ih)
  | case3 found c value hcloser hread => exact (c.ahead_find _).trans value.ahead_toEnd

end Cursor

/-- An event leads to a place further on, and enters at a bracket only. -/
def Event.LeadsAhead (c : Cursor) : Event → Prop
  | .skip _ next | .close next => c.Ahead next
  | .enter _ bracket _ => c.Ahead bracket ∧ Scan.atContainer bracket = true
  | .found _ => True

theorem Event.LeadsAhead.mono {c d : Cursor} (hahead : c.Ahead d) {event : Event}
    (h : event.LeadsAhead d) : event.LeadsAhead c := by
  cases event with
  | skip scan next => exact hahead.trans h
  | enter scan bracket path => exact ⟨hahead.trans h.1, h.2⟩
  | found value => trivial
  | close next => exact hahead.trans h

namespace Scan

theorem peek?_of_atContainer {c : Cursor} (h : atContainer c = true) :
    c.peek? = some openBrace ∨ c.peek? = some openBracket := by
  rw [atContainer_eq] at h
  cases hpeek : c.peek? with
  | none =>
    rw [hpeek] at h
    cases h
  | some b =>
    rw [hpeek] at h
    have hopens : opensContainer b = true := h
    simpa [opensContainer, or_comm] using hopens

theorem leadsAhead_pass (scan : Scan) (c : Cursor) : (scan.pass c).LeadsAhead c := by
  unfold pass
  split
  · exact Cursor.ahead_of_skipHere? ‹_›
  · exact c.ahead_toEnd

theorem leadsAhead_take (c : Cursor) : (take c).LeadsAhead c := by
  unfold take
  split
  · trivial
  · exact c.ahead_toEnd

theorem leadsAhead_select (scan : Scan) (tail : Tail) (c : Cursor) :
    (scan.select tail c).LeadsAhead c := by
  unfold select
  split
  · split
    · exact ⟨.refl c, ‹_›⟩
    · exact leadsAhead_pass scan c
  · exact leadsAhead_take c

theorem leadsAhead_visit (closer : UInt8) (selected : Bool) (scan : Scan) (tail : Tail)
    (value : Cursor) : (visit closer selected scan tail value).LeadsAhead value := by
  unfold visit
  split
  · exact value.ahead_advance 1
  · split
    · exact leadsAhead_select scan tail value
    · exact leadsAhead_pass scan value

/-- A scan leads further on, whatever it comes to. -/
theorem leadsAhead_step (scan : Scan) (c : Cursor) : (scan.step c).LeadsAhead c := by
  cases scan with
  | members component =>
    have hstart : c.Ahead c.toKey := c.ahead_find _
    rw [step]
    cases hkey : c.toKey.keyHere? with
    | some key =>
      rw [stepMember_of_key hkey]
      have hvalue : key.next.Ahead (key.next.toValue closeBrace) := key.next.ahead_find _
      exact (leadsAhead_visit _ _ _ _ _).mono
        (hstart.trans ((Cursor.ahead_of_keyHere? hkey).trans hvalue))
    | none =>
      rw [stepMember_of_none hkey]
      apply hstart.trans
      split
      · exact Cursor.ahead_advance 1 _
      · exact Cursor.ahead_toEnd _
  | elements target tail passed =>
    rw [step, stepElement_eq_visit]
    exact (leadsAhead_visit _ _ _ _ _).mono (c.ahead_find _)

end Scan

/-! ## Stages -/

namespace Walk

/-- An array that was looked through when it was entered, and is still open. -/
structure Looked where
  room : Nat
  /-- The end of the array; nothing when the walk is over. -/
  next? : Option Cursor
  deriving DecidableEq, Repr, Inhabited

/-- A stage of a walk. -/
structure Stage where
  walk : Walk
  cursor : Cursor
  /-- The innermost container, if it is an array that was looked through. -/
  looked? : Option Looked
  /-- The open scans around it, the innermost first. -/
  frames : List Frame
  /-- The brackets of the containers that were descended into, the last one first. -/
  descents : List Cursor
  deriving DecidableEq, Repr, Inhabited

/-- There is room for a container, and the path can be matched in it. -/
def admits (env : Surroundings) (object : Bool) (path : Bytes) (room : Nat) : Bool :=
  room ≠ 0 && (object || (ElementComponent.parse? env.dialect path).isSome)

namespace Stage

/-- The room of every open container, the innermost first. -/
def rooms (s : Stage) : List Nat :=
  (s.looked?.map Looked.room).toList ++ s.frames.map Frame.room

/-- The depth of every open container under a bound, the outermost first. -/
def depths (maxDepth : Nat) (s : Stage) : List Nat :=
  (s.rooms.map (maxDepth - ·)).reverse

/-- Enters the container whose inside starts at a cursor.  Where it can not be entered, the scans
around it go on from the end of the text. -/
def opened (env : Surroundings) (walk : Walk) (object : Bool) (c : Cursor) (path : Bytes)
    (room : Nat) (frames : List Frame) (descents : List Cursor) : Stage :=
  match openAt env object c path room walk with
  | (walk, .scan inner) => ⟨walk, c, none, inner :: frames, descents⟩
  | (walk, .passed next) => ⟨walk, c, some ⟨room, some next⟩, frames, descents⟩
  | (walk, .over) =>
    if admits env object path room then ⟨walk, c, some ⟨room, none⟩, frames, descents⟩
    else ⟨walk, c.toEnd, none, frames, descents⟩

/-- The stage behind an event of the innermost scan. -/
def after (env : Surroundings) (s : Stage) (room : Nat) (frames : List Frame) : Event → Stage
  | .skip scan next => ⟨s.walk, next, none, ⟨scan, room⟩ :: frames, s.descents⟩
  | .close next => ⟨s.walk, next, none, frames, s.descents⟩
  | .found value => ⟨{ s.walk with value }, s.cursor, none, [], s.descents⟩
  | .enter scan bracket path =>
    opened env s.walk (bracket.peek? = some openBrace) (bracket.advance 1) path (room - 1)
      (⟨scan, room⟩ :: frames) (bracket :: s.descents)

/-- The next stage, if the walk goes on. -/
def next? (env : Surroundings) (s : Stage) : Option Stage :=
  match s.looked?, s.frames with
  | some ⟨_, some next⟩, _ => some { s with cursor := next, looked? := none }
  | some ⟨_, none⟩, _ => some { s with looked? := none, frames := [] }
  | none, [] => none
  | none, frame :: frames => some (s.after env frame.room frames (frame.scan.step s.cursor))

/-- A stage leads to the next one. -/
def Leads (env : Surroundings) (s t : Stage) : Prop :=
  s.next? env = some t

/-- An array that was looked through ends, alone or with the walk, or the innermost scan goes on. -/
theorem Leads.cases {env : Surroundings} {s t : Stage} (h : s.Leads env t) :
    (∃ room next, s.looked? = some ⟨room, some next⟩ ∧
      t = { s with cursor := next, looked? := none }) ∨
    (∃ room, s.looked? = some ⟨room, none⟩ ∧ t = { s with looked? := none, frames := [] }) ∨
    ∃ frame frames, s.looked? = none ∧ s.frames = frame :: frames ∧
      t = s.after env frame.room frames (frame.scan.step s.cursor) := by
  unfold Leads next? at h
  split at h
  · cases h
    exact .inl ⟨_, _, ‹_›, rfl⟩
  · cases h
    exact .inr (.inl ⟨_, ‹_›, rfl⟩)
  · cases h
  · cases h
    exact .inr (.inr ⟨_, _, ‹_›, ‹_›, rfl⟩)

/-- The first stage of a walk. -/
def first (env : Surroundings) (object : Bool) (c : Cursor) (path : Bytes) (room : Nat) : Stage :=
  opened env {} object c path room [] []

/-- What becomes of a walk from a stage on. -/
def outcome (env : Surroundings) (s : Stage) : Walk :=
  match s.looked? with
  | none => run env s.walk s.cursor s.frames
  | some ⟨_, some next⟩ => run env s.walk next s.frames
  | some ⟨_, none⟩ => s.walk

section Outcome

variable {env : Surroundings} {s t : Stage}

theorem outcome_opened (walk : Walk) (object : Bool) (c : Cursor) (path : Bytes) (room : Nat)
    (frames : List Frame) (descents : List Cursor) :
    (opened env walk object c path room frames descents).outcome env =
      entered env walk object c path room frames := by
  unfold opened entered
  rcases openAt env object c path room walk with ⟨walk, inner | next | _⟩
  · rfl
  · rfl
  · dsimp only
    split
    · rfl
    · -- At the end of the text nothing is found any more
      exact run_end env walk _ frames

theorem outcome_first (object : Bool) (c : Cursor) (path : Bytes) (room : Nat) :
    (first env object c path room).outcome env = enter env object c path room :=
  (outcome_opened {} object c path room [] []).trans (enter_eq_entered env object c path room).symm

theorem outcome_after (room : Nat) (frames : List Frame) (event : Event) :
    (s.after env room frames event).outcome env = react env s.walk room frames event := by
  cases event with
  | skip scan next => rfl
  | close next => rfl
  | found value => exact run_nil env _ _
  | enter scan bracket path => exact outcome_opened _ _ _ _ _ _ _

/-- A walk goes from stage to stage. -/
theorem outcome_of_leads (h : s.Leads env t) : t.outcome env = s.outcome env := by
  obtain ⟨room, next, hlooked, rfl⟩ | ⟨room, hlooked, rfl⟩ |
    ⟨frame, frames, hlooked, hframes, rfl⟩ := h.cases
  · simp only [outcome, hlooked]
  · simp only [outcome, hlooked, run_nil]
  · rw [outcome_after, ← run_cons]
    simp only [outcome, hlooked, hframes]

/-- All stages of a walk have one outcome. -/
theorem outcome_of_reflTransGen (h : Relation.ReflTransGen (Leads env) s t) :
    t.outcome env = s.outcome env := by
  induction h with
  | refl => rfl
  | tail _ hlast ih => exact (outcome_of_leads hlast).trans ih

end Outcome

end Stage

/-! ## Order -/

/-- Rooms, the innermost first, that begin with the room of a walk on the outside and lose one from
each container to the next, while there is any. -/
inductive Consecutive (room : Nat) : List Nat → Prop where
  | nil : Consecutive room []
  | cons {r : Nat} {rooms : List Nat} (outer : Consecutive room rooms)
    (sum : r + rooms.length = room) (room_ne : r ≠ 0) : Consecutive room (r :: rooms)

namespace Consecutive

variable {room r : Nat} {rooms : List Nat}

theorem tail (h : Consecutive room (r :: rooms)) : Consecutive room rooms := by
  cases h with
  | cons outer => exact outer

/-- One more container is open. -/
theorem push (h : Consecutive room (r :: rooms)) (hne : r - 1 ≠ 0) :
    Consecutive room ((r - 1) :: r :: rooms) := by
  refine .cons h ?_ hne
  cases h with
  | cons outer sum room_ne =>
    rw [List.length_cons]
    omega

/-- Under a bound, the depths begin with that of the walk. -/
theorem reverse_map {maxDepth depth : Nat} (h : Consecutive (maxDepth - depth) rooms) :
    (rooms.map (maxDepth - ·)).reverse = List.range' depth rooms.length := by
  induction h with
  | nil => rfl
  | @cons r rooms outer sum room_ne ih =>
    have hdepth : maxDepth - r = depth + rooms.length := by omega
    rw [List.map_cons, List.reverse_cons, ih, List.length_cons, List.range'_1_concat, hdepth]

/-- The last depth is below the bound. -/
theorem lt_of_mem {maxDepth : Nat} (h : Consecutive room rooms) (hle : room ≤ maxDepth) :
    ∀ d ∈ rooms.map (maxDepth - ·), d < maxDepth := by
  induction h with
  | nil => exact nofun
  | @cons r rooms outer sum room_ne ih =>
    have hlt : maxDepth - r < maxDepth := by omega
    exact List.forall_mem_cons.2 ⟨hlt, ih⟩

end Consecutive

/-- The brackets of a walk up to a place, the last one first, stand in the text, the last one the
furthest on, and every one of them in front of the place. -/
structure Descended (text : Bytes) (start : Cursor) (c : Cursor) (descents : List Cursor) :
    Prop where
  isIn : c.IsIn text
  start_le : start.offset ≤ c.offset
  ordered : descents.Pairwise fun d e => e.offset < d.offset
  bracket : ∀ d ∈ descents, d.IsIn text ∧ Scan.atContainer d = true
  start_le_bracket : ∀ d ∈ descents, start.offset ≤ d.offset
  bracket_lt : ∀ d ∈ descents, d.offset < c.offset
  /-- No two of them stand at the same place. -/
  room : descents.length + c.left ≤ start.left

namespace Descended

variable {text : Bytes} {start c d : Cursor} {descents : List Cursor}

theorem nil {c : Cursor} (hin : c.IsIn text) : Descended text c c [] :=
  ⟨hin, Nat.le_refl _, .nil, nofun, nofun, nofun, by rw [List.length_nil, Nat.zero_add]⟩

theorem mono (h : Descended text start c descents) (hahead : c.Ahead d) :
    Descended text start d descents where
  isIn := hahead.isIn text h.isIn
  start_le := Nat.le_trans h.start_le hahead.offset_le
  ordered := h.ordered
  bracket := h.bracket
  start_le_bracket := h.start_le_bracket
  bracket_lt e he := Nat.lt_of_lt_of_le (h.bracket_lt e he) hahead.offset_le
  room := Nat.le_trans (Nat.add_le_add_left (hahead.left_le h.isIn) _) h.room

/-- The walk goes on inside of one more bracket. -/
theorem cons {bracket : Cursor} (h : Descended text start c descents) (hahead : c.Ahead bracket)
    (hcontainer : Scan.atContainer bracket = true) :
    Descended text start (bracket.advance 1) (bracket :: descents) := by
  have hmono := h.mono hahead
  have hinside := hmono.mono (Cursor.ahead_advance 1 bracket)
  have hlt : bracket.offset < (bracket.advance 1).offset := Nat.lt_succ_self _
  have hpos := Scan.left_pos_of_atContainer hcontainer
  refine ⟨hinside.isIn, hinside.start_le, ?_, ?_, ?_, ?_, ?_⟩
  · exact List.pairwise_cons.2 ⟨hmono.bracket_lt, h.ordered⟩
  · exact List.forall_mem_cons.2 ⟨⟨hmono.isIn, hcontainer⟩, h.bracket⟩
  · exact List.forall_mem_cons.2 ⟨hmono.start_le, h.start_le_bracket⟩
  · exact List.forall_mem_cons.2 ⟨hlt, hinside.bracket_lt⟩
  · have hroom := hmono.room
    rw [List.length_cons, Cursor.left_advance]
    omega

end Descended

namespace Stage

/-- What holds of every stage of a walk with some room from a place on. -/
structure Orderly (text : Bytes) (start : Cursor) (room : Nat) (s : Stage) : Prop where
  consecutive : Consecutive room s.rooms
  descended : Descended text start s.cursor s.descents
  /-- The end of an array is behind its start. -/
  ahead : ∀ looked ∈ s.looked?, ∀ next ∈ looked.next?, s.cursor.Ahead next

section Order

variable {env : Surroundings} {text : Bytes} {start : Cursor} {room : Nat} {s t : Stage}

/-- Entering a container is orderly where there is room for one more. -/
theorem orderly_opened {walk : Walk} {object : Bool} {c : Cursor} {path : Bytes} {inner : Nat}
    {frames : List Frame} {descents : List Cursor}
    (houter : Consecutive room (frames.map Frame.room))
    (hinner : inner ≠ 0 → Consecutive room (inner :: frames.map Frame.room))
    (hdescended : Descended text start c descents) :
    (opened env walk object c path inner frames descents).Orderly text start room := by
  unfold opened
  rcases hopen : openAt env object c path inner walk with ⟨after, opening⟩
  obtain ⟨scan, rfl, hroom⟩ | ⟨rfl, hroom⟩ | rfl := openAt_cases hopen
  · exact ⟨hinner hroom, hdescended, nofun⟩
  · refine ⟨hinner hroom, hdescended, ?_⟩
    rintro _ ⟨⟩ _ ⟨⟩
    exact Cursor.ahead_elementsFrom [] c
  · dsimp only
    split
    · rename_i hadmits
      have hroom : inner ≠ 0 := by
        rintro rfl
        cases hadmits
      refine ⟨hinner hroom, hdescended, ?_⟩
      rintro _ ⟨⟩ _ ⟨⟩
    · exact ⟨houter, hdescended.mono c.ahead_toEnd, nofun⟩

theorem orderly_first (object : Bool) (path : Bytes) (room : Nat) {c : Cursor}
    (hin : c.IsIn text) : (first env object c path room).Orderly text c room :=
  orderly_opened .nil (fun hne => .cons .nil rfl hne) (.nil hin)

/-- Whatever happens next keeps the order. -/
theorem Orderly.leads (h : s.Orderly text start room) (hleads : s.Leads env t) :
    t.Orderly text start room := by
  obtain ⟨hrooms, hdescended, hahead⟩ := h
  unfold rooms at hrooms
  obtain ⟨room, next, hlooked, rfl⟩ | ⟨room, hlooked, rfl⟩ |
    ⟨frame, frames, hlooked, hframes, rfl⟩ := hleads.cases
  · rw [hlooked] at hrooms
    exact ⟨hrooms.tail, hdescended.mono (hahead _ hlooked _ rfl), nofun⟩
  · exact ⟨.nil, hdescended, nofun⟩
  · rw [hlooked, hframes] at hrooms
    have hevent := Scan.leadsAhead_step frame.scan s.cursor
    cases hstep : frame.scan.step s.cursor with
    | skip scan next =>
      rw [hstep] at hevent
      exact ⟨hrooms, hdescended.mono hevent, nofun⟩
    | close next =>
      rw [hstep] at hevent
      exact ⟨hrooms.tail, hdescended.mono hevent, nofun⟩
    | found value => exact ⟨.nil, hdescended, nofun⟩
    | enter scan bracket path =>
      rw [hstep] at hevent
      exact orderly_opened hrooms hrooms.push (hdescended.cons hevent.1 hevent.2)

/-- All stages of a walk are orderly. -/
theorem Orderly.run (h : s.Orderly text start room)
    (hleads : Relation.ReflTransGen (Leads env) s t) : t.Orderly text start room := by
  induction hleads with
  | refl => exact h
  | tail _ hlast ih => exact ih.leads hlast

end Order

/-! ## The last stage -/

section Last

variable {env : Surroundings} {s t : Stage}

/-- What is left of a walk: the bytes ahead, and the open containers. -/
def left (s : Stage) : Nat :=
  2 * s.cursor.left + s.frames.length + s.looked?.elim 0 fun _ => 1

theorem left_opened_le (env : Surroundings) (walk : Walk) (object : Bool) (c : Cursor)
    (path : Bytes) (room : Nat) (frames : List Frame) (descents : List Cursor) :
    (opened env walk object c path room frames descents).left ≤
      2 * c.left + frames.length + 1 := by
  unfold opened left
  rcases openAt env object c path room walk with ⟨walk, inner | next | _⟩
  · exact Nat.le_refl _
  · exact Nat.le_refl _
  · dsimp only
    split
    · exact Nat.le_refl _
    · have hend : c.toEnd.left = 0 := rfl
      simp only [hend, Option.elim_none]
      omega

/-- Every stage leaves less of the walk, for a walk goes further on or has one container less. -/
theorem left_lt_of_leads {start : Cursor} {text : Bytes} {room : Nat}
    (h : s.Orderly text start room) (hleads : s.Leads env t) : t.left < s.left := by
  obtain ⟨-, hdescended, hahead⟩ := h
  unfold left
  obtain ⟨room, next, hlooked, rfl⟩ | ⟨room, hlooked, rfl⟩ |
    ⟨frame, frames, hlooked, hframes, rfl⟩ := hleads.cases
  · have hle : next.left ≤ s.cursor.left := (hahead _ hlooked _ rfl).left_le hdescended.isIn
    simp only [hlooked, Option.elim_none, Option.elim_some]
    omega
  · simp only [hlooked, Option.elim_none, Option.elim_some, List.length_nil]
    omega
  · have hadv := Scan.advances_step frame.scan s.cursor
    rw [hlooked, hframes, List.length_cons]
    cases hstep : frame.scan.step s.cursor with
    | skip scan next =>
      rw [hstep] at hadv
      have hlt : next.left < s.cursor.left := hadv
      simp only [after, Option.elim_none, List.length_cons]
      omega
    | close next =>
      rw [hstep] at hadv
      have hle : next.left ≤ s.cursor.left := hadv
      simp only [after, Option.elim_none]
      omega
    | found value =>
      simp only [after, Option.elim_none, List.length_nil]
      omega
    | enter scan bracket path =>
      rw [hstep] at hadv
      have hpos : 0 < bracket.left ∧ bracket.left ≤ s.cursor.left := hadv
      have hopened := left_opened_le env s.walk (bracket.peek? = some openBrace)
        (bracket.advance 1) path (frame.room - 1) (⟨scan, frame.room⟩ :: frames)
        (bracket :: s.descents)
      rw [Cursor.left_advance, List.length_cons] at hopened
      simp only [left, after, Option.elim_none] at hopened ⊢
      omega

theorem walk_of_next?_eq_none (h : s.next? env = none) : s.walk = s.outcome env := by
  unfold next? at h
  split at h
  · cases h
  · cases h
  · rename_i hlooked hframes
    simp only [outcome, hlooked, hframes, run_nil]
  · cases h

/-- From every orderly stage a walk comes to its last one. -/
theorem exists_last (env : Surroundings) {text : Bytes} {start : Cursor} {room : Nat}
    (h : s.Orderly text start room) :
    ∃ t, Relation.ReflTransGen (Leads env) s t ∧ t.next? env = none := by
  -- On what is left of the walk
  induction hleft : s.left using Nat.strong_induction_on generalizing s with
  | _ n ih =>
    cases hnext : s.next? env with
    | none => exact ⟨s, .refl, hnext⟩
    | some t =>
      obtain ⟨last, hlast, hnone⟩ :=
        ih t.left (hleft ▸ left_lt_of_leads h hnext) (h.leads hnext) rfl
      exact ⟨last, .head hnext hlast, hnone⟩

end Last

/-- **A walk ends, and stays within its bound.**  From any place of any text on, with any path and
any depth to begin with: at every stage the containers that are open have consecutive depths, which
begin with the first one and are below the bound; every container that is descended into opens
further on than all those before, and the walk has left all of their brackets behind; so there are
no more of them than bytes ahead of the place.  All stages have the outcome of the walk, and they
come to a last one, which has reached it. -/
theorem stages_bounded (env : Surroundings) (object : Bool) (text path : Bytes)
    (start maxDepth depth : Nat) :
    let c := (Cursor.start text).advance start
    let entry := first env object c path (maxDepth - depth)
    (∀ s, Relation.ReflTransGen (Leads env) entry s →
      s.depths maxDepth = List.range' depth (s.depths maxDepth).length ∧
        (∀ d ∈ s.depths maxDepth, d < maxDepth) ∧
        (s.descents.reverse.map Cursor.offset).Pairwise (· < ·) ∧
        (∀ d ∈ s.descents, d.rest = text.drop d.offset ∧
          (d.peek? = some openBrace ∨ d.peek? = some openBracket) ∧
          start ≤ d.offset ∧ d.offset < s.cursor.offset) ∧
        s.descents.length ≤ text.length - start ∧
        s.outcome env = enter env object c path (maxDepth - depth)) ∧
      ∃ last, Relation.ReflTransGen (Leads env) entry last ∧ last.next? env = none ∧
        last.walk = enter env object c path (maxDepth - depth) := by
  intro c entry
  have hin : c.IsIn text := (Cursor.isIn_start text).advance start
  have hentry : entry.Orderly text c (maxDepth - depth) := orderly_first object path _ hin
  have hstart : c.offset = start := Nat.zero_add start
  have houtcome : ∀ s, Relation.ReflTransGen (Leads env) entry s →
      s.outcome env = enter env object c path (maxDepth - depth) :=
    fun s hs => (outcome_of_reflTransGen hs).trans (outcome_first object c path _)
  constructor
  · intro s hs
    obtain ⟨hrooms, hdescended, -⟩ := hentry.run hs
    have hdepths : s.depths maxDepth = List.range' depth s.rooms.length := hrooms.reverse_map
    refine ⟨by rw [hdepths, List.length_range'], ?_, ?_, ?_, ?_, houtcome s hs⟩
    · intro d hd
      exact hrooms.lt_of_mem (Nat.sub_le _ _) d (List.mem_reverse.1 hd)
    · rw [List.pairwise_map, List.pairwise_reverse]
      exact hdescended.ordered
    · intro d hd
      obtain ⟨hdin, hcontainer⟩ := hdescended.bracket d hd
      have hle : start ≤ d.offset := hstart ▸ hdescended.start_le_bracket d hd
      exact ⟨hdin, Scan.peek?_of_atContainer hcontainer, hle, hdescended.bracket_lt d hd⟩
    · have hleft : c.left = text.length - start := List.length_drop
      have hroom := hdescended.room
      omega
  · obtain ⟨last, hlast, hnone⟩ := exists_last env hentry
    exact ⟨last, hlast, hnone, (walk_of_next?_eq_none hnone).trans (houtcome last hlast)⟩

/-- Behind the first element of an array, the array is open inside of the object around it, and the
walk has descended into its bracket. -/
example :
    let env : Surroundings := ⟨⟨false, fun _ => false⟩, fun _ _ _ => .quiet .missing⟩
    let entry := first env true ((Cursor.start (Bytes.ofString "\x7b\"a\":[1,2]\x7d")).advance 1)
      (Bytes.ofString "a.1") (9 - 6)
    ((entry.next? env).bind (Stage.next? env)).map
        (fun s => (s.depths 9, s.descents.map Cursor.offset, s.cursor.offset)) =
      some ([6, 7], [5], 7) := by
  decide +kernel

end Stage

end Walk

end JsonQuery
