import JsonQuery.Proofs.Resolution

/-!
# Texts of lines

Behind two dots, a path asks for the values of a text as if they were the elements of an array: the
first component is the position of a value, and what follows it is searched for in the tree of that
value.  A document is such a text with one value.

## Layers

- **Dots**: components that a path with two dots in front is written with.
- **Streams**: `Stream` is a text of values with gaps between them, and `Stream.branches` lists the
  values with their positions and offsets.
- **Tours**: a scan over a stream stops at its values.
- **Walks**: what a path with two dots in front finds, and the pipe that it leaves.
-/

namespace JsonQuery.Grammar

open Ascii Walk

/-! ## Dots -/

section Dots

theorem Component.head_ne_dot (c : Component) : ∀ b ∈ c.text.head?, b ≠ dot := by
  cases c with
  | nil => simp [text]
  | cons piece pieces =>
    intro b hb
    cases piece with
    | plain c h =>
      obtain rfl : c = b := by simpa [text, Piece.text] using hb
      rintro rfl
      exact absurd h (by decide)
    | escaped c =>
      obtain rfl : backslash = b := by simpa [text, Piece.text] using hb
      decide
    | any =>
      obtain rfl : star = b := by simpa [text, Piece.text] using hb
      decide
    | one =>
      obtain rfl : question = b := by simpa [text, Piece.text] using hb
      decide

/-- A path starts with a dot behind an empty component only. -/
theorem pathOf_eq_dot {components : List Component} {rest : Bytes}
    (h : pathOf components = dot :: rest) :
    ∃ c c' tail, components = c :: c' :: tail ∧ c.text = [] ∧ rest = pathOf (c' :: tail) := by
  cases components with
  | nil => cases h
  | cons c components =>
    rw [pathOf_cons] at h
    -- A component that is not empty would start the path with another byte
    cases htext : c.text with
    | cons b text =>
      have hdot : b = dot := by
        rw [htext] at h
        exact (List.cons.inj h).1
      exact absurd hdot (c.head_ne_dot b (by simp [htext]))
    | nil =>
      rw [htext, List.nil_append] at h
      cases components with
      | nil => cases h
      | cons c' tail => exact ⟨c, c', tail, rfl, htext, (List.cons.inj h).2.symm⟩

/-- Two dots in front of a path are written for two empty components with another one behind. -/
theorem exists_behind_dots {components : List Component}
    (h : [dot, dot] <+: pathOf components) :
    ∃ a b c tail, components = a :: b :: c :: tail ∧ a.text = [] ∧ b.text = [] ∧
      lines? (pathOf components) = some (pathOf (c :: tail)) := by
  obtain ⟨rest, hrest⟩ := h
  -- Each dot ends an empty component
  obtain ⟨a, b, tail, rfl, ha, hbehind⟩ := pathOf_eq_dot hrest.symm
  obtain ⟨b', c, tail', heq, hb, hpath⟩ := pathOf_eq_dot hbehind.symm
  obtain ⟨rfl, rfl⟩ := List.cons.inj heq
  refine ⟨a, b, c, tail', rfl, ha, hb, ?_⟩
  rw [← hrest, ← hpath]
  rfl

end Dots

/-! ## Streams -/

/-- A value with the gap behind it. -/
structure Line where
  value : Node
  gap : Gap

/-- The text of values one behind the other. -/
def linesText (lines : List Line) : Bytes :=
  lines.flatMap fun line => line.value.text ++ line.gap.text

/-- A text of values with gaps between them, such as one value on each line. -/
structure Stream where
  before : Gap
  lines : List Line
  /-- Something stands between two values. -/
  parted : ∀ line ∈ lines.dropLast, line.gap.text ≠ []

/-- The text of a stream. -/
def Stream.text (stream : Stream) : Bytes :=
  stream.before.text ++ linesText stream.lines

/-- The values of lines, of which the first starts at an offset. -/
def linesFrom (offset position : Nat) : List Line → List Branch
  | [] => []
  | line :: lines =>
    ⟨⟨offset, line.value⟩, .position position⟩
      :: linesFrom (offset + line.value.text.length + line.gap.text.length) (position + 1) lines

/-- The values of a stream in order. -/
def Stream.branches (stream : Stream) : List Branch :=
  linesFrom stream.before.text.length 0 stream.lines

/-- A document as a stream of its root alone. -/
def Document.stream (d : Document) : Stream :=
  ⟨d.before, [⟨d.root, d.after⟩], by simp⟩

theorem Document.text_stream (d : Document) : d.stream.text = d.text := by
  simp [stream, Stream.text, text, linesText]

theorem linesText_cons (line : Line) (lines : List Line) :
    linesText (line :: lines) = line.value.text ++ (line.gap.text ++ linesText lines) := by
  simp [linesText]

/-- The values of lines stand where they are listed. -/
theorem standsIn_linesFrom {lines : List Line} {position : Nat} (before : Bytes) {b : Branch}
    (hb : b ∈ linesFrom before.length position lines) :
    b.toSpot.StandsIn (before ++ linesText lines) := by
  -- Line by line, what was passed moves over to the text in front
  induction lines generalizing before position with
  | nil => cases hb
  | cons line lines ih =>
    rw [linesFrom, List.mem_cons] at hb
    rw [linesText_cons]
    rcases hb with rfl | hb
    · exact ⟨before, line.gap.text ++ linesText lines, rfl, rfl⟩
    · have hrest : b ∈ linesFrom (before ++ (line.value.text ++ line.gap.text)).length
          (position + 1) lines := by
        simpa only [List.length_append, Nat.add_assoc] using hb
      simpa only [List.append_assoc] using ih _ hrest

theorem Stream.standsIn_branches (stream : Stream) {b : Branch} (hb : b ∈ stream.branches) :
    b.toSpot.StandsIn stream.text :=
  standsIn_linesFrom stream.before.text hb

section Parted

variable {line : Line} {lines : List Line}
  (hparted : ∀ l ∈ (line :: lines).dropLast, l.gap.text ≠ [])

include hparted

theorem parted_of_cons : ∀ l ∈ lines.dropLast, l.gap.text ≠ [] := by
  cases lines with
  | nil => simp
  | cons line' lines => exact fun l hl => hparted l (List.mem_cons_of_mem _ hl)

/-- Behind a line stands the end of the text, or a gap that ends numbers. -/
theorem follows_line : Follows (line.gap.text ++ linesText lines) := by
  cases lines with
  | nil => exact Follows.gap line.gap .nil
  | cons line' lines =>
    have hne : line.gap.text ≠ [] := hparted line List.mem_cons_self
    obtain ⟨c, text, htext⟩ := List.exists_cons_of_ne_nil hne
    have hc : c ∈ line.gap.text := by simp [htext]
    rw [htext, List.cons_append]
    exact .cons (endsNumber_of_mem_gapBytes (line.gap.isGap c hc))

end Parted

/-! ## Tours -/

section Tours

/-- A scan over lines stops at each of their values. -/
theorem tour_lines (c : Component) {tail tail' : Tail}
    (htail : (Number.position? c.text).isSome = true → tail' = tail) {lines : List Line}
    (hparted : ∀ line ∈ lines.dropLast, line.gap.text ≠ []) (offset position : Nat) {lead : Bytes}
    (hlead : Separates lead) (n : Nat) :
    ∃ next, Tour n tail (.elements (Number.position? c.text) tail' position)
      ⟨offset, lead ++ linesText lines⟩
      ((linesFrom (offset + lead.length) position lines).map (Branch.stop c)) next := by
  -- One step leads behind a value, to a gap like the one in front
  induction lines generalizing lead offset position with
  | nil =>
    refine ⟨⟨offset + lead.length, []⟩, ?_⟩
    rw [linesText, List.flatMap_nil, List.append_nil]
    exact .close (stepElement_end _ _ _ hlead offset n)
  | cons line lines ih =>
    have hstep := stepElement_gap c htail position .none ⟨offset + lead.length, line.value⟩
      (line.gap.text ++ linesText lines) hlead rfl n
    obtain ⟨next, htour⟩ := ih (parted_of_cons hparted)
      (offset + lead.length + line.value.text.length) (position + 1) line.gap.separates
    rw [linesText_cons]
    exact ⟨next, .stop hstep (follows_line hparted) htour⟩

end Tours

/-! ## Walks -/

section Walks

/-- What components find in a stream: the first selects values by their positions. -/
def searchLines (c : Component) (components : List Component) (stream : Stream) : Option Spot :=
  firstAnswer (search components) (stream.branches.map (Branch.stop c))

/-- The pipe that a search in a stream leaves. -/
def residueLines (c : Component) (components : List Component) (stream : Stream) :
    Option Bytes :=
  lastPipe (search components) (residue components) (stream.branches.map (Branch.stop c))
    ((elementTail components c).kept none)

/-- A walk through a stream is a search in the trees of its values. -/
theorem start_lines (env : Surroundings) (stream : Stream) {path : Bytes} (c : Component)
    (components : List Component) (hlines : lines? path = some (pathOf (c :: components)))
    {room : Nat} (hroom : components.length < room) :
    start env stream.text path room =
      { value := answer (searchLines c components stream),
        pipe := residueLines c components stream } := by
  obtain ⟨next, htour⟩ := tour_lines c (elementTail_of_position components) stream.parted 0 0
    stream.before.separates stream.text.length
  rw [Nat.zero_add, ← Stream.branches] at htour
  have hwhole : (Cursor.mk 0 (stream.before.text ++ linesText stream.lines)).cut
      stream.text.length = ⟨0, stream.text⟩ := Cursor.cut_self (Nat.le_of_eq (Nat.zero_add _))
  have hafter : ∀ stop ∈ stream.branches.map (Branch.stop c),
      stop.spot.after ≤ stream.text.length := by
    intro stop hstop
    obtain ⟨b, hb, rfl⟩ := List.mem_map.1 hstop
    exact (stream.standsIn_branches hb).after_le
  have hfound : firstAnswer (searchShown stream.text.length components)
      (stream.branches.map (Branch.stop c)) =
        (searchLines c components stream).map Spot.reading :=
    map_firstAnswer fun stop hstop => searchShown_of_after_le (hafter stop hstop)
  have hleft : ∀ stop ∈ stream.branches.map (Branch.stop c),
      residueShown stream.text.length components stop.spot = residue components stop.spot :=
    fun stop hstop => residueShown_of_after_le (hafter stop hstop)
  have hrun := run_tour (amountsTo_tailOf env stream.text.length components hroom) htour
    (Walk.withPipe {} ((elementTail components c).kept none)) []
  rw [hwhole, hfound, lastPipe_shown hafter hleft] at hrun
  -- The text is scanned like an array, from its start on
  rw [start, hlines]
  dsimp only
  rw [enter, openAt_array env c components _ (by omega)]
  refine hrun.trans ?_
  cases searchLines c components stream with
  | none => exact run_nil env _ _
  | some s => rfl

/-- A component that selects a position leaves the pipe alone. -/
theorem kept_of_selects_position {c : Component} {n : Nat} (h : c.selects (.position n) = true)
    (components : List Component) (pipe : Option Bytes) :
    (elementTail components c).kept pipe = pipe := by
  rw [Component.selects_position, beq_iff_eq] at h
  rw [elementTail_of_position components (by rw [h]; rfl), kept_tailOf]

/-- In a document as lines only the position zero leads anywhere. -/
theorem searchLines_document (c : Component) (components : List Component) (d : Document) :
    searchLines c components d.stream =
      if c.selects (.position 0) then search components d.spot else none := by
  have hbranches : d.stream.branches.map (Branch.stop c) =
      [⟨c.selects (.position 0), d.spot⟩] := rfl
  rw [searchLines, hbranches]
  cases c.selects (.position 0) with
  | false => rfl
  | true => simp [firstAnswer]

/-- A chain that goes on without a place in the document finds nothing that has one. -/
theorem index_chain (engine : Engine) (nested : Engine.Nested) (room : Nat) (text path : Bytes)
    (counts : Counters) (depth : Nat) :
    (engine.chain nested room text path none counts depth).value.index = none := by
  -- On the length of the chain: a link without a place hands on none
  induction depth generalizing text path counts with
  | zero => rfl
  | succ depth ih =>
    rw [Engine.chain]
    dsimp only
    cases engine.link nested room depth text path with
    | output output =>
      dsimp only
      split
      · rfl
      · exact ih _ _ _
    | selected result => rfl
    | unknown rest =>
      -- The name may still be a key; the walk for it keeps a pipe or none
      dsimp only
      split
      all_goals
        split
        · rfl
        · split
          · rfl
          · exact ih _ _ _
    | components =>
      dsimp only
      split
      · rfl
      · exact ih _ _ _

end Walks

end JsonQuery.Grammar
