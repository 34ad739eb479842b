import JsonQuery.Proofs.Filters
import JsonQuery.Proofs.Inside
import JsonQuery.Proofs.RoundTrip

/-!
# The views of a text of lines

A text of values can be read value by value, counted, or asked for the value at a position.  These
views go through different scans, one that searches for the next value and one that takes the text
for an array without brackets.  They find the same values.

## Layers

- **Positions**: a path that starts with the position of a value goes on inside of that value.
- **Readings**: reading a stream value by value, and counting its values as elements.
- **Views**: the views together.
-/

namespace JsonQuery.Grammar

open Ascii Walk

/-! ## Positions -/

section Positions

theorem label_of_mem_linesFrom {lines : List Line} {offset position : Nat} {b : Branch}
    (hb : b ∈ linesFrom offset position lines) :
    ∃ i < lines.length, b.label = .position (position + i) := by
  induction lines generalizing offset position with
  | nil => cases hb
  | cons line lines ih =>
    rw [linesFrom, List.mem_cons] at hb
    rcases hb with rfl | hb
    · exact ⟨0, by simp, rfl⟩
    · obtain ⟨i, hi, hlabel⟩ := ih hb
      refine ⟨i + 1, by simpa using hi, ?_⟩
      rw [hlabel, Nat.add_assoc, Nat.add_comm 1 i]

/-- A component that selects one position of a stream has one stop there, or none behind the end. -/
theorem filter_stops_lines {c : Component} {lines : List Line} {k : Nat} (offset : Nat)
    {position : Nat}
    (hc : ∀ i < lines.length, c.selects (.position (position + i)) = (i == k)) :
    ((linesFrom offset position lines).map (Branch.stop c)).filter Stop.selected =
      ((linesFrom offset position lines)[k]?.map fun b => Stop.mk true b.toSpot).toList := by
  induction lines generalizing offset position k with
  | nil => rfl
  | cons line lines ih =>
    have hfirst := hc 0 (by simp)
    have hrest : ∀ i < lines.length,
        c.selects (.position (position + 1 + i)) = (i + 1 == k) := by
      intro i hi
      rw [← hc (i + 1) (by simpa using hi), Nat.add_assoc, Nat.add_comm 1 i]
    rw [linesFrom, List.map_cons, List.filter_cons, Branch.stop]
    cases k with
    | zero =>
      -- The first line is selected, and no line behind it
      have hnone : ((linesFrom (offset + line.value.text.length + line.gap.text.length)
          (position + 1) lines).map (Branch.stop c)).filter Stop.selected = [] := by
        rw [List.filter_eq_nil_iff]
        intro stop hstop
        obtain ⟨b, hb, rfl⟩ := List.mem_map.1 hstop
        obtain ⟨i, hi, hlabel⟩ := label_of_mem_linesFrom hb
        rw [Branch.stop, hlabel, hrest i hi]
        simp
      rw [hnone]
      simp only [Nat.add_zero] at hfirst
      simp [hfirst]
    | succ k =>
      simp only [Nat.add_zero] at hfirst
      have hbelow : ∀ i < lines.length,
          c.selects (.position (position + 1 + i)) = (i == k) := by simpa using hrest
      rw [ih _ hbelow]
      simp [hfirst]

theorem length_le_linesText (lines : List Line) : lines.length ≤ (linesText lines).length := by
  induction lines with
  | nil => exact Nat.le_refl 0
  | cons line lines ih =>
    obtain ⟨c, text, htext, -⟩ := line.value.text_cons
    rw [linesText_cons, List.length_cons, htext]
    simp only [List.length_append, List.length_cons]
    omega

/-- Only the stops that are selected leave a pipe. -/
theorem lastPipe_filter (goal : Spot → Option Spot) (left : Spot → Option Bytes → Option Bytes)
    (stops : List Stop) (pipe : Option Bytes) :
    lastPipe goal left (stops.filter Stop.selected) pipe = lastPipe goal left stops pipe := by
  induction stops generalizing pipe with
  | nil => rfl
  | cons stop stops ih =>
    obtain ⟨selected, s⟩ := stop
    cases selected with
    | false => exact ih pipe
    | true => rw [List.filter_cons_of_pos rfl, lastPipe, lastPipe, ih]

variable {stream : Stream} (hsize : stream.text.length < Number.wordLimit) (k : Nat)

include hsize

theorem filter_stops_stream :
    (stream.branches.map (Branch.stop (.ofLabel (.position k)))).filter Stop.selected =
      (stream.branches[k]?.map fun b => Stop.mk true b.toSpot).toList := by
  apply filter_stops_lines
  intro i hi
  -- Every line takes up a byte, so a word holds its position
  have hle := length_le_linesText stream.lines
  rw [Stream.text, List.length_append] at hsize
  rw [Nat.zero_add]
  exact selects_position_iff (by omega) k

/-- Behind a position the search goes on in the value there. -/
theorem searchLines_position (components : List Component) :
    searchLines (.ofLabel (.position k)) components stream =
      stream.branches[k]?.bind fun b => search components b.toSpot := by
  rw [searchLines, firstAnswer, filter_stops_stream hsize k]
  cases stream.branches[k]? with
  | none => rfl
  | some b => simp

/-- The pipe is what the search in the value at the position leaves. -/
theorem residueLines_position (components : List Component) :
    residueLines (.ofLabel (.position k)) components stream =
      stream.branches[k]?.bind fun b => residue components b.toSpot none := by
  have hslash : backslash ∉ (Component.ofLabel (.position k)).text := by
    rw [Component.ofLabel, Component.text_ofName, escape_ofNat]
    exact fun hmem => absurd (isDigit_of_mem_ofNat hmem) (by decide)
  rw [residueLines, elementTail_of_slash_notMem components hslash, kept_tailOf, ← lastPipe_filter,
    filter_stops_stream hsize k]
  cases stream.branches[k]? with
  | none => rfl
  | some b =>
    -- One stop, so its residue is all that is left
    show (if _ then _ else _) = _
    exact ite_self _

end Positions

/-! ## Readings -/

section Readings

theorem readAllFrom_of_some {found : List Result} {c : Cursor} {reading : Reading}
    (hread : c.read? = some reading) :
    c.readAllFrom found = reading.next.readAllFrom (reading.value :: found) := by
  rw [Cursor.readAllFrom]
  split
  · rename_i hnone
    rw [hread] at hnone
    cases hnone
  · rename_i hsome
    rw [hread] at hsome
    cases hsome
    rfl

theorem readAllFrom_of_none {found : List Result} {c : Cursor} (hread : c.read? = none) :
    c.readAllFrom found = found.reverse := by
  rw [Cursor.readAllFrom]
  split
  · rfl
  · rename_i hsome
    rw [hread] at hsome
    cases hsome

/-- A search for the next value passes over separators. -/
theorem read?_separates {lead : Bytes} (hlead : Separates lead) (offset : Nat) (rest : Bytes) :
    (Cursor.mk offset (lead ++ rest)).read? = (Cursor.mk (offset + lead.length) rest).read? := by
  have hfind := find_append (p := startsValue)
    (fun c hc => not_startsValue_of_isSeparator (hlead c hc)) offset rest
  rw [Cursor.read?, Cursor.read?, hfind]

/-- The values of lines are read one after the other. -/
theorem readAllFrom_lines {lines : List Line}
    (hparted : ∀ line ∈ lines.dropLast, line.gap.text ≠ []) (offset position : Nat)
    (found : List Result) {lead : Bytes} (hlead : Separates lead) :
    (Cursor.mk offset (lead ++ linesText lines)).readAllFrom found =
      found.reverse ++ (linesFrom (offset + lead.length) position lines).map
        fun b => b.toSpot.reading := by
  -- The values that were read are collected in front, last one first
  induction lines generalizing lead offset position found with
  | nil =>
    have hnone : (Cursor.mk offset (lead ++ linesText [])).read? = none := by
      rw [read?_separates hlead]
      rfl
    rw [readAllFrom_of_none hnone]
    simp [linesFrom]
  | cons line lines ih =>
    have hread := read?_spot ⟨offset + lead.length, line.value⟩ (follows_line hparted)
    rw [← read?_separates hlead, ← linesText_cons] at hread
    rw [readAllFrom_of_some hread, ih (parted_of_cons hparted) _ (position + 1) _
      line.gap.separates]
    simp [linesFrom, Spot.after]

/-- As elements, too, the values of lines are read one after the other, up to the end. -/
theorem elementsFrom_lines {lines : List Line}
    (hparted : ∀ line ∈ lines.dropLast, line.gap.text ≠ []) (offset position : Nat)
    (found : List Result) {lead : Bytes} (hlead : Separates lead) :
    ∃ next, (Cursor.mk offset (lead ++ linesText lines)).elementsFrom found =
      ⟨found.reverse ++ (linesFrom (offset + lead.length) position lines).map
        (fun b => b.toSpot.reading), next, true⟩ := by
  induction lines generalizing lead offset position found with
  | nil =>
    refine ⟨⟨offset + lead.length, []⟩, ?_⟩
    have hpeek : (Cursor.mk (offset + lead.length) []).peek? ≠ some closeBracket := by
      simp [Cursor.peek?]
    rw [linesText, List.flatMap_nil, List.append_nil, Cursor.elementsFrom, toValue_end hlead,
      if_neg hpeek]
    simp [Cursor.readHere?, Lead.of?, linesFrom, Cursor.toEnd]
  | cons line lines ih =>
    have hread := readHere?_spot ⟨offset + lead.length, line.value⟩ (follows_line hparted)
    have hvalue := toValue_gap .none line.value hlead offset (line.gap.text ++ linesText lines)
    obtain ⟨next, hnext⟩ := ih (parted_of_cons hparted)
      (offset + lead.length + line.value.text.length) (position + 1)
      (Spot.reading ⟨offset + lead.length, line.value⟩ :: found) line.gap.separates
    refine ⟨next, ?_⟩
    rw [linesText_cons]
    refine (elementsFrom_of_some hvalue (peek?_node_ne line.value rfl _ _) hread).trans ?_
    rw [Spot.after, hnext]
    simp [linesFrom]

theorem nodes_linesFrom (offset position : Nat) (lines : List Line) :
    (linesFrom offset position lines).map (fun b => b.node) = lines.map Line.value := by
  induction lines generalizing offset position with
  | nil => rfl
  | cons line lines ih => rw [linesFrom, List.map_cons, List.map_cons, ih]

variable (stream : Stream)

/-- A UTF-8 stream is read as its values. -/
theorem parseAll_stream (hvalid : Utf8.isValid stream.text = true) :
    parseAll stream.text = stream.branches.map fun b => b.toSpot.result := by
  have hread := readAllFrom_lines stream.parted 0 0 [] stream.before.separates
  rw [Nat.zero_add] at hread
  refine hread.trans (List.map_congr_left fun b hb => ?_)
  exact (stream.standsIn_branches hb).reading_eq_result hvalid

/-- The path of the number of values in a stream. -/
def countPath : Bytes :=
  [dot, dot, hash]

/-- The path of a value by its position in a stream. -/
def linePath (k : Nat) : Bytes :=
  dot :: dot :: Bytes.ofNat k

/-- The values of a stream are counted like the elements of an array. -/
theorem start_countPath (env : Surroundings) (depth : Nat) :
    start env stream.text countPath (depth + 1) = { value := .count stream.branches.length } := by
  obtain ⟨next, helements⟩ :=
    elementsFrom_lines stream.parted 0 0 [] stream.before.separates
  have hparse : ElementComponent.parse? env.dialect [hash] = some ⟨.count, .done⟩ := rfl
  have hopen : openAt env false (.start stream.text) [hash] (depth + 1) {} =
      ({ value := .count stream.branches.length }, .over) := by
    rw [openAt, if_neg (by omega), if_neg Bool.false_ne_true, openArray, hparse]
    dsimp only [keepPipe]
    rw [Cursor.start, Stream.text, helements]
    simp [Stream.branches]
  rw [start, show lines? countPath = some [hash] from rfl]
  dsimp only
  rw [enter, hopen]

end Readings

/-! ## Views -/

section Views

variable {engine : Engine} {depth : Nat} (hmax : engine.config.maxDepth = depth + 1)
  {stream : Stream}

include hmax

theorem get_countPath :
    (engine.get stream.text countPath).value = .count stream.branches.length := by
  have hplain : StartsPlain countPath := startsPlain_dot _
  rw [get_of_startsPlain engine _ hplain hmax, start_countPath]
  rfl

/-- A path that starts with a position is a search in the value there. -/
theorem get_line (hsize : stream.text.length < Number.wordLimit) (k : Nat)
    (components : List Component) (hroom : components.length < depth + 1) :
    (engine.get stream.text (linePath k ++ behind components)).value =
      engine.pursue depth
        (answer (stream.branches[k]?.bind fun b => search components b.toSpot))
        (stream.branches[k]?.bind fun b => residue components b.toSpot none) := by
  have hpath : linePath k ++ behind components =
      dot :: dot :: pathOf (.ofLabel (.position k) :: components) := by
    rw [pathOf_cons, Component.ofLabel, Component.text_ofName, escape_ofNat]
    rfl
  rw [hpath, get_of_startsPlain engine _ (startsPlain_dot _) hmax,
    start_lines _ stream (.ofLabel (.position k)) components rfl hroom,
    searchLines_position hsize, residueLines_position hsize]

theorem get_linePath (hvalid : Utf8.isValid stream.text = true)
    (hsize : stream.text.length < Number.wordLimit) (k : Nat) :
    (engine.get stream.text (linePath k)).value =
      ((stream.branches.map fun b => b.toSpot.result)[k]?).getD .missing := by
  have hline := get_line hmax hsize k [] (by simp)
  rw [show linePath k ++ behind [] = linePath k from List.append_nil _] at hline
  rw [hline, List.getElem?_map]
  cases hb : stream.branches[k]? with
  | none => rfl
  | some b =>
    have hstands := stream.standsIn_branches (List.mem_of_getElem? hb)
    exact hstands.reading_eq_result hvalid

/-- Behind the position of a container a path finds what it finds inside of the container. -/
theorem get_inside_line (hsize : stream.text.length < Number.wordLimit) {k : Nat} {b : Branch}
    (hb : stream.branches[k]? = some b) (hcontainer : b.node.isContainer = true) {c : Component}
    {components : List Component} (hlines : lines? (pathOf (c :: components)) = none)
    (hroom : (c :: components).length < depth + 1) :
    (engine.get stream.text (linePath k ++ behind (c :: components))).value =
      (engine.getFrom b.toSpot.result (pathOf (c :: components))).value := by
  have hraw : b.toSpot.result.raw = b.node.text := b.node.raw_value
  rw [get_line hmax hsize k _ hroom, hb,
    getFrom_eq_pursue hmax hraw rfl hcontainer hlines (Nat.le_of_lt hroom)]
  rfl

end Views

/-- **The views of a text of lines agree.**  A UTF-8 text of values with space between them is read
as exactly these values in their order, with their source texts and their offsets.  Behind two dots,
a hash sign finds the number of values, a position finds the value there, and a path of keys and
positions behind the position of an object or an array finds what it finds inside of that value.
No position is too large for a word, since a word holds the length of every text. -/
theorem stream_views (engine : Engine) (hdepth : 0 < engine.config.maxDepth) (stream : Stream)
    (hvalid : Utf8.isValid stream.text = true)
    (hsize : stream.text.length < Number.wordLimit) :
    let visited := parseAll stream.text
    visited = stream.branches.map (fun b => b.toSpot.result) ∧
      stream.branches.map (fun b => b.node) = stream.lines.map Line.value ∧
      (∀ b ∈ stream.branches, b.toSpot.StandsIn stream.text) ∧
      (engine.get stream.text countPath).value = .count stream.lines.length ∧
      (∀ k, (engine.get stream.text (linePath k)).value = visited[k]?.getD .missing) ∧
      ∀ k, ∀ r ∈ visited[k]?, r.isObject = true ∨ r.isArray = true →
        ∀ labels : List Label, labels ≠ [] → .key [] ∉ labels →
          labels.length ≤ engine.config.maxDepth - 1 →
          (engine.get stream.text
              (linePath k ++ dot :: pathOf (labels.map Component.ofLabel))).value =
            (engine.getFrom r (pathOf (labels.map Component.ofLabel))).value := by
  obtain ⟨depth, hmax⟩ : ∃ depth, engine.config.maxDepth = depth + 1 :=
    ⟨engine.config.maxDepth - 1, by omega⟩
  intro visited
  have hvisited : visited = stream.branches.map fun b => b.toSpot.result :=
    parseAll_stream stream hvalid
  have hnodes := nodes_linesFrom stream.before.text.length 0 stream.lines
  have hlength := congrArg List.length hnodes
  rw [List.length_map, List.length_map] at hlength
  refine ⟨hvisited, hnodes, fun b hb => stream.standsIn_branches hb, ?_, fun k => ?_, ?_⟩
  · rw [get_countPath hmax, Stream.branches, hlength]
  · rw [hvisited]
    exact get_linePath hmax hvalid hsize k
  · intro k r hr hcontainer labels hne hkey hroom
    rw [hvisited, List.getElem?_map, Option.mem_def, Option.map_eq_some_iff] at hr
    obtain ⟨b, hb, rfl⟩ := hr
    obtain ⟨l, labels, rfl⟩ := List.exists_cons_of_ne_nil hne
    exact get_inside_line hmax hsize hb (shows_result b.toSpot hcontainer).1 (lines?_labels hkey)
      (by simp only [List.length_cons, List.length_map] at hroom ⊢; omega)

/-- The stream of `null` and `{"a":[null]}` on two lines. -/
def Stream.sample : Stream :=
  ⟨.none, [⟨.word .null, ⟨[lineFeed], by simp [gapBytes]⟩⟩, ⟨Document.sample.root, .none⟩], by simp⟩

theorem Stream.text_sample :
    Stream.sample.text = Bytes.ofString "null\n\x7b\"a\":[null]\x7d" := by
  have hroot : Document.sample.root.text = Bytes.ofString "\x7b\"a\":[null]\x7d" := by
    rw [← Document.text_sample]
    simp [Document.text, Document.sample, Gap.none]
  simp only [Stream.text, Stream.sample, linesText, List.flatMap_cons, List.flatMap_nil, hroot,
    Gap.none, Node.text]
  rfl

theorem stream_views_sample :
    let text := Bytes.ofString "null\n\x7b\"a\":[null]\x7d"
    let object := Result.located (.json (Bytes.ofString "\x7b\"a\":[null]\x7d")) 5
    parseAll text = [.located .null 0, object] ∧
      (Engine.standard.get text countPath).value = .count 2 ∧
      (Engine.standard.get text (linePath 1)).value = object ∧
      (Engine.standard.get text (linePath 1 ++ dot :: [0x61])).value =
        (Engine.standard.getFrom object [0x61]).value := by
  intro text object
  have hvalid : Utf8.isValid Stream.sample.text = true := by
    rw [Stream.text_sample]
    rfl
  obtain ⟨-, -, -, hcount, hline, hinside⟩ := stream_views Engine.standard (by decide) .sample
    hvalid (by rw [Stream.text_sample]; decide)
  have hvisited : parseAll Stream.sample.text = [.located .null 0, object] := by
    rw [Stream.text_sample]
    decide +kernel
  rw [hvisited] at hline hinside
  rw [Stream.text_sample] at hvisited hcount hline hinside
  exact ⟨hvisited, hcount, hline 1, hinside 1 object rfl (.inl rfl) [.key [0x61]] (by simp)
    (by simp) (by decide)⟩

end JsonQuery.Grammar
