import JsonQuery.Proofs.Places
import JsonQuery.Proofs.Printing
import JsonQuery.Proofs.Values
import Mathlib.Data.List.DropRight

/-!
# Arrays on one line

While a document is read, each container is measured: how many characters it takes on one line.
While the document is written, the characters behind the last line break are counted.  An array is
kept on one line where both together stay within the width, so the measure must be what is written.

## Layers

- **Columns**: the column of a page counts the characters of its last line.
- **Measures**: a value that is kept on one line takes the columns that it was measured with.
- **Containers**: arrays and objects as entries of one kind between brackets.
- **Places**: what each item is written as, from the root of the document on.
-/

namespace JsonQuery

open Ascii

namespace Layout

open Grammar

/-! ## Columns -/

/-- What stands on the last line of a text. -/
def lastLine (text : Bytes) : Bytes :=
  text.rtakeWhile (· != lineFeed)

/-- The column of a place in a text: the characters between the start of its line and the place. -/
def columnAt (text : Bytes) (offset : Nat) : Nat :=
  (Utf8.chars (lastLine (text.take offset))).length

/-- A text without line break that takes a number of columns. -/
def Spans (text : Bytes) (columns : Nat) : Prop :=
  lineFeed ∉ text ∧ Utf8.length text = columns

section Columns

variable {a b text : Bytes} {m n : Nat}

theorem Spans.append (ha : Spans a m) (hb : Spans b n) : Spans (a ++ b) (m + n) := by
  refine ⟨?_, ?_⟩
  · rw [List.mem_append, not_or]
    exact ⟨ha.1, hb.1⟩
  · rw [Utf8.length_append, ha.2, hb.2]

theorem Spans.of_eq (ha : Spans a m) (hmn : m = n) : Spans a n :=
  hmn ▸ ha

theorem column_put {c : UInt8} (hc : c ≠ lineFeed) (page : Page) :
    (page.put c).column = page.column + Utf8.length [c] := by
  rw [Page.put, if_neg hc]
  cases hcontinues : Utf8.isContinuation c <;> simp [Utf8.length, hcontinues]

/-- The column of a page is the length of its last line. -/
theorem column_push (text : Bytes) :
    (Page.push text {}).column = Utf8.length (lastLine text) := by
  induction text using List.reverseRecOn with
  | nil => rfl
  | append_singleton text c ih =>
    rw [Page.push_append, lastLine, List.rtakeWhile_concat]
    show ((Page.push text {}).put c).column = _
    by_cases hc : c = lineFeed
    · rw [if_neg (by simp [hc]), Page.put, if_pos hc]
      rfl
    · rw [if_pos (by simpa using hc), column_put hc, ih, Utf8.length_append, lastLine]

/-- Without line break a text moves the column by its length. -/
theorem Spans.column_push (h : Spans text n) (page : Page) :
    (page.push text).column = page.column + n := by
  obtain ⟨hline, rfl⟩ := h
  induction text generalizing page with
  | nil => rfl
  | cons c text ih =>
    rw [List.mem_cons, not_or] at hline
    have hpush : page.push (c :: text) = (page.put c).push text := rfl
    rw [hpush, ih _ hline.2, column_put (Ne.symm hline.1), Nat.add_assoc, ← Utf8.length_append]
    rfl

/-- A piece of a line ends within the line. -/
theorem Spans.column_le {part piece after : Bytes} (h : Spans (part ++ (piece ++ after)) m)
    (hpiece : Spans piece n) (page : Page) : (page.push part).column + n ≤ page.column + m := by
  have hpart : Spans part (Utf8.length part) :=
    ⟨fun hmem => h.1 (List.mem_append_left _ hmem), rfl⟩
  have hlength := h.2
  rw [Utf8.length_append, Utf8.length_append, hpiece.2] at hlength
  rw [hpart.column_push]
  omega

theorem isValid_lastLine (h : Utf8.isValid text = true) : Utf8.isValid (lastLine text) = true := by
  have hsplit : text.rdropWhile (· != lineFeed) ++ lastLine text = text :=
    List.rdropWhile_append_rtakeWhile
  have hlast := List.rdropWhile_last_not (· != lineFeed) text
  rcases List.eq_nil_or_concat (text.rdropWhile (· != lineFeed)) with hnil | ⟨init, c, hfront⟩
  · rw [hnil, List.nil_append] at hsplit
    rwa [hsplit]
  · simp only [hfront, List.concat_eq_append] at hsplit hlast
    have hc : c = lineFeed := by simpa using hlast (by simp)
    rw [← hsplit, hc, List.append_assoc, List.singleton_append,
      Utf8.isValid_append_cons_iff (by decide)] at h
    exact h.2

/-- In front of a one-byte character the column of a page is the column of the place. -/
theorem columnAt_length {c : UInt8} {rest : Bytes} (hc : c ≤ 0x7F)
    (h : Utf8.isValid (text ++ c :: rest) = true) :
    columnAt (text ++ c :: rest) text.length = (Page.push text {}).column := by
  rw [columnAt, List.take_left, column_push,
    Utf8.length_chars (isValid_lastLine (Utf8.isValid_of_append_ascii hc h).1)]

end Columns

/-! ## Measures -/

/-- A value without line break. -/
def OneLine (n : Node) : Prop :=
  lineFeed ∉ n.text

section Measures

theorem lineFeed_notMem_body {text : Bytes} (h : IsBody text) : lineFeed ∉ text := by
  have hdigit : ∀ c : UInt8, isHexDigit c = true → lineFeed ≠ c := by
    rintro c hc rfl
    cases hc
  induction h with
  | nil => exact List.not_mem_nil
  | plain _ _ hspace _ ih =>
    rw [List.mem_cons, not_or]
    exact ⟨fun hc => hspace (hc ▸ by decide), ih⟩
  | short hc _ ih =>
    simp only [List.mem_cons, not_or]
    exact ⟨by decide, fun h => absurd (h ▸ hc) (by decide), ih⟩
  | unit h₁ h₂ h₃ h₄ _ ih =>
    simp only [List.mem_cons, not_or]
    exact ⟨by decide, by decide, hdigit _ h₁, hdigit _ h₂, hdigit _ h₃, hdigit _ h₄, ih⟩

theorem lineFeed_notMem_quoted (body : Body) : lineFeed ∉ Bytes.quoted body.text := by
  have hquote : lineFeed ≠ quote := by decide
  simp [Bytes.quoted, hquote, lineFeed_notMem_body body.isBody]

/-- A scalar is always on one line. -/
theorem spans_scalar {n : Node} (hn : n.isContainer = false) : Spans n.text n.width := by
  refine ⟨?_, (Node.width_scalar hn).symm⟩
  cases n with
  | word w =>
    rw [Node.text]
    rcases w with _ | _ | _ <;> decide
  | number n =>
    rw [Node.text]
    exact fun hc => absurd (List.all_eq_true.1 n.all_isNumberByte _ hc) (by decide)
  | string body =>
    rw [Node.text]
    exact lineFeed_notMem_quoted body
  | array gap items => cases hn
  | object gap members => cases hn

variable {Front : Type} {layout : Layout} (heads : Heads Front) (h : layout.Spaced)

/-- What stands in front of values takes the columns that are counted for it. -/
def Measured : Prop :=
  ∀ f, Spans (headText (heads.mark f)) (heads.width f)

theorem measured_gaps : Measured Heads.gaps :=
  fun _ => ⟨List.not_mem_nil, rfl⟩

theorem measured_tags : Measured Heads.tags := by
  intro tag
  exact Spans.append ⟨lineFeed_notMem_quoted tag.key, rfl⟩
    (show Spans [colon, space] 2 from ⟨by decide, rfl⟩)

/-- What is written for entries, with the comma in front of them if there is one. -/
def entriesText (layValue : Page → Node → Node) (inline : Bool) (level : Nat) (first : Bool)
    (page : Page) (entries : List (Entry Front Node)) : Bytes :=
  commaText first ++ inside heads.text (layEntries heads h layValue inline level first page entries)

/-- What stands between the value before and the value of an entry. -/
def leadIn (layout : Layout) (inline : Bool) (level : Nat) (first : Bool) (f : Front) : Bytes :=
  commaText first ++ (layout.leadText inline first level ++ headText (heads.mark f))

theorem length_leadIn (inline : Bool) (level : Nat) (first : Bool) (f : Front) :
    (leadIn heads layout inline level first f).length = (commaText first).length +
      (heads.text (heads.lead (leadGap h inline first level) f)).length := by
  rw [heads.text_lead, leadIn, List.length_append]
  rfl

/-- The value of the first entry is laid out behind what leads to it, the others behind that. -/
theorem layEntries_cons (layValue : Page → Node → Node) (inline : Bool) (level : Nat)
    (first : Bool) (page : Page) (e : Entry Front Node) (entries : List (Entry Front Node)) :
    let behind := page.push (leadIn heads layout inline level first e.front)
    let value := layValue behind e.value
    layEntries heads h layValue inline level first page (e :: entries) =
      ⟨heads.lead (leadGap h inline first level) e.front, value,
        if entries.isEmpty then lastGap h inline level else .none⟩ ::
          layEntries heads h layValue inline level false (behind.push value.text) entries := by
  have hpage : (page.push (commaText first)).push
      (heads.text (heads.lead (leadGap h inline first level) e.front)) =
        page.push (leadIn heads layout inline level first e.front) := by
    rw [heads.text_lead, ← Page.push_append]
    rfl
  rw [layEntries, hpage]

/-- An entry is written behind what leads to it, and then the others or the gap behind the last. -/
theorem entriesText_cons (layValue : Page → Node → Node) (inline : Bool) (level : Nat)
    (first : Bool) (page : Page) (e : Entry Front Node) (entries : List (Entry Front Node)) :
    let behind := page.push (leadIn heads layout inline level first e.front)
    let value := layValue behind e.value
    entriesText heads h layValue inline level first page (e :: entries) =
      leadIn heads layout inline level first e.front ++ (value.text ++
        if entries.isEmpty then layout.lastText inline level
        else entriesText heads h layValue inline level false (behind.push value.text) entries) := by
  dsimp only
  rw [entriesText, layEntries_cons, inside_cons]
  dsimp only
  rw [heads.text_lead, separator, layEntries_isEmpty, leadIn]
  simp only [List.append_assoc]
  cases entries with
  | nil => simp [layEntries, lastGap, leadGap]
  | cons e' entries => rfl

/-- Entries on one line are as wide as they are together, with a comma and a space between
neighbours. -/
theorem spans_entriesText (hheads : Measured heads) {layValue : Page → Node → Node}
    {entries : List (Entry Front Node)} (hentries : entries ≠ [])
    (hvalue : ∀ e ∈ entries, ∀ page, Spans (layValue page e.value).text e.value.width)
    (level : Nat) (first : Bool) (page : Page) :
    Spans (entriesText heads h layValue true level first page entries)
      (entriesWidth heads.width entries + 2 * (entries.length - 1) + if first then 0 else 2) := by
  induction entries generalizing first page with
  | nil => exact absurd rfl hentries
  | cons e entries ih =>
    rw [List.forall_mem_cons] at hvalue
    have hgap : Spans (commaText first ++ layout.leadText true first level)
        (if first then 0 else 2) := by
      cases first
      · exact ⟨show lineFeed ∉ [comma, space] by decide, rfl⟩
      · exact ⟨List.not_mem_nil, rfl⟩
    have hlead : Spans (leadIn heads layout true level first e.front)
        ((if first then 0 else 2) + heads.width e.front) := by
      rw [leadIn, ← List.append_assoc]
      exact hgap.append (hheads e.front)
    have hbehind := hlead.append
      (hvalue.1 (page.push (leadIn heads layout true level first e.front)))
    rw [entriesText_cons, entriesWidth_cons, List.length_cons, ← List.append_assoc]
    cases entries with
    | nil =>
      have hend : Spans (layout.lastText true level) 0 := ⟨List.not_mem_nil, rfl⟩
      rw [List.isEmpty_nil, if_pos rfl, entriesWidth, List.map_nil, List.sum_nil, List.length_nil]
      exact (hbehind.append hend).of_eq (by omega)
    | cons e' entries =>
      rw [List.isEmpty_cons, if_neg Bool.false_ne_true]
      refine (hbehind.append (ih (List.cons_ne_nil _ _) hvalue.2 false _)).of_eq ?_
      rw [if_neg Bool.false_ne_true, List.length_cons]
      omega

/-- Inside of a container no comma stands in front of the first entry. -/
theorem spans_entriesText_first (hheads : Measured heads) {layValue : Page → Node → Node}
    {entries : List (Entry Front Node)}
    (hvalue : ∀ e ∈ entries, ∀ page, Spans (layValue page e.value).text e.value.width)
    (level : Nat) (page : Page) :
    Spans (entriesText heads h layValue true level true page entries)
      (entriesWidth heads.width entries + 2 * (entries.length - 1)) := by
  by_cases hentries : entries = []
  · subst hentries
    exact ⟨List.not_mem_nil, rfl⟩
  · exact spans_entriesText heads h hheads hentries hvalue level true page

/-- Entries that are broken into lines have a line break in front of the first. -/
theorem lineFeed_mem_entriesText (layValue : Page → Node → Node) {entries : List (Entry Front Node)}
    (hentries : entries ≠ []) (level : Nat) (first : Bool) (page : Page) :
    lineFeed ∈ entriesText heads h layValue false level first page entries := by
  cases entries with
  | nil => exact absurd rfl hentries
  | cons e entries =>
    rw [entriesText_cons, leadIn]
    simp [leadText, lineText]

end Measures

/-! ## Containers -/

/-- Whether a container at a column is written on one line. -/
def onLine (layout : Layout) (inline object : Bool) (column width : Nat) : Bool :=
  inline || (!object && column + width ≤ layout.width)

section Containers

variable {Front : Type} {layout : Layout} (heads : Heads Front) (h : layout.Spaced)

/-- The value of each entry stands behind what is written in front of it. -/
theorem exists_part_of_branch (label : Nat → Front → Label) (layValue : Page → Node → Node)
    (inline : Bool) (level : Nat) {list : List (Entry Front Node × Bytes)} {first : Bool}
    {page : Page} (offset : Nat) {start position i : Nat} {b : Branch}
    (hstart : start = offset + (commaText first).length)
    (hb : (branchesFrom heads.text label start position
      (layEntries heads h layValue inline level first page (list.map Prod.fst)))[i]? = some b) :
    ∃ p part after, list[i]? = some p ∧ b.node = layValue (page.push part) p.1.value ∧
      b.offset = offset + part.length ∧
      entriesText heads h layValue inline level first page (list.map Prod.fst) =
        part ++ (b.node.text ++ after) := by
  induction list generalizing first page offset start position i with
  | nil => simp [layEntries, branchesFrom] at hb
  | cons p list ih =>
    rw [List.map_cons, entriesText_cons]
    rw [List.map_cons, layEntries_cons, branchesFrom] at hb
    dsimp only at hb ⊢
    generalize hbehind : page.push (leadIn heads layout inline level first p.1.front) = behind
      at hb ⊢
    generalize hvalue : layValue behind p.1.value = value at hb ⊢
    have hlength :
        start + (heads.text (heads.lead (leadGap h inline first level) p.1.front)).length =
          offset + (leadIn heads layout inline level first p.1.front).length := by
      rw [hstart, length_leadIn heads h, Nat.add_assoc]
    rw [hlength] at hb
    cases i with
    | zero =>
      obtain rfl := Option.some.inj hb
      exact ⟨p, _, _, rfl, by rw [hbehind, hvalue], rfl, rfl⟩
    | succ i =>
      cases list with
      | nil => simp [layEntries, branchesFrom] at hb
      | cons q list =>
        -- The others follow behind the comma, which is in front of the next one
        rw [List.getElem?_cons_succ] at hb
        obtain ⟨p', part, after, hp, hnode, hoffset, htext⟩ :=
          ih (offset + ((leadIn heads layout inline level first p.1.front).length +
            value.text.length)) (by rw [Nat.add_assoc offset]; rfl) hb
        refine ⟨p', leadIn heads layout inline level first p.1.front ++ (value.text ++ part), after,
          hp, ?_, ?_, ?_⟩
        · rw [hnode, Page.push_append, Page.push_append, hbehind]
        · simp only [hoffset, List.length_append, Nat.add_assoc]
        · rw [List.map_cons, List.isEmpty_cons, if_neg Bool.false_ne_true, ← List.map_cons,
            htext]
          simp only [List.append_assoc]

theorem length_layEntries (layValue : Page → Node → Node) (inline : Bool) (level : Nat)
    (first : Bool) (page : Page) (entries : List (Entry Front Node)) :
    (layEntries heads h layValue inline level first page entries).length = entries.length := by
  induction entries generalizing first page with
  | nil => rfl
  | cons e entries ih => rw [layEntries, List.length_cons, List.length_cons, ih]

/-- A container as entries of one kind, which are laid out between its brackets. -/
structure Opens (levels : Nat) (label : Nat → Front → Label)
    (list : List (Entry Front Node × Bytes)) (items : List Item) (n : Node) : Prop where
  measured : Measured heads
  members : layout.members heads.object items = list.map (memberOf heads.mark)
  isEmpty : items.isEmpty = list.isEmpty
  width : n.width = entriesWidth heads.width (list.map Prod.fst) + 2 * (list.length - 1) + 2
  nests : n.NestsWithin (levels + 1) → ∀ p ∈ list, p.1.value.NestsWithin levels
  lead : ∀ inline page,
    (lay h (levels + 1) inline page n).lead = if heads.object then .object else .array
  text : ∀ inline page, (lay h (levels + 1) inline page n).text =
    let inline := layout.onLine inline heads.object page.column n.width
    opener heads.object :: (entriesText heads h (lay h levels inline) inline (maxLevels - levels)
      true (page.push [opener heads.object]) (list.map Prod.fst) ++ [heads.closer])
  branches : ∀ inline page offset, Spot.branches ⟨offset, lay h (levels + 1) inline page n⟩ =
    let inline := layout.onLine inline heads.object page.column n.width
    branchesFrom heads.text label (offset + 1) 0 (layEntries heads h (lay h levels inline) inline
      (maxLevels - levels) true (page.push [opener heads.object]) (list.map Prod.fst))

/-- Arrays are elements between brackets. -/
theorem opens_array (levels : Nat) (gap : Gap) (elements : List (Entry Gap Node)) (rest : Bytes) :
    Opens .gaps h levels (fun n _ => .position n)
      (followed Gap.text (closeBracket :: rest) elements)
      ((followed Gap.text (closeBracket :: rest) elements).flatMap (itemsOf Gap.mark))
      (.array gap elements) where
  measured := measured_gaps
  members := members_array layout _
  isEmpty := isEmpty_flatMap_itemsOf _ _
  width := by
    have hlength :
        (followed Gap.text (closeBracket :: rest) elements).length = elements.length := by
      rw [← List.length_map Prod.fst, map_fst_followed]
    rw [Node.width_array, map_fst_followed, hlength, entriesWidth]
    simp only [Heads.gaps, Fronts.gaps, Nat.zero_add]
    omega
  nests hnests p hp := hnests p.1 (fst_mem_of_mem_followed hp)
  lead inline page := rfl
  text inline page := by
    rw [map_fst_followed, lay, Node.text_array]
    rfl
  branches inline page offset := by
    rw [map_fst_followed]
    rfl

theorem map_fst_arrangeBy (layout : Layout) (after : Bytes) (fields : List (Entry Tag Node)) :
    (layout.arrangeBy (fun p => nameOf p.1) (followed Tag.text after fields)).map Prod.fst =
      layout.arrangeBy nameOf fields := by
  rw [map_arrangeBy layout Prod.fst nameOf, map_fst_followed]

/-- An object gives up no line for being short. -/
theorem onLine_object (layout : Layout) (inline : Bool) (column width : Nat) :
    layout.onLine inline Heads.tags.object column width = inline :=
  Bool.or_false inline

/-- Objects are members between braces, in the order of the options. -/
theorem opens_object (levels : Nat) (gap : Gap) (fields : List (Entry Tag Node)) (rest : Bytes) :
    Opens .tags h levels (fun _ tag => .key tag.key.name)
      (layout.arrangeBy (fun p => nameOf p.1) (followed Tag.text (closeBrace :: rest) fields))
      ((followed Tag.text (closeBrace :: rest) fields).flatMap (itemsOf Tag.mark))
      (.object gap fields) where
  measured := measured_tags
  members := members_tags layout _
  isEmpty := by
    rw [isEmpty_flatMap_itemsOf, (perm_arrangeBy layout _ _).isEmpty_eq]
  width := by
    have hperm := perm_arrangeBy layout nameOf fields
    have hlength : (layout.arrangeBy (fun p => nameOf p.1)
        (followed Tag.text (closeBrace :: rest) fields)).length = fields.length := by
      rw [← List.length_map Prod.fst, map_fst_arrangeBy, hperm.length_eq]
    rw [Node.width_object, map_fst_arrangeBy, hlength, entriesWidth, (hperm.map _).sum_nat]
    simp only [Heads.tags, Fronts.tags]
    omega
  nests hnests p hp :=
    hnests p.1 (fst_mem_of_mem_followed ((perm_arrangeBy layout _ _).mem_iff.1 hp))
  lead inline page := rfl
  text inline page := by
    dsimp only
    rw [map_fst_arrangeBy, onLine_object, lay, Node.text_object]
    rfl
  branches inline page offset := by
    dsimp only
    rw [map_fst_arrangeBy, onLine_object]
    rfl

/-- What is read as a container are entries between brackets. -/
theorem exists_opens (levels : Nat) {n : Node} {rest source : Bytes} {object : Bool}
    {items : List Item} {width length : Nat}
    (hitem : n.item rest = .container object items width source length) :
    width = n.width ∧ ∃ (Front : Type) (heads : Heads Front) (label : Nat → Front → Label)
      (list : List (Entry Front Node × Bytes)), heads.object = object ∧
        Opens heads h levels label list items n := by
  cases n with
  | word w => rw [Node.item_scalar rfl] at hitem; cases hitem
  | number n => rw [Node.item_scalar rfl] at hitem; cases hitem
  | string body => rw [Node.item_scalar rfl] at hitem; cases hitem
  | array gap elements =>
    rw [Node.item_array] at hitem
    injection hitem with hobject hitems hwidth
    subst hobject hitems hwidth
    exact ⟨rfl, _, _, _, _, rfl, opens_array h levels gap elements rest⟩
  | object gap fields =>
    rw [Node.item_object] at hitem
    injection hitem with hobject hitems hwidth
    subst hobject hitems hwidth
    exact ⟨rfl, _, _, _, _, rfl, opens_object h levels gap fields rest⟩

theorem exists_item {n : Node} (hn : n.isContainer = true) (rest : Bytes) :
    ∃ object items width source length,
      n.item rest = .container object items width source length := by
  cases n with
  | word w => cases hn
  | number n => cases hn
  | string body => cases hn
  | array gap elements => exact ⟨_, _, _, _, _, Node.item_array gap elements rest⟩
  | object gap fields => exact ⟨_, _, _, _, _, Node.item_object gap fields rest⟩

theorem lay_scalar {n : Node} (hn : n.isContainer = false) (levels : Nat) (inline : Bool)
    (page : Page) : lay h levels inline page n = n := by
  cases n with
  | word w => cases levels <;> simp [lay]
  | number n => cases levels <;> simp [lay]
  | string body => cases levels <;> simp [lay]
  | array gap elements => cases hn
  | object gap fields => cases hn

theorem isContainer_of_nestsWithin_zero {n : Node} (hnests : n.NestsWithin 0) :
    n.isContainer = false := by
  cases n with
  | word w => rfl
  | number n => rfl
  | string body => rfl
  | array gap elements => cases hnests
  | object gap fields => cases hnests

variable {heads h} {levels : Nat} {label : Nat → Front → Label}
  {list : List (Entry Front Node × Bytes)} {items : List Item} {n : Node}

/-- On one line a container takes the columns of its entries and of its brackets. -/
theorem Opens.spans (hopens : Opens heads h levels label list items n)
    (hvalue : ∀ p ∈ list, ∀ page, Spans (lay h levels true page p.1.value).text p.1.value.width)
    {inline : Bool} {page : Page}
    (hline : layout.onLine inline heads.object page.column n.width = true) :
    Spans (lay h (levels + 1) inline page n).text n.width := by
  have hbrackets : Spans [opener heads.object] 1 ∧ Spans [heads.closer] 1 := by
    rw [Fronts.closer]
    cases heads.object <;> exact ⟨⟨by decide, rfl⟩, ⟨by decide, rfl⟩⟩
  have hentries := spans_entriesText_first heads h hopens.measured (List.forall_mem_map.2 hvalue)
    (maxLevels - levels) (page.push [opener heads.object])
  rw [hopens.text, hline]
  refine (hbrackets.1.append (hentries.append hbrackets.2)).of_eq ?_
  rw [hopens.width, List.length_map]
  omega

/-- Inside of an array on one line a value takes the columns that it was measured with. -/
theorem spans_lay (h : layout.Spaced) {levels : Nat} {n : Node} (hnests : n.NestsWithin levels)
    (page : Page) : Spans (lay h levels true page n).text n.width := by
  induction levels generalizing n page with
  | zero =>
    have hn := isContainer_of_nestsWithin_zero hnests
    rw [lay_scalar h hn]
    exact spans_scalar hn
  | succ levels ih =>
    cases hn : n.isContainer with
    | false =>
      rw [lay_scalar h hn]
      exact spans_scalar hn
    | true =>
      obtain ⟨object, items, width, source, length, hitem⟩ := exists_item hn []
      obtain ⟨-, Front, heads, label, list, -, hopens⟩ := exists_opens h levels hitem
      exact hopens.spans (fun p hp => ih (hopens.nests hnests p hp)) rfl

/-- A container that is not empty is broken into lines unless it is written on one. -/
theorem Opens.oneLine_iff (hopens : Opens heads h levels label list items n) (hitems : items ≠ [])
    (hnests : n.NestsWithin (levels + 1)) (inline : Bool) (page : Page) :
    OneLine (lay h (levels + 1) inline page n) ↔
      layout.onLine inline heads.object page.column n.width = true := by
  constructor
  · intro hline
    rw [← Bool.not_eq_false]
    intro hbroken
    have hlist : list.map Prod.fst ≠ [] := by
      have hempty := hopens.isEmpty
      rw [List.isEmpty_eq_false_iff.2 hitems] at hempty
      simpa using hempty.symm
    rw [OneLine, hopens.text, hbroken] at hline
    refine hline (List.mem_cons_of_mem _ (List.mem_append_left _ ?_))
    exact lineFeed_mem_entriesText heads h _ hlist _ _ _
  · intro hline
    exact (hopens.spans (fun p hp page => spans_lay h (hopens.nests hnests p hp) page) hline).1

/-- What is written for a member stands inside of what is written for its container. -/
theorem Opens.branch (hopens : Opens heads h levels label list items n) {inline : Bool}
    {page : Page} {offset i : Nat} {member : Member} {b : Branch}
    (hmember : (layout.members heads.object items)[i]? = some member)
    (hb : (Spot.mk offset (lay h (levels + 1) inline page n)).branches[i]? = some b) :
    ∃ child rest part after, member.value = child.item rest ∧
      (n.NestsWithin (levels + 1) → child.NestsWithin levels) ∧
      b.node = lay h levels (layout.onLine inline heads.object page.column n.width)
        (page.push part) child ∧
      b.offset = offset + part.length ∧
      (lay h (levels + 1) inline page n).text = part ++ (b.node.text ++ after) := by
  rw [hopens.branches] at hb
  dsimp only at hb
  obtain ⟨p, part, after, hp, hnode, hoffset, htext⟩ :=
    exists_part_of_branch heads h label _ _ _ (offset + 1) (by rfl) hb
  rw [hopens.members, List.getElem?_map, hp] at hmember
  obtain rfl := Option.some.inj hmember
  refine ⟨p.1.value, p.2, opener heads.object :: part, after ++ [heads.closer], rfl,
    fun hnests => hopens.nests hnests p (List.mem_of_getElem? hp), ?_, ?_, ?_⟩
  · rw [hnode, ← Page.push_append]
    rfl
  · rw [hoffset, List.length_cons]
    omega
  · rw [hopens.text]
    dsimp only
    rw [htext]
    simp only [List.cons_append, List.append_assoc]

end Containers

/-! ## Places -/

/-- What the items of a document are printed as, from the root on: the members of a container are
printed one after the other as the values in it.  With each item come the containers that are
printed around it, the innermost first. -/
inductive Printed (layout : Layout) (root : Item) (s : Spot) : List Spot → Item → Spot → Prop where
  | root : Printed layout root s [] root s
  | member {outer : List Spot} {object : Bool} {items : List Item} {width length : Nat}
      {source : Bytes} {t : Spot} {i : Nat} {member : Member} {b : Branch}
      (hcontainer : Printed layout root s outer (.container object items width source length) t)
      (hmember : (layout.members object items)[i]? = some member)
      (hbranch : t.branches[i]? = some b) :
      Printed layout root s (t :: outer) member.value b.toSpot

/-- Whether one of the containers around a place is an array on one line. -/
def InsideOneLine (outer : List Spot) : Prop :=
  ∃ t ∈ outer, t.node.lead = .array ∧ OneLine t.node

/-- How a value is written behind a text: with a number of levels left, as part of a line or not. -/
structure Placed {layout : Layout} (h : layout.Spaced) (text : Bytes) (outer : List Spot) (n : Node)
    (levels : Nat) (inline : Bool) (before : Bytes) (t : Spot) : Prop where
  nests : n.NestsWithin levels
  node : t.node = lay h levels inline (Page.push before {}) n
  stands : ∃ after, text = before ++ (t.node.text ++ after)
  offset : before.length = t.offset
  inline_iff : inline = true ↔ InsideOneLine outer
  fits : inline = true → (Page.push before {}).column + n.width ≤ layout.width

section Places

variable {layout : Layout} {h : layout.Spaced} {text : Bytes} {outer : List Spot} {n : Node}
  {levels : Nat} {inline : Bool} {before rest source : Bytes} {t : Spot} {object : Bool}
  {items : List Item} {width length : Nat}

theorem exists_levels (hnests : n.NestsWithin levels) (hn : n.isContainer = true) :
    ∃ below, levels = below + 1 := by
  cases levels with
  | zero =>
    rw [isContainer_of_nestsWithin_zero hnests] at hn
    cases hn
  | succ below => exact ⟨below, rfl⟩

/-- A container that is written on one line ends within the width. -/
theorem le_of_onLine {column : Nat} (hfits : inline = true → column + width ≤ layout.width)
    (hline : layout.onLine inline object column width = true) : column + width ≤ layout.width := by
  rw [onLine, Bool.or_eq_true, Bool.and_eq_true, decide_eq_true_eq] at hline
  rcases hline with hinline | ⟨-, hwidth⟩
  · exact hfits hinline
  · exact hwidth

/-- A container around a place makes it part of a line if it is an array on one line. -/
theorem insideOneLine_cons : InsideOneLine (t :: outer) ↔
    t.node.lead = .array ∧ OneLine t.node ∨ InsideOneLine outer := by
  simp [InsideOneLine]

theorem isContainer_of_item (hitem : n.item rest = .container object items width source length) :
    n.isContainer = true := by
  rw [← Bool.not_eq_false]
  intro hn
  rw [Node.item_scalar hn] at hitem
  cases hitem

/-- A container that is not empty is on one line where it is written so, and as wide as measured. -/
theorem Placed.container (hplaced : Placed h text outer n levels inline before t)
    (hitem : n.item rest = .container object items width source length) (hitems : items ≠ []) :
    t.node.lead = (if object then .object else .array) ∧
      (OneLine t.node ↔ layout.onLine inline object (Page.push before {}).column width = true) ∧
      (OneLine t.node → Spans t.node.text width) := by
  obtain ⟨below, rfl⟩ := exists_levels hplaced.nests (isContainer_of_item hitem)
  obtain ⟨rfl, Front, heads, label, list, rfl, hopens⟩ := exists_opens h below hitem
  have hline := hopens.oneLine_iff hitems hplaced.nests inline (Page.push before {})
  rw [hplaced.node]
  refine ⟨hopens.lead _ _, hline, fun honeLine => ?_⟩
  exact hopens.spans (fun p hp => spans_lay h (hopens.nests hplaced.nests p hp)) (hline.1 honeLine)

/-- The members of a container are part of its line, or else as much part of one as it is. -/
theorem Placed.insideOneLine_iff (hplaced : Placed h text outer n levels inline before t)
    (hlead : t.node.lead = if object then .object else .array)
    (hline : OneLine t.node ↔
      layout.onLine inline object (Page.push before {}).column width = true) :
    layout.onLine inline object (Page.push before {}).column width = true ↔
      InsideOneLine (t :: outer) := by
  rw [insideOneLine_cons, hlead, hline, ← hplaced.inline_iff]
  cases object with
  | true => simp [onLine]
  | false => cases inline <;> simp [onLine]

/-- A member of a container is written behind what is in front of it there. -/
theorem Placed.member (hplaced : Placed h text outer n levels inline before t)
    (hitem : n.item rest = .container object items width source length) {i : Nat} {member : Member}
    {b : Branch} (hmember : (layout.members object items)[i]? = some member)
    (hb : t.branches[i]? = some b) :
    ∃ child rest levels inline before, member.value = child.item rest ∧
      Placed h text (t :: outer) child levels inline before b.toSpot := by
  obtain ⟨below, rfl⟩ := exists_levels hplaced.nests (isContainer_of_item hitem)
  obtain ⟨rfl, Front, heads, label, list, rfl, hopens⟩ := exists_opens h below hitem
  have hitems : items ≠ [] := by
    have hempty := hopens.isEmpty
    rw [hopens.members] at hmember
    rintro rfl
    rw [List.isEmpty_nil, eq_comm, List.isEmpty_iff] at hempty
    simp [hempty] at hmember
  obtain ⟨hlead, hline, hspans⟩ := hplaced.container hitem hitems
  obtain ⟨offset, node⟩ := t
  obtain rfl : node = _ := hplaced.node
  obtain ⟨child, rest', part, after', hvalue, hchild, hnode, hoffset, htext⟩ :=
    hopens.branch hmember hb
  obtain ⟨after, hstands⟩ := hplaced.stands
  refine ⟨child, rest', below, _, before ++ part, hvalue, hchild hplaced.nests, ?_, ?_, ?_,
    hplaced.insideOneLine_iff hlead hline, fun honLine => ?_⟩
  · rw [Page.push_append]
    exact hnode
  · refine ⟨after' ++ after, ?_⟩
    rw [hstands]
    dsimp only
    rw [htext]
    simp only [List.append_assoc]
  · rw [hoffset, List.length_append]
    exact congrArg (· + part.length) hplaced.offset
  · -- The line that holds the container goes on behind the member
    have hwhole := hspans (hline.2 honLine)
    have hpiece : Spans b.node.text child.width := by
      rw [hnode, honLine]
      exact spans_lay h (hchild hplaced.nests) _
    dsimp only at hwhole
    rw [htext] at hwhole
    rw [Page.push_append]
    exact (hwhole.column_le hpiece _).trans (le_of_onLine hplaced.fits honLine)

/-- Every item that is printed is written behind some text. -/
theorem exists_placed {d : Document} {item : Item}
    (hprinted : Printed layout (d.root.item d.after.text) (laid h d).spot outer item t)
    (hnests : d.root.NestsWithin maxLevels) :
    ∃ n rest levels inline before, item = n.item rest ∧
      Placed h (laid h d).text outer n levels inline before t := by
  induction hprinted with
  | root =>
    refine ⟨d.root, d.after.text, maxLevels, false, layout.margin, rfl, hnests, rfl, ⟨_, rfl⟩, rfl,
      ?_, ?_⟩
    · simp [InsideOneLine]
    · simp
  | member _ hmember hbranch ih =>
    obtain ⟨n, rest, levels, inline, before, hitem, hplaced⟩ := ih
    exact hplaced.member hitem.symm hmember hbranch

theorem Placed.columnAt_eq (hplaced : Placed h text outer n levels inline before t)
    (hvalid : Utf8.isValid text = true) :
    columnAt text t.offset = (Page.push before {}).column := by
  obtain ⟨after, hstands⟩ := hplaced.stands
  obtain ⟨c, tail, htext, hc⟩ := t.node.text_cons
  rw [hstands, htext, List.cons_append] at hvalid ⊢
  rw [← hplaced.offset]
  exact columnAt_length (ascii_of_startsValue hc) hvalid

/-- As many values are printed in a container as it has members. -/
theorem Placed.length_branches (hplaced : Placed h text outer n levels inline before t)
    (hitem : n.item rest = .container object items width source length) :
    t.branches.length = (layout.members object items).length := by
  obtain ⟨below, rfl⟩ := exists_levels hplaced.nests (isContainer_of_item hitem)
  obtain ⟨-, Front, heads, label, list, rfl, hopens⟩ := exists_opens h below hitem
  obtain ⟨offset, node⟩ := t
  obtain rfl : node = _ := hplaced.node
  rw [hopens.branches, hopens.members, List.length_map]
  dsimp only
  rw [← List.length_map fun b : Branch => b.node, nodes_branchesFrom, List.length_map,
    length_layEntries, List.length_map]

/-- What is printed as a container was read as one. -/
theorem Placed.exists_item (hplaced : Placed h text outer n levels inline before t)
    (ht : t.node.isContainer = true) (rest : Bytes) :
    ∃ object items width source length,
      n.item rest = .container object items width source length := by
  cases hn : n.isContainer with
  | true => exact Layout.exists_item hn rest
  | false =>
    rw [hplaced.node, lay_scalar h hn, hn] at ht
    cases ht

/-- Exactly the arrays that fit are on one line.  Every container that is printed was measured when
the document was read, and if it is not empty and on one line it is as wide as that.  An array that
is not inside of an array on one line is on one line just if it ends within the width.  So no array
on one line ends behind the width, and an object is on one line only inside of such an array. -/
theorem oneLine_iff_fits (h : layout.Spaced) (d : Document)
    (hvalid : isWellFormedUtf8 d.text = true) (hnests : d.root.NestsWithin 1024) :
    ∃ item, read? d.text = some item ∧ ∃ e : Document, e.text = layout.pretty d.text ∧
      (∀ {outer inner t}, Printed layout item e.spot outer inner t → t.node.isContainer = true →
        ∃ object items width source length,
          inner = .container object items width source length) ∧
      ∀ {outer object items width source length t},
        Printed layout item e.spot outer (.container object items width source length) t →
        t.StandsIn (layout.pretty d.text) ∧
        t.branches.length = (layout.members object items).length ∧
        (items ≠ [] →
          let column := columnAt (layout.pretty d.text) t.offset
          let characters := (Utf8.chars t.node.text).length
          t.node.lead = (if object then .object else .array) ∧
          (OneLine t.node → characters = width) ∧
          (object = false → ¬InsideOneLine outer →
            (OneLine t.node ↔ column + width ≤ layout.width)) ∧
          (object = false → OneLine t.node → column + characters ≤ layout.width) ∧
          (object = true → OneLine t.node → InsideOneLine outer)) := by
  have hutf8 : Utf8.isValid (laid h d).text = true := by
    rw [isWellFormedUtf8, Bool.and_eq_true] at hvalid
    exact isValid_laid h hvalid.1
  refine ⟨_, read?_document d, laid h d, (pretty_document h d).symm, fun hprinted ht => ?_,
    fun {outer object items width source length t} hprinted => ?_⟩
  · obtain ⟨n, rest, levels, inline, before, rfl, hplaced⟩ := exists_placed hprinted hnests
    exact hplaced.exists_item ht rest
  · rw [pretty_document h d]
    obtain ⟨n, rest, levels, inline, before, hitem, hplaced⟩ := exists_placed hprinted hnests
    obtain ⟨after, hstands⟩ := hplaced.stands
    have hstandsIn : t.StandsIn (laid h d).text := ⟨before, after, hstands, hplaced.offset⟩
    refine ⟨hstandsIn, hplaced.length_branches hitem.symm, fun hitems => ?_⟩
    obtain ⟨hlead, hline, hspans⟩ := hplaced.container hitem.symm hitems
    have hcharacters : OneLine t.node → (Utf8.chars t.node.text).length = width := by
      intro honeLine
      rw [Utf8.length_chars (hstandsIn.isValid hutf8), (hspans honeLine).2]
    obtain ⟨rfl, -⟩ := exists_opens h levels hitem.symm
    dsimp only
    rw [hplaced.columnAt_eq hutf8]
    refine ⟨hlead, hcharacters, ?_, ?_, ?_⟩
    · rintro rfl houter
      rw [← hplaced.inline_iff, Bool.not_eq_true] at houter
      rw [hline, onLine, houter]
      simp
    · intro _ honeLine
      rw [hcharacters honeLine]
      exact le_of_onLine hplaced.fits (hline.1 honeLine)
    · rintro rfl honeLine
      rw [← hplaced.inline_iff]
      exact (Bool.or_false inline).symm.trans (hline.1 honeLine)

/-- The document `["é"]`, in which a character takes two bytes. -/
def accented : Document :=
  let body : Body := ⟨[0xC3, 0xA9], .plain (by decide) (by decide) (by decide)
    (.plain (by decide) (by decide) (by decide) .nil)⟩
  ⟨.none, .array .none [⟨.none, .string body, .none⟩], .none⟩

theorem text_accented : accented.text = Bytes.ofString "[\"é\"]" := by
  simp only [Document.text, accented, Node.text_array, inside_cons, inside_nil, separator, Gap.none,
    Node.text]
  rfl

/-- Five characters in six bytes fit where five columns are left. -/
theorem oneLine_iff_fits_sample :
    let layout : Layout := { width := 5 }
    layout.Spaced ∧ isWellFormedUtf8 accented.text = true ∧ accented.root.NestsWithin 1024 ∧
      ∃ e : Document, e.text = layout.pretty accented.text ∧ OneLine e.root ∧
        (Utf8.chars e.root.text).length = 5 := by
  intro layout
  have hspaced : layout.Spaced := .of_all rfl
  have hvalid : isWellFormedUtf8 accented.text = true := by
    rw [text_accented]
    decide +kernel
  have hnests : accented.root.NestsWithin 1024 := by
    simp [accented, Node.NestsWithin]
  have hpretty : layout.pretty accented.text = Bytes.ofString "[\"é\"]\n" := by
    rw [text_accented, pretty_eq]
    decide +kernel
  refine ⟨hspaced, hvalid, hnests, ?_⟩
  obtain ⟨item, hitem, e, he, -, hall⟩ := oneLine_iff_fits hspaced accented hvalid hnests
  rw [read?_document] at hitem
  obtain rfl := Option.some.inj hitem
  obtain ⟨items, source, length, hitems, hroot⟩ : ∃ items source length, items ≠ [] ∧
      accented.root.item accented.after.text = .container false items 5 source length := by
    have hwidth : accented.root.width = 5 := by
      rw [accented, Node.width_array, List.map_singleton, Node.width_scalar rfl, Node.text]
      rfl
    exact ⟨_, _, _, List.cons_ne_nil _ _, hwidth ▸ Node.item_array _ _ _⟩
  have hprinted : Printed layout (accented.root.item accented.after.text) e.spot []
      (.container false items 5 source length) e.spot := hroot ▸ .root
  obtain ⟨-, -, hfacts⟩ := hall hprinted
  obtain ⟨-, hcharacters, hfits, -⟩ := hfacts hitems
  have hbefore : e.before.text = [] := by
    cases hgap : e.before.text with
    | nil => rfl
    | cons c gap =>
      rw [hpretty, Document.text, hgap] at he
      have hc : c = openBracket := by injection he
      exact absurd (e.before.isGap c (by simp [hgap])) (hc ▸ by decide)
  have hcolumn : columnAt (layout.pretty accented.text) e.spot.offset = 0 := by
    rw [Document.spot, hbefore]
    rfl
  rw [hcolumn] at hfits
  have honeLine : OneLine e.root := (hfits rfl (by simp [InsideOneLine])).2 (by decide)
  exact ⟨e, he, honeLine, hcharacters honeLine⟩

end Places

end Layout

end JsonQuery
