import JsonQuery.Proofs.Bare
import JsonQuery.Proofs.Frames
import JsonQuery.Proofs.Items
import JsonQuery.Proofs.Recognition

/-!
# Documents on lines

Laying a document out gives its tree new gaps: a line in front of each member, or a space where an
array stays on one line.  No token is lost, added or changed, and only where members are put in
order do tokens move.

## Layers

- **Pages**: what is written on a page goes behind what is there.
- **Order**: members in the order of their names.
- **Gaps**: what stands in front of a member and behind the last one.
- **Trees**: `lay` is the tree with its new gaps, and writing an item writes the text of that tree.
- **Tokens**: the tree that is laid out has the tokens of the tree, and depends on nothing else.
-/

namespace JsonQuery.Layout

open Ascii Grammar

/-! ## Pages -/

section Pages

theorem Page.push_append (a b : Bytes) (page : Page) :
    page.push (a ++ b) = (page.push a).push b :=
  List.foldl_append

theorem Page.written_push (text : Bytes) (page : Page) :
    (page.push text).written = text.reverse ++ page.written := by
  induction text generalizing page with
  | nil => rfl
  | cons c text ih =>
    rw [List.reverse_cons, List.append_assoc]
    exact ih (page.put c)

end Pages

/-! ## Order -/

/-- A list in the order of names; what has one name keeps its order. -/
def sortBy {α : Type} (name : α → Bytes) (list : List α) : List α :=
  list.mergeSort fun a b => !(name b < name a)

/-- The members of an object in the order of the options. -/
def arrangeBy {α : Type} (layout : Layout) (name : α → Bytes) (list : List α) : List α :=
  if layout.sortKeys then sortBy name list else list

section Order

variable {α β : Type}

theorem pairwise_sortBy (name : α → Bytes) (list : List α) :
    (sortBy name list).Pairwise fun a b => (!(name b < name a)) = true := by
  apply List.pairwise_mergeSort
  · intro a b c hab hbc
    simp only [Bool.not_eq_true', decide_eq_false_iff_not, List.not_lt] at *
    exact List.le_trans hab hbc
  · intro a b
    simp only [Bool.or_eq_true, Bool.not_eq_true', decide_eq_false_iff_not, List.not_lt]
    exact List.le_total _ _

theorem perm_arrangeBy (layout : Layout) (name : α → Bytes) (list : List α) :
    (layout.arrangeBy name list).Perm list := by
  rw [arrangeBy]
  split
  · exact List.mergeSort_perm _ _
  · rfl

/-- What is in order stays as it is. -/
theorem arrangeBy_arrangeBy (layout : Layout) (name : α → Bytes) (list : List α) :
    layout.arrangeBy name (layout.arrangeBy name list) = layout.arrangeBy name list := by
  rw [arrangeBy, arrangeBy]
  split
  · exact List.mergeSort_of_pairwise (pairwise_sortBy name list)
  · rfl

/-- The order depends on the names alone. -/
theorem map_sortBy (f : α → β) (name : β → Bytes) (list : List α) :
    (sortBy (fun a => name (f a)) list).map f = sortBy name (list.map f) :=
  List.map_mergeSort fun _ _ _ _ => rfl

theorem map_arrangeBy (layout : Layout) (f : α → β) (name : β → Bytes) (list : List α) :
    (layout.arrangeBy (fun a => name (f a)) list).map f = layout.arrangeBy name (list.map f) := by
  rw [arrangeBy, arrangeBy]
  split
  · exact map_sortBy f name list
  · rfl

end Order

/-! ## Gaps -/

/-- Options whose texts may stand between tokens. -/
structure Spaced (layout : Layout) : Prop where
  margin : ∀ c ∈ layout.margin, c ∈ gapBytes
  indent : ∀ c ∈ layout.indent, c ∈ gapBytes

/-- The start of a line at a level, with the end of the line before. -/
def lineText (layout : Layout) (level : Nat) : Bytes :=
  lineFeed :: (layout.margin ++ (List.replicate level layout.indent).flatten)

section Gaps

variable {layout : Layout}

theorem Spaced.of_all (h : (layout.margin ++ layout.indent).all WellFormed.isGap = true) :
    layout.Spaced := by
  simp only [List.all_append, Bool.and_eq_true, List.all_eq_true, ← mem_gapBytes] at h
  exact ⟨h.1, h.2⟩

theorem startLine_eq (layout : Layout) (level : Nat) (page : Page) :
    layout.startLine level page = page.push (layout.lineText level) := by
  have hrepeat : ∀ page : Page, level.repeat (Page.push layout.indent) page =
      page.push (List.replicate level layout.indent).flatten := by
    intro page
    induction level with
    | zero => rfl
    | succ level ih =>
      rw [Nat.repeat, ih, List.replicate_succ', List.flatten_append, Page.push_append,
        List.flatten_singleton]
  rw [startLine, hrepeat, lineText, ← Page.push_append, ← Page.push_append]
  rfl

theorem Spaced.line (h : layout.Spaced) (level : Nat) :
    ∀ c ∈ layout.lineText level, c ∈ gapBytes := by
  intro c hc
  rw [lineText, List.mem_cons, List.mem_append, List.mem_flatten] at hc
  rcases hc with rfl | hc | ⟨text, htext, hc⟩
  · decide
  · exact h.margin c hc
  · exact h.indent c (List.eq_of_mem_replicate htext ▸ hc)

/-- A single space. -/
def spaceGap : Gap :=
  ⟨[space], by simp [gapBytes]⟩

/-- What stands in front of a member, behind the comma if there is one. -/
def leadText (layout : Layout) (inline first : Bool) (level : Nat) : Bytes :=
  if inline then if first then [] else [space] else layout.lineText level

/-- What stands behind the last member. -/
def lastText (layout : Layout) (inline : Bool) (level : Nat) : Bytes :=
  if inline then [] else layout.lineText (level - 1)

/-- The comma behind the member before. -/
def commaText (first : Bool) : Bytes :=
  if first then [] else [comma]

theorem separate_eq (layout : Layout) (inline first : Bool) (level : Nat) (page : Page) :
    layout.separate inline first level page =
      (page.push (commaText first)).push (layout.leadText inline first level) := by
  cases inline <;> cases first <;> simp [separate, leadText, commaText, startLine_eq] <;> rfl

theorem push_lastText (layout : Layout) (inline : Bool) (level : Nat) (page : Page) :
    page.push (layout.lastText inline level) =
      if inline then page else layout.startLine (level - 1) page := by
  cases inline
  · exact (startLine_eq layout (level - 1) page).symm
  · rfl

/-- The gap in front of a member. -/
def leadGap (h : layout.Spaced) (inline first : Bool) (level : Nat) : Gap :=
  ⟨layout.leadText inline first level, by
    cases inline
    · exact h.line level
    · cases first <;> simp [leadText, gapBytes]⟩

/-- The gap behind the last member. -/
def lastGap (h : layout.Spaced) (inline : Bool) (level : Nat) : Gap :=
  ⟨layout.lastText inline level, by
    cases inline
    · exact h.line (level - 1)
    · simp [lastText]⟩

end Gaps

/-! ## Trees -/

/-- A key as it is laid out, with its colon and a space. -/
def headText : Option Item → Bytes
  | some key => key.text ++ [colon, space]
  | none => []

/-- How what stands in front of values is laid out behind a given gap, and what it is without its
gaps, which do not tell where it stood. -/
structure Heads (Front : Type) extends Fronts Front where
  lead : Gap → Front → Front
  bare : Front → Front
  text_lead : ∀ gap f, text (lead gap f) = gap.text ++ headText (mark f)
  bare_lead : ∀ gap f, bare (lead gap f) = bare f

/-- Nothing but a gap stands in front of an element. -/
def Heads.gaps : Heads Gap where
  toFronts := .gaps
  lead gap _ := gap
  bare _ := .none
  text_lead gap _ := (List.append_nil gap.text).symm
  bare_lead _ _ := rfl

/-- In front of the value of a member stand its key and a colon. -/
def Heads.tags : Heads Tag where
  toFronts := .tags
  lead gap tag := ⟨gap, tag.key, .none, spaceGap⟩
  bare := Tag.bare
  text_lead gap tag := by
    show gap.text ++ (Bytes.quoted tag.key.text ++ [colon, space]) = _
    rfl
  bare_lead _ _ := rfl

/-- The name of a member of an object. -/
def nameOf (e : Entry Tag Node) : Bytes :=
  e.front.key.name

section Trees

variable {Front : Type} {layout : Layout} (heads : Heads Front) (h : layout.Spaced)

/-- Entries with their new gaps, by a given way to lay values out. -/
def layEntries (layValue : Page → Node → Node) (inline : Bool) (level : Nat) :
    (first : Bool) → Page → List (Entry Front Node) → List (Entry Front Node)
  | _, _, [] => []
  | first, page, e :: entries =>
    let front := heads.lead (leadGap h inline first level) e.front
    let page := (page.push (commaText first)).push (heads.text front)
    let value := layValue page e.value
    ⟨front, value, if entries.isEmpty then lastGap h inline level else .none⟩ ::
      layEntries layValue inline level false (page.push value.text) entries

/-- The tree of a value as it is laid out behind a page, with a number of levels left. -/
def lay (h : layout.Spaced) : (levels : Nat) → (inline : Bool) → Page → Node → Node
  | 0, _, _, n => n.bare
  | levels + 1, inline, page, .array gap items =>
    let inline := inline || page.column + (Node.array gap items).width ≤ layout.width
    .array .none (layEntries .gaps h (lay h levels inline) inline (maxLevels - levels) true
      (page.push [openBracket]) items)
  | levels + 1, inline, page, .object _ members =>
    .object .none (layEntries .tags h (lay h levels inline) inline (maxLevels - levels) true
      (page.push [openBrace]) (layout.arrangeBy nameOf members))
  | _ + 1, _, _, n => n

theorem layEntries_isEmpty (layValue : Page → Node → Node) (inline : Bool) (level : Nat)
    (first : Bool) (page : Page) (entries : List (Entry Front Node)) :
    (layEntries heads h layValue inline level first page entries).isEmpty = entries.isEmpty := by
  cases entries <;> rfl

/-- The key of a member is written behind its gap. -/
theorem writeMembers_cons (layout : Layout) (writeValue : Item → Page → Page) (inline : Bool)
    (level : Nat) (first : Bool) (page : Page) (member : Member) (members : List Member) :
    layout.writeMembers writeValue inline level first page (member :: members) =
      layout.writeMembers writeValue inline level false
        (writeValue member.value
          ((layout.separate inline first level page).push (headText member.key))) members := by
  rw [writeMembers, writeFront]
  cases member.key with
  | none => rfl
  | some key => exact congrArg (fun page => layout.writeMembers writeValue inline level false
      (writeValue member.value page) members) (Page.push_append _ _ _).symm

/-- Members are written as their entries are laid out, the gap behind them included. -/
theorem writeMembers_eq {layValue : Page → Node → Node} {writeValue : Item → Page → Page}
    (inline : Bool) (level : Nat) {list : List (Entry Front Node × Bytes)} (hlist : list ≠ [])
    (hvalue : ∀ p ∈ list, ∀ page, writeValue (p.1.value.item p.2) page =
      page.push (layValue page p.1.value).text) (first : Bool) (page : Page) :
    (layout.writeMembers writeValue inline level first page
        (list.map (memberOf heads.mark))).push (layout.lastText inline level) =
      page.push (commaText first ++ inside heads.text
        (layEntries heads h layValue inline level first page (list.map Prod.fst))) := by
  induction list generalizing first page with
  | nil => exact absurd rfl hlist
  | cons p list ih =>
    rw [List.forall_mem_cons] at hvalue
    have hfront : (layout.separate inline first level page).push
        (headText (memberOf heads.mark p).key) = (page.push (commaText first)).push
          (heads.text (heads.lead (leadGap h inline first level) p.1.front)) := by
      rw [separate_eq, heads.text_lead, Page.push_append]
      rfl
    rw [List.map_cons, writeMembers_cons, hfront]
    dsimp only [memberOf]
    rw [hvalue.1, List.map_cons, layEntries, inside_cons, separator, layEntries_isEmpty]
    cases list with
    | nil =>
      -- Behind the last member stands the gap in front of the bracket
      simp only [List.map_nil, writeMembers, List.isEmpty_nil, if_true, layEntries, inside_nil,
        Page.push_append, List.append_nil]
      rfl
    | cons q list =>
      rw [ih (List.cons_ne_nil q list) hvalue.2]
      simp only [Page.push_append]
      rfl

theorem name_item (tag : Tag) : tag.item.name = tag.key.name := by
  rw [name_eq, Tag.item, Item.name]
  simp [Bytes.quoted]

/-- The members of an object are written in the order of the options. -/
theorem members_tags (layout : Layout) (list : List (Entry Tag Node × Bytes)) :
    layout.members true (list.flatMap (itemsOf Tag.mark)) =
      (layout.arrangeBy (fun p => nameOf p.1) list).map (memberOf Tag.mark) := by
  have hsort : sortMembers (list.map (memberOf Tag.mark)) =
      (sortBy (fun p => nameOf p.1) list).map (memberOf Tag.mark) := by
    -- The sort looks at the names, which are paired with the members
    have hnamed : (list.map (memberOf Tag.mark)).map (fun member =>
        ((member.key.map Item.name).getD [], member)) =
          list.map fun p => (nameOf p.1, memberOf Tag.mark p) := by
      rw [List.map_map]
      exact List.map_congr_left fun p _ => congrArg (·, _) (name_item p.1.front)
    rw [sortMembers, hnamed]
    have hpairs : (sortBy (fun p => nameOf p.1) list).map (fun p =>
        (nameOf p.1, memberOf Tag.mark p)) = sortBy Prod.fst (list.map fun p =>
          (nameOf p.1, memberOf Tag.mark p)) := map_sortBy _ Prod.fst list
    exact (congrArg (List.map Prod.snd) hpairs.symm).trans List.map_map
  rw [members, if_pos rfl, pairs_flatMap, arrangeBy, hsort]
  split <;> rfl

/-- A container is written as its entries are laid out, between its brackets. -/
theorem write_container {layValue : Page → Node → Node} {levels width length : Nat}
    {inline : Bool} {source : Bytes} {items : List Item} {list : List (Entry Front Node × Bytes)}
    (hmembers : layout.members heads.object items = list.map (memberOf heads.mark))
    (hempty : items.isEmpty = list.isEmpty) (page : Page)
    (hvalue : ∀ p ∈ list, ∀ page', layout.write levels
      (inline || (!heads.object && page.column + width ≤ layout.width)) (p.1.value.item p.2) page' =
        page'.push (layValue page' p.1.value).text) :
    layout.write (levels + 1) inline (.container heads.object items width source length) page =
      page.push (opener heads.object :: (inside heads.text
        (layEntries heads h layValue
          (inline || (!heads.object && page.column + width ≤ layout.width)) (maxLevels - levels)
          true (page.push [opener heads.object]) (list.map Prod.fst)) ++ [heads.closer])) := by
  rw [write]
  cases list with
  | nil =>
    rw [List.isEmpty_nil] at hempty
    rw [if_pos hempty]
    rfl
  | cons p list =>
    rw [List.isEmpty_cons] at hempty
    rw [if_neg (by simp [hempty]), hmembers]
    dsimp only
    rw [← push_lastText, writeMembers_eq heads h _ _ (List.cons_ne_nil p list) hvalue,
      ← Page.push_append]
    exact (Page.push_append [opener heads.object] _ page).symm

theorem isEmpty_flatMap_itemsOf (mark : Front → Option Item)
    (list : List (Entry Front Node × Bytes)) :
    (list.flatMap (itemsOf mark)).isEmpty = list.isEmpty := by
  cases list with
  | nil => rfl
  | cons p list =>
    rw [List.flatMap_cons, itemsOf]
    cases mark p.1.front <;> rfl

theorem write_scalar (levels : Nat) (inline : Bool) {n : Node} (hn : n.isContainer = false)
    (rest : Bytes) (page : Page) :
    layout.write levels inline (n.item rest) page = page.push n.text := by
  rw [Node.item_scalar hn, write]
  · rfl
  · rintro _ _ _ _ _ ⟨⟩

/-- Where no levels are left a container is written without its gaps. -/
theorem write_zero (inline : Bool) (n : Node) (rest : Bytes) (page : Page) :
    layout.write 0 inline (n.item rest) page = page.push n.bare.text := by
  have hcompact : compact ((n.text ++ rest).take n.text.length) = n.bare.text := by
    rw [List.take_left, ← List.append_nil n.text, compact_node]
    exact List.append_nil _
  have hempty : ∀ gap, (Node.array gap []).bare.text = [openBracket, closeBracket] ∧
      (Node.object gap []).bare.text = [openBrace, closeBrace] := by
    intro gap
    rw [Node.bare_array, Node.bare_object, Node.text_array, Node.text_object]
    exact ⟨rfl, rfl⟩
  cases n with
  | word w => rw [write_scalar 0 inline rfl, Node.bare_word]
  | number n => rw [write_scalar 0 inline rfl, Node.bare_number]
  | string body => rw [write_scalar 0 inline rfl, Node.bare_string]
  | array gap items =>
    rw [Node.item_array, write, isEmpty_flatMap_itemsOf]
    cases items with
    | nil => exact congrArg page.push (hempty gap).1.symm
    | cons e items => exact congrArg page.push hcompact
  | object gap members =>
    rw [Node.item_object, write, isEmpty_flatMap_itemsOf]
    cases members with
    | nil => exact congrArg page.push (hempty gap).2.symm
    | cons e members => exact congrArg page.push hcompact

/-- Writing the item of a value writes the tree that is laid out. -/
theorem write_item (levels : Nat) (inline : Bool) (n : Node) (rest : Bytes) (page : Page) :
    layout.write levels inline (n.item rest) page =
      page.push (lay h levels inline page n).text := by
  induction levels generalizing inline n rest page with
  | zero => exact write_zero inline n rest page
  | succ levels ih =>
    cases n with
    | word w => exact write_scalar _ _ rfl _ _
    | number n => exact write_scalar _ _ rfl _ _
    | string body => exact write_scalar _ _ rfl _ _
    | array gap items =>
      rw [Node.item_array, lay]
      refine (write_container Heads.gaps h (members_array layout _) (isEmpty_flatMap_itemsOf _ _)
        page fun p _ page => ih _ _ _ page).trans ?_
      rw [map_fst_followed, Node.text_array]
      rfl
    | object gap members =>
      rw [Node.item_object, lay]
      refine (write_container Heads.tags h (members_tags layout _) ?_ page
        fun p _ page => ih _ _ _ page).trans ?_
      · rw [isEmpty_flatMap_itemsOf, (perm_arrangeBy layout _ _).isEmpty_eq]
      · -- An object gives up no line for being short
        have hinline : ∀ b, (inline || (!Heads.tags.object && b)) = inline :=
          fun _ => Bool.or_false inline
        rw [map_arrangeBy layout Prod.fst nameOf, map_fst_followed, hinline, Node.text_object]
        rfl

theorem mem_gapBytes_of_mem_lineFeed : ∀ c ∈ [lineFeed], c ∈ gapBytes := by
  simp [gapBytes]

/-- A document as it is laid out. -/
def laid (h : layout.Spaced) (d : Document) : Document :=
  ⟨⟨layout.margin, h.margin⟩, lay h maxLevels false (Page.push layout.margin {}) d.root,
    ⟨[lineFeed], mem_gapBytes_of_mem_lineFeed⟩⟩

/-- Laying out a document writes the document with new gaps. -/
theorem pretty_document (d : Document) : layout.pretty d.text = (laid h d).text := by
  rw [pretty_eq, read?_document]
  dsimp only
  rw [write_item h, ← Page.push_append, ← Page.push_append, Page.written_push]
  simp [laid, Document.text]

end Trees

/-! ## Tokens -/

section Tokens

variable {Front : Type} {layout : Layout} (heads : Heads Front) (h : layout.Spaced)

/-- An entry without its gaps. -/
def Heads.bareEntry (e : Entry Front Node) : Entry Front Node :=
  ⟨heads.bare e.front, e.value.bare, .none⟩

/-- The entry with another value. -/
def mapValue (f : Node → Node) (e : Entry Front Node) : Entry Front Node :=
  { e with value := f e.value }

/-- A value with the members of its objects in the order of their names, for a number of levels. -/
def sorted : (levels : Nat) → Node → Node
  | levels + 1, .array gap items => .array gap (items.map (mapValue (sorted levels)))
  | levels + 1, .object gap members =>
    .object gap (sortBy nameOf (members.map (mapValue (sorted levels))))
  | _, n => n

/-- A value with its members in the order of the options. -/
def arranged (layout : Layout) (levels : Nat) (n : Node) : Node :=
  if layout.sortKeys then sorted levels n else n

theorem arranged_of_sorted (hsort : layout.sortKeys = true) (levels : Nat) :
    layout.arranged levels = sorted levels := by
  funext n
  rw [arranged, if_pos hsort]

theorem arranged_of_unsorted (hsort : layout.sortKeys = false) (levels : Nat) :
    layout.arranged levels = fun n => n := by
  funext n
  rw [arranged, hsort, if_neg Bool.false_ne_true]

theorem arranged_array (layout : Layout) (levels : Nat) (gap : Gap)
    (items : List (Entry Gap Node)) :
    layout.arranged (levels + 1) (.array gap items) =
      .array gap (items.map (mapValue (layout.arranged levels))) := by
  cases hsort : layout.sortKeys with
  | true => rw [arranged_of_sorted hsort, arranged_of_sorted hsort, sorted]
  | false =>
    rw [arranged_of_unsorted hsort, arranged_of_unsorted hsort]
    exact congrArg (Node.array gap) (List.map_id' items).symm

theorem arranged_object (layout : Layout) (levels : Nat) (gap : Gap)
    (members : List (Entry Tag Node)) :
    layout.arranged (levels + 1) (.object gap members) =
      .object gap (layout.arrangeBy nameOf (members.map (mapValue (layout.arranged levels)))) := by
  cases hsort : layout.sortKeys with
  | true => rw [arranged_of_sorted hsort, arranged_of_sorted hsort, sorted, arrangeBy, if_pos hsort]
  | false =>
    rw [arranged_of_unsorted hsort, arranged_of_unsorted hsort, arrangeBy, hsort,
      if_neg Bool.false_ne_true]
    exact congrArg (Node.object gap) (List.map_id' members).symm

theorem arranged_zero (layout : Layout) (n : Node) : layout.arranged 0 n = n := by
  rw [arranged]
  split
  · cases n <;> rfl
  · rfl

theorem arranged_scalar (layout : Layout) (levels : Nat) {n : Node} (hn : n.isContainer = false) :
    layout.arranged levels n = n := by
  rw [arranged]
  split
  · cases levels <;> cases n <;> first | rfl | cases hn
  · rfl

/-- New gaps do not change what is in front of values and what the values are. -/
theorem bare_layEntries {layValue : Page → Node → Node} {f : Node → Node}
    {entries : List (Entry Front Node)}
    (hvalue : ∀ e ∈ entries, ∀ page, (layValue page e.value).bare = (f e.value).bare)
    (inline : Bool) (level : Nat) (first : Bool) (page : Page) :
    (layEntries heads h layValue inline level first page entries).map heads.bareEntry =
      entries.map fun e => heads.bareEntry (mapValue f e) := by
  induction entries generalizing first page with
  | nil => rfl
  | cons e entries ih =>
    rw [List.forall_mem_cons] at hvalue
    rw [layEntries, List.map_cons, List.map_cons, ih hvalue.2, Heads.bareEntry, heads.bare_lead,
      hvalue.1]
    rfl

/-- Gaps that entries have before do not matter, and no more do values that are laid out alike. -/
theorem layEntries_map {layValue : Page → Node → Node} (f : Entry Front Node → Entry Front Node)
    (entries : List (Entry Front Node))
    (hlead : ∀ e ∈ entries, ∀ gap, heads.lead gap (f e).front = heads.lead gap e.front)
    (hvalue : ∀ e ∈ entries, ∀ page, layValue page (f e).value = layValue page e.value)
    (inline : Bool) (level : Nat) (first : Bool) (page : Page) :
    layEntries heads h layValue inline level first page (entries.map f) =
      layEntries heads h layValue inline level first page entries := by
  induction entries generalizing first page with
  | nil => rfl
  | cons e entries ih =>
    rw [List.forall_mem_cons] at hlead hvalue
    rw [List.map_cons, layEntries, layEntries, hlead.1, hvalue.1, ih hlead.2 hvalue.2,
      List.isEmpty_map]

/-- What is laid out has the tokens of the value, with its members in order. -/
theorem bare_lay (levels : Nat) (inline : Bool) (page : Page) (n : Node) :
    (lay h levels inline page n).bare = (layout.arranged levels n).bare := by
  induction levels generalizing inline page n with
  | zero => rw [lay, arranged_zero, Node.bare_bare]
  | succ levels ih =>
    cases n with
    | word w => rw [arranged_scalar layout _ rfl]; rfl
    | number n => rw [arranged_scalar layout _ rfl]; rfl
    | string body => rw [arranged_scalar layout _ rfl]; rfl
    | array gap items =>
      rw [lay, arranged_array, Node.bare_array, Node.bare_array, List.map_map]
      exact congrArg (Node.array .none)
        (bare_layEntries Heads.gaps h (fun e _ page => ih _ _ _) _ _ _ _)
    | object gap members =>
      rw [lay, arranged_object, Node.bare_object, Node.bare_object,
        ← map_arrangeBy layout (mapValue (layout.arranged levels)) nameOf, List.map_map]
      exact congrArg (Node.object .none)
        (bare_layEntries Heads.tags h (fun e _ page => ih _ _ _) _ _ _ _)

theorem width_bare (n : Node) : n.bare.width = n.width := by
  induction n with
  | word w => rw [Node.bare_word]
  | number n => rw [Node.bare_number]
  | string body => rw [Node.bare_string]
  | array gap items ih =>
    have hmap : (items.map fun e => e.value.bare.width) = items.map fun e => e.value.width :=
      List.map_congr_left ih
    rw [Node.bare_array, Node.width_array, Node.width_array, List.map_map, List.length_map, ← hmap]
    rfl
  | object gap members ih =>
    have hmap : (members.map fun e => e.front.width + e.value.bare.width) =
        members.map fun e => e.front.width + e.value.width :=
      List.map_congr_left fun e he => congrArg (e.front.width + ·) (ih e he)
    rw [Node.bare_object, Node.width_object, Node.width_object, List.map_map, List.length_map,
      ← hmap]
    rfl

/-- The order of members does not change how wide they are together. -/
theorem width_arranged (layout : Layout) (levels : Nat) (n : Node) :
    (layout.arranged levels n).width = n.width := by
  induction levels generalizing n with
  | zero => rw [arranged_zero]
  | succ levels ih =>
    cases n with
    | word w => rw [arranged_scalar layout _ rfl]
    | number n => rw [arranged_scalar layout _ rfl]
    | string body => rw [arranged_scalar layout _ rfl]
    | array gap items =>
      rw [arranged_array, Node.width_array, Node.width_array, List.map_map, List.length_map]
      simp only [Function.comp_def, mapValue, ih]
    | object gap members =>
      have hperm := perm_arrangeBy layout nameOf (members.map (mapValue (layout.arranged levels)))
      rw [arranged_object, Node.width_object, Node.width_object, (hperm.map _).sum_nat,
        hperm.length_eq, List.map_map, List.length_map]
      simp only [Function.comp_def, mapValue, ih]

/-- Gaps that a value has before do not matter. -/
theorem lay_bare (levels : Nat) (inline : Bool) (page : Page) (n : Node) :
    lay h levels inline page n.bare = lay h levels inline page n := by
  induction levels generalizing inline page n with
  | zero => rw [lay, lay, Node.bare_bare]
  | succ levels ih =>
    cases n with
    | word w => rw [Node.bare_word]
    | number n => rw [Node.bare_number]
    | string body => rw [Node.bare_string]
    | array gap items =>
      have hwidth := width_bare (.array gap items)
      rw [Node.bare_array] at hwidth ⊢
      rw [lay, lay, hwidth]
      exact congrArg (Node.array .none) (layEntries_map Heads.gaps h Heads.gaps.bareEntry items
        (fun _ _ _ => rfl) (fun e _ page => ih _ page e.value) _ _ true _)
    | object gap members =>
      have hmap := map_arrangeBy layout Heads.tags.bareEntry nameOf members
      rw [Node.bare_object, lay, lay]
      refine congrArg (Node.object .none) ((congrArg _ hmap.symm).trans ?_)
      exact layEntries_map Heads.tags h Heads.tags.bareEntry _ (fun _ _ _ => rfl)
        (fun e _ page => ih _ page e.value) _ _ true _

/-- Members that are put in order need not be in order before. -/
theorem lay_arranged (levels : Nat) (inline : Bool) (page : Page) (n : Node) :
    lay h levels inline page (layout.arranged levels n) = lay h levels inline page n := by
  induction levels generalizing inline page n with
  | zero => rw [arranged_zero]
  | succ levels ih =>
    cases n with
    | word w => rw [arranged_scalar layout _ rfl]
    | number n => rw [arranged_scalar layout _ rfl]
    | string body => rw [arranged_scalar layout _ rfl]
    | array gap items =>
      have hwidth := width_arranged layout (levels + 1) (.array gap items)
      rw [arranged_array] at hwidth ⊢
      rw [lay, lay, hwidth]
      exact congrArg (Node.array .none) (layEntries_map Heads.gaps h
        (mapValue (layout.arranged levels)) items (fun _ _ _ => rfl)
        (fun e _ page => ih _ page e.value) _ _ true _)
    | object gap members =>
      rw [arranged_object, lay, lay, arrangeBy_arrangeBy,
        ← map_arrangeBy layout (mapValue (layout.arranged levels)) nameOf]
      exact congrArg (Node.object .none) (layEntries_map Heads.tags h
        (mapValue (layout.arranged levels)) _ (fun _ _ _ => rfl)
        (fun e _ page => ih _ page e.value) _ _ true _)

/-- A value that was laid out before is laid out as it was. -/
theorem lay_lay (levels : Nat) (inline : Bool) (page : Page) (n : Node) :
    lay h levels inline page (lay h levels inline page n) = lay h levels inline page n := by
  calc lay h levels inline page (lay h levels inline page n)
      = lay h levels inline page (lay h levels inline page n).bare := (lay_bare h ..).symm
    _ = lay h levels inline page (layout.arranged levels n).bare := by rw [bare_lay]
    _ = lay h levels inline page n := by rw [lay_bare, lay_arranged]

end Tokens

/-! ## Documents -/

/-- A document with the members of its objects in the order of their names, as far as levels are
written on lines of their own. -/
def sortedDocument (d : Document) : Document :=
  { d with root := sorted maxLevels d.root }

section Documents

variable {layout : Layout}

theorem isValid_arranged_iff (layout : Layout) (levels : Nat) (n : Node) :
    Utf8.isValid (layout.arranged levels n).text = true ↔ Utf8.isValid n.text = true := by
  induction levels generalizing n with
  | zero => rw [arranged_zero]
  | succ levels ih =>
    cases n with
    | word w => rw [arranged_scalar layout _ rfl]
    | number n => rw [arranged_scalar layout _ rfl]
    | string body => rw [arranged_scalar layout _ rfl]
    | array gap items =>
      rw [arranged_array, isValid_array_iff, isValid_array_iff, List.forall_mem_map]
      exact forall₂_congr fun e _ => ih e.value
    | object gap members =>
      rw [arranged_object, isValid_object_iff, isValid_object_iff]
      simp only [(perm_arrangeBy layout nameOf _).mem_iff]
      rw [List.forall_mem_map]
      exact forall₂_congr fun e _ => and_congr_right fun _ => ih e.value

/-- What is laid out is UTF-8 if the document is. -/
theorem isValid_laid (h : layout.Spaced) {d : Document} (hvalid : Utf8.isValid d.text = true) :
    Utf8.isValid (laid h d).text = true := by
  rw [Document.isValid_iff, laid, ← isValid_bare_iff, bare_lay, isValid_bare_iff,
    isValid_arranged_iff, ← Document.isValid_iff]
  exact hvalid

theorem compact_pretty (h : layout.Spaced) (d : Document) :
    compact (layout.pretty d.text) =
      compact (if layout.sortKeys then sortedDocument d else d).text := by
  rw [pretty_document h, compact_document, laid, bare_lay, compact_document, arranged]
  split <;> rfl

theorem pretty_compact (h : layout.Spaced) (d : Document) :
    layout.pretty (compact d.text) = layout.pretty d.text := by
  rw [compact_document, ← text_bare, pretty_document h, pretty_document h, laid, laid]
  exact congrArg (fun n => Document.text ⟨_, n, _⟩) (lay_bare h _ _ _ d.root)

theorem pretty_pretty (h : layout.Spaced) (d : Document) :
    layout.pretty (layout.pretty d.text) = layout.pretty d.text := by
  rw [pretty_document h, pretty_document h]
  exact congrArg (fun n => Document.text ⟨_, n, _⟩) (lay_lay h _ _ _ d.root)

/-- Laying out moves space about and nothing else: without space a document is what it was, with
its members in the order of their names if that is asked for.  Documents that differ in their space
alone are laid out alike, and one that was laid out stays as it is. -/
theorem pretty_tokens (h : layout.Spaced) {text : Bytes} (hwell : isWellFormed text = true) :
    compact (compact text) = compact text ∧
    (∃ d : Document, d.text = text ∧ compact (layout.pretty text) =
      compact (if layout.sortKeys then sortedDocument d else d).text) ∧
    (∀ other, isWellFormed other = true → compact other = compact text →
      layout.pretty other = layout.pretty text) ∧
    layout.pretty (layout.pretty text) = layout.pretty text := by
  obtain ⟨d, rfl⟩ := WellFormed.isWellFormed_iff_document.1 hwell
  refine ⟨compact_compact d.text, ⟨d, rfl, compact_pretty h d⟩, ?_, pretty_pretty h d⟩
  intro other hother hcompact
  obtain ⟨e, rfl⟩ := WellFormed.isWellFormed_iff_document.1 hother
  rw [← pretty_compact h e, hcompact, pretty_compact h d]

/-- Two spellings of one document, laid out behind a margin with the keys in order. -/
theorem pretty_tokens_sample :
    let layout : Layout := { width := 4, margin := [tab], sortKeys := true }
    let text := Bytes.ofString "\x7b\"b\":[1,\" ]\"],\"a\":\x7b\x7d\x7d"
    let other := Bytes.ofString "\x7b \"b\" : [ 1 ,\" ]\" ] , \"a\" : \x7b \x7d \x7d "
    layout.Spaced ∧ isWellFormed text = true ∧ isWellFormed other = true ∧
      compact other = compact text ∧ layout.pretty other = layout.pretty text ∧
      layout.pretty (layout.pretty text) = layout.pretty text := by
  intro layout text other
  have hspaced : layout.Spaced := .of_all rfl
  have htext : isWellFormed text = true := by rfl
  have hother : isWellFormed other = true := by rfl
  have hcompact : compact other = compact text := by decide
  obtain ⟨-, -, hlayout, hagain⟩ := pretty_tokens hspaced htext
  exact ⟨hspaced, htext, hother, hcompact, hlayout other hother hcompact, hagain⟩

end Documents

end JsonQuery.Layout
