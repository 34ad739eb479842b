import JsonQuery.Modifier.Layout
import JsonQuery.Proofs.Children
import Mathlib.Algebra.GroupWithZero.Nat

/-!
# Items of documents

A document is read as an item before it is laid out.  The item can be told from the tree: it has the
tokens of the tree in their order, and each container knows the columns that it takes on one line.

## Layers

- **Items**: `Node.item` is the item of a value that a known text follows.
- **Members**: the members of such an item, in the order of the document or of their keys.
- **Steps**: what one token does to the containers that are open.
- **Reading**: a value is read as its item, by induction over the tree.
-/

namespace JsonQuery

open Ascii

namespace Layout

namespace Draft

/-- The draft with what stands in front of a value: a key, or nothing. -/
def addFront (mark : Option Item) (width : Nat) (draft : Draft) : Draft :=
  { draft with
    items := mark.toList ++ draft.items
    width := draft.width + width
    awaitsKey := false }

/-- The draft with more members, given by their items and their columns. -/
def extend (items : List Item) (width members : Nat) (draft : Draft) : Draft :=
  { draft with
    items := items.reverse ++ draft.items
    width := draft.width + width
    members := draft.members + members
    awaitsKey := draft.object }

theorem extend_nil {draft : Draft} (hkey : draft.awaitsKey = draft.object) :
    draft.extend [] 0 0 = draft := by
  obtain ⟨object, bracket, items, width, members, awaitsKey⟩ := draft
  exact congrArg (Draft.mk object bracket items width members) hkey.symm

/-- A member is a front and a value. -/
theorem extend_addValue (mark : Option Item) (item : Item) (items : List Item)
    (front value width members : Nat) (draft : Draft) :
    ((draft.addFront mark front).addValue item value).extend items width members =
      draft.extend (mark.toList ++ [item] ++ items) (front + value + width) (members + 1) := by
  cases mark <;>
    simp [addFront, addValue, extend, Nat.add_assoc, Nat.add_comm 1]

theorem fullWidth_openAt (object : Bool) (bracket : Cursor) (items : List Item)
    (width members : Nat) :
    ((openAt object bracket).extend items width members).fullWidth =
      width + 2 + 2 * (members - 1) := by
  simp [openAt, extend, fullWidth]

/-- A container takes its source from where it was opened. -/
theorem finish_openAt (object : Bool) (bracket next : Cursor) (items : List Item)
    (width members : Nat) :
    ((openAt object bracket).extend items width members).finish next =
      .container object items (width + 2 + 2 * (members - 1)) bracket.rest
        (next.offset - bracket.offset) := by
  simp [openAt, extend, finish, fullWidth]

end Draft

/-- What reading comes to behind a step. -/
def Progress.resume : Progress → Option Item
  | more drafts next => readFrom drafts next
  | whole item => some item
  | failed => none

theorem readFrom_eq (drafts : List Draft) (c : Cursor) :
    readFrom drafts c = (readToken drafts (c.find (!isSeparator ·))).resume := by
  rw [readFrom]
  split <;> simp_all [Progress.resume]

end Layout

namespace Grammar

open JsonQuery.Layout (Item Draft Progress Member readFrom readToken readFrom_eq)

/-! ## Items -/

/-- The key of a member as an item. -/
def Tag.item (tag : Tag) : Item :=
  .key (Bytes.quoted tag.key.text) (tag.key.text.contains backslash)

/-- The columns of a key with its colon and a space behind it. -/
def Tag.width (tag : Tag) : Nat :=
  Utf8.length (Bytes.quoted tag.key.text) + 2

/-- The columns that a value takes on one line. -/
def Node.width : Node → Nat
  | array _ items => (items.map fun e => e.value.width).sum + 2 + 2 * (items.length - 1)
  | object _ members =>
    (members.map fun e => e.front.width + e.value.width).sum + 2 + 2 * (members.length - 1)
  | word w => Utf8.length w.text
  | number n => Utf8.length n.text
  | string body => Utf8.length (Bytes.quoted body.text)
termination_by n => n
decreasing_by
  all_goals
    have hlt := Entry.sizeOf_value_lt ‹_›
    simp only [array.sizeOf_spec, object.sizeOf_spec]
    omega

section Items

variable {Front : Type}

/-- The entries of a container, each with all that stands behind its value. -/
def followed (front : Front → Bytes) (after : Bytes) :
    List (Entry Front Node) → List (Entry Front Node × Bytes)
  | [] => []
  | e :: entries =>
    (e, separator e entries ++ (inside front entries ++ after)) :: followed front after entries

@[simp] theorem map_fst_followed (front : Front → Bytes) (after : Bytes)
    (entries : List (Entry Front Node)) :
    (followed front after entries).map Prod.fst = entries := by
  induction entries with
  | nil => rfl
  | cons e entries ih => rw [followed, List.map_cons, ih]

theorem fst_mem_of_mem_followed {front : Front → Bytes} {after : Bytes}
    {entries : List (Entry Front Node)} {p : Entry Front Node × Bytes}
    (h : p ∈ followed front after entries) : p.1 ∈ entries := by
  rw [← map_fst_followed front after entries]
  exact List.mem_map_of_mem h

/-- The item of a value that a text follows. -/
def Node.item (rest : Bytes) : Node → Item
  | array gap items =>
    .container false
      ((followed Gap.text (closeBracket :: rest) items).attach.map fun p => p.1.1.value.item p.1.2)
      (Node.array gap items).width ((Node.array gap items).text ++ rest)
      (Node.array gap items).text.length
  | object gap members =>
    .container true
      ((followed Tag.text (closeBrace :: rest) members).attach.map fun p =>
        [p.1.1.front.item, p.1.1.value.item p.1.2]).flatten
      (Node.object gap members).width ((Node.object gap members).text ++ rest)
      (Node.object gap members).text.length
  | word w => .scalar w.text
  | number n => .scalar n.text
  | string body => .scalar (Bytes.quoted body.text)
termination_by n => n
decreasing_by
  all_goals
    have hlt := Entry.sizeOf_value_lt (fst_mem_of_mem_followed p.2)
    simp only [array.sizeOf_spec, object.sizeOf_spec]
    omega

theorem Node.width_array (gap : Gap) (items : List (Entry Gap Node)) :
    (Node.array gap items).width =
      (items.map fun e => e.value.width).sum + 2 + 2 * (items.length - 1) := by
  rw [width]

theorem Node.width_object (gap : Gap) (members : List (Entry Tag Node)) :
    (Node.object gap members).width =
      (members.map fun e => e.front.width + e.value.width).sum + 2 + 2 * (members.length - 1) := by
  rw [width]

theorem Node.width_scalar {n : Node} (h : n.isContainer = false) :
    n.width = Utf8.length n.text := by
  cases n with
  | word w => rw [width, text]
  | number n => rw [width, text]
  | string body => rw [width, text]
  | array gap items => cases h
  | object gap members => cases h

theorem Node.item_scalar {n : Node} (h : n.isContainer = false) (rest : Bytes) :
    n.item rest = .scalar n.text := by
  cases n with
  | word w => rw [item, text]
  | number n => rw [item, text]
  | string body => rw [item, text]
  | array gap items => cases h
  | object gap members => cases h

end Items

/-! ## Members -/

section Members

variable {Front : Type}

/-- A member as it is laid out. -/
def memberOf (mark : Front → Option Item) (p : Entry Front Node × Bytes) : Member :=
  ⟨mark p.1.front, p.1.value.item p.2⟩

/-- The items of a member: its key, if it has one, and its value. -/
def itemsOf (mark : Front → Option Item) (p : Entry Front Node × Bytes) : List Item :=
  (mark p.1.front).toList ++ [p.1.value.item p.2]

/-- Elements have no keys. -/
def Gap.mark (_ : Gap) : Option Item :=
  Option.none

/-- The key of a member. -/
def Tag.mark (tag : Tag) : Option Item :=
  some tag.item

theorem Node.item_array (gap : Gap) (items : List (Entry Gap Node)) (rest : Bytes) :
    (Node.array gap items).item rest =
      .container false ((followed Gap.text (closeBracket :: rest) items).flatMap (itemsOf Gap.mark))
        (Node.array gap items).width ((Node.array gap items).text ++ rest)
        (Node.array gap items).text.length := by
  rw [item, List.attach_map_val (f := fun p : Entry Gap Node × Bytes => p.1.value.item p.2),
    List.map_eq_flatMap]
  rfl

theorem Node.item_object (gap : Gap) (members : List (Entry Tag Node)) (rest : Bytes) :
    (Node.object gap members).item rest =
      .container true
        ((followed Tag.text (closeBrace :: rest) members).flatMap (itemsOf Tag.mark))
        (Node.object gap members).width ((Node.object gap members).text ++ rest)
        (Node.object gap members).text.length := by
  rw [item, List.attach_map_val
      (f := fun p : Entry Tag Node × Bytes => [p.1.front.item, p.1.value.item p.2]),
    List.flatMap_def]
  rfl

theorem members_array (layout : JsonQuery.Layout) (list : List (Entry Gap Node × Bytes)) :
    layout.members false (list.flatMap (itemsOf Gap.mark)) = list.map (memberOf Gap.mark) := by
  rw [JsonQuery.Layout.members, if_neg Bool.false_ne_true]
  have hmap : list.flatMap (itemsOf Gap.mark) = list.map fun p => p.1.value.item p.2 := by
    rw [List.map_eq_flatMap]
    rfl
  rw [hmap, List.map_map]
  rfl

/-- Keys and values in turns are the members. -/
theorem pairs_flatMap (list : List (Entry Tag Node × Bytes)) :
    JsonQuery.Layout.pairs (list.flatMap (itemsOf Tag.mark)) = list.map (memberOf Tag.mark) := by
  induction list with
  | nil => simp [JsonQuery.Layout.pairs]
  | cons p list ih =>
    have hitems : itemsOf Tag.mark p = [p.1.front.item, p.1.value.item p.2] := rfl
    rw [List.flatMap_cons, hitems, List.cons_append, List.cons_append, List.nil_append,
      JsonQuery.Layout.pairs]
    split
    · rename_i hbehind
      cases hbehind
    · rename_i hbehind
      cases hbehind
      rw [ih]
      rfl

end Members

/-! ## Steps -/

section Steps

variable {drafts : List Draft} {rest : Bytes}

theorem readFrom_separates {text : Bytes} (h : Separates text) (drafts : List Draft) (offset : Nat)
    (rest : Bytes) :
    readFrom drafts ⟨offset, text ++ rest⟩ = readFrom drafts ⟨offset + text.length, rest⟩ := by
  rw [readFrom_eq, readFrom_eq, find_separates h]

theorem readFrom_token {c : UInt8} (hc : isSeparator c = false) (drafts : List Draft)
    (offset : Nat) (rest : Bytes) :
    readFrom drafts ⟨offset, c :: rest⟩ = (readToken drafts ⟨offset, c :: rest⟩).resume := by
  rw [readFrom_eq, find_cons (by simp [hc])]

/-- A container opens. -/
theorem readFrom_opener {c : UInt8} (hc : opensContainer c = true) (drafts : List Draft)
    (offset : Nat) (rest : Bytes) :
    readFrom drafts ⟨offset, c :: rest⟩ =
      readFrom (.openAt (c == openBrace) ⟨offset, c :: rest⟩ :: drafts) ⟨offset + 1, rest⟩ := by
  have hseparator : isSeparator c = false := by grind [opensContainer, isSeparator, isSpace]
  rw [readFrom_token hseparator]
  unfold readToken
  dsimp only
  rw [if_pos hc]
  rfl

/-- A container ends where all its members are complete. -/
theorem readFrom_closer (draft : Draft) (hkey : draft.awaitsKey = draft.object)
    (drafts : List Draft) (offset : Nat) (rest : Bytes) :
    readFrom (draft :: drafts) ⟨offset, JsonQuery.Layout.closing draft.object :: rest⟩ =
      (Progress.value (draft.finish ⟨offset + 1, rest⟩) draft.fullWidth ⟨offset + 1, rest⟩
        drafts).resume := by
  have hcloses : draft.closesWith (JsonQuery.Layout.closing draft.object) = true := by
    rw [Draft.closesWith, hkey]
    cases draft.object <;> rfl
  have hcloser : ∀ object, isSeparator (JsonQuery.Layout.closing object) = false ∧
      opensContainer (JsonQuery.Layout.closing object) = false ∧
      (JsonQuery.Layout.closing object = closeBrace ∨
        JsonQuery.Layout.closing object = closeBracket) := by
    intro object
    cases object <;> decide
  obtain ⟨hseparator, hopens, hcloser⟩ := hcloser draft.object
  rw [readFrom_token hseparator]
  unfold readToken
  dsimp only
  rw [hopens, if_neg Bool.false_ne_true, if_pos (by simpa using hcloser), if_pos hcloses]
  rfl

theorem readFrom_quoted (tag : Tag) (draft : Draft) (hkey : draft.awaitsKey = true)
    (drafts : List Draft) (offset : Nat) (rest : Bytes) :
    readFrom (draft :: drafts) ⟨offset, Bytes.quoted tag.key.text ++ rest⟩ =
      readFrom (draft.addFront tag.mark tag.width :: drafts)
        ⟨offset + (Bytes.quoted tag.key.text).length, rest⟩ := by
  have hread := keyHere?_quoted tag.key offset rest
  have hquoted : Bytes.quoted tag.key.text ++ rest = quote :: (tag.key.text ++ [quote] ++ rest) :=
    rfl
  have hawaits : JsonQuery.Layout.awaitsKey (draft :: drafts) = true := hkey
  rw [hquoted] at hread ⊢
  rw [readFrom_token (by decide)]
  unfold readToken
  dsimp only
  rw [if_neg (by decide), if_neg (by decide), if_pos hawaits, hread]
  rfl

/-- A key is read with its colon. -/
theorem readFrom_tag (tag : Tag) (draft : Draft) (hkey : draft.awaitsKey = true)
    (drafts : List Draft) (offset : Nat) (rest : Bytes) :
    readFrom (draft :: drafts) ⟨offset, tag.text ++ rest⟩ =
      readFrom (draft.addFront tag.mark tag.width :: drafts) ⟨offset + tag.text.length, rest⟩ := by
  rw [Tag.text, List.append_assoc, readFrom_separates tag.before.separates, List.append_assoc,
    readFrom_quoted tag draft hkey, readFrom_separates tag.separates]
  simp only [List.length_append, Nat.add_assoc]

theorem isSeparator_of_startsValue {c : UInt8} (h : startsValue c = true) :
    isSeparator c = false := by
  apply Bool.eq_false_iff.2
  intro hseparator
  rw [not_startsValue_of_isSeparator hseparator] at h
  cases h

/-- A scalar starts with no bracket and with no byte between tokens. -/
theorem lead_scalar {n : Node} (hn : n.isContainer = false) :
    ∃ c text, n.text = c :: text ∧ isSeparator c = false ∧ opensContainer c = false ∧
      (c == closeBrace || c == closeBracket) = false := by
  obtain ⟨c, text, htext, hc⟩ := n.text_cons
  have hlead := of?_node n []
  rw [List.append_nil, htext] at hlead
  refine ⟨c, text, htext, isSeparator_of_startsValue hc, ?_, ?_⟩
  · apply Bool.eq_false_iff.2
    intro hopens
    simp only [opensContainer, Bool.or_eq_true, beq_iff_eq] at hopens
    rcases hopens with rfl | rfl
    · rw [Node.isContainer, ← Option.some.inj hlead] at hn
      cases hn
    · rw [Node.isContainer, ← Option.some.inj hlead] at hn
      cases hn
  · apply Bool.eq_false_iff.2
    intro hcloser
    simp only [Bool.or_eq_true, beq_iff_eq] at hcloser
    rcases hcloser with rfl | rfl <;> cases hc

/-- A scalar is read where no key is awaited. -/
theorem readFrom_scalar {n : Node} (hn : n.isContainer = false) {drafts : List Draft}
    (hkey : JsonQuery.Layout.awaitsKey drafts = false) (offset : Nat) {rest : Bytes}
    (hrest : Follows rest) :
    readFrom drafts ⟨offset, n.text ++ rest⟩ =
      (Progress.value (.scalar n.text) (Utf8.length n.text) ⟨offset + n.text.length, rest⟩
        drafts).resume := by
  have hskip : (Cursor.mk offset (n.text ++ rest)).skipHere? =
      some ⟨offset + n.text.length, rest⟩ := by
    rw [Cursor.skipHere?_eq, readHere?_spot ⟨offset, n⟩ hrest]
    rfl
  have hspan : (n.text ++ rest).take (offset + n.text.length - offset) = n.text := by
    rw [Nat.add_sub_cancel_left, List.take_left]
  obtain ⟨c, text, htext, hseparator, hopens, hcloser⟩ := lead_scalar hn
  rw [htext, List.cons_append] at hskip hspan ⊢
  rw [readFrom_token hseparator]
  unfold readToken
  dsimp only
  rw [if_neg (Bool.eq_false_iff.1 hopens), if_neg (by simpa using hcloser), hkey,
    if_neg Bool.false_ne_true, hskip]
  dsimp only
  rw [hspan]

end Steps

/-! ## Reading -/

section Reading

variable {Front : Type}

/-- The columns of entries without what stands between them. -/
def entriesWidth (width : Front → Nat) (entries : List (Entry Front Node)) : Nat :=
  (entries.map fun e => width e.front + e.value.width).sum

theorem entriesWidth_cons (width : Front → Nat) (e : Entry Front Node)
    (entries : List (Entry Front Node)) :
    entriesWidth width (e :: entries) =
      width e.front + e.value.width + entriesWidth width entries := by
  rw [entriesWidth, List.map_cons, List.sum_cons]
  rfl

/-- What stands in front of the values of one kind of container, and how it is read. -/
structure Fronts (Front : Type) where
  object : Bool
  text : Front → Bytes
  mark : Front → Option Item
  width : Front → Nat
  read : ∀ f (draft : Draft) drafts offset rest, draft.object = object → draft.awaitsKey = object →
    readFrom (draft :: drafts) ⟨offset, text f ++ rest⟩ =
      readFrom (draft.addFront (mark f) (width f) :: drafts) ⟨offset + (text f).length, rest⟩

/-- Gaps add nothing to an array. -/
def Fronts.gaps : Fronts Gap where
  object := false
  text := Gap.text
  mark := Gap.mark
  width _ := 0
  read gap draft drafts offset rest _ hkey := by
    obtain ⟨object, bracket, items, width, members, awaitsKey⟩ := draft
    obtain rfl : awaitsKey = false := hkey
    exact readFrom_separates gap.separates _ offset rest

/-- Keys are added to an object. -/
def Fronts.tags : Fronts Tag where
  object := true
  text := Tag.text
  mark := Tag.mark
  width := Tag.width
  read tag draft drafts offset rest _ hkey := readFrom_tag tag draft hkey drafts offset rest

/-- A value is read as its item, with any text that may follow it. -/
def ReadsAsItem (n : Node) : Prop :=
  ∀ drafts offset rest, JsonQuery.Layout.awaitsKey drafts = false → Follows rest →
    readFrom drafts ⟨offset, n.text ++ rest⟩ =
      (Progress.value (n.item rest) n.width ⟨offset + n.text.length, rest⟩ drafts).resume

variable (fronts : Fronts Front)

/-- The bracket behind the entries. -/
def Fronts.closer : UInt8 :=
  JsonQuery.Layout.closing fronts.object

/-- Entries are read one after the other, up to the bracket behind them. -/
theorem readFrom_inside (entries : List (Entry Front Node))
    (hvalue : ∀ e ∈ entries, ReadsAsItem e.value) (draft : Draft)
    (hobject : draft.object = fronts.object) (hkey : draft.awaitsKey = fronts.object)
    (drafts : List Draft) (offset : Nat) (rest : Bytes) :
    readFrom (draft :: drafts) ⟨offset, inside fronts.text entries ++ fronts.closer :: rest⟩ =
      readFrom (draft.extend
          ((followed fronts.text (fronts.closer :: rest) entries).flatMap (itemsOf fronts.mark))
          (entriesWidth fronts.width entries) entries.length :: drafts)
        ⟨offset + (inside fronts.text entries).length, fronts.closer :: rest⟩ := by
  -- The draft grows by the members of the entries that were passed
  induction entries generalizing draft offset with
  | nil =>
    rw [followed, List.flatMap_nil, entriesWidth, List.map_nil, List.sum_nil, List.length_nil,
      Draft.extend_nil (hkey.trans hobject.symm)]
    rfl
  | cons e entries ih =>
    rw [List.forall_mem_cons] at hvalue
    have hcloser : Extent.endsNumber fronts.closer = true := by
      rw [Fronts.closer]
      cases fronts.object <;> rfl
    have hfollows := follows_separator fronts.text e entries _ hcloser rest
    rw [inside_cons]
    simp only [List.append_assoc]
    rw [fronts.read e.front draft drafts offset _ hobject hkey, hvalue.1 _ _ _ rfl hfollows,
      Progress.value, Progress.resume, readFrom_separates (separates_separator e entries),
      ih hvalue.2 ((draft.addFront _ _).addValue _ _) hobject hobject, Draft.extend_addValue,
      followed, List.flatMap_cons, entriesWidth_cons]
    simp only [List.length_cons, List.length_append, Nat.add_assoc]
    rfl

/-- A container is read as its item once its entries are. -/
theorem readFrom_container (gap : Gap) (entries : List (Entry Front Node))
    (hvalue : ∀ e ∈ entries, ReadsAsItem e.value) {text : Bytes}
    (htext : text = JsonQuery.Layout.opener fronts.object ::
      (gap.text ++ (inside fronts.text entries ++ [fronts.closer])))
    (drafts : List Draft) (offset : Nat) (rest : Bytes) :
    readFrom drafts ⟨offset, text ++ rest⟩ =
      (Progress.value
        (.container fronts.object
          ((followed fronts.text (fronts.closer :: rest) entries).flatMap (itemsOf fronts.mark))
          (entriesWidth fronts.width entries + 2 + 2 * (entries.length - 1)) (text ++ rest)
          text.length)
        (entriesWidth fronts.width entries + 2 + 2 * (entries.length - 1))
        ⟨offset + text.length, rest⟩ drafts).resume := by
  obtain ⟨hopens, hobject⟩ : opensContainer (JsonQuery.Layout.opener fronts.object) = true ∧
      (JsonQuery.Layout.opener fronts.object == openBrace) = fronts.object := by
    cases fronts.object <;> decide
  have hbehind : text ++ rest = JsonQuery.Layout.opener fronts.object ::
      (gap.text ++ (inside fronts.text entries ++ fronts.closer :: rest)) := by
    rw [htext]
    simp
  have hlength : text.length =
      1 + gap.text.length + (inside fronts.text entries).length + 1 := by
    rw [htext]
    simp only [List.length_cons, List.length_append, List.length_nil]
    omega
  rw [hbehind, readFrom_opener hopens, hobject, readFrom_separates gap.separates,
    readFrom_inside fronts entries hvalue (Draft.openAt _ _) rfl rfl]
  refine (readFrom_closer ((Draft.openAt _ _).extend _ _ _) rfl _ _ _).trans ?_
  -- The item ends behind the bracket that was read last
  have hnext : offset + 1 + gap.text.length + (inside fronts.text entries).length + 1 =
      offset + text.length := by
    omega
  rw [Draft.finish_openAt, Draft.fullWidth_openAt, hnext, Nat.add_sub_cancel_left]

/-- Every value is read as its item. -/
theorem readsAsItem (n : Node) : ReadsAsItem n := by
  have hscalar : ∀ n : Node, n.isContainer = false → ReadsAsItem n := by
    intro n hn drafts offset rest hkey hrest
    rw [readFrom_scalar hn hkey offset hrest, Node.item_scalar hn, Node.width_scalar hn]
  induction n with
  | word w => exact hscalar _ rfl
  | number n => exact hscalar _ rfl
  | string body => exact hscalar _ rfl
  | array gap items ih =>
    intro drafts offset rest _ _
    have hwidth : (Node.array gap items).width =
        entriesWidth Fronts.gaps.width items + 2 + 2 * (items.length - 1) := by
      rw [Node.width_array, entriesWidth]
      simp only [Fronts.gaps, Nat.zero_add]
    rw [Node.item_array, hwidth]
    exact readFrom_container .gaps gap items ih (Node.text_array gap items) drafts offset rest
  | object gap members ih =>
    intro drafts offset rest _ _
    have hwidth : (Node.object gap members).width =
        entriesWidth Fronts.tags.width members + 2 + 2 * (members.length - 1) := by
      rw [Node.width_object, entriesWidth]
      rfl
    rw [Node.item_object, hwidth]
    exact readFrom_container .tags gap members ih (Node.text_object gap members) drafts offset rest

/-- A document is read as the item of its root. -/
theorem read?_document (d : Document) :
    JsonQuery.Layout.read? d.text = some (d.root.item d.after.text) := by
  have hafter : Follows d.after.text := by simpa using Follows.gap d.after .nil
  obtain ⟨c, text, htext, hc⟩ := d.root.text_cons
  have hfind : (Cursor.start d.text).find (!isSpace ·) =
      ⟨d.before.text.length, d.root.text ++ d.after.text⟩ := by
    have hbefore : ∀ c ∈ d.before.text, (!isSpace c) = false := by
      intro c hc
      simp [isSpace_of_mem_gapBytes (d.before.isGap c hc)]
    rw [Cursor.start, Document.text, find_append hbefore, Nat.zero_add, htext, List.cons_append]
    exact find_cons (by simp [isSpace_of_startsValue hc]) _ _
  have hpeek : ((Cursor.mk d.before.text.length (d.root.text ++ d.after.text)).peek?.map
      startsValue).getD false = true := by
    rw [htext]
    exact hc
  rw [JsonQuery.Layout.read?, hfind, if_pos hpeek, readsAsItem d.root [] _ _ rfl hafter]
  rfl

end Reading

end Grammar

end JsonQuery
