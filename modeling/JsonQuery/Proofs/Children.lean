import JsonQuery.Proofs.Tours
import Mathlib.Data.List.Forall2

/-!
# Children are branches

Going down from the root of a document, one child at a time, is going down its tree: what the
children of a result hold are the readings of the branches of its spot.

## Layers

- **Steps**: one child is read from what separates it from the one before.
- **Children**: `childrenOf` a container, by induction over its entries, and their places.
- **Reaching**: `Reached` goes down results and `Leads` goes down spots; the two agree.
-/

namespace JsonQuery

open Ascii

/-- The results that are reached from the root of a text by going down to children, with the number
of steps.  Scalars have no children to go down to. -/
inductive Reached (text : Bytes) : Nat → Result → Prop where
  | root : Reached text 0 (parse text)
  | child {depth : Nat} {r : Result} {c : Child} (h : Reached text depth r)
      (hcontainer : r.isObject = true ∨ r.isArray = true) (hc : c ∈ r.children) :
      Reached text (depth + 1) c.value

/-- An array as a list is its values. -/
theorem Result.elements_of_isArray {r : Result} (h : r.isArray = true) :
    r.elements = r.values := by
  obtain ⟨value, index, indexes⟩ := r
  cases value with
  | json raw => exact if_pos h
  | _ => cases h

namespace Grammar

open Extent

/-! ## Steps -/

section Steps

variable {lead : Bytes}

theorem find_separates {text : Bytes} (h : Separates text) (offset : Nat) (rest : Bytes) :
    (Cursor.mk offset (text ++ rest)).find (!isSeparator ·) =
      (Cursor.mk (offset + text.length) rest).find (!isSeparator ·) := by
  apply find_append
  intro c hc
  simp [h c hc]

/-- A value that a separator precedes is read where it starts. -/
theorem find_node (n : Node) (offset : Nat) (rest : Bytes) :
    (Cursor.mk offset (n.text ++ rest)).find (!isSeparator ·) = ⟨offset, n.text ++ rest⟩ := by
  obtain ⟨c, text, htext, hc⟩ := n.text_cons
  have hseparator : isSeparator c = false := by
    apply Bool.eq_false_iff.2
    intro hseparator
    rw [not_startsValue_of_isSeparator hseparator] at hc
    cases hc
  rw [htext, List.cons_append]
  exact find_cons (by simp [hseparator]) offset _

theorem read?_spot (s : Spot) {rest : Bytes} (hrest : Follows rest) :
    (Cursor.mk s.offset (s.node.text ++ rest)).read? = some ⟨s.reading, ⟨s.after, rest⟩⟩ := by
  obtain ⟨c, text, htext, hc⟩ := s.node.text_cons
  have hfind : (Cursor.mk s.offset (s.node.text ++ rest)).find startsValue =
      ⟨s.offset, s.node.text ++ rest⟩ := by
    rw [htext, List.cons_append]
    exact find_cons hc s.offset _
  rw [Cursor.read?, hfind, readHere?_spot s hrest]

/-- The child behind a label is the value that the next spot reads. -/
theorem child?_of_label? {object : Bool} {position : Nat} {c : Cursor} {label : Result}
    {between : Bytes} (hbetween : Separates between) {offset : Nat} (s : Spot) {rest : Bytes}
    (hlabel : c.label? object position =
      some (label, ⟨offset, between ++ (s.node.text ++ rest)⟩))
    (hoffset : s.offset = offset + between.length) (hrest : Follows rest) :
    c.child? object position = some (⟨label, s.reading⟩, ⟨s.after, rest⟩) := by
  -- Behind the label the cursor passes over the separator and reads the value
  rw [Cursor.child?, hlabel]
  dsimp only
  rw [find_separates hbetween, ← hoffset, find_node, if_neg (peek?_node_ne s.node rfl _ _),
    read?_spot s hrest]
  rfl

theorem child?_member (tag : Tag) (s : Spot) {rest : Bytes} (hrest : Follows rest) {offset : Nat}
    (position : Nat) (hlead : Separates lead)
    (hoffset : s.offset = offset + lead.length + tag.text.length) :
    (Cursor.mk offset (lead ++ (tag.text ++ (s.node.text ++ rest)))).child? true position =
      some (⟨.located (.ofSpan .string (Bytes.quoted tag.key.text))
        (offset + lead.length + tag.before.text.length), s.reading⟩, ⟨s.after, rest⟩) := by
  -- The label of a member is its key as a result
  have hlabel : (Cursor.mk offset (lead ++ (tag.text ++ (s.node.text ++ rest)))).label? true
      position = some (.located (.ofSpan .string (Bytes.quoted tag.key.text))
        (offset + lead.length + tag.before.text.length),
        ⟨offset + lead.length + tag.before.text.length + (Bytes.quoted tag.key.text).length,
          tag.between.text ++ (colon :: tag.after.text) ++ (s.node.text ++ rest)⟩) := by
    rw [Cursor.label?, if_pos rfl, Cursor.key?, toKey_tag tag hlead, keyHere?_quoted]
    rfl
  apply child?_of_label? tag.separates s hlabel _ hrest
  rw [hoffset, length_tag]
  omega

theorem child?_element (gap : Gap) (s : Spot) {rest : Bytes} (hrest : Follows rest) {offset : Nat}
    (position : Nat) (hlead : Separates lead)
    (hoffset : s.offset = offset + lead.length + gap.text.length) :
    (Cursor.mk offset (lead ++ (gap.text ++ (s.node.text ++ rest)))).child? false position =
      some (⟨.count position, s.reading⟩, ⟨s.after, rest⟩) := by
  -- The label of an element is its position, for which nothing is read
  have hlabel : (Cursor.mk offset (lead ++ (gap.text ++ (s.node.text ++ rest)))).label? false
      position = some (.count position, ⟨offset, lead ++ gap.text ++ (s.node.text ++ rest)⟩) := by
    rw [Cursor.label?, if_neg Bool.false_ne_true, List.append_assoc]
  apply child?_of_label? (hlead.append gap.separates) s hlabel _ hrest
  rw [hoffset, List.length_append]
  omega

theorem child?_closeBrace (offset position : Nat) (rest : Bytes) (hlead : Separates lead) :
    (Cursor.mk offset (lead ++ closeBrace :: rest)).child? true position = none := by
  have hlabel : (Cursor.mk offset (lead ++ closeBrace :: rest)).label? true position = none := by
    rw [Cursor.label?, if_pos rfl, Cursor.key?, toKey_close hlead]
    rfl
  rw [Cursor.child?, hlabel]

theorem child?_closeBracket (offset position : Nat) (rest : Bytes) (hlead : Separates lead) :
    (Cursor.mk offset (lead ++ closeBracket :: rest)).child? false position = none := by
  have hfind : (Cursor.mk (offset + lead.length) (closeBracket :: rest)).find (!isSeparator ·) =
      ⟨offset + lead.length, closeBracket :: rest⟩ :=
    find_cons rfl _ _
  rw [Cursor.child?, Cursor.label?, if_neg Bool.false_ne_true]
  dsimp only
  rw [find_separates hlead, hfind]
  rfl

end Steps

/-! ## Children -/

section Children

theorem childrenFrom_of_some {object : Bool} {found : List Child} {position : Nat}
    {c next : Cursor} {child : Child} (h : c.child? object position = some (child, next)) :
    c.childrenFrom object found position =
      next.childrenFrom object (child :: found) (position + 1) := by
  rw [Cursor.childrenFrom]
  split
  · rename_i hnone
    rw [h] at hnone
    cases hnone
  · rename_i hsome
    rw [h] at hsome
    cases hsome
    rfl

theorem childrenFrom_of_none {object : Bool} {found : List Child} {position : Nat} {c : Cursor}
    (h : c.child? object position = none) :
    c.childrenFrom object found position = found.reverse := by
  rw [Cursor.childrenFrom]
  split
  · rfl
  · rename_i hsome
    rw [h] at hsome
    cases hsome

/-- A child is read from a branch of an object: its key is a string that the text holds. -/
def OfMember (text : Bytes) (c : Child) (b : Branch) : Prop :=
  (∃ body : Body, b.label = .key body.name ∧ Bytes.quoted body.text <:+: text ∧
    c.key.value = .ofSpan .string (Bytes.quoted body.text)) ∧ c.value = b.toSpot.reading

/-- A child is read from a branch of an array: its key is a count. -/
def OfElement (c : Child) (b : Branch) : Prop :=
  (∃ n, b.label = .position n ∧ c.key = .count n) ∧ c.value = b.toSpot.reading

theorem OfMember.mono {text whole : Bytes} (h : text <:+: whole) {c : Child} {b : Branch}
    (hc : OfMember text c b) : OfMember whole c b := by
  obtain ⟨⟨body, hlabel, hbody, hkey⟩, hvalue⟩ := hc
  exact ⟨⟨body, hlabel, hbody.trans h, hkey⟩, hvalue⟩

/-- The children of an object are read from the branches of its members. -/
theorem children_members {position : Nat} {start next : Cursor} {branches : List Branch}
    (h : Members position start branches next) (found : List Child) :
    ∃ children, start.childrenFrom true found position = found.reverse ++ children ∧
      List.Forall₂ (OfMember start.rest) children branches := by
  -- The entries that were read are collected in front, last one first
  induction h generalizing found with
  | @close position offset lead rest hlead =>
    rw [childrenFrom_of_none (child?_closeBrace offset position rest hlead)]
    exact ⟨[], (List.append_nil _).symm, .nil⟩
  | @entry position offset lead rest branches next tag s hlead hoffset hrest _ ih =>
    have hbehind : rest <:+: lead ++ (tag.text ++ (s.node.text ++ rest)) :=
      ⟨lead ++ (tag.text ++ s.node.text), [], by simp⟩
    have hkey : Bytes.quoted tag.key.text <:+: lead ++ (tag.text ++ (s.node.text ++ rest)) :=
      ⟨lead ++ tag.before.text, tag.between.text ++
        (colon :: tag.after.text ++ (s.node.text ++ rest)), by simp [Tag.text]⟩
    rw [childrenFrom_of_some (child?_member tag s hrest position hlead hoffset)]
    obtain ⟨children, hchildren, hmembers⟩ := ih (_ :: found)
    rw [hchildren, List.reverse_cons, List.append_assoc, List.singleton_append]
    exact ⟨_, rfl, .cons ⟨⟨tag.key, rfl, hkey, rfl⟩, rfl⟩
      (hmembers.imp fun _ _ hc => hc.mono hbehind)⟩

/-- The children of an array are read from the branches of its elements. -/
theorem children_elements {position : Nat} {start next : Cursor} {branches : List Branch}
    (h : Items position start branches next) (found : List Child) :
    ∃ children, start.childrenFrom false found position = found.reverse ++ children ∧
      List.Forall₂ OfElement children branches := by
  induction h generalizing found with
  | @close position offset lead rest hlead =>
    rw [childrenFrom_of_none (child?_closeBracket offset position rest hlead)]
    exact ⟨[], (List.append_nil _).symm, .nil⟩
  | @entry position offset lead rest branches next gap s hlead hoffset hrest _ ih =>
    rw [childrenFrom_of_some (child?_element gap s hrest position hlead hoffset)]
    obtain ⟨children, hchildren, helements⟩ := ih (_ :: found)
    rw [hchildren, List.reverse_cons, List.append_assoc, List.singleton_append]
    exact ⟨_, rfl, .cons ⟨⟨position, rfl, rfl⟩, rfl⟩ helements⟩

/-- The children in the text of an object are read behind its brace. -/
theorem childrenOf_object (gap : Gap) (members : List (Entry Tag Node)) (rest : Bytes) :
    List.Forall₂ (OfMember ((Node.object gap members).text ++ rest))
      (Result.childrenOf ((Node.object gap members).text ++ rest))
      (Spot.mk 0 (.object gap members)).branches := by
  have hstart : (Cursor.start ((Node.object gap members).text ++ rest)).find (!isSpace ·) =
      ⟨0, (Node.object gap members).text ++ rest⟩ := by
    rw [Node.text_object]
    exact find_cons rfl 0 _
  have hpeek : (Cursor.mk 0 ((Node.object gap members).text ++ rest)).peek? = some openBrace := by
    rw [Node.text_object]
    rfl
  obtain ⟨children, hchildren, hmembers⟩ := children_members (members_object 0 gap members rest) []
  rw [Result.childrenOf, hstart, if_pos hpeek, hchildren]
  exact hmembers.imp fun _ _ hc => hc.mono (List.drop_suffix 1 _).isInfix

/-- The children in the text of an array are read behind its bracket. -/
theorem childrenOf_array (gap : Gap) (items : List (Entry Gap Node)) (rest : Bytes) :
    List.Forall₂ OfElement (Result.childrenOf ((Node.array gap items).text ++ rest))
      (Spot.mk 0 (.array gap items)).branches := by
  have hstart : (Cursor.start ((Node.array gap items).text ++ rest)).find (!isSpace ·) =
      ⟨0, (Node.array gap items).text ++ rest⟩ := by
    rw [Node.text_array]
    exact find_cons rfl 0 _
  have hpeek : (Cursor.mk 0 ((Node.array gap items).text ++ rest)).peek? = some openBracket := by
    rw [Node.text_array]
    rfl
  obtain ⟨children, hchildren, helements⟩ := children_elements (items_array 0 gap items rest) []
  rw [Result.childrenOf, hstart, hpeek, if_neg (by decide), if_pos rfl, hchildren]
  exact helements

/-- The children in the text of a container hold what its branches read. -/
theorem values_childrenOf (n : Node) (hn : n.isContainer = true) (rest : Bytes) :
    (Result.childrenOf (n.text ++ rest)).map Child.value =
      (Spot.mk 0 n).branches.map fun b => b.toSpot.reading := by
  rw [← List.forall₂_eq_eq_eq, List.forall₂_map_left_iff, List.forall₂_map_right_iff]
  cases n with
  | word w => cases hn
  | number n => cases hn
  | string body => cases hn
  | object gap members => exact (childrenOf_object gap members rest).imp fun _ _ hc => hc.2
  | array gap items => exact (childrenOf_array gap items rest).imp fun _ _ hc => hc.2

/-- A branch further on in the text. -/
def Branch.moved (base : Nat) (b : Branch) : Branch :=
  ⟨⟨base + b.offset, b.node⟩, b.label⟩

theorem branchesFrom_add {Front : Type} (front : Front → Bytes) (label : Nat → Front → Label)
    (entries : List (Entry Front Node)) (base offset position : Nat) :
    branchesFrom front label (base + offset) position entries =
      (branchesFrom front label offset position entries).map (Branch.moved base) := by
  induction entries generalizing offset position with
  | nil => rfl
  | cons e rest ih =>
    simp only [branchesFrom, List.map_cons, Branch.moved, ← ih, Nat.add_assoc]

theorem branches_moved (n : Node) (base : Nat) :
    (Spot.mk base n).branches = (Spot.mk 0 n).branches.map (Branch.moved base) := by
  cases n with
  | word w => rfl
  | number n => rfl
  | string body => rfl
  | array gap items =>
    simp only [Spot.branches, ← branchesFrom_add, Nat.zero_add, Nat.add_assoc]
  | object gap members =>
    simp only [Spot.branches, ← branchesFrom_add, Nat.zero_add, Nat.add_assoc]

theorem reading_rebase (b : Branch) (base : Nat) :
    b.toSpot.reading.rebase (some base) = (b.moved base).toSpot.reading := by
  simp [Spot.reading, Result.rebase, Result.located, Branch.moved, Nat.add_comm]

/-- The children of a container that is found at an offset are its branches there. -/
theorem values_container (n : Node) (hn : n.isContainer = true) (rest : Bytes) (base : Nat) :
    (Result.located (.json (n.text ++ rest)) base).values =
      (Spot.mk base n).branches.map fun b => b.toSpot.reading := by
  -- Each child is placed by the offset of the container
  have hplaced : (Result.located (.json (n.text ++ rest)) base).values =
      ((Result.childrenOf (n.text ++ rest)).map Child.value).map (·.rebase (some base)) := by
    apply List.ext_getElem?
    intro i
    simp [Result.values, Result.children, Result.placeChild, Result.located, Function.comp_def]
  rw [hplaced, values_childrenOf n hn, branches_moved n base, List.map_map, List.map_map]
  exact List.map_congr_left fun b _ => reading_rebase b base

end Children

/-! ## Reaching -/

/-- Going down from one spot to another, by the labels on the way. -/
inductive Leads : Spot → List Label → Spot → Prop where
  | here (s : Spot) : Leads s [] s
  | branch {s t : Spot} {labels : List Label} (h : Leads s labels t) {b : Branch}
      (hb : b ∈ t.branches) : Leads s (labels ++ [b.label]) b.toSpot

section Reaching

theorem Leads.standsIn {text : Bytes} {s t : Spot} {labels : List Label} (h : Leads s labels t)
    (hs : s.StandsIn text) : t.StandsIn text := by
  induction h with
  | here => exact hs
  | branch _ hb ih => exact ih.branch hb

/-- The result has children only if it is a container that stands at the spot. -/
def Shows (r : Result) (s : Spot) : Prop :=
  r.isObject = true ∨ r.isArray = true →
    s.node.isContainer = true ∧ ∃ rest, r = .located (.json (s.node.text ++ rest)) s.offset

theorem shows_result (s : Spot) : Shows s.result s := by
  obtain ⟨offset, node⟩ := s
  intro hr
  cases node with
  | word w => rcases w with _ | _ | _ <;> rcases hr with hr | hr <;> cases hr
  | number n => rcases hr with hr | hr <;> cases hr
  | string body => rcases hr with hr | hr <;> cases hr
  | array gap items => exact ⟨rfl, [], by rw [List.append_nil]; rfl⟩
  | object gap members => exact ⟨rfl, [], by rw [List.append_nil]; rfl⟩

theorem isSpace_of_startsValue {c : UInt8} (h : startsValue c = true) : isSpace c = false := by
  apply Bool.eq_false_iff.2
  intro hspace
  have hseparator : isSeparator c = true := by simp [isSeparator, hspace]
  rw [not_startsValue_of_isSeparator hseparator] at h
  cases h

theorem ofSpace_document (d : Document) : ofSpace d.text = d.before.text.length := by
  obtain ⟨c, text, htext, hc⟩ := d.root.text_cons
  rw [ofSpace, Document.text, takeWhile_append_of_head]
  · exact fun c hc => isSpace_of_mem_gapBytes (d.before.isGap c hc)
  · intro b hb
    have hb : c = b := by simpa [htext] using hb
    exact hb ▸ isSpace_of_startsValue hc

/-- What follows the first byte of a value is UTF-8 as well. -/
theorem Document.isValid_root (d : Document) (hvalid : Utf8.isValid d.text = true) :
    Utf8.isValid (d.root.text ++ d.after.text) = true := by
  obtain ⟨c, text, htext, hc⟩ := d.root.text_cons
  rw [Document.text, htext, List.cons_append] at hvalid
  have hrest := (Utf8.isValid_of_append_ascii (ascii_of_startsValue hc) hvalid).2
  rwa [← List.cons_append, ← htext] at hrest

/-- The root of a document as a result takes all that follows it when it is a container. -/
theorem parse_document (d : Document) (hvalid : Utf8.isValid d.text = true)
    (hroot : d.root.isContainer = true) :
    parse d.text = .located (.json (d.root.text ++ d.after.text)) d.spot.offset := by
  have hlossy : Utf8.lossy (d.root.text ++ d.after.text) = d.root.text ++ d.after.text := by
    simp [Utf8.lossy, d.isValid_root hvalid]
  have hdrop : d.text.drop d.before.text.length = d.root.text ++ d.after.text :=
    List.drop_left
  have hlead : d.root.lead.isContainer = true := hroot
  rw [parse, ofSpace_document, hdrop, of?_node]
  dsimp only
  rw [if_pos hlead]
  cases hkind : d.root.lead with
  | object => rw [Value.ofSpan, hlossy]; rfl
  | array => rw [Value.ofSpan, hlossy]; rfl
  | string => rw [hkind] at hlead; cases hlead
  | number => rw [hkind] at hlead; cases hlead
  | word => rw [hkind] at hlead; cases hlead

/-- The root of a document as a result is read like any other value when it is a scalar. -/
theorem parse_scalar (d : Document) (hroot : d.root.isContainer = false) :
    parse d.text = d.spot.reading := by
  have hdrop : d.text.drop d.before.text.length = d.root.text ++ d.after.text :=
    List.drop_left
  have hafter : Follows d.after.text := by simpa using Follows.gap d.after .nil
  have hlead : ¬d.root.lead.isContainer = true := Bool.eq_false_iff.1 hroot
  rw [parse, ofSpace_document, hdrop, of?_node]
  dsimp only
  rw [if_neg hlead, ofLead?_node d.root hafter]
  simp [Spot.reading, Document.spot]

theorem shows_root (d : Document) (hvalid : Utf8.isValid d.text = true) :
    Shows (parse d.text) d.spot := by
  intro hr
  cases hroot : d.root.isContainer with
  | true => exact ⟨hroot, d.after.text, parse_document d hvalid hroot⟩
  | false =>
    rw [parse_scalar d hroot, d.standsIn_spot.reading_eq_result hvalid] at hr
    have hcontainer := (shows_result d.spot hr).1
    exact absurd hcontainer (Bool.eq_false_iff.1 hroot)

/-- What is reached in a UTF-8 document, below its root, is what stands at a spot that as many
labels lead to. -/
theorem exists_leads_of_reached {d : Document} (hvalid : Utf8.isValid d.text = true) {depth : Nat}
    {r : Result} (h : Reached d.text depth r) :
    ∃ labels s, Leads d.spot labels s ∧ labels.length = depth ∧ Shows r s ∧
      (depth ≠ 0 → r = s.result) := by
  -- On the steps down; the root may be followed by a gap, every other result ends with its text
  induction h with
  | root => exact ⟨[], d.spot, .here _, rfl, shows_root d hvalid, fun hne => absurd rfl hne⟩
  | @child depth r c _ hcontainer hc ih =>
    obtain ⟨labels, s, hleads, hlength, hshows, -⟩ := ih
    obtain ⟨hs, rest, rfl⟩ := hshows hcontainer
    have hvalue : c.value ∈ s.branches.map fun b => b.toSpot.reading := by
      rw [← values_container s.node hs rest s.offset]
      exact List.mem_map_of_mem hc
    obtain ⟨b, hb, hreading⟩ := List.mem_map.1 hvalue
    have hstands := (hleads.branch hb).standsIn d.standsIn_spot
    have hresult : c.value = b.toSpot.result := by
      rw [← hreading, hstands.reading_eq_result hvalid]
    refine ⟨labels ++ [b.label], b.toSpot, hleads.branch hb, ?_, ?_, fun _ => hresult⟩
    · rw [List.length_append, hlength]
      rfl
    · rw [hresult]
      exact shows_result b.toSpot

theorem isContainer_of_mem_branches {s : Spot} {b : Branch} (hb : b ∈ s.branches) :
    s.node.isContainer = true := by
  obtain ⟨offset, node⟩ := s
  cases node with
  | word w => cases hb
  | number n => cases hb
  | string body => cases hb
  | array gap items => rfl
  | object gap members => rfl

/-- The bracket that a container opens with tells objects from arrays. -/
theorem opens_container {r : Result} {n : Node} (hn : n.isContainer = true) {rest : Bytes}
    (hvalue : r.value = .json (n.text ++ rest)) :
    r.isObject = (n.lead == .object) ∧ r.isArray = (n.lead == .array) := by
  rw [Result.isObject, Result.isArray, Result.opensWith, Result.opensWith, hvalue]
  cases n with
  | word w => cases hn
  | number n => cases hn
  | string body => cases hn
  | array gap items =>
    rw [Node.text_array]
    exact ⟨rfl, rfl⟩
  | object gap members =>
    rw [Node.text_object]
    exact ⟨rfl, rfl⟩

theorem isObject_or_isArray {n : Node} (hn : n.isContainer = true) (rest : Bytes) (offset : Nat) :
    (Result.located (.json (n.text ++ rest)) offset).isObject = true ∨
      (Result.located (.json (n.text ++ rest)) offset).isArray = true := by
  obtain ⟨hobject, harray⟩ := opens_container (r := .located (.json (n.text ++ rest)) offset) hn rfl
  rw [hobject, harray]
  cases n with
  | word w => cases hn
  | number n => cases hn
  | string body => cases hn
  | array gap items => exact .inr rfl
  | object gap members => exact .inl rfl

theorem result_container {s : Spot} (hs : s.node.isContainer = true) :
    s.result = .located (.json (s.node.text ++ [])) s.offset := by
  obtain ⟨offset, node⟩ := s
  rw [List.append_nil]
  cases node with
  | word w => cases hs
  | number n => cases hs
  | string body => cases hs
  | array gap items => rfl
  | object gap members => rfl

/-- The result of a container is an object or an array, and no other result is. -/
theorem Spot.isContainer_result (s : Spot) :
    (s.result.isObject || s.result.isArray) = s.node.isContainer := by
  cases hs : s.node.isContainer with
  | true =>
    rw [result_container hs, Bool.or_eq_true]
    exact isObject_or_isArray hs [] s.offset
  | false =>
    rw [Bool.or_eq_false_iff, ← Bool.not_eq_true, ← Bool.not_eq_true, ← not_or]
    intro h
    rw [(shows_result s h).1] at hs
    cases hs

/-- Whatever stands in a UTF-8 document is reached. -/
theorem exists_reached_of_leads {d : Document} (hvalid : Utf8.isValid d.text = true)
    {labels : List Label} {s : Spot} (h : Leads d.spot labels s) :
    ∃ r, Reached d.text labels.length r ∧ (labels ≠ [] → r = s.result) ∧
      (s.node.isContainer = true →
        ∃ rest, r = .located (.json (s.node.text ++ rest)) s.offset) := by
  -- On the labels, with the result of the container found one step before
  induction h with
  | here =>
    exact ⟨_, .root, fun hne => absurd rfl hne, fun hroot => ⟨_, parse_document d hvalid hroot⟩⟩
  | @branch t labels hleads b hb ih =>
    have ht := isContainer_of_mem_branches hb
    obtain ⟨r, hreached, -, hshown⟩ := ih
    obtain ⟨rest, rfl⟩ := hshown ht
    have hvalue : b.toSpot.reading ∈
        (Result.located (.json (t.node.text ++ rest)) t.offset).values := by
      rw [values_container t.node ht rest t.offset]
      exact List.mem_map_of_mem hb
    obtain ⟨c, hc, hreading⟩ := List.mem_map.1 hvalue
    have hresult : c.value = b.toSpot.result := by
      rw [hreading, ((hleads.branch hb).standsIn d.standsIn_spot).reading_eq_result hvalid]
    refine ⟨c.value, ?_, fun _ => hresult, fun hcontainer => ⟨[], ?_⟩⟩
    · rw [List.length_append]
      exact .child hreached (isObject_or_isArray ht rest t.offset) hc
    · rw [hresult, result_container hcontainer]

/-- The results below the root of a UTF-8 document are the values of its tree, with their texts and
offsets, and as deep as they stand there. -/
theorem reached_iff {d : Document} (hvalid : Utf8.isValid d.text = true) {depth : Nat}
    (hdepth : depth ≠ 0) (r : Result) :
    Reached d.text depth r ↔
      ∃ labels s, Leads d.spot labels s ∧ labels.length = depth ∧ r = s.result := by
  constructor
  · intro h
    obtain ⟨labels, s, hleads, hlength, -, hresult⟩ := exists_leads_of_reached hvalid h
    exact ⟨labels, s, hleads, hlength, hresult hdepth⟩
  · rintro ⟨labels, s, hleads, rfl, rfl⟩
    obtain ⟨r, hreached, hresult, -⟩ := exists_reached_of_leads hvalid hleads
    have hne : labels ≠ [] := by
      intro hnil
      exact hdepth (by rw [hnil]; rfl)
    exact hresult hne ▸ hreached

end Reaching

end Grammar

end JsonQuery
