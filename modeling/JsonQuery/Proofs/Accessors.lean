import JsonQuery.Proofs.Filters
import JsonQuery.Proofs.RoundTrip
import Mathlib.Data.List.Forall2

/-!
# Accessors agree with paths

The elements and the members that a result lists are read by one scanner, and paths are matched by
another.  On every document they come to the same children: the path of a position finds the element
that is listed there, and the path of a name the member that is listed under it, which is the first
one of that name.

## Layers

- **Listing**: members are listed in ascending order, each name once, with the value that came
  first.
- **Payloads**: what the children of a result hold is what its text does.
- **Children**: the children of an object are its branches, names included.
- **Paths**: what the path of a position and the path of a name find.
-/

namespace JsonQuery

open Ascii

/-! ## Listing -/

namespace Result

section Listing

variable {α : Type}

/-- The names of a list of members ascend. -/
def Ascends (members : List (Bytes × α)) : Prop :=
  members.Pairwise fun a b => a.1 < b.1

theorem mem_insertMember {name : Bytes} {value : α} {members : List (Bytes × α)}
    {entry : Bytes × α} (h : entry ∈ insertMember name value members) :
    entry = (name, value) ∨ entry ∈ members := by
  induction members with
  | nil => exact .inl (List.mem_singleton.1 h)
  | cons other members ih =>
    rw [insertMember] at h
    split at h
    · exact .inr h
    · split at h
      · rwa [List.mem_cons] at h
      · rcases List.mem_cons.1 h with rfl | h
        · exact .inr List.mem_cons_self
        · exact (ih h).imp_right (List.mem_cons_of_mem _)

theorem Ascends.insertMember {members : List (Bytes × α)} (h : Ascends members) (name : Bytes)
    (value : α) : Ascends (Result.insertMember name value members) := by
  induction members with
  | nil => exact List.pairwise_singleton _ _
  | cons other members ih =>
    obtain ⟨hother, hmembers⟩ := List.pairwise_cons.1 h
    rw [Result.insertMember]
    split
    · exact h
    · rename_i hne
      split
      · rename_i hlt
        refine List.pairwise_cons.2 ⟨fun entry hentry => ?_, h⟩
        rcases List.mem_cons.1 hentry with rfl | hentry
        · exact hlt
        · exact List.lt_trans hlt (hother entry hentry)
      · rename_i hnlt
        refine List.pairwise_cons.2 ⟨fun entry hentry => ?_, ih hmembers⟩
        rcases mem_insertMember hentry with rfl | hentry
        · exact Std.lt_of_le_of_ne hnlt (Ne.symm hne)
        · exact hother entry hentry

theorem lookup_cons_ite (entry : Bytes × α) (members : List (Bytes × α)) (key : Bytes) :
    (entry :: members).lookup key = if key = entry.1 then some entry.2 else members.lookup key := by
  rw [List.lookup_cons]
  split
  · rename_i hsame
    rw [if_pos (beq_iff_eq.1 hsame)]
  · rename_i hother
    rw [if_neg (beq_eq_false_iff_ne.1 hother)]

/-- In front of greater names a name is not listed. -/
theorem lookup_eq_none_of_lt {members : List (Bytes × α)} {name : Bytes}
    (h : ∀ entry ∈ members, name < entry.1) : members.lookup name = none := by
  rw [List.lookup_eq_none_iff]
  intro entry hentry
  rw [bne_iff_ne]
  rintro rfl
  exact List.lt_irrefl entry.1 (h entry hentry)

/-- A member that is added is found under its name if there was none before. -/
theorem lookup_insertMember {members : List (Bytes × α)} (h : Ascends members) (name : Bytes)
    (value : α) (key : Bytes) :
    (insertMember name value members).lookup key =
      (members.lookup key).or (if key = name then some value else none) := by
  induction members with
  | nil => exact lookup_cons_ite (name, value) [] key
  | cons other members ih =>
    obtain ⟨hother, hmembers⟩ := List.pairwise_cons.1 h
    rw [insertMember]
    split
    · rename_i hsame
      rw [lookup_cons_ite, hsame]
      by_cases hkey : key = other.1 <;> simp [hkey]
    · rename_i hne
      split
      · rename_i hlt
        rw [lookup_cons_ite]
        by_cases hkey : key = name
        · have hnone : (other :: members).lookup name = none := by
            apply lookup_eq_none_of_lt
            rw [List.forall_mem_cons]
            exact ⟨hlt, fun entry hentry => List.lt_trans hlt (hother entry hentry)⟩
          simp [hkey, hnone]
        · simp [hkey]
      · rw [lookup_cons_ite, lookup_cons_ite, ih hmembers]
        split <;> rfl

/-- Of several members with one name the first is listed. -/
theorem lookup_foldl_insertMember (entries : List (Bytes × α)) {members : List (Bytes × α)}
    (h : Ascends members) (key : Bytes) :
    (entries.foldl (fun found e => insertMember e.1 e.2 found) members).lookup key =
      (members.lookup key).or (entries.lookup key) := by
  induction entries generalizing members with
  | nil => exact (Option.or_none).symm
  | cons e entries ih =>
    rw [List.foldl_cons, ih (h.insertMember e.1 e.2), lookup_insertMember h, Option.or_assoc,
      lookup_cons_ite]
    by_cases hkey : key = e.1 <;> simp [hkey]

end Listing

end Result

/-! ## Payloads -/

/-- What a child is called and what it holds, wherever it stands. -/
def Child.payload (c : Child) : Value × Value :=
  (c.key.value, c.value.value)

namespace Result

theorem payload_placeChild (r : Result) (position : Nat) (c : Child) :
    (r.placeChild position c).payload = c.payload := by
  rw [Child.payload, Child.payload, placeChild, value_rebase]
  cases r.indexes with
  | none => rw [value_rebase]
  | some offsets => rfl

/-- The children of a result hold what is read in its text. -/
theorem payload_children {r : Result} {raw : Bytes} (hvalue : r.value = .json raw) :
    r.children.map Child.payload = (childrenOf raw).map Child.payload := by
  rw [children, hvalue]
  apply List.ext_getElem?
  intro i
  simp [Function.comp_def, payload_placeChild]

end Result

namespace Grammar

open Walk

/-! ## Children -/

section Children

/-- The child is the reading of the branch, under the name of the branch. -/
def Named (c : Child) (b : Branch) : Prop :=
  b.label = .key c.key.text ∧ c.value = b.toSpot.reading

/-- In a UTF-8 text a child is named as the member that it is read from. -/
theorem OfMember.named {text : Bytes} (hvalid : Utf8.isValid text = true) {c : Child} {b : Branch}
    (h : OfMember text c b) : Named c b := by
  obtain ⟨⟨body, hlabel, hbody, hkey⟩, hvalue⟩ := h
  have hquoted := isValid_quoted_of_infix hvalid hbody
  have hname : c.key.text = body.name := by
    rw [Result.text, hkey, Value.ofSpan, Utf8.lossy, if_pos hquoted]
    rfl
  exact ⟨hname ▸ hlabel, hvalue⟩

/-- The children in the text of an object that is found at an offset are its branches there. -/
theorem named_container {n : Node} (hn : n.lead = .object) {rest : Bytes}
    (hvalid : Utf8.isValid (n.text ++ rest) = true) (base : Nat) :
    List.Forall₂ Named (Result.located (.json (n.text ++ rest)) base).children
      (Spot.mk base n).branches := by
  cases n with
  | object gap members =>
    have hplaced : (Result.located (.json ((Node.object gap members).text ++ rest)) base).children =
        (Result.childrenOf ((Node.object gap members).text ++ rest)).map fun c =>
          ⟨c.key.rebase (some base), c.value.rebase (some base)⟩ := by
      apply List.ext_getElem?
      intro i
      simp [Result.children, Result.placeChild, Result.located]
    -- Each child is placed by the offset of the object
    rw [hplaced, branches_moved _ base, List.forall₂_map_left_iff, List.forall₂_map_right_iff]
    refine (childrenOf_object gap members rest).imp fun c b hcb => ?_
    obtain ⟨hlabel, hvalue⟩ := hcb.named hvalid
    refine ⟨?_, ?_⟩
    · rw [Result.text, Result.value_rebase]
      exact hlabel
    · rw [hvalue]
      exact reading_rebase b base
  | _ => cases hn

/-- Under a name the member is listed that the component of the name selects first. -/
theorem lookup_of_named {children : List Child} {branches : List Branch}
    (h : List.Forall₂ Named children branches) (name : Bytes) :
    (children.map fun c => (c.key.text, c.value)).lookup name =
      (branches.find? fun b => (Component.ofName name).selects b.label).map fun b =>
        b.toSpot.reading := by
  induction h with
  | nil => rfl
  | @cons c b children branches hcb _ ih =>
    obtain ⟨hlabel, hvalue⟩ := hcb
    rw [List.map_cons, Result.lookup_cons_ite, List.find?_cons, hlabel, Component.selects_ofName]
    by_cases hname : name = c.key.text
    · simp [hname, hvalue]
    · have hother : (c.key.text == name) = false := beq_eq_false_iff_ne.2 (Ne.symm hname)
      rw [if_neg hname, hother, ih]

end Children

/-! ## Documents -/

section Documents

variable {d : Document} (hvalid : Utf8.isValid d.text = true)

include hvalid

/-- A document whose root is an array is read as one. -/
theorem isArray_document (harray : d.root.lead = .array) : (parse d.text).isArray = true := by
  have hroot : d.root.isContainer = true := by
    rw [Node.isContainer, harray]
    rfl
  rw [(opens_container hroot (congrArg Result.value (parse_document d hvalid hroot))).2, harray]
  rfl

/-- The elements of a document are its branches. -/
theorem elements_document (harray : d.root.lead = .array) :
    (parse d.text).elements = d.spot.branches.map fun b => b.toSpot.result := by
  have hroot : d.root.isContainer = true := by
    rw [Node.isContainer, harray]
    rfl
  rw [Result.elements_of_isArray (isArray_document hvalid harray), parse_document d hvalid hroot,
    values_container d.root hroot]
  exact List.map_congr_left fun b hb => (d.standsIn_spot.branch hb).reading_eq_result hvalid

/-- The members of a document are listed under the names of its branches. -/
theorem members_document (hobject : d.root.lead = .object) (name : Bytes) :
    (parse d.text).members.lookup name =
      (d.spot.branches.find? fun b => (Component.ofName name).selects b.label).map fun b =>
        b.toSpot.reading := by
  have hroot : d.root.isContainer = true := by
    rw [Node.isContainer, hobject]
    rfl
  have hnamed : List.Forall₂ Named (parse d.text).children d.spot.branches := by
    rw [parse_document d hvalid hroot]
    exact named_container hobject (d.isValid_root hvalid) d.spot.offset
  have hresult : (parse d.text).isObject = true := by
    rw [(opens_container hroot (congrArg Result.value (parse_document d hvalid hroot))).1, hobject]
    rfl
  have hlisted := Result.lookup_foldl_insertMember
    ((parse d.text).children.map fun c => (c.key.text, c.value)) List.Pairwise.nil name
  rw [List.foldl_map] at hlisted
  rw [← lookup_of_named hnamed name, Result.members, if_pos hresult]
  exact hlisted

end Documents

/-! ## Paths -/

section Paths

/-- A component that selects one position finds the element there, and none behind the end. -/
theorem find?_items {c : Component} {items : List (Entry Gap Node)} {k : Nat} (offset : Nat)
    {position : Nat} (hc : ∀ i < items.length, c.selects (.position (position + i)) = (i == k)) :
    (branchesFrom Gap.text (fun n _ => .position n) offset position items).find?
        (fun b => c.selects b.label) =
      (branchesFrom Gap.text (fun n _ => .position n) offset position items)[k]? := by
  induction items generalizing offset position k with
  | nil => rfl
  | cons e items ih =>
    have hfirst := hc 0 (by simp)
    have hrest : ∀ i < items.length, c.selects (.position (position + 1 + i)) = (i + 1 == k) := by
      intro i hi
      rw [← hc (i + 1) (by simpa using hi), Nat.add_assoc, Nat.add_comm 1 i]
    rw [branchesFrom, List.find?_cons]
    dsimp only
    rw [Nat.add_zero] at hfirst
    rw [hfirst]
    cases k with
    | zero => rfl
    | succ k =>
      -- The first element is passed, and the others count from it
      show List.find? _ _ = _
      rw [List.getElem?_cons_succ]
      exact ih _ fun i hi => (hrest i hi).trans (by simp)

/-- A position finds the element that stands there. -/
theorem search_position {s : Spot} (hs : s.node.lead = .array)
    (hsize : s.node.text.length < Number.wordLimit) (k : Nat) :
    search [.ofLabel (.position k)] s = s.branches[k]?.map Branch.toSpot := by
  obtain ⟨offset, node⟩ := s
  cases node with
  | array gap items =>
    rw [search_singleton, Spot.branches]
    dsimp only
    rw [find?_items]
    intro i hi
    -- Every element takes up a byte, so a word holds its position
    have hlength := length_le_inside Gap.text items
    rw [Node.text_array] at hsize
    simp only [List.length_append, List.length_cons] at hsize
    rw [Nat.zero_add]
    exact selects_position_iff (by omega) k
  | _ => cases hs

variable {engine : Engine} {depth : Nat} (hmax : engine.config.maxDepth = depth + 1)

include hmax

/-- The elements of a document are counted. -/
theorem get_count (d : Document) (hvalid : Utf8.isValid d.text = true)
    (harray : d.root.lead = .array) :
    (engine.get d.text [hash]).value = .count d.spot.branches.length := by
  obtain ⟨bracket, next, hbracket, hpeek, helements⟩ := exists_elements d hvalid harray
  have hparse : ElementComponent.parse? engine.dialect [hash] = some ⟨.count, .done⟩ := rfl
  have hopen : openAt ⟨engine.dialect, engine.resolve 127⟩ false (bracket.advance 1) [hash]
      (depth + 1) {} = ({ value := .count d.spot.branches.length }, .over) := by
    rw [openAt, if_neg (Nat.succ_ne_zero depth), if_neg Bool.false_ne_true, openArray, hparse]
    dsimp only [keepPipe]
    rw [helements]
    simp
  have hstart : start ⟨engine.dialect, engine.resolve 127⟩ d.text [hash] (depth + 1) =
      { value := .count d.spot.branches.length } := by
    rw [start, show lines? [hash] = none from rfl]
    dsimp only
    rw [hbracket, hpeek]
    dsimp only
    rw [show (openBracket == openBrace) = false from rfl, enter, hopen]
  exact value_get_of_link engine hmax rfl hstart

/-- The path of a position finds the element that stands there. -/
theorem get_position (d : Document) (hvalid : Utf8.isValid d.text = true)
    (hsize : d.text.length < Number.wordLimit) (harray : d.root.lead = .array) (k : Nat) :
    (engine.get d.text (Bytes.ofNat k)).value =
      ((d.spot.branches.map fun b => b.toSpot.result)[k]?).getD .missing := by
  have hpath : Bytes.ofNat k = pathOf [.ofLabel (.position k)] := by
    rw [Component.ofLabel, pathOf_ofName, escape_ofNat]
  have hlines : lines? (pathOf [.ofLabel (.position k)]) = none :=
    @lines?_labels [.position k] (by simp)
  have hbar : ∀ c ∈ [Component.ofLabel (.position k)], bar ∉ c.text := by
    intro c hc hmem
    rw [List.mem_singleton.1 hc, Component.ofLabel, Component.text_ofName, escape_ofNat] at hmem
    exact absurd (isDigit_of_mem_ofNat hmem) (by decide)
  have hroot : d.root.isContainer = true := by
    rw [Node.isContainer, harray]
    rfl
  have hlength : d.root.text.length < Number.wordLimit := by
    have hafter := d.standsIn_spot.after_le
    rw [Spot.after] at hafter
    exact Nat.lt_of_le_of_lt (Nat.le_trans (Nat.le_add_left _ _) hafter) hsize
  rw [hpath, get_pathOf engine d hroot _ (by simp) (by simp [hmax]) hlines
    (fits_of_no_bar hbar d.spot), search_position harray hlength, List.getElem?_map]
  cases hb : d.spot.branches[k]? with
  | none => rfl
  | some b => exact (d.standsIn_spot.branch (List.mem_of_getElem? hb)).reading_eq_result hvalid

/-- The path of a name finds the first member of the name. -/
theorem get_name (d : Document) (hobject : d.root.lead = .object) (name : Bytes) :
    (engine.get d.text (Path.escape name)).value =
      ((d.spot.branches.find? fun b => (Component.ofName name).selects b.label).map fun b =>
        b.toSpot.reading).getD .missing := by
  have hlines : lines? (pathOf [.ofName name]) = none := by rw [pathOf_ofName, lines?_escape]
  have hroot : d.root.isContainer = true := by
    rw [Node.isContainer, hobject]
    rfl
  -- An object is met, so no bar matters
  have hfits : Fits [.ofName name] d.spot :=
    ⟨fun _ => by rw [show d.spot.node.lead = .object from hobject]; exact Lead.noConfusion,
      fun _ _ _ => trivial⟩
  rw [← pathOf_ofName, get_pathOf engine d hroot _ (by simp) (by simp [hmax]) hlines hfits,
    search_singleton, answer, Option.map_map]
  rfl

omit hmax

/-- **Accessors agree with paths.**  Let a UTF-8 document be an array: its elements are as many as
the path `#` counts, the path of the digits of a position finds the element that is listed there,
and a position behind the last one finds nothing.  Let it be an object: the path of a name, with its
escapes, finds the member that is listed under the name, and nothing when none is.  Values, offsets
and all are the same, whatever names and however many members of one name there are. -/
theorem accessors_eq_get (engine : Engine) (hdepth : 0 < engine.config.maxDepth) (d : Document)
    (hvalid : isWellFormedUtf8 d.text = true) (hsize : d.text.length < Number.wordLimit) :
    (d.root.lead = .array →
      (parse d.text).elements.length = d.spot.branches.length ∧
        (engine.get d.text [hash]).value = .count d.spot.branches.length ∧
        ∀ i, (engine.get d.text (Bytes.ofNat i)).value =
          ((parse d.text).elements[i]?).getD .missing) ∧
      (d.root.lead = .object →
        ∀ name, (engine.get d.text (Path.escape name)).value =
          ((parse d.text).members.lookup name).getD .missing) := by
  rw [isWellFormedUtf8, Bool.and_eq_true] at hvalid
  obtain ⟨depth, hmax⟩ : ∃ depth, engine.config.maxDepth = depth + 1 :=
    ⟨engine.config.maxDepth - 1, by omega⟩
  refine ⟨fun harray => ?_, fun hobject name => ?_⟩
  · rw [elements_document hvalid.1 harray]
    exact ⟨List.length_map _, get_count hmax d hvalid.1 harray,
      get_position hmax d hvalid.1 hsize harray⟩
  · rw [get_name hmax d hobject, members_document hvalid.1 hobject]

/-- The document `{"\u0061":null,"a":true,"x.y":false}`, with two members of one name. -/
def Document.twins : Document :=
  let unit : Body := ⟨Bytes.ofString "\\u0061",
      .unit (by decide) (by decide) (by decide) (by decide) .nil⟩
  let plain : Body := ⟨[0x61], isBody_a⟩
  let dotted : Body := ⟨Bytes.ofString "x.y", .plain (by decide) (by decide) (by decide)
    (.plain (by decide) (by decide) (by decide) (.plain (by decide) (by decide) (by decide) .nil))⟩
  let member (key : Body) (w : Word) : Entry Tag Node :=
    ⟨⟨.none, key, .none, .none⟩, .word w, .none⟩
  ⟨.none, .object .none [member unit .null, member plain (.boolean true),
    member dotted (.boolean false)], .none⟩

theorem Document.text_twins : Document.twins.text =
    Bytes.ofString "\x7b\"\\u0061\":null,\"a\":true,\"x.y\":false\x7d" := by
  simp only [Document.text, Document.twins, Node.text_object, inside_cons, inside_nil, separator,
    Gap.none, Node.text]
  rfl

theorem accessors_eq_get_sample :
    (Engine.standard.get Document.listing.text [hash]).value = .count 3 ∧
      (Engine.standard.get Document.listing.text (Bytes.ofNat 1)).value =
        .located (.json (Bytes.ofString "\x7b\x7d")) 11 ∧
      (Engine.standard.get Document.listing.text (Bytes.ofNat 3)).value = .missing ∧
      (Engine.standard.get Document.twins.text (Path.escape [0x61])).value = .located .null 10 ∧
      (Engine.standard.get Document.twins.text (Path.escape (Bytes.ofString "x.y"))).value =
        .located (.boolean false) 30 := by
  have hlisting : isWellFormedUtf8 Document.listing.text = true := by
    rw [Document.text_listing]
    rfl
  have htwins : isWellFormedUtf8 Document.twins.text = true := by
    rw [Document.text_twins]
    rfl
  obtain ⟨-, hcount, hposition⟩ := (accessors_eq_get Engine.standard (by decide) .listing hlisting
    (by rw [Document.text_listing]; decide)).1 rfl
  have hname := (accessors_eq_get Engine.standard (by decide) .twins htwins
    (by rw [Document.text_twins]; decide)).2 rfl
  refine ⟨hcount, ?_, ?_, ?_, ?_⟩
  · rw [hposition, Document.text_listing]
    decide +kernel
  · rw [hposition, Document.text_listing]
    decide +kernel
  · rw [hname, Document.text_twins]
    decide +kernel
  · rw [hname, Document.text_twins]
    decide +kernel

end Paths

end Grammar

end JsonQuery
