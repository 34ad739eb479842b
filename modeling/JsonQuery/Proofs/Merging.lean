import JsonQuery.Proofs.Flattening

/-!
# Merged objects

Joining an array makes one object of the objects among its elements.  Their members meet by name,
however the names are spelled: each name keeps the place and the spelling of its first member, and
gets the value of its last one, or the array of all its values when these are preserved.

## Layers

- **Members**: what is read of the members of an object, in order.
- **Merging**: members with those of one name put together in the place of the first.
- **Slots**: adding members one by one comes to the merged members.
- **Documents**: the modifier on documents whose root is an array.
-/

namespace JsonQuery

open Ascii

/-! ## Members -/

/-- What joining reads of a child: the name, its spelling, and the text of the value. -/
def Child.fields (c : Child) : Bytes × Bytes × Bytes :=
  (c.key.text, c.key.raw, c.value.raw)

namespace Grammar

/-- The name of a member: its key with the escapes read. -/
def Entry.name (e : Entry Tag Node) : Bytes :=
  e.front.key.name

/-- The text of a member. -/
def Entry.text (e : Entry Tag Node) : Bytes :=
  e.front.text ++ (e.value.text ++ e.gap.text)

/-- The members of an object; any other value has none. -/
def Node.members : Node → List (Entry Tag Node)
  | .object _ members => members
  | _ => []

/-- The key and the value of a member are held by a child, as spans of the text. -/
def Entry.HeldBy (e : Entry Tag Node) (c : Child) : Prop :=
  c.key.value = .ofSpan .string (Bytes.quoted e.front.key.text) ∧
    c.value.value = .ofSpan e.value.lead e.value.text

section Members

variable {lead : Bytes}

/-- The children of an object hold its members, one by one. -/
theorem childrenFrom_inside (members : List (Entry Tag Node)) (hlead : Separates lead)
    (offset position : Nat) (rest : Bytes) (found : List Child) :
    ∃ children, Cursor.childrenFrom true found position
        ⟨offset, lead ++ (inside Tag.text members ++ closeBrace :: rest)⟩ =
      found.reverse ++ children ∧ List.Forall₂ Entry.HeldBy members children := by
  -- Behind a member stands a separator like the text in front of the first one
  induction members generalizing lead offset position found with
  | nil =>
    rw [inside_nil, List.nil_append,
      childrenFrom_of_none (child?_closeBrace offset position rest hlead)]
    exact ⟨[], (List.append_nil _).symm, .nil⟩
  | cons e members ih =>
    let s : Spot := ⟨offset + lead.length + e.front.text.length, e.value⟩
    have hfollows := follows_separator Tag.text e members closeBrace rfl rest
    rw [append_inside_cons,
      childrenFrom_of_some (child?_member e.front s hfollows position hlead rfl)]
    obtain ⟨children, hchildren, hheld⟩ := ih (separates_separator e members) s.after
      (position + 1) (_ :: found)
    rw [hchildren, List.reverse_cons, List.append_assoc, List.singleton_append]
    exact ⟨_, rfl, .cons ⟨rfl, rfl⟩ hheld⟩

theorem childrenOf_members (gap : Gap) (members : List (Entry Tag Node)) (rest : Bytes) :
    List.Forall₂ Entry.HeldBy members
      (Result.childrenOf ((Node.object gap members).text ++ rest)) := by
  have hstart : (Cursor.start ((Node.object gap members).text ++ rest)).find (!isSpace ·) =
      ⟨0, (Node.object gap members).text ++ rest⟩ := by
    rw [Node.text_object]
    exact find_cons rfl 0 _
  have hpeek : (Cursor.mk 0 ((Node.object gap members).text ++ rest)).peek? = some openBrace := by
    rw [Node.text_object]
    rfl
  have hadvance : (Cursor.mk 0 ((Node.object gap members).text ++ rest)).advance 1 =
      ⟨1, gap.text ++ (inside Tag.text members ++ closeBrace :: rest)⟩ := by
    simp [Cursor.advance, Node.text_object]
  obtain ⟨children, hchildren, hheld⟩ :=
    childrenFrom_inside members gap.separates 1 0 rest []
  rw [Result.childrenOf, hstart, if_pos hpeek, hadvance, hchildren]
  exact hheld

/-- The name of a member, its spelling, and the text of the value. -/
def Entry.fields (e : Entry Tag Node) : Bytes × Bytes × Bytes :=
  (e.name, Bytes.quoted e.front.key.text, e.value.text)

theorem Entry.HeldBy.fields {c : Child} {e : Entry Tag Node} (h : e.HeldBy c)
    (hkey : Utf8.isValid (Bytes.quoted e.front.key.text) = true)
    (hvalue : Utf8.isValid e.value.text = true) : c.fields = e.fields := by
  have hstring : c.key.value = .string (Bytes.quoted e.front.key.text) := by
    rw [h.1, Value.ofSpan, Utf8.lossy, if_pos hkey]
  rw [Child.fields, Entry.fields, Result.text, Result.raw, Result.raw, hstring, h.2,
    e.value.ofSpan_eq_value hvalue, e.value.raw_value]
  rfl

theorem Spot.isObject_result (s : Spot) : s.result.isObject = (s.node.lead == .object) := by
  cases hs : s.node.isContainer with
  | true =>
    rw [result_container hs]
    exact (opens_container hs rfl).1
  | false =>
    rw [Bool.eq_iff_iff]
    refine ⟨fun h => ?_, fun h => ?_⟩
    · rw [(shows_result s (.inl h)).1] at hs
      cases hs
    · rw [Node.isContainer, beq_iff_eq.1 h] at hs
      cases hs

theorem Node.members_of_ne_object {n : Node} (h : n.lead ≠ .object) : n.members = [] := by
  cases n with
  | object gap members => exact absurd rfl h
  | _ => rfl

/-- The children of an object in a UTF-8 document are read as its members are written. -/
theorem fields_children {s : Spot} (hobject : s.node.lead = .object)
    (hvalid : Utf8.isValid s.node.text = true) :
    s.result.children.map Child.fields = s.node.members.map Entry.fields := by
  obtain ⟨offset, n⟩ := s
  cases n with
  | object gap members =>
    have hheld := childrenOf_members gap members []
    rw [List.append_nil] at hheld
    have hmembers : (Result.childrenOf (Node.object gap members).text).map Child.fields =
        members.map Entry.fields := by
      rw [eq_comm, ← List.forall₂_eq_eq_eq, List.forall₂_map_left_iff, List.forall₂_map_right_iff]
      have hutf8 := (isValid_object_iff gap members).1 hvalid
      refine ((List.forall₂_and_left _ _).2 ⟨hutf8, hheld⟩).imp fun e c h => ?_
      exact (h.2.fields (Utf8.isValid_quoted_iff.2 h.1.1) h.1.2).symm
    have hpayload := congrArg (List.map fun p : Value × Value => (p.1.text, p.1.raw, p.2.raw))
      (Result.payload_children (r := (Spot.mk offset (.object gap members)).result) rfl)
    rw [List.map_map, List.map_map] at hpayload
    exact hpayload.trans hmembers
  | _ => cases hobject

end Members

/-! ## Merging -/

/-- The member that members of one name come to: it is spelled like the first one, and has the value
of the last one, or an array of all values if there are several that are to be preserved. -/
def mergedMember (preserve : Bool) (first : Entry Tag Node) (others : List (Entry Tag Node)) :
    Entry Tag Node :=
  let value :=
    if preserve && !others.isEmpty then Node.ofElements ((first :: others).map Entry.value)
    else (others.getLastD first).value
  ⟨⟨.none, first.front.key, .none, .none⟩, value, .none⟩

/-- The members that have a name. -/
def named (name : Bytes) (members : List (Entry Tag Node)) : List (Entry Tag Node) :=
  members.filter fun e => e.name == name

/-- The members that have other names. -/
def namedElse (name : Bytes) (members : List (Entry Tag Node)) : List (Entry Tag Node) :=
  members.filter fun e => !e.name == name

/-- Members with those of one name put together, in the place of the first one. -/
def mergedMembers (preserve : Bool) : List (Entry Tag Node) → List (Entry Tag Node)
  | [] => []
  | first :: rest =>
    mergedMember preserve first (named first.name rest)
      :: mergedMembers preserve (namedElse first.name rest)
termination_by members => members.length
decreasing_by exact Nat.lt_succ_of_le (List.length_filter_le _ _)

section Merging

variable (preserve : Bool)

/-- Each name is left once, in the order in which the names come up first. -/
theorem names_mergedMembers (members : List (Entry Tag Node)) :
    (mergedMembers preserve members).map Entry.name = (members.map Entry.name).eraseDups := by
  induction members using mergedMembers.induct with
  | case1 =>
    rw [mergedMembers]
    rfl
  | case2 first rest ih =>
    rw [mergedMembers, List.map_cons, List.map_cons, ih, List.eraseDups_cons, List.filter_map]
    rfl

theorem name_mem_of_mem_mergedMembers {members : List (Entry Tag Node)} {m : Entry Tag Node}
    (hm : m ∈ mergedMembers preserve members) : ∃ e ∈ members, e.name = m.name := by
  have hname : m.name ∈ (mergedMembers preserve members).map Entry.name := List.mem_map_of_mem hm
  rw [names_mergedMembers, List.mem_eraseDups] at hname
  exact List.mem_map.1 hname

/-- A merged member comes from the members of its name. -/
theorem exists_of_mem_mergedMembers {members : List (Entry Tag Node)} {m : Entry Tag Node}
    (hm : m ∈ mergedMembers preserve members) :
    ∃ first others, named m.name members = first :: others ∧
      m = mergedMember preserve first others := by
  induction members using mergedMembers.induct with
  | case1 =>
    rw [mergedMembers] at hm
    cases hm
  | case2 first rest ih =>
    rw [mergedMembers, List.mem_cons] at hm
    rcases hm with rfl | hm
    · exact ⟨first, _, List.filter_cons_of_pos (beq_self_eq_true _), rfl⟩
    · -- The name of a later member is another one than the first
      obtain ⟨e, he, hname⟩ := name_mem_of_mem_mergedMembers preserve hm
      have hother : ¬first.name = m.name := by
        rw [namedElse, List.mem_filter, Bool.not_eq_true', beq_eq_false_iff_ne] at he
        exact fun hsame => he.2 (hname.trans hsame.symm)
      obtain ⟨next, others, hnamed, hmerged⟩ := ih hm
      refine ⟨next, others, ?_, hmerged⟩
      rw [named, List.filter_cons_of_neg (by simpa using hother), ← hnamed, named, namedElse,
        List.filter_filter]
      refine List.filter_congr fun e _ => ?_
      rw [Bool.eq_iff_iff, Bool.and_eq_true, beq_iff_eq, Bool.not_eq_true', beq_eq_false_iff_ne]
      exact ⟨fun hsame => ⟨hsame, fun hfirst => hother (hfirst.symm.trans hsame)⟩, And.left⟩

end Merging

end Grammar

/-! ## Slots -/

namespace Modifier

open Grammar

/-- A slot with one value more, in place of the others unless they are preserved. -/
def Slot.add (preserve : Bool) (slot : Slot) (value : Bytes) : Slot :=
  { slot with values := if preserve then value :: slot.values else [value] }

/-- Slots with a member more, as it is read. -/
def addFields (preserve : Bool) (slots : List Slot) (fields : Bytes × Bytes × Bytes) : List Slot :=
  addMember preserve fields.1 fields.2.1 fields.2.2 slots

section Slots

variable (preserve : Bool)

/-- Members of the name of the first slot add to it, and the others to the slots behind it. -/
theorem foldl_addFields (slot : Slot) (slots : List Slot) (members : List (Bytes × Bytes × Bytes)) :
    members.foldl (addFields preserve) (slot :: slots) =
      ((members.filter fun m => m.1 == slot.name).map fun m => m.2.2).foldl (Slot.add preserve) slot
        :: (members.filter fun m => !m.1 == slot.name).foldl (addFields preserve) slots := by
  induction members generalizing slot slots with
  | nil => rfl
  | cons m members ih =>
    rw [List.foldl_cons, addFields, addMember]
    by_cases hname : slot.name = m.1
    · rw [if_pos hname, ih, List.filter_cons_of_pos (by simp [hname]),
        List.filter_cons_of_neg (by simp [hname])]
      rfl
    · rw [if_neg hname, ih, List.filter_cons_of_neg (by simpa using Ne.symm hname),
        List.filter_cons_of_pos (by simpa using Ne.symm hname)]
      rfl

theorem foldl_add_preserved (slot : Slot) (values : List Bytes) :
    values.foldl (Slot.add true) slot = { slot with values := values.reverse ++ slot.values } := by
  induction values generalizing slot with
  | nil => rfl
  | cons value values ih =>
    rw [List.foldl_cons, ih, List.reverse_cons, List.append_assoc]
    rfl

theorem foldl_add_last (slot : Slot) (values : List Bytes) :
    values.foldl (Slot.add false) slot =
      { slot with values := (values.getLast?.map fun value => [value]).getD slot.values } := by
  induction values using List.reverseRecOn with
  | nil => rfl
  | append_singleton values value ih =>
    rw [List.foldl_append, ih, List.getLast?_concat]
    rfl

theorem Slot.text_of_ne_singleton {slot : Slot} (h : ∀ value, slot.values ≠ [value]) :
    slot.text = member slot.key (arrayOf slot.values.reverse) := by
  unfold Slot.text
  split
  · rename_i value hvalues
    exact absurd hvalues (h value)
  · rfl

/-- The slot of members of one name is written as the member that they come to. -/
theorem text_foldl_add (first : Entry Tag Node) (others : List (Entry Tag Node)) :
    ((others.map fun e => e.value.text).foldl (Slot.add preserve)
      ⟨first.name, Bytes.quoted first.front.key.text, [first.value.text]⟩).text =
      (mergedMember preserve first others).text := by
  have hmember : ∀ value : Node,
      (Entry.mk (Tag.mk .none first.front.key .none .none) value Gap.none).text =
        member (Bytes.quoted first.front.key.text) value.text := by
    intro value
    simp [Entry.text, Tag.text, Gap.none, member]
  cases preserve with
  | false =>
    rw [foldl_add_last, mergedMember, Bool.false_and, if_neg Bool.false_ne_true, hmember,
      List.getLastD_eq_getLast?]
    cases hlast : others.getLast? with
    | none =>
      rw [List.getLast?_map, hlast]
      rfl
    | some last =>
      rw [List.getLast?_map, hlast]
      rfl
  | true =>
    rw [foldl_add_preserved, mergedMember, Bool.true_and]
    cases others with
    | nil => exact (hmember _).symm
    | cons second others =>
      have hseveral : (!(second :: others).isEmpty) = true := rfl
      rw [if_pos hseveral, hmember, Node.text_ofElements, Slot.text_of_ne_singleton]
      · simp [Function.comp_def]
      · intro value hvalues
        have hlength := congrArg List.length hvalues
        simp at hlength

/-- Members that are added one by one come to the merged members. -/
theorem text_foldl_addFields (members : List (Entry Tag Node)) :
    ((members.map Entry.fields).foldl (addFields preserve) []).map Slot.text =
      (mergedMembers preserve members).map Entry.text := by
  induction members using mergedMembers.induct with
  | case1 =>
    rw [mergedMembers]
    rfl
  | case2 first rest ih =>
    have hslot : addFields preserve [] first.fields =
        [⟨first.name, Bytes.quoted first.front.key.text, [first.value.text]⟩] := rfl
    rw [mergedMembers, List.map_cons, List.map_cons, List.foldl_cons, hslot, foldl_addFields,
      List.map_cons, ← ih, ← text_foldl_add, named, namedElse, List.filter_map, List.filter_map,
      List.map_map]
    rfl

end Slots

end Modifier

/-! ## Documents -/

open Grammar

/-- A call of the modifier that joins objects. -/
def Call.join (argument : Bytes) : Call :=
  ⟨Bytes.ofString "join", argument⟩

section Documents

/-- The children of the objects among some results are the members of the objects at their spots. -/
theorem fields_objects {spots : List Spot}
    (hvalid : ∀ s ∈ spots, Utf8.isValid s.node.text = true) :
    (((spots.map Spot.result).filter Result.isObject).flatMap Result.children).map Child.fields =
      ((spots.map Spot.node).flatMap Node.members).map Entry.fields := by
  induction spots with
  | nil => rfl
  | cons s spots ih =>
    rw [List.forall_mem_cons] at hvalid
    rw [List.map_cons, List.map_cons, List.flatMap_cons, List.map_append, ← ih hvalid.2]
    by_cases hobject : s.node.lead = .object
    · rw [List.filter_cons_of_pos (by rw [s.isObject_result, hobject]; rfl), List.flatMap_cons,
        List.map_append, fields_children hobject hvalid.1]
    · rw [List.filter_cons_of_neg (by rw [s.isObject_result]; simpa using hobject),
        Node.members_of_ne_object hobject]
      rfl

/-- Joining a document writes the merged members of the objects among its elements. -/
theorem join_document {d : Document} (hvalid : isWellFormedUtf8 d.text = true)
    (harray : d.root.lead = .array) (room : Nat) (argument : Bytes) :
    Registry.builtins.output? room d.text (.join argument) =
      some (Node.object .none (mergedMembers (Modifier.flag argument "preserve")
        (d.root.elements.flatMap Node.members))).text := by
  rw [isWellFormedUtf8, Bool.and_eq_true] at hvalid
  have hresult := isArray_document hvalid.1 harray
  have hvalues := elements_document hvalid.1 harray
  have hspots : ∀ s ∈ d.spot.branches.map fun b => b.toSpot, Utf8.isValid s.node.text = true := by
    rw [List.forall_mem_map]
    exact fun b hb => (d.standsIn_spot.branch hb).isValid hvalid.1
  have hfields := fields_objects hspots
  have hnodes : d.spot.branches.map (fun b => b.node) = d.root.elements :=
    Spot.nodes_branches harray
  rw [Result.elements_of_isArray hresult] at hvalues
  rw [List.map_map, List.map_map, Function.comp_def, Function.comp_def, hnodes, ← hvalues]
    at hfields
  have htext : (Node.object .none (mergedMembers (Modifier.flag argument "preserve")
      (d.root.elements.flatMap Node.members))).text = Modifier.objectOf ((mergedMembers
        (Modifier.flag argument "preserve") (d.root.elements.flatMap Node.members)).map
          Entry.text) := by
    rw [Node.text]
    rfl
  have hanswer : Modifier.join room d.text argument = .ok (Node.object .none (mergedMembers
      (Modifier.flag argument "preserve") (d.root.elements.flatMap Node.members))).text := by
    rw [htext, ← Modifier.text_foldl_addFields, ← hfields, List.foldl_map]
    exact if_pos hresult
  exact Registry.output?_of_find? rfl hanswer

/-- **Objects are joined without losing names.**  A well-formed UTF-8 document that is an array is
joined to an object.  The object has one member for each name in the objects among the elements, in
the order in which the names come up first, spelled as they are there.  Unless the flag `preserve`
is set, the value of a name is the last one; with the flag a name that comes up once keeps its
value, and one that comes up several times has the array of all its values. -/
theorem join_merges_members (d : Document) (hvalid : isWellFormedUtf8 d.text = true)
    (harray : d.root.lead = .array) (room : Nat) (argument : Bytes) :
    let occurring := d.root.elements.flatMap Node.members
    ∃ members : List (Entry Tag Node),
      Registry.builtins.output? room d.text (.join argument) =
        some (Node.object .none members).text ∧
      members.map Entry.name = (occurring.map Entry.name).eraseDups ∧
      ∀ m ∈ members, ∃ first others,
        occurring.filter (fun e => e.name == m.name) = first :: others ∧
        m.front = ⟨.none, first.front.key, .none, .none⟩ ∧ m.gap = .none ∧
        (Modifier.flag argument "preserve" = false →
          m.value = (others.getLastD first).value) ∧
        (Modifier.flag argument "preserve" = true →
          (others = [] → m.value = first.value) ∧
          (others ≠ [] → m.value = Node.ofElements ((first :: others).map Entry.value))) := by
  intro occurring
  refine ⟨_, join_document hvalid harray room argument, names_mergedMembers _ _, fun m hm => ?_⟩
  obtain ⟨first, others, hnamed, rfl⟩ := exists_of_mem_mergedMembers _ hm
  refine ⟨first, others, hnamed, rfl, rfl, fun hlast => ?_,
    fun hall => ⟨fun hone => ?_, fun hmore => ?_⟩⟩
  · rw [mergedMember, hlast]
    rfl
  · rw [mergedMember, hone, List.isEmpty_nil, Bool.not_true, Bool.and_false]
    rfl
  · have hseveral : (!others.isEmpty) = true := by simpa using hmore
    rw [mergedMember, hall, hseveral]
    rfl

/-- The document `[{"a":[-0,1e400],"\u0061":true},null,{"b":null},{"a":[null]}]`. -/
def Grammar.Document.objects : Document :=
  let key : Body := ⟨[0x62], .plain (by decide) (by decide) (by decide) .nil⟩
  let single : Node := .object .none [⟨⟨.none, key, .none, .none⟩, .word .null, .none⟩]
  ⟨.none, .ofElements [Document.assorted.root, .word .null, single, Document.sample.root], .none⟩

theorem Grammar.Document.text_objects : Document.objects.text = Bytes.ofString
    "[\x7b\"a\":[-0,1e400],\"\\u0061\":true\x7d,null,\x7b\"b\":null\x7d,\x7b\"a\":[null]\x7d]" := by
  simp only [Document.text, Document.objects, Document.assorted, Document.sample, Node.ofElements,
    List.map_cons, List.map_nil, Node.text_object, Node.text_array, inside_cons, inside_nil,
    separator, Gap.none, Node.text]
  rfl

theorem join_merges_members_sample :
    let preserve := Bytes.ofString "\x7b\"preserve\":true\x7d"
    isWellFormedUtf8 Document.objects.text = true ∧ Document.objects.root.lead = .array ∧
      Modifier.flag preserve "preserve" = true ∧
      ∃ members : List (Entry Tag Node),
        Registry.builtins.output? 0 Document.objects.text (.join preserve) =
          some (Node.object .none members).text ∧
        members.map Entry.name = [[0x61], [0x62]] ∧
        (Node.object .none members).text = Bytes.ofString
          "\x7b\"a\":[[-0,1e400],true,[null]],\"b\":null\x7d" := by
  intro preserve
  have hvalid : isWellFormedUtf8 Document.objects.text = true := by
    rw [Document.text_objects]
    rfl
  have hflag : Modifier.flag preserve "preserve" = true := by decide +kernel
  obtain ⟨members, houtput, hnames, -⟩ :=
    join_merges_members .objects hvalid rfl 0 preserve
  refine ⟨hvalid, rfl, hflag, members, houtput, hnames.trans ?_, ?_⟩
  · rfl
  · have hrun : Registry.builtins.output? 0 Document.objects.text (.join preserve) =
        some (Bytes.ofString "\x7b\"a\":[[-0,1e400],true,[null]],\"b\":null\x7d") := by
      rw [Document.text_objects]
      decide +kernel
    exact Option.some.inj (houtput.symm.trans hrun)

end Documents

end JsonQuery
