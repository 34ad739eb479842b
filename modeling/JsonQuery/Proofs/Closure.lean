import JsonQuery.Proofs.Encoding
import JsonQuery.Proofs.Fragments
import JsonQuery.Proofs.Pipelines
import JsonQuery.Proofs.Printing
import JsonQuery.Proofs.Unnesting

/-!
# Modifiers that keep documents well-formed

Most of the built-in modifiers make a well-formed UTF-8 document of every such document, so any
pipeline of them does.  What they put together are fragments of their input: whatever their argument
asks for, no fragment is cut in the middle of a value or of a key.

## Layers

- **Whole documents**: modifiers that move space about or quote the document.
- **Containers**: modifiers that rebuild a container from its children.
- **Slots**: the members that joined objects have come to.
- **Pipelines**: the calls that keep documents well-formed, and runs of them.
-/

namespace JsonQuery.Modifier

open Ascii Grammar

/-! ## Whole documents -/

section Documents

variable {text : Bytes} (htext : isWellFormedUtf8 text = true)

include htext

theorem isText_compact : IsText (compact text) := by
  obtain ⟨d, rfl, hvalid⟩ := isWellFormedUtf8_iff.1 htext
  rw [compact_document]
  exact ⟨d.root.bare, rfl, (isValid_bare_iff d.root).2 (d.isValid_iff.1 hvalid)⟩

/-- Space between tokens keeps a document well-formed. -/
theorem isWellFormedUtf8_layout {layout : Layout} (h : layout.Spaced) :
    isWellFormedUtf8 (layout.pretty text) = true := by
  obtain ⟨d, rfl, hvalid⟩ := isWellFormedUtf8_iff.1 htext
  exact isWellFormedUtf8_iff.2
    ⟨Layout.laid h d, (Layout.pretty_document h d).symm, Layout.isValid_laid h hvalid⟩

theorem valid_eq : valid text = text := by
  rw [isWellFormedUtf8, Bool.and_eq_true] at htext
  exact if_pos htext.2

theorem isText_encode : IsText (Quoted.encode text) := by
  rw [isWellFormedUtf8, Bool.and_eq_true] at htext
  refine ⟨.string (Quoted.bodyOf text), ?_, (Quoted.isValid_encode_iff text).2 htext.1⟩
  rw [Node.text]
  rfl

theorem isRead_of_isWellFormedUtf8 : IsRead (JsonQuery.parse text) := by
  obtain ⟨d, rfl, hvalid⟩ := isWellFormedUtf8_iff.1 htext
  exact isRead_parse hvalid

end Documents

/-! ## Containers -/

section Containers

variable {r : Result}

/-- The values of a result are values as texts. -/
theorem isText_of_mem_raws (h : IsRead r) : ∀ t ∈ r.values.map Result.raw, IsText t := by
  rw [List.forall_mem_map]
  exact fun v hv => (h.isWritten v hv).isText

theorem isText_child (h : IsRead r) {c : Child} (hc : c ∈ r.children) : IsText c.value.raw :=
  (h.isWritten c.value (List.mem_map_of_mem hc)).isText

/-- Opening arrays inside of an array leaves values. -/
theorem isText_flatItems (levels : Nat) (items : List Result) (h : ∀ r ∈ items, IsWritten r) :
    ∀ t ∈ flatItems levels items, IsText t := by
  -- On the levels: each one opens the arrays among the items once
  induction levels generalizing items with
  | zero =>
    rw [flatItems, List.forall_mem_map]
    intro r hr
    have htext := (h r hr).isText
    rwa [htext.trimmed]
  | succ levels ih =>
    intro t ht
    rw [flatItems, List.mem_flatMap] at ht
    obtain ⟨r, hr, ht⟩ := ht
    split at ht
    · rename_i harray
      rw [Result.elements_of_isArray harray] at ht
      exact ih r.values (h r hr).isRead.isWritten t ht
    · have htext := (h r hr).isText
      rw [htext.trimmed, List.mem_singleton] at ht
      rwa [ht]

variable {text : Bytes} (htext : isWellFormedUtf8 text = true)

include htext

theorem isWellFormedUtf8_reverse : isWellFormedUtf8 (reverse text) = true := by
  have hread := isRead_of_isWellFormedUtf8 htext
  unfold reverse
  dsimp only
  split
  · refine (isText_arrayOf fun t ht => ?_).isWellFormedUtf8
    exact isText_of_mem_raws hread t (List.mem_reverse.1 ht)
  · split
    · rename_i hobject
      refine (isText_objectOf fun m hm => ?_).isWellFormedUtf8
      obtain ⟨c, hc, rfl⟩ := List.mem_map.1 (List.mem_reverse.1 hm)
      exact ⟨_, _, hread.isKey hobject c hc, isText_child hread hc, rfl⟩
    · exact htext

theorem isWellFormedUtf8_flatten (room : Nat) (argument : Bytes) :
    ∃ output, flatten room text argument = .ok output ∧ isWellFormedUtf8 output = true := by
  have hread := isRead_of_isWellFormedUtf8 htext
  unfold flatten
  dsimp only
  split
  · rename_i harray
    rw [run_flattening]
    refine ⟨_, rfl, (isText_arrayOf (isText_flatItems _ _ ?_)).isWellFormedUtf8⟩
    rw [Result.elements_of_isArray harray]
    exact hread.isWritten
  · exact ⟨text, rfl, htext⟩

theorem isText_keys : IsText (keys text) := by
  have hread := isRead_of_isWellFormedUtf8 htext
  refine isText_arrayOf fun t ht => ?_
  obtain ⟨c, hc, rfl⟩ := List.mem_map.1 ht
  split
  · rename_i hfound
    exact hread.isText_key c hc hfound
  · exact isText_null

theorem isWellFormedUtf8_values : isWellFormedUtf8 (values text) = true := by
  unfold values
  dsimp only
  split
  · exact htext
  · have hread := isRead_of_isWellFormedUtf8 htext
    exact (isText_arrayOf (isText_of_mem_raws hread)).isWellFormedUtf8

end Containers

/-! ## Slots -/

/-- The key and the values of a slot are texts of keys and values. -/
def Slot.IsSound (slot : Slot) : Prop :=
  IsKey slot.key ∧ ∀ v ∈ slot.values, IsText v

section Slots

theorem Slot.IsSound.exists_member {slot : Slot} (h : slot.IsSound) :
    ∃ key value, IsKey key ∧ IsText value ∧ member key value = slot.text := by
  obtain ⟨hkey, hvalues⟩ := h
  unfold Slot.text
  split
  · rename_i value hone
    rw [hone] at hvalues
    exact ⟨_, _, hkey, hvalues value List.mem_cons_self, rfl⟩
  · exact ⟨_, _, hkey, isText_arrayOf fun v hv => hvalues v (List.mem_reverse.1 hv), rfl⟩

theorem isSound_addMember (preserve : Bool) (name : Bytes) {key value : Bytes} (hkey : IsKey key)
    (hvalue : IsText value) {slots : List Slot} (h : ∀ s ∈ slots, s.IsSound) :
    ∀ s ∈ addMember preserve name key value slots, s.IsSound := by
  induction slots with
  | nil =>
    intro s hs
    obtain rfl := List.mem_singleton.1 hs
    exact ⟨hkey, by simpa using hvalue⟩
  | cons slot slots ih =>
    rw [List.forall_mem_cons] at h
    rw [addMember]
    split
    · refine List.forall_mem_cons.2 ⟨⟨h.1.1, ?_⟩, h.2⟩
      cases preserve with
      | true => exact List.forall_mem_cons.2 ⟨hvalue, h.1.2⟩
      | false => exact List.forall_mem_cons.2 ⟨hvalue, by simp⟩
    · exact List.forall_mem_cons.2 ⟨h.1, ih h.2⟩

/-- Whatever members are added, the slots stay sound. -/
theorem isSound_foldl_addMember (preserve : Bool) {members : List Child}
    (hmembers : ∀ c ∈ members, IsKey c.key.raw ∧ IsText c.value.raw) {slots : List Slot}
    (h : ∀ s ∈ slots, s.IsSound) :
    ∀ s ∈ members.foldl (fun slots child =>
      addMember preserve child.key.text child.key.raw child.value.raw slots) slots, s.IsSound := by
  induction members generalizing slots with
  | nil => exact h
  | cons c members ih =>
    rw [List.forall_mem_cons] at hmembers
    exact ih hmembers.2 (isSound_addMember preserve _ hmembers.1.1 hmembers.1.2 h)

theorem isWellFormedUtf8_join {text : Bytes} (htext : isWellFormedUtf8 text = true) (room : Nat)
    (argument : Bytes) :
    ∃ output, join room text argument = .ok output ∧ isWellFormedUtf8 output = true := by
  have hread := isRead_of_isWellFormedUtf8 htext
  unfold join
  dsimp only
  split
  · refine ⟨_, rfl, (isText_objectOf fun m hm => ?_).isWellFormedUtf8⟩
    obtain ⟨slot, hslot, rfl⟩ := List.mem_map.1 hm
    refine (isSound_foldl_addMember _ (fun c hc => ?_) (by simp) slot hslot).exists_member
    -- The members are the children of the objects among the elements
    obtain ⟨v, hv, hc⟩ := List.mem_flatMap.1 hc
    obtain ⟨hv, hobject⟩ := List.mem_filter.1 hv
    have hobjectRead := (hread.isWritten v hv).isRead
    exact ⟨hobjectRead.isKey hobject c hc, isText_child hobjectRead hc⟩
  · exact ⟨text, rfl, htext⟩

end Slots

end JsonQuery.Modifier

namespace JsonQuery

open Grammar

/-! ## Pipelines -/

/-- The modifiers that keep documents well-formed whatever their argument is. -/
def keepingNames : List Bytes :=
  ["this", "valid", "ugly", "reverse", "flatten", "join", "keys", "values", "tostr"].map
    Bytes.ofString

/-- A call that keeps documents well-formed: of such a modifier, or one that lays the document out
without options. -/
def Call.Keeps (call : Call) : Prop :=
  call.name ∈ keepingNames ∨ call.name = Bytes.ofString "pretty" ∧ call.argument = []

namespace Registry

section Pipelines

variable {text : Bytes}

/-- A modifier without argument has the output of its function. -/
theorem exists_output?_plain {f : Bytes → Bytes} {name : Bytes}
    (hfind : builtins.find? name = some (.plain f)) (hf : isWellFormedUtf8 (f text) = true)
    (room : Nat) (argument : Bytes) :
    ∃ output, builtins.output? room text ⟨name, argument⟩ = some output ∧
      isWellFormedUtf8 output = true :=
  ⟨f text, output?_of_find? hfind rfl, hf⟩

/-- A call that keeps documents well-formed has an output, which is well-formed. -/
theorem exists_output?_of_keeps (room : Nat) (htext : isWellFormedUtf8 text = true) {call : Call}
    (hcall : call.Keeps) :
    ∃ output, builtins.output? room text call = some output ∧ isWellFormedUtf8 output = true := by
  obtain ⟨name, argument⟩ := call
  rcases hcall with hname | ⟨rfl, rfl⟩
  · simp only [keepingNames, List.map_cons, List.map_nil, List.mem_cons, List.not_mem_nil,
      or_false] at hname
    rcases hname with rfl | rfl | rfl | rfl | rfl | rfl | rfl | rfl | rfl
    · exact exists_output?_plain (f := id) rfl htext room argument
    · exact exists_output?_plain (f := Modifier.valid) rfl
        ((Modifier.valid_eq htext).symm ▸ htext) room argument
    · exact exists_output?_plain (f := compact) rfl
        (Modifier.isText_compact htext).isWellFormedUtf8 room argument
    · exact exists_output?_plain (f := Modifier.reverse) rfl
        (Modifier.isWellFormedUtf8_reverse htext) room argument
    · obtain ⟨output, houtput, hwell⟩ := Modifier.isWellFormedUtf8_flatten htext room argument
      exact ⟨output, output?_of_find? rfl houtput, hwell⟩
    · obtain ⟨output, houtput, hwell⟩ := Modifier.isWellFormedUtf8_join htext room argument
      exact ⟨output, output?_of_find? rfl houtput, hwell⟩
    · exact exists_output?_plain (f := Modifier.keys) rfl
        (Modifier.isText_keys htext).isWellFormedUtf8 room argument
    · exact exists_output?_plain (f := Modifier.values) rfl
        (Modifier.isWellFormedUtf8_values htext) room argument
    · exact exists_output?_plain (f := Quoted.encode) rfl
        (Modifier.isText_encode htext).isWellFormedUtf8 room argument
  · -- Without options the layout has two spaces for a level
    have hspaced : ({} : Layout).Spaced := .of_all rfl
    exact ⟨_, output?_of_find? rfl rfl, Modifier.isWellFormedUtf8_layout htext hspaced⟩

/-- A pipeline of modifiers that keep documents well-formed runs to its end on every well-formed
UTF-8 document, and all that it puts out on the way is well-formed UTF-8. -/
theorem outputs_isWellFormedUtf8 (room : Nat) (htext : isWellFormedUtf8 text = true)
    {calls : List Call} (hcalls : ∀ call ∈ calls, call.Keeps) :
    ∃ outputs, builtins.outputs room text calls = some outputs ∧
      outputs.length = calls.length ∧ ∀ output ∈ outputs, isWellFormedUtf8 output = true :=
  outputs_of_forall_output? builtins room
    (fun _ _ htext hcall => exists_output?_of_keeps room htext hcall) text htext calls hcalls

/-- Objects are joined with all their values, opened, laid out and quoted. -/
theorem outputs_isWellFormedUtf8_sample :
    let text := Bytes.ofString "[\x7b\"a\":1\x7d, null,\x7b\"\\u0061\" : [2]\x7d]"
    let calls : List Call :=
      [⟨Bytes.ofString "join", Bytes.ofString "\x7b\"preserve\":true\x7d"⟩,
        ⟨Bytes.ofString "values", []⟩, ⟨Bytes.ofString "flatten", Bytes.ofString "?"⟩,
        ⟨Bytes.ofString "pretty", []⟩, ⟨Bytes.ofString "tostr", []⟩]
    isWellFormedUtf8 text = true ∧ (∀ call ∈ calls, call.Keeps) ∧
      ∃ outputs, builtins.outputs 0 text calls = some outputs ∧ outputs.length = 5 ∧
        ∀ output ∈ outputs, isWellFormedUtf8 output = true := by
  intro text calls
  have htext : isWellFormedUtf8 text = true := by rfl
  have hcalls : ∀ call ∈ calls, call.Keeps := by
    simp only [calls, List.forall_mem_cons]
    exact ⟨.inl (by decide), .inl (by decide), .inl (by decide), .inr ⟨rfl, rfl⟩,
      .inl (by decide), by simp⟩
  exact ⟨htext, hcalls, outputs_isWellFormedUtf8 0 htext hcalls⟩

end Pipelines

end Registry

end JsonQuery
