import JsonQuery.Proofs.Attempts
import JsonQuery.Proofs.Closure
import JsonQuery.Proofs.Values

/-!
# Flattened arrays

Flattening puts the elements of inner arrays in the place of these arrays.  What it writes are the
texts of results, level by level; on trees it takes the leaves of an array, which are the values
other than arrays that are reached without entering an object.

## Layers

- **Elements**: what an array holds, and its leaves.
- **Levels**: arrays opened for a number of levels; enough of them leave the leaves only.
- **Texts**: the items of results are the opened values of the spots where the results stand.
- **Flattening**: the modifier on documents whose root is an array.
-/

namespace JsonQuery

open Ascii

namespace Grammar

/-! ## Elements -/

namespace Node

/-- The values of an array; any other value has none. -/
def elements : Node → List Node
  | array _ items => items.map Entry.value
  | _ => []

/-- The values other than arrays that are reached through arrays only, in document order. -/
def leaves : Node → List Node
  | array _ items => items.flatMap fun e => e.value.leaves
  | n => [n]
termination_by n => n
decreasing_by
  have hlt := Entry.sizeOf_value_lt ‹_›
  simp only [array.sizeOf_spec]
  omega

/-- An array without the space around its elements; any other value as it is. -/
def tightened : Node → Node
  | array _ items => .array .none (items.map fun e => ⟨.none, e.value, .none⟩)
  | n => n

/-- An array of values without any space around them. -/
def ofElements (nodes : List Node) : Node :=
  .array .none (nodes.map fun n => ⟨.none, n, .none⟩)

section Elements

variable {n : Node}

theorem leaves_of_ne_array (h : n.lead ≠ .array) : n.leaves = [n] := by
  cases n with
  | array gap items => exact absurd rfl h
  | _ => simp [leaves]

theorem leaves_of_array (h : n.lead = .array) : n.leaves = n.elements.flatMap leaves := by
  cases n with
  | array gap items => rw [leaves, elements, List.flatMap_map]
  | _ => cases h

/-- No leaf is an array. -/
theorem lead_of_mem_leaves (n : Node) : ∀ leaf ∈ n.leaves, leaf.lead ≠ .array := by
  induction n with
  | array gap items ih =>
    intro leaf hleaf
    rw [leaves, List.mem_flatMap] at hleaf
    obtain ⟨e, he, hleaf⟩ := hleaf
    exact ih e he leaf hleaf
  | _ =>
    intro leaf hleaf
    rw [leaves_of_ne_array (by rw [lead]; decide), List.mem_singleton] at hleaf
    rw [hleaf, lead]
    decide

theorem text_ofElements (nodes : List Node) :
    (ofElements nodes).text = Modifier.arrayOf (nodes.map text) := by
  simp [ofElements, text, Gap.none, Modifier.arrayOf, Function.comp_def]

theorem elements_ofElements (nodes : List Node) : (ofElements nodes).elements = nodes := by
  rw [ofElements, elements, List.map_map]
  exact List.map_id nodes

theorem tightened_of_array (h : n.lead = .array) : n.tightened = ofElements n.elements := by
  cases n with
  | array gap items => rw [tightened, ofElements, elements, List.map_map]; rfl
  | _ => cases h

theorem tightened_ofElements (nodes : List Node) :
    (ofElements nodes).tightened = ofElements nodes := by
  rw [tightened_of_array rfl, elements_ofElements]

end Elements

/-! ## Levels -/

/-- The values in the place of a value whose arrays are opened for a number of levels. -/
def opened : (levels : Nat) → Node → List Node
  | levels + 1, array _ items => items.flatMap fun e => e.value.opened levels
  | _, n => [n]

section Levels

variable {n : Node} {levels : Nat}

theorem opened_of_ne_array (h : n.lead ≠ .array) (levels : Nat) : n.opened levels = [n] := by
  cases n with
  | array gap items => exact absurd rfl h
  | _ => simp [opened]

theorem opened_of_array (h : n.lead = .array) (levels : Nat) :
    n.opened (levels + 1) = n.elements.flatMap (opened levels) := by
  cases n with
  | array gap items => rw [opened, elements, List.flatMap_map]
  | _ => cases h

theorem opened_zero : opened 0 = fun n => [n] :=
  funext fun n => by simp [opened]

/-- For one level, an array gives way to its elements. -/
theorem opened_one (n : Node) : n.opened 1 = if n.lead = .array then n.elements else [n] := by
  split
  · rename_i harray
    rw [opened_of_array harray, opened_zero, List.flatMap_singleton']
  · rename_i harray
    exact opened_of_ne_array harray 1

/-- Enough levels open all arrays, so that only the leaves are left. -/
theorem opened_of_nestsWithin {bound : Nat} (h : n.NestsWithin bound) (hle : bound ≤ levels) :
    n.opened levels = n.leaves := by
  -- On the levels, with one level less for the elements of an array
  induction bound generalizing n levels with
  | zero =>
    cases n with
    | array gap items => cases h
    | object gap members => cases h
    | _ => simp [opened, leaves]
  | succ bound ih =>
    cases n with
    | array gap items =>
      obtain ⟨levels, rfl⟩ : ∃ l, levels = l + 1 := ⟨levels - 1, by omega⟩
      rw [opened, leaves]
      exact List.flatMap_congr fun e he => ih (h e he) (by omega)
    | _ => simp [opened, leaves]

theorem nestsWithin_of_mem_elements {e : Node} (h : n.NestsWithin (levels + 1))
    (he : e ∈ n.elements) : e.NestsWithin levels := by
  cases n with
  | array gap items =>
    obtain ⟨entry, hentry, rfl⟩ := List.mem_map.1 he
    exact h entry hentry
  | _ => cases he

end Levels

end Node

/-! ## Texts -/

section Texts

variable {text : Bytes} (hutf8 : Utf8.isValid text = true)

/-- The branches of an array hold its elements. -/
theorem Spot.nodes_branches {s : Spot} (harray : s.node.lead = .array) :
    s.branches.map (fun b => b.node) = s.node.elements := by
  obtain ⟨offset, n⟩ := s
  cases n with
  | array gap items => exact nodes_branchesFrom _ _ _ _ _
  | _ => cases harray

include hutf8

/-- The elements of an array in a document are the results of its branches. -/
theorem Spot.StandsIn.elements_result {s : Spot} (h : s.StandsIn text)
    (harray : s.node.lead = .array) :
    s.result.elements = s.branches.map fun b => b.toSpot.result := by
  have hcontainer : s.node.isContainer = true := by
    rw [Node.isContainer, harray]
    rfl
  have hresult : s.result.isArray = true := by
    rw [s.isArray_result, harray]
    rfl
  rw [Result.elements_of_isArray hresult, result_container hcontainer,
    values_container s.node hcontainer]
  exact List.map_congr_left fun b hb => (h.branch hb).reading_eq_result hutf8

theorem Spot.StandsIn.trimmed_result {s : Spot} (h : s.StandsIn text) :
    Modifier.trimmed s.result.raw = s.node.text := by
  have hraw : s.result.raw = s.node.text := s.node.raw_value
  rw [hraw]
  exact IsText.trimmed ⟨s.node, rfl, h.isValid hutf8⟩

/-- The items of the results at some spots are the texts of the opened values. -/
theorem flatItems_results (levels : Nat) {spots : List Spot} (h : ∀ s ∈ spots, s.StandsIn text) :
    Modifier.flatItems levels (spots.map Spot.result) =
      ((spots.map Spot.node).flatMap (Node.opened levels)).map Node.text := by
  -- On the levels; the elements of an array stand where its branches do
  induction levels generalizing spots with
  | zero =>
    rw [Modifier.flatItems, Node.opened_zero, List.flatMap_singleton', List.map_map, List.map_map]
    exact List.map_congr_left fun s hs => (h s hs).trimmed_result hutf8
  | succ levels ih =>
    rw [Modifier.flatItems, List.flatMap_map, List.flatMap_map, List.map_flatMap]
    refine List.flatMap_congr fun s hs => ?_
    rw [s.isArray_result]
    by_cases harray : s.node.lead = .array
    · have hbranches : ∀ t ∈ s.branches.map fun b => b.toSpot, t.StandsIn text := by
        rw [List.forall_mem_map]
        exact fun b hb => (h s hs).branch hb
      have hitems := ih hbranches
      rw [List.map_map, List.map_map] at hitems
      rw [if_pos (by rw [harray]; rfl), (h s hs).elements_result hutf8 harray,
        Node.opened_of_array harray, ← Spot.nodes_branches harray]
      exact hitems
    · rw [if_neg (by simpa using harray), (h s hs).trimmed_result hutf8,
        Node.opened_of_ne_array harray]
      rfl

end Texts

end Grammar

/-! ## Flattening -/

open Grammar

/-- A call of the modifier that flattens arrays. -/
def Call.flatten (argument : Bytes) : Call :=
  ⟨Bytes.ofString "flatten", argument⟩

/-- The levels of inner arrays that such a call opens. -/
def Modifier.flatLevels (argument : Bytes) : Nat :=
  Flattening.levels (flag argument "deep")

section Flattening

variable {nodes : List Node}

/-- The elements of a document are opened for the levels that the argument asks for. -/
theorem flatten_document {d : Document} (hvalid : isWellFormedUtf8 d.text = true)
    (harray : d.root.lead = .array) (room : Nat) (argument : Bytes) :
    Registry.builtins.output? room d.text (.flatten argument) =
      some (Node.ofElements
        (d.root.elements.flatMap (Node.opened (Modifier.flatLevels argument)))).text := by
  rw [isWellFormedUtf8, Bool.and_eq_true] at hvalid
  have hresult := isArray_document hvalid.1 harray
  have hbranches : ∀ s ∈ d.spot.branches.map fun b => b.toSpot, s.StandsIn d.text := by
    rw [List.forall_mem_map]
    exact fun b hb => d.standsIn_spot.branch hb
  have hitems := flatItems_results hvalid.1 (Modifier.flatLevels argument) hbranches
  have hnodes : d.spot.branches.map (fun b => b.node) = d.root.elements :=
    Spot.nodes_branches harray
  rw [List.map_map, List.map_map, Function.comp_def, Function.comp_def, hnodes] at hitems
  have hanswer : Modifier.flatten room d.text argument = .ok (Node.ofElements
      (d.root.elements.flatMap (Node.opened (Modifier.flatLevels argument)))).text := by
    rw [Node.text_ofElements, ← hitems, ← elements_document hvalid.1 harray, Modifier.flatLevels,
      ← Modifier.run_flattening]
    exact if_pos hresult
  exact Registry.output?_of_find? rfl hanswer

/-- When no element is an array, flattening takes away the space around the elements only. -/
theorem flatten_of_elements {d : Document} (hvalid : isWellFormedUtf8 d.text = true)
    (harray : d.root.lead = .array) (helements : ∀ e ∈ d.root.elements, e.lead ≠ .array)
    (room : Nat) (argument : Bytes) :
    Registry.builtins.output? room d.text (.flatten argument) = some d.root.tightened.text := by
  rw [flatten_document hvalid harray, Node.tightened_of_array harray,
    List.flatMap_congr fun e he => Node.opened_of_ne_array (helements e he) _,
    List.flatMap_singleton']

/-- Flattening changes nothing where nothing is left to open and to take away. -/
theorem flatten_ofElements (hvalid : isWellFormedUtf8 (Node.ofElements nodes).text = true)
    (hnodes : ∀ e ∈ nodes, e.lead ≠ .array) (room : Nat) (argument : Bytes) :
    Registry.builtins.output? room (Node.ofElements nodes).text (.flatten argument) =
      some (Node.ofElements nodes).text := by
  have htext : (Document.mk .none (.ofElements nodes) .none).text = (Node.ofElements nodes).text :=
    List.append_nil _
  have hsame := flatten_of_elements (d := ⟨.none, .ofElements nodes, .none⟩) (htext ▸ hvalid) rfl
    (by rwa [Node.elements_ofElements]) room argument
  rwa [htext, Node.tightened_ofElements] at hsame

/-- **Arrays are flattened as lists.**  A well-formed UTF-8 document that is an array has a
flattened form.  With the flag `deep`, and at most 1024 levels of containers, it is the array of the
leaves, which flattening again leaves as it is.  Without the flag each element that is an array
gives way to its elements, and all others stay.  When no element is an array, only the space around
the elements goes. -/
theorem flatten_opens_arrays (d : Document) (hvalid : isWellFormedUtf8 d.text = true)
    (harray : d.root.lead = .array) (room : Nat) (argument : Bytes) :
    ∃ output, Registry.builtins.output? room d.text (.flatten argument) = some output ∧
      (Modifier.flag argument "deep" = true → d.root.NestsWithin 1024 →
        output = Modifier.arrayOf (d.root.leaves.map Node.text) ∧
          Registry.builtins.output? room output (.flatten argument) = some output) ∧
      (Modifier.flag argument "deep" = false →
        output = Modifier.arrayOf ((d.root.elements.flatMap fun n =>
          if n.lead = .array then n.elements else [n]).map Node.text)) ∧
      ((∀ e ∈ d.root.elements, e.lead ≠ .array) → output = d.root.tightened.text) := by
  have houtput := flatten_document hvalid harray room argument
  refine ⟨_, houtput, fun hdeep hnests => ?_, fun hflat => ?_, fun helements => ?_⟩
  · have hlevels : Modifier.flatLevels argument = 1024 := if_pos hdeep
    have hleaves : d.root.elements.flatMap (Node.opened 1024) = d.root.leaves := by
      rw [Node.leaves_of_array harray]
      exact List.flatMap_congr fun e he =>
        Node.opened_of_nestsWithin (Node.nestsWithin_of_mem_elements hnests he) (by decide)
    rw [hlevels, hleaves] at houtput ⊢
    refine ⟨Node.text_ofElements _, ?_⟩
    -- The leaves make a document again, which has no arrays among its elements
    have hkeeps : Bytes.ofString "flatten" ∈ keepingNames := by decide
    obtain ⟨output, hsame, hagain⟩ :=
      Registry.exists_output?_of_keeps room hvalid (.inl hkeeps : (Call.flatten argument).Keeps)
    rw [houtput] at hsame
    obtain rfl := Option.some.inj hsame
    exact flatten_ofElements hagain d.root.lead_of_mem_leaves room argument
  · have hlevels : Modifier.flatLevels argument = 1 := if_neg (by rw [hflat]; decide)
    rw [hlevels, Node.text_ofElements,
      List.flatMap_congr fun e _ => Node.opened_one e]
  · rw [flatten_of_elements hvalid harray helements] at houtput
    exact (Option.some.inj houtput).symm

/-- The document `[ [[],1], {"a":[null]} ]`. -/
def Grammar.Document.mixed : Document :=
  let one : Numeral :=
    ⟨false, Bytes.ofString "1", [], [], isWhole_one, isFraction_nil, isExponent_nil⟩
  let inner : Node := .array .none [⟨.none, .array .none [], .none⟩, ⟨.none, .number one, .none⟩]
  let items := [⟨Layout.spaceGap, inner, .none⟩,
    ⟨Layout.spaceGap, Document.sample.root, Layout.spaceGap⟩]
  ⟨.none, .array .none items, .none⟩

theorem Grammar.Document.text_mixed :
    Document.mixed.text = Bytes.ofString "[ [[],1], \x7b\"a\":[null]\x7d ]" := by
  simp only [Document.text, Document.mixed, Document.sample, Node.text_object, Node.text_array,
    inside_cons, inside_nil, separator, Gap.none, Node.text]
  rfl

theorem flatten_opens_arrays_sample :
    let deep := Bytes.ofString "\x7b\"deep\":true\x7d"
    let output := Bytes.ofString "[1,\x7b\"a\":[null]\x7d]"
    isWellFormedUtf8 Document.mixed.text = true ∧ Document.mixed.root.lead = .array ∧
      Modifier.flag deep "deep" = true ∧ Document.mixed.root.NestsWithin 1024 ∧
      Registry.builtins.output? 0 Document.mixed.text (.flatten deep) = some output ∧
      Registry.builtins.output? 0 output (.flatten deep) = some output ∧
      Registry.builtins.output? 0 Document.mixed.text (.flatten []) =
        some (Bytes.ofString "[[],1,\x7b\"a\":[null]\x7d]") := by
  intro deep output
  have hvalid : isWellFormedUtf8 Document.mixed.text = true := by
    rw [Document.text_mixed]
    rfl
  have hnests : Document.mixed.root.NestsWithin 1024 := by
    simp [Document.mixed, Document.sample, Node.NestsWithin]
  have hflag : Modifier.flag deep "deep" = true := by decide +kernel
  obtain ⟨leaves, hdeep, hleaves, -, -⟩ := flatten_opens_arrays .mixed hvalid rfl 0 deep
  obtain ⟨items, hone, -, hitems, -⟩ := flatten_opens_arrays .mixed hvalid rfl 0 []
  obtain ⟨hleaves, hagain⟩ := hleaves hflag hnests
  -- The two outputs as texts
  have hleavesText : Modifier.arrayOf (Document.mixed.root.leaves.map Node.text) = output := by
    simp only [Document.mixed, Document.sample, Node.leaves, List.flatMap_cons, List.flatMap_nil,
      List.nil_append, List.append_nil, List.cons_append, List.map_cons, List.map_nil,
      Node.text_object, Node.text_array, inside_cons, inside_nil, separator, Gap.none, Node.text]
    rfl
  have hitemsText : Modifier.arrayOf ((Document.mixed.root.elements.flatMap fun n =>
      if n.lead = .array then n.elements else [n]).map Node.text) =
      Bytes.ofString "[[],1,\x7b\"a\":[null]\x7d]" := by
    simp only [Document.mixed, Document.sample, Node.elements, Node.lead, List.flatMap_cons,
      List.flatMap_nil, List.nil_append, List.append_nil, List.cons_append, List.map_cons,
      List.map_nil, if_true, if_false, reduceCtorEq, Node.text_object, Node.text_array, inside_cons,
      inside_nil, separator, Gap.none, Node.text]
    rfl
  rw [hleavesText] at hleaves
  rw [← hitemsText, ← hitems rfl]
  exact ⟨hvalid, rfl, hflag, hnests, hleaves ▸ hdeep, hleaves ▸ hagain, hone⟩

end Flattening

end JsonQuery
