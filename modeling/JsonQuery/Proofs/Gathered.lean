import JsonQuery.Proofs.Children
import JsonQuery.Proofs.Filters
import JsonQuery.Result.Location

/-!
# Gathered arrays

An array that was gathered from several places is a text that stands nowhere in the document, with
the offsets of its elements beside it.  Reading that text again gives back the values that were
gathered, one for each offset, so each element is the value at its offset.
-/

namespace JsonQuery.Grammar

open Ascii

section Gathered

/-- The array of the values at some spots, written without any space. -/
def spliced (spots : List Spot) : Node :=
  .array .none (spots.map fun s => ⟨.none, s.node, .none⟩)

theorem text_spliced (spots : List Spot) :
    (spliced spots).text =
      openBracket :: Bytes.commaJoin (spots.map fun s => s.node.text) ++ [closeBracket] := by
  simp [spliced, Node.text, Gap.none, Function.comp_def]

theorem nodes_branchesFrom {Front : Type} (front : Front → Bytes) (label : Nat → Front → Label)
    (entries : List (Entry Front Node)) (offset position : Nat) :
    (branchesFrom front label offset position entries).map (fun b => b.node) =
      entries.map Entry.value := by
  induction entries generalizing offset position with
  | nil => rfl
  | cons e rest ih => rw [branchesFrom, List.map_cons, List.map_cons, ih]

theorem nodes_spliced (spots : List Spot) :
    (Spot.mk 0 (spliced spots)).branches.map (fun b => b.node) = spots.map Spot.node := by
  rw [Spot.branches, spliced]
  dsimp only
  rw [nodes_branchesFrom, List.map_map]
  rfl

variable {spots : List Spot}

theorem gathered_of_ne_nil (hne : spots ≠ []) :
    gathered spots = ⟨.json (spliced spots).text, none, some (spots.map Spot.offset)⟩ := by
  rw [gathered, if_neg (by simpa using hne), text_spliced]

/-- Behind recorded offsets the values in a text are placed where the offsets say. -/
theorem values_of_indexes (raw : Bytes) (offsets : List Nat) :
    (Result.mk (.json raw) none (some offsets)).values =
      ((Result.childrenOf raw).map Child.value).mapIdx fun i r =>
        { r with index := offsets[i]? } := by
  apply List.ext_getElem?
  intro i
  simp [Result.values, Result.children, Result.placeChild, Function.comp_def]

/-- The values of a gathered array are the ones that were gathered. -/
theorem values_gathered (hne : spots ≠ [])
    (hvalid : ∀ s ∈ spots, Utf8.isValid s.node.text = true) :
    (gathered spots).values = spots.map Spot.result := by
  have hchildren := values_childrenOf (spliced spots) rfl []
  rw [List.append_nil] at hchildren
  rw [gathered_of_ne_nil hne, values_of_indexes, hchildren]
  -- One by one: the value that is read is the one that was written, and its offset is recorded
  apply List.ext_getElem?
  intro i
  have hnode := congrArg (fun nodes => nodes[i]?) (nodes_spliced spots)
  simp only [List.getElem?_map] at hnode
  cases hs : spots[i]? with
  | none =>
    rw [hs, Option.map_none, Option.map_eq_none_iff] at hnode
    simp [hs, hnode]
  | some s =>
    rw [hs, Option.map_some] at hnode
    obtain ⟨b, hb, hsame⟩ := Option.map_eq_some_iff.1 hnode
    have hvalue := s.node.ofSpan_eq_value (hvalid s (List.mem_of_getElem? hs))
    simp [hs, hb, Spot.reading, Spot.result, Result.located, hsame, hvalue]

/-- Read again, a gathered array has the elements that were gathered. -/
theorem elements_gathered (hvalid : ∀ s ∈ spots, Utf8.isValid s.node.text = true) :
    (gathered spots).elements = spots.map Spot.result := by
  by_cases hne : spots = []
  · subst hne
    have hchildren := values_childrenOf (spliced []) rfl []
    rw [List.append_nil, text_spliced] at hchildren
    have hempty : Result.childrenOf (Bytes.ofString "[]") = [] := List.map_eq_nil_iff.1 hchildren
    show ((Result.childrenOf (Bytes.ofString "[]")).mapIdx _).map Child.value = []
    rw [hempty]
    rfl
  · have harray : (gathered spots).isArray = true := by
      rw [gathered_of_ne_nil hne, text_spliced]
      rfl
    rw [Result.elements_of_isArray harray, values_gathered hne hvalid]

theorem indexes_gathered (spots : List Spot) :
    (gathered spots).indexes = if spots.isEmpty then none else some (spots.map Spot.offset) := by
  unfold gathered
  split <;> rfl

/-- The paths of a gathered array are those of its elements, one by one. -/
theorem paths_gathered (hvalid : ∀ s ∈ spots, Utf8.isValid s.node.text = true) (text : Bytes) :
    (gathered spots).paths text = spots.map fun s => s.result.path text := by
  by_cases hne : spots = []
  · subst hne
    rfl
  · have hindexes : (gathered spots).indexes = some (spots.map Spot.offset) := by
      rw [indexes_gathered, if_neg (by simpa using hne)]
    rw [Result.paths, hindexes]
    dsimp only
    rw [values_gathered hne hvalid, List.map_map, if_pos (by simp)]
    rfl

/-- Only the empty array is written without anything between its brackets. -/
theorem raw_gathered_eq_iff (spots : List Spot) :
    (gathered spots).raw = Bytes.ofString "[]" ↔ spots = [] := by
  constructor
  · intro hraw
    cases spots with
    | nil => rfl
    | cons s spots =>
      obtain ⟨c, rest, htext, hc⟩ := s.node.text_cons
      obtain ⟨tail, htail⟩ : ∃ tail, (gathered (s :: spots)).raw = openBracket :: c :: tail := by
        rw [gathered_of_ne_nil (List.cons_ne_nil s spots)]
        show ∃ tail, (spliced (s :: spots)).text = openBracket :: c :: tail
        rw [spliced, Node.text_array, List.map_cons, inside_cons, htext]
        exact ⟨_, rfl⟩
      rw [htail] at hraw
      obtain rfl : c = closeBracket := (List.cons.inj (List.cons.inj hraw).2).1
      cases hc
  · rintro rfl
    rfl

end Gathered

end JsonQuery.Grammar
