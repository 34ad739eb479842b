import JsonQuery.Proofs.Gathered

/-!
# The first match is the first of all matches

A filter for the first element that passes stops there, and one for all elements looks at every
element.  Both judge an element by itself, so what the one finds is in front of what the other
gathers.

## Layers

- **Elements**: a filter for the first match, by induction over the elements.
- **Queries**: the two filters with one text.
-/

namespace JsonQuery.Grammar

open Ascii Walk
open JsonQuery.Filter (single every)

/-! ## Elements -/

section Elements

variable {env : Surroundings} {f : Filter} {room : Nat}

/-- A filter that does not collect is settled by the first element that passes. -/
theorem filterFrom_first (passes : Spot → Bool) (spots : List Spot)
    (hpasses : ∀ s ∈ spots, (judge env f room s.result).value = passes s)
    (hcollects : f.collects = false) (walk : Walk) (kept : List Gathered) :
    ∃ counts, filterFrom env f none none room walk kept (spots.map Spot.result) =
      ⟨{ walk with value := ((spots.find? passes).map Spot.result).getD walk.value, counts }, kept,
        (spots.find? passes).isSome⟩ := by
  induction spots generalizing walk with
  | nil => exact ⟨walk.counts, rfl⟩
  | cons s spots ih =>
    rw [List.forall_mem_cons] at hpasses
    obtain ⟨hjudge, hpasses⟩ := hpasses
    rw [List.map_cons, filterFrom, hjudge]
    cases hs : passes s with
    | false =>
      obtain ⟨counts, hrest⟩ := ih hpasses (walk.count (judge env f room s.result).counts)
      refine ⟨counts, ?_⟩
      rw [List.find?_cons_of_neg (by simp [hs])]
      exact hrest
    | true =>
      -- The elements behind are not looked at
      rw [List.find?_cons_of_pos hs, if_pos rfl, if_neg (by simp [hcollects])]
      exact ⟨_, rfl⟩

/-- A filter for the first match, at the end of its path, finds the first element that passes. -/
theorem start_first (env : Surroundings) (d : Document) (hvalid : Utf8.isValid d.text = true)
    (harray : d.root.lead = .array) {path : Bytes} (hstarts : Filter.starts path = true)
    {f : Filter} (hparse : ElementComponent.parse? env.dialect path = some ⟨.filter f, .done⟩)
    (hcollects : f.collects = false) (passes : Spot → Bool) (room : Nat)
    (hpasses : ∀ b ∈ d.spot.branches,
      (judge env f room b.toSpot.result).value = passes b.toSpot) :
    ∃ counts, start env d.text path (room + 1) =
      { value := (((d.spot.branches.map Branch.toSpot).find? passes).map Spot.result).getD .missing,
        counts } := by
  obtain ⟨next, hstart⟩ := start_openFilter env d hvalid harray hstarts hparse room
  obtain ⟨counts, hfiltered⟩ := filterFrom_first passes (d.spot.branches.map Branch.toSpot)
    (List.forall_mem_map.2 hpasses) hcollects {} []
  refine ⟨counts, ?_⟩
  rw [hstart, openFilter]
  dsimp only [keepPipe, insidePath]
  rw [hfiltered, Filtered.close, hcollects]
  cases (d.spot.branches.map Branch.toSpot).find? passes <;> rfl

end Elements

/-! ## Queries -/

section Queries

/-- **The first match is the first of all matches.**  In a UTF-8 document that is an array, a filter
for the first match finds nothing if and only if the same filter for all matches gathers the empty
array.  Otherwise it finds the first element of the gathered array, with the same source text, at
the first of its offsets.  The filter is any text whose bracket closes at its end, and whether a
bound on depth is hit inside of it makes no difference. -/
theorem get_single (engine : Engine) (hdepth : 0 < engine.config.maxDepth) (d : Document)
    (hvalid : isWellFormedUtf8 d.text = true) (harray : d.root.lead = .array) {f : Bytes}
    {filter : Filter} (hparse : Filter.parse? (single f) = some (filter, f.length + 3)) :
    ((engine.get d.text (single f)).value = .missing ↔
        (engine.get d.text (every f)).value.raw = Bytes.ofString "[]") ∧
      ((engine.get d.text (single f)).value ≠ .missing →
        ∃ first offset, (engine.get d.text (every f)).value.elements.head? = some first ∧
          (engine.get d.text (every f)).value.indexes.bind List.head? = some offset ∧
          (engine.get d.text (single f)).value.raw = first.raw ∧
          (engine.get d.text (single f)).value.index = some offset) := by
  rw [isWellFormedUtf8, Bool.and_eq_true] at hvalid
  obtain ⟨depth, hmax⟩ : ∃ depth, engine.config.maxDepth = depth + 1 :=
    ⟨engine.config.maxDepth - 1, by omega⟩
  let env : Surroundings := ⟨engine.dialect, engine.resolve 127⟩
  let passes (s : Spot) : Bool := (judge env filter depth s.result).value
  -- Both filters judge an element alike
  obtain ⟨counts, hfirst⟩ := start_first env d hvalid.1 harray rfl
    (Filter.elementComponent_single hparse engine.dialect) (Filter.collects_of_parse? hparse)
    passes depth fun _ _ => rfl
  obtain ⟨counts', hall⟩ := start_filter env d hvalid.1 harray rfl
    (Filter.elementComponent_every hparse engine.dialect) rfl passes depth fun _ _ => rfl
  rw [value_get_of_link engine hmax (link_of_startsFilter _ _ _ _ _ rfl) hfirst,
    value_get_of_link engine hmax (link_of_startsFilter _ _ _ _ _ rfl) hall,
    raw_gathered_eq_iff, ← List.head?_filter]
  have hspots : ∀ s ∈ (d.spot.branches.map Branch.toSpot).filter passes,
      Utf8.isValid s.node.text = true := by
    intro s hs
    obtain ⟨b, hb, rfl⟩ := List.mem_map.1 (List.mem_filter.1 hs).1
    exact (d.standsIn_spot.branch hb).isValid hvalid.1
  rw [elements_gathered hspots, indexes_gathered]
  generalize (d.spot.branches.map Branch.toSpot).filter passes = spots
  cases spots with
  | nil => exact ⟨iff_of_true rfl rfl, fun h => absurd rfl h⟩
  | cons s spots =>
    refine ⟨iff_of_false s.result_ne_missing (List.cons_ne_nil s spots), fun _ => ?_⟩
    exact ⟨s.result, s.offset, rfl, rfl, rfl, rfl⟩

theorem get_single_sample :
    let r := (Engine.standard.get Document.listing.text
      (single (Bytes.ofString "a|@this>\"y\""))).value
    r.raw = Bytes.ofString "\x7b\"a\":\"z\"\x7d" ∧ r.index = some 14 := by
  have hvalid : isWellFormedUtf8 Document.listing.text = true := by
    rw [Document.text_listing]
    rfl
  have hall : (Engine.standard.get Document.listing.text
      (every (Bytes.ofString "a|@this>\"y\""))).value =
        ⟨.json (Bytes.ofString "[\x7b\"a\":\"z\"\x7d]"), none, some [14]⟩ := by
    rw [Document.text_listing]
    decide +kernel
  have hparse : Filter.parse? (single (Bytes.ofString "a|@this>\"y\"")) =
      some (⟨Bytes.ofString "a|@this", .greater, [0x79], false⟩,
        (Bytes.ofString "a|@this>\"y\"").length + 3) := by decide +kernel
  obtain ⟨hmissing, hfound⟩ := get_single Engine.standard (by decide) .listing hvalid rfl hparse
  rw [hall] at hmissing hfound
  obtain ⟨first, offset, hfirst, hoffset, hraw, hindex⟩ :=
    hfound fun h => absurd (hmissing.1 h) (by decide)
  have htext : (some first).map Result.raw = some (Bytes.ofString "\x7b\"a\":\"z\"\x7d") := by
    rw [← hfirst]
    decide +kernel
  exact ⟨hraw.trans (Option.some.inj htext), hindex.trans hoffset.symm⟩

end Queries

end JsonQuery.Grammar
