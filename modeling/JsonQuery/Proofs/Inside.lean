import JsonQuery.Proofs.Children
import JsonQuery.Proofs.Resolution

/-!
# Queries inside of values

A query of a result starts again with the text of its value.  For an object or an array that is the
search that a query of the document makes from there on: the same branches are selected, the same
pipe is left, and the offsets count from where the value stands.

## Layers

- **Moving**: a search does not depend on where its value stands.
- **Queries**: `Engine.getFrom` a container is a search in it.
- **Nothing**: inside of nothing a path of components finds nothing.
-/

namespace JsonQuery.Grammar

open Ascii Walk

/-! ## Moving -/

/-- A place further on in the text. -/
def Spot.moved (base : Nat) (s : Spot) : Spot :=
  ⟨base + s.offset, s.node⟩

section Moving

theorem Spot.branches_moved (s : Spot) (base : Nat) :
    (s.moved base).branches = s.branches.map (Branch.moved base) := by
  obtain ⟨offset, node⟩ := s
  rw [Spot.moved, Grammar.branches_moved node (base + offset), Grammar.branches_moved node offset,
    List.map_map]
  refine List.map_congr_left fun b _ => ?_
  simp only [Function.comp_apply, Branch.moved, Nat.add_assoc]

/-- A search moves with its value. -/
theorem search_moved (components : List Component) (s : Spot) (base : Nat) :
    search components (s.moved base) = (search components s).map (Spot.moved base) := by
  induction components generalizing s with
  | nil => rfl
  | cons c components ih =>
    have hbranch : ∀ b : Branch, search components (b.moved base).toSpot =
        (search components b.toSpot).map (Spot.moved base) := fun b => ih b.toSpot
    rw [search_cons, search_cons, s.branches_moved, List.filter_map, List.findSome?_map,
      List.map_findSome?]
    exact congrArg (fun f => List.findSome? f _) (funext hbranch)

/-- Stops that were moved leave the same pipe if the searches below them do. -/
theorem lastPipe_moved {goal : Spot → Option Spot}
    {left : Spot → Option Bytes → Option Bytes} {base : Nat}
    (hgoal : ∀ s, (goal (s.moved base)).isSome = (goal s).isSome)
    (hleft : ∀ s, left (s.moved base) = left s) (c : Component) (branches : List Branch)
    (pipe : Option Bytes) :
    lastPipe goal left ((branches.map (Branch.moved base)).map (Branch.stop c)) pipe =
      lastPipe goal left (branches.map (Branch.stop c)) pipe := by
  induction branches generalizing pipe with
  | nil => rfl
  | cons b branches ih =>
    have hstop : (b.moved base).stop c = ⟨c.selects b.label, b.toSpot.moved base⟩ := rfl
    rw [List.map_cons, List.map_cons, List.map_cons, hstop, Branch.stop]
    cases c.selects b.label with
    | false => exact ih pipe
    | true => rw [lastPipe, lastPipe, hgoal, hleft, ih]

/-- The pipe that a search leaves does not depend on where its value stands. -/
theorem residue_moved (components : List Component) (s : Spot) (base : Nat) :
    residue components (s.moved base) = residue components s := by
  induction components generalizing s with
  | nil => rfl
  | cons c components ih =>
    funext pipe
    have hgoal : ∀ s, (search components (s.moved base)).isSome =
        (search components s).isSome := by
      intro s
      rw [search_moved, Option.isSome_map]
    rw [residue, residue, s.branches_moved, lastPipe_moved hgoal ih]
    rfl

theorem Spot.reading_moved (s : Spot) (base : Nat) :
    (s.moved base).reading = s.reading.rebase (some base) := by
  simp [Spot.reading, Spot.moved, Result.rebase, Result.located, Nat.add_comm]

theorem answer_moved (found : Option Spot) (base : Nat) :
    answer (found.map (Spot.moved base)) = (answer found).rebase (some base) := by
  cases found with
  | none => rfl
  | some s => exact s.reading_moved base

end Moving

/-! ## Queries -/

section Queries

variable {engine : Engine} {depth : Nat} (hmax : engine.config.maxDepth = depth + 1)

include hmax

/-- A query of a document is a search from its root on. -/
theorem get_eq_pursue (d : Document) (hroot : d.root.isContainer = true) {c : Component}
    {components : List Component} (hlines : lines? (pathOf (c :: components)) = none)
    (hroom : (c :: components).length ≤ depth + 1) :
    (engine.get d.text (pathOf (c :: components))).value =
      engine.pursue depth (answer (search (c :: components) d.spot))
        (residue (c :: components) d.spot none) := by
  rw [get_of_startsPlain engine d.text (startsPlain_pathOf _) hmax,
    start_eq_search _ d hroot c components hlines hroom]

/-- A query of a container is a search from its place on. -/
theorem getFrom_eq_pursue {r : Result} {s : Spot} (hraw : r.raw = s.node.text)
    (hindex : r.index = some s.offset) (hs : s.node.isContainer = true) {c : Component}
    {components : List Component} (hlines : lines? (pathOf (c :: components)) = none)
    (hroom : (c :: components).length ≤ depth + 1) :
    (engine.getFrom r (pathOf (c :: components))).value =
      engine.pursue depth (answer (search (c :: components) s))
        (residue (c :: components) s none) := by
  -- The text of the value is a document of its own
  let d : Document := ⟨.none, s.node, .none⟩
  have htext : d.text = r.raw := by simp [d, Document.text, Gap.none, hraw]
  have hspot : s = d.spot.moved s.offset := rfl
  have hresolve := resolve_of_startsPlain engine d.text (startsPlain_pathOf (c :: components)) depth
  dsimp only at hresolve
  rw [start_eq_search _ d hs c components hlines hroom, htext] at hresolve
  rw [hspot, search_moved, residue_moved, answer_moved, Engine.pursue_rebase, ← hresolve,
    Engine.getFrom, Engine.descend, hmax, hindex]
  rfl

end Queries

/-! ## Nothing -/

section Nothing

variable (engine : Engine)

theorem start_nil (env : Surroundings) {path : Bytes} (hlines : lines? path = none)
    (room : Nat) : start env [] path room = {} := by
  rw [start, hlines]
  rfl

/-- Inside of nothing a path of components finds nothing. -/
theorem chain_missing (nested : Engine.Nested) (room : Nat) (components : List Component)
    (hlines : lines? (pathOf components) = none) (base : Option Nat) (counts : Counters)
    (depth : Nat) :
    (engine.chain nested room Result.missing.raw (pathOf components) base counts depth).value =
      .missing := by
  cases depth with
  | zero => rfl
  | succ depth =>
    rw [Engine.chain_components _ _ _ _ _ (link_pathOf engine _ _ _ _ components)]
    dsimp only
    rw [show Result.missing.raw = [] from rfl, start_nil _ hlines]
    exact Result.missing_rebase base

theorem pursue_missing (components : List Component) (hlines : lines? (pathOf components) = none)
    (depth : Nat) : engine.pursue depth .missing (some (pathOf components)) = .missing :=
  chain_missing engine _ _ components hlines _ _ depth

end Nothing

end JsonQuery.Grammar
