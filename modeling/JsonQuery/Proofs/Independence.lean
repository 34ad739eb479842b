import JsonQuery.Proofs.Batch

/-!
# Paths of a batch do not influence each other

The paths of a batch share a scan: its cursor, the containers that it enters and the moment at which
it leaves a level.  Whatever the text is, well-formed or not, the answer to a path is still the one
that it has in a batch of its own, so paths may be added, removed, repeated and put in another
order.

## Layers

- **Places**: a scan for the paths of one place answers alike whichever place that is.
- **Answers**: what the scan of a batch stores for a path is what a scan for it alone stores.
- **Batches**: each entry of a batch is the entry of a batch of its own.
-/

namespace JsonQuery.Batch

/-! ## Places -/

/-- The target with another place for its answer. -/
def Target.moved (place : Nat) (target : Target) : Target :=
  { target with slot := place }

/-- The level with the answers of all its targets at another place. -/
def Level.moved (place : Nat) (level : Level) : Level :=
  { level with targets := level.targets.map (Target.moved place) }

section Places

variable {slot place : Nat} {a b : Answers}

/-- All targets have one place. -/
def AllAt (slot : Nat) (targets : List Target) : Prop :=
  ∀ target ∈ targets, target.slot = slot

theorem AllAt.filter {targets : List Target} (h : AllAt slot targets) (p : Target → Bool) :
    AllAt slot (targets.filter p) :=
  fun target htarget => h target (List.mem_filter.1 htarget).1

theorem AllAt.next {targets : List Target} (h : AllAt slot targets) :
    AllAt slot (targets.filterMap Target.next?) := by
  intro target htarget
  obtain ⟨before, hbefore, hnext⟩ := List.mem_filterMap.1 htarget
  unfold Target.next? at hnext
  split at hnext
  · cases hnext
  · cases hnext
    exact h before hbefore

theorem has_moved (hab : a[slot]? = b[place]?) {target : Target} (hslot : target.slot = slot) :
    b.has (target.moved place) = a.has target := by
  rw [Answers.has, Answers.has, hslot, hab]
  rfl

theorem next?_moved (target : Target) :
    (target.moved place).next? = target.next?.map (Target.moved place) := by
  obtain ⟨slot, component, rest⟩ := target
  cases rest <;> rfl

theorem all_moved (hab : a[slot]? = b[place]?) {targets : List Target}
    (hslot : AllAt slot targets) :
    (targets.map (Target.moved place)).all b.has = targets.all a.has := by
  induction targets with
  | nil => rfl
  | cons target targets ih =>
    rw [AllAt, List.forall_mem_cons] at hslot
    rw [List.map_cons, List.all_cons, List.all_cons, has_moved hab hslot.1, ih hslot.2]

theorem wanted_moved (hab : a[slot]? = b[place]?) {level : Level}
    (hslot : AllAt slot level.targets) (entry : Entry) :
    (level.moved place).wanted b entry = (level.wanted a entry).map (Target.moved place) := by
  rw [Level.wanted, Level.wanted, Level.moved, List.filter_map]
  congr 1
  apply List.filter_congr
  intro target htarget
  rw [Function.comp_apply, has_moved hab (hslot target htarget)]
  rfl

theorem onlyAt_of_allAt {targets : List Target} (h : AllAt slot targets) :
    onlyAt slot targets = targets := by
  rw [onlyAt, List.filter_eq_self]
  intro target htarget
  rw [h target htarget]
  exact BEq.rfl

theorem allAt_moved (targets : List Target) : AllAt place (targets.map (Target.moved place)) := by
  intro target htarget
  obtain ⟨before, -, rfl⟩ := List.mem_map.1 htarget
  rfl

theorem leaves_moved (targets : List Target) :
    (targets.map (Target.moved place)).filter (fun target => target.rest.isEmpty) =
      (targets.filter fun target => target.rest.isEmpty).map (Target.moved place) := by
  rw [List.filter_map]
  rfl

/-- What an entry adds at a place is the same at any other place. -/
theorem answer_moved (hab : a[slot]? = b[place]?) (entry : Entry) {wanted : List Target}
    (hslot : AllAt slot wanted) :
    (Level.answer b entry (wanted.map (Target.moved place)))[place]? =
      (Level.answer a entry wanted)[slot]? := by
  simp only [Level.answer, leaves_moved]
  have hleaves := hslot.filter fun target => target.rest.isEmpty
  generalize (wanted.filter fun target => target.rest.isEmpty) = leaves at hleaves
  rw [List.isEmpty_map]
  cases hempty : leaves.isEmpty with
  | true => exact hab.symm
  | false =>
    simp only [Bool.false_eq_true, if_false]
    split
    · have hne : leaves ≠ [] := by simpa using hempty
      rw [getElem?_store, getElem?_store, onlyAt_of_allAt hleaves,
        onlyAt_of_allAt (allAt_moved leaves), if_neg hne, if_neg (by simpa using hne), hab]
    · exact hab.symm

/-- The level inside of an entry, with the answers at another place. -/
theorem inner?_moved (entry : Entry) (wanted : List Target) :
    Level.inner? entry (wanted.map (Target.moved place)) =
      (Level.inner? entry wanted).map (Level.moved place) := by
  have hdeeper : (wanted.map (Target.moved place)).filterMap Target.next? =
      (wanted.filterMap Target.next?).map (Target.moved place) := by
    rw [List.filterMap_map, List.map_filterMap]
    exact congrArg (List.filterMap · wanted) (funext next?_moved)
  simp only [Level.inner?, hdeeper, List.isEmpty_map]
  split <;> rfl

theorem allAt_inner? {entry : Entry} {wanted : List Target} {inner : Level}
    (hslot : AllAt slot wanted) (h : Level.inner? entry wanted = some inner) :
    AllAt slot inner.targets := by
  unfold Level.inner? at h
  dsimp only at h
  split at h
  · cases h
  · cases h
    exact hslot.next

/-- A scan for the targets of one place stores the same answer at any other place. -/
theorem scan_moved (a b : Answers) (levels : List Level) (hab : a[slot]? = b[place]?)
    (hslot : ∀ level ∈ levels, AllAt slot level.targets) :
    (scan b (levels.map (Level.moved place)))[place]? = (scan a levels)[slot]? := by
  -- Both scans take the same steps, since no step reads where an answer goes
  induction a, levels using scan_induction generalizing b with
  | nil a =>
    rw [List.map_nil, scan_nil, scan_nil]
    exact hab.symm
  | answered a level outer hall ih =>
    rw [List.forall_mem_cons] at hslot
    have hall' : (level.moved place).targets.all b.has = true := by
      rw [Level.moved, all_moved hab hslot.1, hall]
    rw [List.map_cons, scan_of_all _ hall, scan_of_all _ hall']
    exact ih b hab hslot.2
  | ended a level outer hentry ih =>
    rw [List.forall_mem_cons] at hslot
    rw [List.map_cons, scan_of_end level hentry, scan_of_end (level.moved place) hentry]
    exact ih b hab hslot.2
  | entry a level outer entry hall hentry ih =>
    rw [List.forall_mem_cons] at hslot
    have hwanted : AllAt slot (level.wanted a entry) := hslot.1.filter _
    have hall' : (level.moved place).targets.all b.has = false := by
      rw [Level.moved, all_moved hab hslot.1, hall]
    have hlevels : (Level.inner? entry ((level.moved place).wanted b entry)).toList ++
          (level.moved place).pass entry :: outer.map (Level.moved place) =
        ((Level.inner? entry (level.wanted a entry)).toList ++
          level.pass entry :: outer).map (Level.moved place) := by
      rw [wanted_moved hab hslot.1, inner?_moved, List.map_append, Option.toList_map]
      rfl
    have hentry' : Level.entry? (level.moved place) = some entry := hentry
    rw [List.map_cons, scan_of_entry hall hentry, scan_of_entry hall' hentry', hlevels,
      wanted_moved hab hslot.1]
    refine ih _ (answer_moved hab entry hwanted).symm ?_
    intro next hnext
    -- The levels of the next step are the one inside, this one behind the entry, and those outside
    rcases List.mem_append.1 hnext with hinner | hnext
    · exact allAt_inner? hwanted (Option.mem_toList.1 hinner)
    · rcases List.mem_cons.1 hnext with rfl | hnext
      · exact hslot.1
      · exact hslot.2 next hnext

end Places

/-! ## Answers -/

section Answers

variable {maxDepth slot : Nat} {paths : List Bytes} {path : Bytes}

/-- The targets of the flat paths in a batch. -/
def targets (maxDepth : Nat) (paths : List Bytes) : List Target :=
  (paths.mapIdx fun i path => target? maxDepth i path).filterMap id

theorem onlyAt_targets_of_getElem? (hpath : paths[slot]? = some path) {target : Target}
    (htarget : target? maxDepth slot path = some target) :
    onlyAt slot (targets maxDepth paths) = [target] := by
  have honly := onlyAt_targets slot maxDepth 0 paths
  rw [if_pos (Nat.zero_le slot), Nat.sub_zero, hpath, Option.bind_some, htarget,
    Option.toList_some] at honly
  exact honly

theorem target?_moved (maxDepth slot place : Nat) (path : Bytes) :
    target? maxDepth place path = (target? maxDepth slot path).map (Target.moved place) := by
  unfold target?
  split <;> rfl

/-- What the scan of a batch stores for a flat path is what a scan for that path alone stores. -/
theorem getElem?_answers_alone (document : Bytes) (hpath : paths[slot]? = some path)
    (hflat : (target? maxDepth slot path).isSome = true) :
    (answers document paths.length (targets maxDepth paths))[slot]? =
      (answers document 1 (targets maxDepth [path]))[0]? := by
  obtain ⟨target, htarget⟩ := Option.isSome_iff_exists.1 hflat
  have honly := onlyAt_targets_of_getElem? hpath htarget
  have halone : targets maxDepth [path] = [target.moved 0] := by
    simp [targets, target?_moved maxDepth slot 0 path, htarget]
  have hne : (targets maxDepth paths).isEmpty = false := by
    cases htargets : targets maxDepth paths with
    | nil =>
      rw [htargets] at honly
      cases honly
    | cons => rfl
  have hlt : slot < paths.length := (List.getElem?_eq_some_iff.1 hpath).1
  have hblank : (Array.replicate paths.length (none : Option Result))[slot]? =
      (Array.replicate 1 (none : Option Result))[0]? := by
    simp [hlt]
  rw [answers, answers, halone, hne]
  -- Without a container there is nothing to scan; else the other paths leave, and then the place
  cases (Cursor.start document).toContainer.rest.isEmpty with
  | true => exact hblank
  | false =>
    have hlevel : ∀ level ∈ [Level.openAt (Cursor.start document).toContainer [target]],
        AllAt slot level.targets := by
      intro level hmem
      rw [List.mem_singleton] at hmem
      subst hmem
      intro t ht
      rw [Level.openAt, List.mem_singleton] at ht
      rw [ht]
      exact slot_of_target? htarget
    have hscan := scan_only slot _ (Array.replicate paths.length none)
      [Level.openAt (Cursor.start document).toContainer (targets maxDepth paths)] rfl
    rw [List.map_singleton, Level.only, Level.openAt, honly] at hscan
    exact hscan.trans (scan_moved _ _ _ hblank hlevel).symm

end Answers

end JsonQuery.Batch

namespace JsonQuery.Engine

open Batch

/-! ## Batches -/

theorem value_getMany (engine : Engine) (document : Bytes) (paths : List Bytes) :
    (engine.getMany document paths).value = paths.mapIdx fun i path =>
      engine.entry document
        (Batch.answers document paths.length (targets engine.config.maxDepth paths)) i path := by
  rw [getMany, value_fillFrom]
  simp [targets]

/-- An entry of a batch is the entry of a batch of its path alone. -/
theorem entry_alone (engine : Engine) (document : Bytes) {paths : List Bytes} {slot : Nat}
    {path : Bytes} (hpath : paths[slot]? = some path) :
    engine.entry document
        (Batch.answers document paths.length (targets engine.config.maxDepth paths)) slot path =
      engine.entry document
        (Batch.answers document 1 (targets engine.config.maxDepth [path])) 0 path := by
  have hmoved := target?_moved engine.config.maxDepth slot 0 path
  cases htarget : target? engine.config.maxDepth slot path with
  | none =>
    rw [htarget, Option.map_none] at hmoved
    simp [entry, htarget, hmoved]
  | some target =>
    rw [htarget, Option.map_some] at hmoved
    have hanswer := getElem?_answers_alone document hpath (by rw [htarget]; rfl)
    simp only [entry, htarget, hmoved, hanswer]

/-- **Paths of a batch do not influence each other.**  Whatever the text and the engine are, a batch
has one entry for each of its paths, and the entry is the only one of a batch of that path alone.
So two batches agree wherever they have the same path, in whatever places and company. -/
theorem getMany_apart (engine : Engine) (document : Bytes) (paths : List Bytes) :
    (engine.getMany document paths).value.length = paths.length ∧
      (∀ i : Nat, (engine.getMany document paths).value[i]? =
        paths[i]?.bind fun path => (engine.getMany document [path]).value[0]?) ∧
      ∀ (others : List Bytes) (i j : Nat), others[j]? = paths[i]? →
        (engine.getMany document others).value[j]? = (engine.getMany document paths).value[i]? := by
  have hentry : ∀ (paths : List Bytes) (i : Nat), (engine.getMany document paths).value[i]? =
      paths[i]?.bind fun path => (engine.getMany document [path]).value[0]? := by
    intro paths i
    rw [value_getMany, List.getElem?_mapIdx]
    cases hpath : paths[i]? with
    | none => rfl
    | some path =>
      rw [Option.map_some, Option.bind_some, entry_alone engine document hpath, value_getMany]
      rfl
  refine ⟨?_, hentry paths, ?_⟩
  · rw [value_getMany, List.length_mapIdx]
  · intro others i j hsame
    rw [hentry others j, hentry paths i, hsame]

/-- In a text that is cut off, a path has the same answer behind another one as in front of it. -/
theorem getMany_apart_sample :
    [Bytes.ofString "b.0", Bytes.ofString "a"][1]? =
        [Bytes.ofString "a", Bytes.ofString "b.0"][0]? ∧
      (Engine.standard.getMany (Bytes.ofString "\x7b\"a\":1,\"b\":[2")
          [Bytes.ofString "b.0", Bytes.ofString "a"]).value[1]? =
        (Engine.standard.getMany (Bytes.ofString "\x7b\"a\":1,\"b\":[2")
          [Bytes.ofString "a", Bytes.ofString "b.0"]).value[0]? :=
  ⟨rfl, (getMany_apart Engine.standard _ _).2.2 _ 0 1 rfl⟩

end JsonQuery.Engine
