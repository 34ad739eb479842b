import JsonQuery.Engine.Resolve

/-!
# Chains do not depend on where they begin

The links of a chain pass on three things besides the text: what was counted, the depth that is
left, and where the text stands in the document.  What was counted before is only added to, and
where the text stands only moves the offsets of the result.  So a chain that begins anywhere is the
chain that begins at the front of its text, moved there.

## Layers

- **Counts**: counters add up, and changing a value leaves its counts alone.
- **Offsets**: moving a result twice is moving it once.
- **Links**: one equation for each kind of link.
- **Chains**: the law of moving a chain, by induction over its links.
- **Pipes**: what the pipe of a walk leads to, and how that moves.
-/

namespace JsonQuery

/-! ## Counts -/

namespace Counters

theorem add_assoc (a b c : Counters) : a + b + c = a + (b + c) := by
  show add (add a b) c = add a (add b c)
  simp only [add, Nat.add_assoc]

@[simp] theorem zero_add (a : Counters) : zero + a = a := by
  show add zero a = a
  simp only [add, zero, Nat.zero_add]

@[simp] theorem add_zero (a : Counters) : a + zero = a :=
  rfl

end Counters

namespace Counted

variable {α β γ : Type}

@[simp] theorem after_after (a b : Counters) (x : Counted α) :
    (x.after a).after b = x.after (b + a) := by
  simp [after, Counters.add_assoc]

theorem map_after (f : α → β) (counts : Counters) (x : Counted α) :
    (x.after counts).map f = (x.map f).after counts := by
  simp only [map, after]

theorem map_map (f : α → β) (g : β → γ) (x : Counted α) :
    (x.map f).map g = x.map (g ∘ f) := by
  simp only [map, Function.comp_apply]

end Counted

/-! ## Offsets -/

open Engine (shift)

@[simp] theorem Engine.shift_none (base : Option Nat) : shift base none = none := by
  cases base <;> rfl

@[simp] theorem Engine.shift_zero (base : Option Nat) : shift base (some 0) = base := by
  cases base <;> rfl

@[simp] theorem Engine.zero_shift (index : Option Nat) : shift (some 0) index = index := by
  cases index <;> simp [shift]

namespace Result

@[simp] theorem missing_rebase (base : Option Nat) : missing.rebase base = missing := by
  cases base <;> rfl

@[simp] theorem detached_rebase (r : Result) (base : Option Nat) :
    r.detached.rebase base = r.detached := by
  cases base <;> rfl

theorem value_rebase (r : Result) (base : Option Nat) : (r.rebase base).value = r.value := by
  cases base <;> rfl

/-- A result that is moved to a place, and then with that place to another one. -/
@[simp] theorem rebase_rebase (r : Result) (inner outer : Option Nat) :
    (r.rebase inner).rebase outer = r.rebase (shift outer inner) := by
  cases outer with
  | none => cases inner <;> rfl
  | some outer =>
    cases inner with
    | none => rfl
    | some inner =>
      simp [rebase, shift, Option.map_map, Function.comp_def, Nat.add_comm, Nat.add_left_comm]

end Result

/-! ## Links -/

/-- What a walk has found, with the pipe that it kept applied to it. -/
def Surroundings.applied (env : Surroundings) (walk : Walk) (depth : Nat) : Counted Result :=
  match walk.pipe with
  | some pipe => env.descend walk.value pipe depth
  | none => .quiet walk.value

namespace Engine

variable (engine : Engine) (nested : Nested) (room : Nat) (base : Option Nat)

section Links

variable {text path : Bytes} (counts : Counters) {depth : Nat}

/-- A modifier or a literal hands on a text without a place. -/
theorem chain_output {output : Output}
    (hlink : engine.link nested room depth text path = .output output) :
    engine.chain nested room text path base counts (depth + 1) =
      match Path.continuation? output.rest with
      | none => ⟨(parse output.text).detached, counts + output.counts⟩
      | some next =>
        engine.chain nested room output.text next none (counts + output.counts) depth := by
  rw [chain]
  generalize engine.link nested room depth text path = link at hlink ⊢
  subst hlink
  rfl

/-- A sub-selector ends the chain. -/
theorem chain_selected {result : Counted Result}
    (hlink : engine.link nested room depth text path = .selected result) :
    engine.chain nested room text path base counts (depth + 1) =
      (result.map (·.rebase base)).after counts := by
  rw [chain]
  generalize engine.link nested room depth text path = link at hlink ⊢
  subst hlink
  rfl

/-- A name that no modifier has is a key, or else is passed over. -/
theorem chain_unknown {rest : Bytes}
    (hlink : engine.link nested room depth text path = .unknown rest) :
    engine.chain nested room text path base counts (depth + 1) =
      let env : Surroundings := ⟨engine.dialect, nested⟩
      let walk := Walk.start env text path (depth + 1)
      let found := env.applied walk depth
      if found.value.found then
        (found.map (·.rebase base)).after (counts + walk.counts)
      else
        match Path.continuation? rest with
        | none => ⟨(parse text).rebase base, counts + walk.counts + found.counts⟩
        | some next =>
          engine.chain nested room text next base (counts + walk.counts + found.counts) depth := by
  rw [chain]
  generalize engine.link nested room depth text path = link at hlink ⊢
  subst hlink
  rfl

/-- Components are walked, and a pipe behind them goes on inside of what was found. -/
theorem chain_components (hlink : engine.link nested room depth text path = .components) :
    engine.chain nested room text path base counts (depth + 1) =
      let walk := Walk.start ⟨engine.dialect, nested⟩ text path (depth + 1)
      match walk.pipe with
      | none => ⟨walk.value.rebase base, counts + walk.counts⟩
      | some pipe =>
        engine.chain nested room walk.value.raw pipe (shift base walk.value.index)
          (counts + walk.counts) depth := by
  rw [chain]
  generalize engine.link nested room depth text path = link at hlink ⊢
  subst hlink
  rfl

end Links

/-! ## Chains -/

/-- A query is a chain that leaves all nesting but its own to the paths inside of it. -/
theorem resolve_pathNesting (text path : Bytes) (depth : Nat) :
    engine.resolve pathNesting text path depth =
      engine.chain (engine.resolve 127) 127 text path (some 0) .zero depth :=
  rfl

/-- A chain that begins somewhere is the one that begins at the front of its text, moved there. -/
theorem chain_eq_rebase (text path : Bytes) (counts : Counters) (depth : Nat) :
    engine.chain nested room text path base counts depth =
      ((engine.chain nested room text path (some 0) .zero depth).map (·.rebase base)).after
        counts := by
  -- On the depth, of which every link takes one
  induction depth generalizing text path base counts with
  | zero => simp [chain, cutShort, Counted.map, Counted.after]
  | succ depth ih =>
    cases hlink : engine.link nested room depth text path with
    | output output =>
      rw [chain_output _ _ _ _ _ hlink, chain_output _ _ _ _ _ hlink]
      cases Path.continuation? output.rest with
      | none => simp [Counted.map, Counted.after]
      | some next =>
        dsimp only
        rw [ih none output.text next (counts + output.counts),
          ih none output.text next (.zero + output.counts)]
        simp [Counted.map_after, Counted.map_map, Function.comp_def]
    | selected result =>
      rw [chain_selected _ _ _ _ _ hlink, chain_selected _ _ _ _ _ hlink]
      simp [Counted.map_after, Counted.map_map, Function.comp_def]
    | unknown rest =>
      rw [chain_unknown _ _ _ _ _ hlink, chain_unknown _ _ _ _ _ hlink]
      dsimp only
      generalize Walk.start _ text path (depth + 1) = walk
      generalize Surroundings.applied _ walk depth = found
      cases found.value.found with
      | true => simp [Counted.map_after, Counted.map_map, Function.comp_def]
      | false =>
        cases Path.continuation? rest with
        | none => simp [Counted.map, Counted.after, Counters.add_assoc]
        | some next =>
          dsimp only
          rw [ih base text next (counts + walk.counts + found.counts),
            ih (some 0) text next (.zero + walk.counts + found.counts)]
          simp [Counted.map_after, Counted.map_map, Function.comp_def, Counters.add_assoc]
    | components =>
      rw [chain_components _ _ _ _ _ hlink, chain_components _ _ _ _ _ hlink]
      dsimp only
      generalize Walk.start _ text path (depth + 1) = walk
      cases walk.pipe with
      | none => simp [Counted.map, Counted.after]
      | some pipe =>
        dsimp only
        rw [ih (shift base walk.value.index) walk.value.raw pipe (counts + walk.counts),
          ih (shift (some 0) walk.value.index) walk.value.raw pipe (.zero + walk.counts)]
        simp [Counted.map_after, Counted.map_map, Function.comp_def]

/-! ## Pipes -/

/-- What the pipe of a walk leads to inside of what the walk has found; without a pipe, that
itself. -/
def pursue (depth : Nat) (found : Result) : Option Bytes → Result
  | none => found
  | some path =>
    (engine.chain (engine.resolve 127) 127 found.raw path found.index .zero depth).value

/-- What a pipe leads to moves with what was found. -/
theorem pursue_rebase (depth : Nat) (found : Result) (pipe : Option Bytes) (place : Nat) :
    engine.pursue depth (found.rebase (some place)) pipe =
      (engine.pursue depth found pipe).rebase (some place) := by
  cases pipe with
  | none => rfl
  | some path =>
    have hindex : (found.rebase (some place)).index = shift (some place) found.index := by
      simp [Result.rebase, shift, Nat.add_comm]
    rw [pursue, pursue, chain_eq_rebase _ _ _ (found.rebase _).index, chain_eq_rebase _ _ _
      found.index, hindex, Result.raw, Result.value_rebase]
    simp [Counted.map, Counted.after, Result.raw]

end Engine

end JsonQuery
