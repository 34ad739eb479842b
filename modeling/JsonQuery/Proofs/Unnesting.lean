import JsonQuery.Modifier.Builtins

/-!
# Arrays are opened in their places

Flattening goes through an array with a stack: what is left of the arrays that it is in.  When it
comes out of an inner array it goes on behind that array, so what it writes is the list in which the
elements of the inner arrays have taken the places of these arrays.

## Layers

- **Levels**: the texts of values by recursion, with a number of levels left.
- **Turns**: what each turn makes of the innermost array.
- **Lists**: the elements of the innermost array are written before those behind it.
-/

namespace JsonQuery.Modifier

/-! ## Levels -/

/-- The texts of values, with the elements of arrays in their places, for a number of levels. -/
def flatItems : (levels : Nat) → List Result → List Bytes
  | 0, items => items.map fun item => trimmed item.raw
  | levels + 1, items =>
    items.flatMap fun item =>
      if item.isArray then flatItems levels item.elements else [trimmed item.raw]

theorem flatItems_nil (levels : Nat) : flatItems levels [] = [] := by
  cases levels <;> rfl

theorem flatItems_open {item : Result} (harray : item.isArray = true) (levels : Nat)
    (items : List Result) :
    flatItems (levels + 1) (item :: items) =
      flatItems levels item.elements ++ flatItems (levels + 1) items := by
  rw [flatItems, List.flatMap_cons, if_pos harray, ← flatItems]

theorem flatItems_write {levels : Nat} {item : Result} (h : ¬(item.isArray = true ∧ 0 < levels))
    (items : List Result) :
    flatItems levels (item :: items) = trimmed item.raw :: flatItems levels items := by
  cases levels with
  | zero => rfl
  | succ levels =>
    rw [flatItems, List.flatMap_cons, if_neg fun harray => h ⟨harray, Nat.succ_pos _⟩, ← flatItems]
    rfl

namespace Flattening

/-- The levels of inner arrays that are opened. -/
def levels (deep : Bool) : Nat :=
  if deep then maxFlatLevels else 1

variable {deep : Bool} {item : Result} {items : List Result} {outer : List (List Result)}
  {texts : List Bytes}

/-- An array is opened exactly if there is a level left for it. -/
theorem opens_iff :
    opens deep item outer = true ↔ item.isArray = true ∧ outer.length < levels deep := by
  have hbound : 0 < maxFlatLevels := by decide
  rw [opens, levels, Bool.and_eq_true, Bool.and_eq_true, decide_eq_true_eq, and_assoc]
  cases deep with
  | true => simp
  | false =>
    cases outer with
    | nil => simp [hbound]
    | cons items outer => simp

/-! ## Turns -/

theorem run_open (h : opens deep item outer = true) :
    (flattening deep).run ⟨(item :: items) :: outer, texts⟩ =
      (flattening deep).run ⟨item.elements :: items :: outer, texts⟩ := by
  have hturn : turn deep ⟨(item :: items) :: outer, texts⟩ =
      .again ⟨item.elements :: items :: outer, texts⟩ := by
    rw [turn, if_pos h]
  exact Loop.run_of_again hturn

theorem run_write (h : ¬opens deep item outer = true) :
    (flattening deep).run ⟨(item :: items) :: outer, texts⟩ =
      (flattening deep).run ⟨items :: outer, trimmed item.raw :: texts⟩ := by
  have hturn : turn deep ⟨(item :: items) :: outer, texts⟩ =
      .again ⟨items :: outer, trimmed item.raw :: texts⟩ := by
    rw [turn, if_neg h]
  exact Loop.run_of_again hturn

theorem run_close :
    (flattening deep).run ⟨[] :: outer, texts⟩ = (flattening deep).run ⟨outer, texts⟩ :=
  Loop.run_of_again rfl

theorem run_end : (flattening deep).run ⟨[], texts⟩ = texts.reverse :=
  Loop.run_of_over rfl

/-! ## Lists -/

/-- The elements of the innermost array are written before those of the arrays around it. -/
theorem run_items {left : Nat} (hleft : outer.length + left = levels deep) :
    (flattening deep).run ⟨items :: outer, texts⟩ =
      (flattening deep).run ⟨outer, (flatItems left items).reverse ++ texts⟩ := by
  -- On the levels for an element that is an array, and on the elements
  induction left using Nat.strongRecOn generalizing items outer texts with
  | ind left ih =>
    induction items generalizing texts with
    | nil =>
      rw [run_close, flatItems_nil]
      rfl
    | cons item items ihItems =>
      by_cases hopens : opens deep item outer = true
      · obtain ⟨harray, hlt⟩ := opens_iff.1 hopens
        obtain ⟨below, rfl⟩ : ∃ below, left = below + 1 := ⟨left - 1, by omega⟩
        have hinner : (items :: outer).length + below = levels deep := by
          rw [List.length_cons]
          omega
        -- The inner array is written to its end, and then the elements behind it
        rw [run_open hopens, ih below (Nat.lt_succ_self _) hinner, ihItems, flatItems_open harray,
          List.reverse_append, List.append_assoc]
      · have hwrite : ¬(item.isArray = true ∧ 0 < left) :=
          fun ⟨harray, hpos⟩ => hopens (opens_iff.2 ⟨harray, by omega⟩)
        rw [run_write hopens, ihItems, flatItems_write hwrite, List.reverse_cons,
          List.append_assoc]
        rfl

end Flattening

/-- Flattening yields the texts of the elements with arrays opened level by level. -/
theorem run_flattening (deep : Bool) (items : List Result) :
    (flattening deep).run ⟨[items], []⟩ = flatItems (Flattening.levels deep) items := by
  have hlevels : ([] : List (List Result)).length + Flattening.levels deep =
      Flattening.levels deep := Nat.zero_add _
  rw [Flattening.run_items hlevels, Flattening.run_end, List.append_nil, List.reverse_reverse]

end JsonQuery.Modifier
