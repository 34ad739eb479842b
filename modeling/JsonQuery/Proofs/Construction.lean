import JsonQuery.Document.Tree

/-!
# Trees are built level by level

A tree is built on a stack: a container waits there, under the name that it will have, until all its
children are in it.  What comes out is what reading it level by level yields, and that is how
statements about trees are proved.

## Layers

- **Levels**: the tree of a result by recursion, with a number of levels left.
- **Turns**: what each turn makes of the innermost container.
- **Building**: the innermost container is filled with the trees of its children.
-/

namespace JsonQuery

/-! ## Levels -/

/-- The tree of a result, with a number of levels left.  A container below the last level, and a
number that is not finite, read as null. -/
def Result.treeWithin : (levels : Nat) → Result → Tree
  | levels, r =>
    match r.value with
    | .missing | .null => .null
    | .boolean b => .boolean b
    | .string raw => .string (Value.stringText raw)
    | .number raw => (Tree.ofNumber? raw).getD .null
    | .json _ =>
      match levels with
      | 0 => .null
      | levels + 1 =>
        if r.isObject then
          .ofMembers (r.children.map fun child => (child.key.text, treeWithin levels child.value))
        else .array (r.children.map fun child => treeWithin levels child.value)

namespace Tree

/-- A draft with more children, each read with a number of levels left. -/
def Draft.fill (levels : Nat) (children : List (Bytes × Result)) (draft : Draft) : Draft :=
  children.foldl (fun draft child => draft.insert child.1 (child.2.treeWithin levels)) draft

section Levels

variable {depth levels : Nat} {r : Result}

theorem fill_object (children : List (Bytes × Result)) (members : List (Bytes × Tree)) :
    Draft.fill levels children (.object members) =
      .object ((children.map fun child => (child.1, child.2.treeWithin levels)).foldl
        (fun found member => Result.insertMember member.1 member.2 found) members) := by
  induction children generalizing members with
  | nil => rfl
  | cons child children ih => exact ih _

theorem fill_array (children : List (Bytes × Result)) (items : List Tree) :
    Draft.fill levels children (.array items) =
      .array ((children.map fun child => child.2.treeWithin levels).reverse ++ items) := by
  induction children generalizing items with
  | nil => rfl
  | cons child children ih =>
    rw [List.map_cons, List.reverse_cons, List.append_assoc]
    exact ih _

/-- A result that has no children to wait for is its own tree. -/
theorem treeWithin_of_leaf {tree : Tree} (hlevels : depth + levels = Result.maxTreeDepth)
    (h : r.openTree depth = .leaf tree) : r.treeWithin levels = tree := by
  rw [Result.treeWithin.eq_def]
  unfold Result.openTree at h
  dsimp only
  cases hvalue : r.value with
  | json raw =>
    rw [hvalue] at h
    dsimp only at h
    -- A container is a leaf only where no level is left for it
    split at h
    · obtain rfl : levels = 0 := by omega
      exact Opening.leaf.inj h
    · cases h
  | _ =>
    rw [hvalue] at h
    exact Opening.leaf.inj h

/-- A container is filled with its children, which have a level less. -/
theorem treeWithin_of_container {pending : Pending} (hlevels : depth + levels = Result.maxTreeDepth)
    (h : r.openTree depth = .container pending) :
    ∃ below, levels = below + 1 ∧
      (pending.draft.fill below pending.children).tree = r.treeWithin levels := by
  obtain ⟨⟨raw, hvalue⟩, hdepth, rfl⟩ := Result.openTree_eq_container h
  obtain ⟨below, rfl⟩ : ∃ below, levels = below + 1 := ⟨levels - 1, by omega⟩
  refine ⟨below, rfl, ?_⟩
  rw [Result.treeWithin, hvalue, Result.namedChildren]
  dsimp only [Draft.empty]
  cases hobject : r.isObject with
  | true =>
    rw [if_pos rfl, if_pos rfl, fill_object, Draft.tree, List.map_map]
    rfl
  | false =>
    rw [if_neg Bool.false_ne_true, if_neg Bool.false_ne_true, fill_array, Draft.tree, List.map_map,
      List.append_nil, List.reverse_reverse]
    rfl

end Levels

/-! ## Turns -/

section Turns

variable {name childName : Bytes} {child : Result} {children : List (Bytes × Result)}
  {draft : Draft} {outer : List Pending}

theorem run_leaf {tree : Tree} (h : child.openTree (outer.length + 1) = .leaf tree) :
    building.run (⟨name, (childName, child) :: children, draft⟩ :: outer) =
      building.run (⟨name, children, draft.insert childName tree⟩ :: outer) := by
  have hturn : buildTurn (⟨name, (childName, child) :: children, draft⟩ :: outer) =
      .again (⟨name, children, draft.insert childName tree⟩ :: outer) := by
    rw [buildTurn, h]
  exact Loop.run_of_again hturn

theorem run_container {inner : Pending}
    (h : child.openTree (outer.length + 1) = .container inner) :
    building.run (⟨name, (childName, child) :: children, draft⟩ :: outer) =
      building.run ({ inner with name := childName } :: ⟨name, children, draft⟩ :: outer) := by
  have hturn : buildTurn (⟨name, (childName, child) :: children, draft⟩ :: outer) =
      .again ({ inner with name := childName } :: ⟨name, children, draft⟩ :: outer) := by
    rw [buildTurn, h]
  exact Loop.run_of_again hturn

theorem run_finished (parent : Pending) :
    building.run (⟨name, [], draft⟩ :: parent :: outer) =
      building.run (parent.insert name draft.tree :: outer) :=
  Loop.run_of_again rfl

theorem run_whole : building.run [⟨name, [], draft⟩] = draft.tree :=
  Loop.run_of_over rfl

end Turns

/-! ## Building -/

/-- The children of the innermost container go into it as the trees that they have. -/
theorem run_fill {levels : Nat} {name : Bytes} {children : List (Bytes × Result)} {draft : Draft}
    {outer : List Pending} (hlevels : outer.length + 1 + levels = Result.maxTreeDepth) :
    building.run (⟨name, children, draft⟩ :: outer) =
      building.run (⟨name, [], draft.fill levels children⟩ :: outer) := by
  -- On the levels for a child that is a container, and on the children
  induction levels using Nat.strongRecOn generalizing name children draft outer with
  | ind levels ih =>
    induction children generalizing draft with
    | nil => rfl
    | cons child children ihChildren =>
      obtain ⟨childName, child⟩ := child
      rw [Draft.fill, List.foldl_cons]
      cases hopen : child.openTree (outer.length + 1) with
      | leaf tree =>
        rw [run_leaf hopen, ihChildren, treeWithin_of_leaf hlevels hopen, Draft.fill]
      | container inner =>
        obtain ⟨below, rfl, hfill⟩ := treeWithin_of_container hlevels hopen
        have hinner : (⟨name, children, draft⟩ :: outer : List Pending).length + 1 + below =
            Result.maxTreeDepth := by
          rw [List.length_cons]
          omega
        -- The child is filled on top of the stack, and then put under its name into its parent
        rw [run_container hopen, ih below (Nat.lt_succ_self _) hinner, run_finished, hfill]
        exact ihChildren

end Tree

/-- The tree of a result is what reading it level by level yields. -/
theorem Result.tree_eq (r : Result) : r.tree = r.treeWithin maxTreeDepth := by
  unfold tree
  cases hopen : r.openTree 0 with
  | leaf tree => exact (Tree.treeWithin_of_leaf (Nat.zero_add _) hopen).symm
  | container pending =>
    obtain ⟨below, hbelow, hfill⟩ := Tree.treeWithin_of_container (Nat.zero_add _) hopen
    have hlevels : ([] : List Tree.Pending).length + 1 + below = maxTreeDepth := by
      rw [List.length_nil]
      omega
    rw [← hfill]
    exact (Tree.run_fill hlevels).trans Tree.run_whole

end JsonQuery
