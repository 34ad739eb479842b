import JsonQuery.Proofs.Cuts
import JsonQuery.Proofs.Search

/-!
# Search in documents that are cut off

A document that ends at an offset shows the values in front of the offset, and of the containers
that the cut goes through it still shows what is inside.  A search for components finds in it what
is left of the tree.  Without a cut that is the search in the whole tree.

## Layers

- **Places**: the branches of a value lie inside of it, one behind the other.
- **Search**: `searchShown` is the search in what a cut leaves of a tree.
-/

namespace JsonQuery.Grammar

/-! ## Places -/

section Places

variable {Front : Type} (front : Front → Bytes) (label : Nat → Front → Label)

theorem bounds_branchesFrom {offset position : Nat} {entries : List (Entry Front Node)}
    {b : Branch} (hb : b ∈ branchesFrom front label offset position entries) :
    offset ≤ b.offset ∧ b.after ≤ offset + (inside front entries).length := by
  induction entries generalizing offset position with
  | nil => cases hb
  | cons e rest ih =>
    rw [length_inside_cons]
    rw [branchesFrom, List.mem_cons] at hb
    rcases hb with rfl | hb
    · simp only [Spot.after]
      omega
    · have hrest := ih hb
      omega

theorem pairwise_branchesFrom (offset position : Nat) (entries : List (Entry Front Node)) :
    (branchesFrom front label offset position entries).Pairwise fun a b =>
      a.after ≤ b.offset := by
  induction entries generalizing offset position with
  | nil => exact .nil
  | cons e rest ih =>
    rw [branchesFrom, List.pairwise_cons]
    refine ⟨fun b hb => ?_, ih _ _⟩
    have hbounds := bounds_branchesFrom front label hb
    simp only [Spot.after]
    omega

end Places

/-- A branch lies inside of its container. -/
theorem Spot.bounds_branch {s : Spot} {b : Branch} (hb : b ∈ s.branches) :
    s.offset < b.offset ∧ b.after < s.after := by
  obtain ⟨offset, node⟩ := s
  cases node with
  | word w => cases hb
  | number n => cases hb
  | string body => cases hb
  | array gap items =>
    have hbounds := bounds_branchesFrom _ _ hb
    simp only [Spot.after, Node.text_array, List.length_cons, List.length_append,
      List.length_nil] at hbounds ⊢
    omega
  | object gap members =>
    have hbounds := bounds_branchesFrom _ _ hb
    simp only [Spot.after, Node.text_object, List.length_cons, List.length_append,
      List.length_nil] at hbounds ⊢
    omega

/-- The branches of a container lie one behind the other. -/
theorem Spot.pairwise_branches (s : Spot) :
    s.branches.Pairwise fun a b => a.after ≤ b.offset := by
  obtain ⟨offset, node⟩ := s
  cases node with
  | word w => exact .nil
  | number n => exact .nil
  | string body => exact .nil
  | array gap items => exact pairwise_branchesFrom _ _ _ _ _
  | object gap members => exact pairwise_branchesFrom _ _ _ _ _

/-- Two branches of a container are in one place, or one of them is behind the other. -/
theorem Spot.apart_branches {s : Spot} {a b : Branch} (ha : a ∈ s.branches)
    (hb : b ∈ s.branches) :
    (a.offset = b.offset ∧ a.after = b.after) ∨ a.after ≤ b.offset ∨ b.after ≤ a.offset := by
  -- The order of the branches and its converse are two of the three ways
  apply List.Pairwise.forall_of_forall_of_flip (R := fun a b : Branch =>
    (a.offset = b.offset ∧ a.after = b.after) ∨ a.after ≤ b.offset ∨ b.after ≤ a.offset)
    _ _ _ ha hb
  · exact fun a _ => .inl ⟨rfl, rfl⟩
  · exact s.pairwise_branches.imp fun h => .inr (.inl h)
  · exact s.pairwise_branches.imp fun h => .inr (.inr h)

/-! ## Search -/

theorem findSome?_congr {α β : Type} {f g : α → Option β} {l : List α}
    (h : ∀ a ∈ l, f a = g a) : l.findSome? f = l.findSome? g := by
  induction l with
  | nil => rfl
  | cons a l ih =>
    rw [List.forall_mem_cons] at h
    rw [List.findSome?_cons, List.findSome?_cons, h.1, ih h.2]

/-- What components find in a document that ends at an offset: the last one takes the first branch
that it selects and that can be read, and any other one the first below which the rest is found. -/
def searchShown (n : Nat) : List Component → Spot → Option Result
  | [] => Spot.shown n
  | c :: components => fun s =>
    (s.branches.filter fun b => c.selects b.label).findSome? fun b =>
      searchShown n components b.toSpot

section Search

variable {n : Nat} {components : List Component} {s : Spot}

theorem searchShown_cons (n : Nat) (c : Component) (components : List Component) (s : Spot) :
    searchShown n (c :: components) s =
      (s.branches.filter fun b => c.selects b.label).findSome? fun b =>
        searchShown n components b.toSpot :=
  rfl

/-- Behind the cut nothing is found. -/
theorem searchShown_of_le (h : n ≤ s.offset) : searchShown n components s = none := by
  induction components generalizing s with
  | nil => exact Spot.shown_of_le h
  | cons c components ih =>
    rw [searchShown_cons, List.findSome?_eq_none_iff]
    intro b hb
    have hbounds := Spot.bounds_branch (List.mem_filter.1 hb).1
    exact ih (by omega)

/-- Nothing is found below a scalar. -/
theorem searchShown_scalar (hne : components ≠ []) (h : s.node.isContainer = false) :
    searchShown n components s = none := by
  cases components with
  | nil => exact absurd rfl hne
  | cons c components =>
    rw [searchShown_cons, Spot.branches_scalar h]
    rfl

/-- In front of the cut everything is found. -/
theorem searchShown_of_after_le (h : s.after ≤ n) :
    searchShown n components s = (search components s).map Spot.reading := by
  induction components generalizing s with
  | nil => exact Spot.shown_of_after_le h
  | cons c components ih =>
    have hbelow : ∀ b ∈ s.branches.filter fun b => c.selects b.label,
        searchShown n components b.toSpot = (search components b.toSpot).map Spot.reading := by
      intro b hb
      have hbounds := Spot.bounds_branch (List.mem_filter.1 hb).1
      exact ih (by omega)
    rw [searchShown_cons, search_cons, List.map_findSome?]
    exact findSome?_congr hbelow

/-- What is found has an offset: that of the value itself, or one inside of it. -/
theorem bounds_searchShown {found : Result} (h : searchShown n components s = some found) :
    ∃ j, found.index = some j ∧ (components = [] → j = s.offset) ∧
      (components ≠ [] → s.offset < j) ∧ s.offset ≤ j ∧ j < s.after := by
  induction components generalizing s with
  | nil =>
    have hshown : s.shown n = some found := h
    unfold Spot.shown at hshown
    split at hshown
    · cases hshown
      exact ⟨s.offset, rfl, fun _ => rfl, fun hne => absurd rfl hne, Nat.le_refl _,
        s.offset_lt_after⟩
    · cases hshown
  | cons c components ih =>
    rw [searchShown_cons] at h
    obtain ⟨b, hb, hfound⟩ := List.exists_of_findSome?_eq_some h
    obtain ⟨j, hindex, -, -, hoffset, hafter⟩ := ih hfound
    have hbounds := Spot.bounds_branch (List.mem_filter.1 hb).1
    exact ⟨j, hindex, fun hnil => absurd hnil (by simp), fun _ => by omega, by omega, by omega⟩

end Search

end JsonQuery.Grammar
