/-!
# Loops

- `Loop` is a loop over states, with a measure that shows that it ends;
- `Loop.run` is what its last turn results in.

A loop that goes through values inside one another keeps a stack: what is still to come of each
value that it is in, the innermost first.  Down to some level it opens values, and below that it
takes them as they are.  `Loop.stackCost` is a measure for such loops: the most turns that are left.
-/

namespace JsonQuery

/-- What one turn of a loop comes to. -/
inductive Turn (σ β : Type) where
  /-- The loop goes on. -/
  | again (state : σ)
  /-- The loop ends. -/
  | over (result : β)

/-- A loop over states.  Each turn but the last one leaves less to do. -/
structure Loop (σ β μ : Type) [WellFoundedRelation μ] where
  turn : σ → Turn σ β
  /-- What is left to do. -/
  left : σ → μ
  left_lt {state next : σ} (h : turn state = .again next) :
    WellFoundedRelation.rel (left next) (left state)

namespace Loop

/-! ## Runs -/

section Runs

variable {σ β μ : Type} [WellFoundedRelation μ] (loop : Loop σ β μ) {state next : σ} {result : β}

/-- The result of the last turn from a state on. -/
def run (state : σ) : β :=
  match _hturn : loop.turn state with
  | .again next => run next
  | .over result => result
termination_by loop.left state
decreasing_by exact loop.left_lt _hturn

variable {loop}

theorem run_of_again (h : loop.turn state = .again next) : loop.run state = loop.run next := by
  rw [run]
  split
  · rename_i hturn
    obtain rfl := Turn.again.inj (h.symm.trans hturn)
    rfl
  · rename_i hturn
    cases h.symm.trans hturn

theorem run_of_over (h : loop.turn state = .over result) : loop.run state = result := by
  rw [run]
  split
  · rename_i hturn
    cases h.symm.trans hturn
  · rename_i hturn
    exact (Turn.over.inj (h.symm.trans hturn)).symm

end Runs

/-! ## Stacks -/

section Stacks

variable {α : Type} {inside : α → List α} {levels : Nat} {item : α} {items : List α}
  {outer : List (List α)}

/-- The most turns for the values that are left inside of another one, and one for closing that. -/
def listCost (cost : α → Nat) : List α → Nat
  | [] => 1
  | item :: items => cost item + listCost cost items

/-- The most turns that a loop takes for a value which it may open, for a number of levels: one to
open it, and those for what is inside. -/
def cost (inside : α → List α) : (levels : Nat) → α → Nat
  | 0, _ => 1
  | levels + 1, item => listCost (cost inside levels) (inside item) + 1

/-- The most turns for a stack.  The values in the outermost list may be opened for a number of
levels. -/
def stackCost (inside : α → List α) (levels : Nat) : List (List α) → Nat
  | [] => 0
  | items :: outer =>
    listCost (cost inside (levels - outer.length)) items + stackCost inside levels outer

theorem listCost_pos (cost : α → Nat) (items : List α) : 0 < listCost cost items := by
  induction items with
  | nil => exact Nat.one_pos
  | cons item items ih => exact Nat.add_pos_right _ ih

/-- A value that is taken as it is takes a turn. -/
theorem listCost_take :
    listCost (cost inside levels) items < listCost (cost inside levels) (item :: items) := by
  have hpos : 0 < cost inside levels item := by
    cases levels with
    | zero => exact Nat.one_pos
    | succ levels => exact Nat.succ_pos _
  exact Nat.lt_add_of_pos_left hpos

/-- A value that is opened takes a turn more than what is inside of it. -/
theorem listCost_open (inside : α → List α) (levels : Nat) (item : α) (items : List α) :
    listCost (cost inside levels) (inside item) + listCost (cost inside (levels + 1)) items <
      listCost (cost inside (levels + 1)) (item :: items) :=
  Nat.add_lt_add_right (Nat.lt_succ_self _) _

theorem stackCost_take :
    stackCost inside levels (items :: outer) < stackCost inside levels ((item :: items) :: outer) :=
  Nat.add_lt_add_right listCost_take _

theorem stackCost_open (h : outer.length < levels) :
    stackCost inside levels (inside item :: items :: outer) <
      stackCost inside levels ((item :: items) :: outer) := by
  -- What is inside of the value has one level less than the list that the value stands in
  obtain ⟨below, rfl⟩ : ∃ below, levels = outer.length + 1 + below :=
    ⟨levels - outer.length - 1, by omega⟩
  have hinner : outer.length + 1 + below - (items :: outer).length = below :=
    Nat.add_sub_cancel_left ..
  have houter : outer.length + 1 + below - outer.length = below + 1 := by omega
  have hopen := listCost_open inside below item items
  rw [stackCost, stackCost, stackCost, hinner, houter]
  omega

theorem stackCost_close :
    stackCost inside levels outer < stackCost inside levels (items :: outer) :=
  Nat.lt_add_of_pos_left (listCost_pos _ _)

end Stacks

end Loop

end JsonQuery
