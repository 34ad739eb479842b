import JsonQuery.Engine.Batch

/-!
# Paths in a batch are answered apart

One scan looks for many paths at once.  What it stores at one place is what a scan that looks for
the paths of that place alone would store there, whatever the document holds: the other paths only
make the scan visit more of the document.

## Layers

- **Projections**: `Level.only` keeps the targets of one place.
- **Steps**: what one entry of a level adds to the answers at a place.
- **Scans**: the projection commutes with the whole scan, by induction over its steps.
-/

namespace JsonQuery.Batch

/-! ## Projections -/

/-- The targets of one place. -/
def onlyAt (slot : Nat) (targets : List Target) : List Target :=
  targets.filter fun target => target.slot == slot

/-- A level with the targets of one place. -/
def Level.only (slot : Nat) (level : Level) : Level :=
  { level with targets := onlyAt slot level.targets }

section Projections

variable {slot : Nat} {a b : Answers}

theorem mem_onlyAt {target : Target} {targets : List Target} :
    target ∈ onlyAt slot targets ↔ target ∈ targets ∧ target.slot = slot := by
  simp [onlyAt]

/-- Whether a target has its answer depends on its place alone. -/
theorem has_congr (hab : a[slot]? = b[slot]?) {target : Target} (hslot : target.slot = slot) :
    a.has target = b.has target := by
  rw [Answers.has, Answers.has, hslot, hab]

theorem onlyAt_filterMap_next? (targets : List Target) :
    onlyAt slot (targets.filterMap Target.next?) =
      (onlyAt slot targets).filterMap Target.next? := by
  induction targets with
  | nil => rfl
  | cons target targets ih =>
    obtain ⟨place, component, rest⟩ := target
    cases rest with
    | nil =>
      have hnext : (Target.mk place component []).next? = none := rfl
      by_cases hslot : place = slot <;> simp_all [onlyAt]
    | cons next rest => by_cases hslot : place = slot <;> simp_all [onlyAt, Target.next?]

/-! ## Steps -/

/-- Storing a value changes the places of its targets. -/
theorem getElem?_store (a : Answers) (value : Result) (targets : List Target) :
    (a.store value targets)[slot]? =
      if onlyAt slot targets = [] then a[slot]? else a[slot]?.map fun _ => some value := by
  -- The targets are stored from the left, so the last one of the place would win
  induction targets generalizing a with
  | nil => rfl
  | cons target targets ih =>
    rw [Answers.store, List.foldl_cons, ← Answers.store, ih, Array.getElem?_setIfInBounds]
    by_cases hslot : target.slot = slot
    · subst hslot
      by_cases hlt : target.slot < a.size
      · by_cases hrest : onlyAt target.slot targets = [] <;> simp_all [onlyAt]
      · by_cases hrest : onlyAt target.slot targets = [] <;> simp_all [onlyAt]
    · have honly : onlyAt slot (target :: targets) = onlyAt slot targets := by
        simp [onlyAt, hslot]
      rw [honly, if_neg hslot]

theorem onlyAt_leaves (targets : List Target) :
    onlyAt slot (targets.filter fun target => target.rest.isEmpty) =
      (onlyAt slot targets).filter fun target => target.rest.isEmpty := by
  simp only [onlyAt, List.filter_filter, Bool.and_comm]

/-- What an entry adds at a place comes from the targets of that place. -/
theorem getElem?_answer (hab : a[slot]? = b[slot]?) (entry : Entry) (wanted : List Target) :
    (Level.answer a entry wanted)[slot]? =
      (Level.answer b entry (onlyAt slot wanted))[slot]? := by
  simp only [Level.answer, ← onlyAt_leaves]
  -- Only the targets that have no further component count
  generalize (wanted.filter fun target => target.rest.isEmpty) = leaves
  have hidem : onlyAt slot (onlyAt slot leaves) = onlyAt slot leaves := by
    simp [onlyAt]
  by_cases hleaves : leaves = []
  · subst hleaves
    exact hab
  · have hsome : leaves.isEmpty = false := by simpa using hleaves
    by_cases honly : onlyAt slot leaves = []
    · simp only [hsome, honly, List.isEmpty_nil, Bool.false_eq_true, if_true, if_false]
      split
      · rw [getElem?_store, if_pos honly, hab]
      · exact hab
    · have hsome' : (onlyAt slot leaves).isEmpty = false := by simpa using honly
      simp only [hsome, hsome', Bool.false_eq_true, if_false]
      split
      · rw [getElem?_store, getElem?_store, hidem, hab]
      · exact hab

/-- Without a target of a place, an entry adds nothing there. -/
theorem getElem?_answer_of_none (entry : Entry) {wanted : List Target}
    (hwanted : onlyAt slot wanted = []) :
    (Level.answer a entry wanted)[slot]? = a[slot]? := by
  rw [getElem?_answer rfl, hwanted]
  rfl

/-- The level inside of an entry, for the targets of a place. -/
theorem inner?_onlyAt (entry : Entry) (wanted : List Target) :
    Level.inner? entry (onlyAt slot wanted) =
      ((Level.inner? entry wanted).map (Level.only slot)).filter fun level =>
        !level.targets.isEmpty := by
  simp only [Level.inner?, ← onlyAt_filterMap_next?]
  generalize wanted.filterMap Target.next? = deeper
  -- A scalar opens no level; a container opens one if some target goes deeper
  cases hcontainer : Scan.atContainer entry.value with
  | false => simp
  | true =>
    cases deeper with
    | nil => simp [onlyAt]
    | cons target deeper =>
      by_cases honly : onlyAt slot (target :: deeper) = []
      · simp [honly, Level.only, Level.openAt, Option.filter]
      · simp [honly, Level.only, Level.openAt, Option.filter]

/-! ## Scans -/

theorem scan_nil (a : Answers) : scan a [] = a := by
  rw [scan]

/-- A level that nobody waits for any more is left. -/
theorem scan_of_all (level : Level) (hall : level.targets.all a.has = true)
    (outer : List Level) : scan a (level :: outer) = scan a outer := by
  rw [scan, if_pos hall]

/-- A level without another entry is left. -/
theorem scan_of_end (level : Level) (hentry : level.entry? = none) (outer : List Level) :
    scan a (level :: outer) = scan a outer := by
  rw [scan]
  split
  · rfl
  · split
    · rfl
    · rename_i hsome
      rw [hentry] at hsome
      cases hsome

/-- The targets of a level that still look for an entry. -/
def Level.wanted (level : Level) (a : Answers) (entry : Entry) : List Target :=
  level.targets.filter fun target => !a.has target && level.wants entry target

/-- An entry of a level is answered and entered as far as targets want it. -/
theorem scan_of_entry {level : Level} {entry : Entry} (hall : level.targets.all a.has = false)
    (hentry : level.entry? = some entry) (outer : List Level) :
    scan a (level :: outer) =
      scan (Level.answer a entry (level.wanted a entry))
        ((Level.inner? entry (level.wanted a entry)).toList ++ level.pass entry :: outer) := by
  rw [scan, if_neg (by simp [hall])]
  split
  · rename_i hnone
    rw [hentry] at hnone
    cases hnone
  · rename_i found hfound
    rw [hentry] at hfound
    cases hfound
    dsimp only
    split
    · rename_i inner hinner
      rw [Level.wanted, hinner]
      rfl
    · rename_i hinner
      rw [Level.wanted, hinner]
      rfl

/-- Induction over the steps of a scan: it has no level left, leaves its innermost level, or goes on
behind an entry of it. -/
@[elab_as_elim]
theorem scan_induction {motive : Answers → List Level → Prop} (nil : ∀ a, motive a [])
    (answered : ∀ a level outer, level.targets.all a.has = true → motive a outer →
      motive a (level :: outer))
    (ended : ∀ a level outer, level.entry? = none → motive a outer → motive a (level :: outer))
    (entry : ∀ a level outer entry, level.targets.all a.has = false → level.entry? = some entry →
      motive (Level.answer a entry (level.wanted a entry))
        ((Level.inner? entry (level.wanted a entry)).toList ++ level.pass entry :: outer) →
      motive a (level :: outer))
    (a : Answers) (levels : List Level) : motive a levels := by
  induction a, levels using scan.induct with
  | case1 a => exact nil a
  | case2 a level outer hall ih => exact answered a level outer hall ih
  | case3 a level outer hall hentry ih => exact ended a level outer hentry ih
  | case4 a level outer hall found hentry wanted answers inner hinner ih =>
    have hwanted : wanted = level.wanted a found := by simp [wanted, Level.wanted]
    apply entry a level outer found (Bool.not_eq_true _ ▸ hall) hentry
    rw [← hwanted, hinner]
    exact ih
  | case5 a level outer hall found hentry wanted answers hinner ih =>
    have hwanted : wanted = level.wanted a found := by simp [wanted, Level.wanted]
    apply entry a level outer found (Bool.not_eq_true _ ▸ hall) hentry
    rw [← hwanted, hinner]
    exact ih

theorem onlyAt_wanted (hab : a[slot]? = b[slot]?) (level : Level) (entry : Entry) :
    onlyAt slot (level.wanted a entry) = (level.only slot).wanted b entry := by
  -- Both filters read a target, its answer and its place
  simp only [onlyAt, Level.wanted, Level.only, List.filter_filter]
  apply List.filter_congr
  intro target _
  cases hslot : target.slot == slot with
  | true =>
    rw [has_congr hab (beq_iff_eq.1 hslot), Bool.true_and, Bool.and_true]
    rfl
  | false => rw [Bool.false_and, Bool.and_false]

/-- A level waits for nobody at a place if it waits for nobody at all. -/
theorem all_only (hab : a[slot]? = b[slot]?) {level : Level}
    (hall : level.targets.all a.has = true) : (level.only slot).targets.all b.has = true := by
  rw [List.all_eq_true] at hall ⊢
  intro target htarget
  obtain ⟨hmem, hslot⟩ := mem_onlyAt.1 htarget
  rw [← has_congr hab hslot]
  exact hall target hmem

theorem wanted_eq_nil {level : Level} (hall : level.targets.all a.has = true) (entry : Entry) :
    level.wanted a entry = [] := by
  rw [List.all_eq_true] at hall
  rw [Level.wanted, List.filter_eq_nil_iff]
  intro target htarget
  simp [hall target htarget]

/-- A level without targets may as well not be there. -/
theorem scan_filter (level? : Option Level) (outer : List Level) :
    scan a ((level?.filter fun level => !level.targets.isEmpty).toList ++ outer) =
      scan a (level?.toList ++ outer) := by
  cases level? with
  | none => rfl
  | some level =>
    cases htargets : level.targets.isEmpty with
    | false => simp [Option.filter, htargets]
    | true =>
      -- Without targets a level has all its answers, so the scan leaves it at once
      have hnil : level.targets = [] := List.isEmpty_iff.1 htargets
      simp only [Option.filter, htargets, Bool.not_true, Bool.false_eq_true, if_false,
        Option.toList_none, Option.toList_some, List.nil_append, List.singleton_append]
      rw [scan_of_all _ (by rw [hnil]; rfl)]

/-- The projection commutes with a step of a scan, if it does with the rest of the scan. -/
theorem scan_only_step (hab : a[slot]? = b[slot]?) (level : Level) (outer : List Level)
    {entry : Entry} (hentry : level.entry? = some entry)
    (ih : ∀ b : Answers, (Level.answer a entry (level.wanted a entry))[slot]? = b[slot]? →
      (scan (Level.answer a entry (level.wanted a entry))
          ((Level.inner? entry (level.wanted a entry)).toList ++
            level.pass entry :: outer))[slot]? =
        (scan b (((Level.inner? entry (level.wanted a entry)).toList ++
          level.pass entry :: outer).map (Level.only slot)))[slot]?) :
    (scan (Level.answer a entry (level.wanted a entry))
        ((Level.inner? entry (level.wanted a entry)).toList ++ level.pass entry :: outer))[slot]? =
      (scan b (level.only slot :: outer.map (Level.only slot)))[slot]? := by
  have hwanted := onlyAt_wanted hab level entry
  -- The levels behind the step are projected one by one
  have hlevels : ((Level.inner? entry (level.wanted a entry)).toList ++
        level.pass entry :: outer).map (Level.only slot) =
      ((Level.inner? entry (level.wanted a entry)).map (Level.only slot)).toList ++
        (level.only slot).pass entry :: outer.map (Level.only slot) := by
    cases Level.inner? entry (level.wanted a entry) <;> rfl
  rw [hlevels] at ih
  cases hall : (level.only slot).targets.all b.has with
  | true =>
    -- All answers at the place are there, so nothing is wanted or entered for it
    rw [wanted_eq_nil hall] at hwanted
    have hsame : (Level.answer a entry (level.wanted a entry))[slot]? = b[slot]? := by
      rw [getElem?_answer_of_none entry hwanted, hab]
    rw [ih b hsame, ← scan_filter, ← inner?_onlyAt, hwanted, scan_of_all _ hall]
    exact congrArg (·[slot]?) (scan_of_all ((level.only slot).pass entry) hall _)
  | false =>
    rw [scan_of_entry hall hentry, ← hwanted, inner?_onlyAt, scan_filter]
    exact ih _ (getElem?_answer hab entry _)

/-- A scan stores at a place what it would store there if it looked for nothing else. -/
theorem scan_only (slot : Nat) (a b : Answers) (levels : List Level) (hab : a[slot]? = b[slot]?) :
    (scan a levels)[slot]? = (scan b (levels.map (Level.only slot)))[slot]? := by
  -- On the steps of the scan for all paths, of which the scan for one place may leave some out
  induction a, levels using scan_induction generalizing b with
  | nil a =>
    rw [List.map_nil, scan_nil, scan_nil]
    exact hab
  | answered a level outer hall ih =>
    rw [List.map_cons, scan_of_all _ hall, scan_of_all _ (all_only hab hall)]
    exact ih b hab
  | ended a level outer hentry ih =>
    rw [List.map_cons, scan_of_end level hentry, scan_of_end (level.only slot) hentry]
    exact ih b hab
  | entry a level outer entry hall hentry ih =>
    rw [List.map_cons, scan_of_entry hall hentry]
    exact scan_only_step hab level outer hentry ih

end Projections

end JsonQuery.Batch
