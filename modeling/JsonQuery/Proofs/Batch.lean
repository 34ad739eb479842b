import JsonQuery.Proofs.Projection
import JsonQuery.Proofs.Resolution

/-!
# A batch agrees with single queries

In a document of the grammar the scan that answers many flat paths at once finds for each of them
what a query for it alone finds: both are searches in the tree.

## Layers

- **Flat components**: a flat path is a path of components without escapes and wildcards.
- **Courses**: the entries of a level are the branches of its container, as far as the document
  shows them.
- **Scans**: a scan for one target stores what a search finds.  The scan measures each value before
  it looks into it, so it finds nothing inside of one that is cut off.
- **Batches**: the projection to each place turns a batch into such scans.
-/

namespace JsonQuery.Batch

open Ascii Grammar

/-! ## Flat components -/

/-- A component without escapes and wildcards. -/
structure IsFlat (c : Component) : Prop where
  text_eq : c.text = c.name
  not_wild : c.isWild = false

/-- The component that is written as a part of a flat path. -/
def flatComponent (part : Bytes) : Component :=
  part.map fun c => if h : isLiteral c = true then .plain c h else .escaped c

section Flat

variable {part : Bytes}

theorem name_flatComponent (part : Bytes) : (flatComponent part).name = part := by
  induction part with
  | nil => rfl
  | cons c part ih =>
    have hbyte : (if h : isLiteral c = true then Piece.plain c h else .escaped c).byte = c := by
      split <;> rfl
    have hcons : (flatComponent (c :: part)).name =
        (if h : isLiteral c = true then Piece.plain c h else .escaped c).byte ::
          (flatComponent part).name := rfl
    rw [hcons, hbyte, ih]

theorem text_flatComponent (h : ∀ c ∈ part, isLiteral c = true) :
    (flatComponent part).text = part := by
  induction part with
  | nil => rfl
  | cons c part ih =>
    rw [List.forall_mem_cons] at h
    have hcons : (flatComponent (c :: part)).text =
        (if h : isLiteral c = true then Piece.plain c h else .escaped c).text ++
          (flatComponent part).text := rfl
    rw [hcons, dif_pos h.1, ih h.2]
    rfl

theorem isFlat_flatComponent (h : ∀ c ∈ part, isLiteral c = true) :
    IsFlat (flatComponent part) := by
  refine ⟨by rw [text_flatComponent h, name_flatComponent], ?_⟩
  rw [Component.isWild, List.any_eq_false]
  intro piece hpiece
  obtain ⟨c, -, rfl⟩ := List.mem_map.1 hpiece
  split <;> simp [Piece.isWild]

/-- A flat path is a path of flat components. -/
theorem exists_components {maxDepth : Nat} {path : Bytes} {parts : List Bytes}
    (h : components? maxDepth path = some parts) :
    ∃ components : List Component, parts = components.map Component.text ∧
      path = pathOf components ∧ components ≠ [] ∧ components.length ≤ maxDepth ∧
      Walk.lines? path = none ∧ bar ∉ path ∧ ∀ c ∈ components, IsFlat c := by
  simp only [components?, Option.ite_none_left_eq_some, Bool.or_eq_true, not_or,
    Bool.not_eq_true, Option.ite_none_right_eq_some] at h
  obtain ⟨⟨hlines, hspecial⟩, hlength, hparts⟩ := h
  have hparts : path.splitOn dot = parts := Option.some.inj hparts
  -- A flat path holds no special byte, and its parts no dot
  have hliteral : ∀ part ∈ parts, ∀ c ∈ part, isLiteral c = true := by
    intro part hpart c hc
    obtain ⟨hmem, hne⟩ := Bytes.mem_splitOn (hparts ▸ hpart) hc
    have hc := (List.any_eq_false.1 hspecial) c hmem
    simp [isLiteral, hne, hc]
  have htext : (parts.map flatComponent).map Component.text = parts := by
    rw [List.map_map]
    conv => rhs; rw [← List.map_id parts]
    exact List.map_congr_left fun part hpart => text_flatComponent (hliteral part hpart)
  have hlines : Walk.lines? path = none := by simpa using hlines
  refine ⟨parts.map flatComponent, htext.symm, ?_, ?_, ?_, hlines, ?_, ?_⟩
  · rw [pathOf, htext, ← hparts]
    exact (List.intercalate_splitOn dot).symm
  · rw [← hparts]
    simp [Bytes.splitOn]
  · rw [List.length_map, ← hparts]
    exact hlength
  · intro hbar
    exact absurd ((List.any_eq_false.1 hspecial) bar hbar) (by decide)
  · intro c hc
    obtain ⟨part, hpart, rfl⟩ := List.mem_map.1 hc
    exact isFlat_flatComponent (hliteral part hpart)

end Flat

/-! ## Courses -/

/-- The entries of a level in a document that ends at an offset, and whether a target looks for
each.  An entry is there as far as its value can be read. -/
inductive Course (n : Nat) (target : Target) : Level → List Stop → Prop where
  | close {level : Level} (hentry : level.entry? = none) : Course n target level []
  | stop {level : Level} {entry : Entry} {stops : List Stop} {selected : Bool} {s : Spot}
      {rest : Bytes} (hentry : level.entry? = (s.shown n).map fun _ => entry)
      (hvalue : entry.value = (Cursor.mk s.offset (s.node.text ++ rest)).cut n)
      (hnext : entry.next = (Cursor.mk s.after rest).cut n)
      (hwants : level.wants entry target = selected) (hrest : Follows rest)
      (hcourse : Course n target (level.pass entry) stops) :
      Course n target level (⟨selected, s⟩ :: stops)

section Courses

variable {c : Component} {n slot passed offset position : Nat} {below : List Bytes}
  {targets : List Target} {lead rest : Bytes}

/-- The next member of a level, as far as it is there. -/
theorem entry?_tag (tag : Tag) (s : Spot) (hlead : Separates lead) (hrest : Follows rest)
    (hoffset : s.offset = offset + lead.length + tag.text.length) :
    Level.entry? ⟨true, (Cursor.mk offset (lead ++ (tag.text ++ (s.node.text ++ rest)))).cut n,
        passed, targets⟩ =
      (s.shown n).map fun _ => ⟨some tag.key.name,
        (Cursor.mk s.offset (s.node.text ++ rest)).cut n, (Cursor.mk s.after rest).cut n⟩ := by
  have hlength : offset + lead.length + tag.before.text.length +
      (Bytes.quoted tag.key.text).length +
        (tag.between.text ++ (colon :: tag.after.text)).length = s.offset := by
    rw [hoffset, length_tag]
    omega
  simp only [Level.entry?, if_true, Level.key?, Cursor.key?, Cursor.toKey_cut, toKey_tag tag hlead,
    keyHere?_cut]
  by_cases hkey : offset + lead.length + tag.before.text.length +
      (Bytes.quoted tag.key.text).length ≤ n
  · simp only [if_pos hkey, Option.map_some, Option.bind_some, Level.value?, Cursor.toValue_cut,
      toValue_tag, hlength, skipHere?_cut s hrest, name_eq, body_quoted]
    cases s.shown n <;> rfl
  · -- The document ends in front of the value
    rw [if_neg hkey, Spot.shown_of_le (by omega)]
    rfl

/-- The next element of a level, as far as it is there. -/
theorem entry?_gap (gap : Gap) (s : Spot) (hlead : Separates lead) (hrest : Follows rest)
    (hoffset : s.offset = offset + lead.length + gap.text.length) :
    Level.entry? ⟨false, (Cursor.mk offset (lead ++ (gap.text ++ (s.node.text ++ rest)))).cut n,
        passed, targets⟩ =
      (s.shown n).map fun _ => ⟨none,
        (Cursor.mk s.offset (s.node.text ++ rest)).cut n, (Cursor.mk s.after rest).cut n⟩ := by
  rw [Level.entry?, if_neg Bool.false_ne_true, Level.value?, Cursor.toValue_cut,
    toValue_gap gap s.node hlead, ← hoffset]
  dsimp only
  rw [skipHere?_cut s hrest]
  cases s.shown n <;> rfl

theorem entry?_closeBrace (hlead : Separates lead) :
    Level.entry? ⟨true, (Cursor.mk offset (lead ++ closeBrace :: rest)).cut n, passed, targets⟩ =
      none := by
  have hquote : (Cursor.mk (offset + lead.length) (closeBrace :: rest)).peek? ≠ some quote :=
    fun h => absurd (Option.some.inj h) (by decide)
  simp only [Level.entry?, if_true, Level.key?, Cursor.key?, Cursor.toKey_cut, toKey_close hlead,
    keyHere?_of_peek? (Cursor.peek?_cut_ne hquote n)]
  rfl

theorem entry?_closeBracket (hlead : Separates lead) :
    Level.entry? ⟨false, (Cursor.mk offset (lead ++ closeBracket :: rest)).cut n, passed,
        targets⟩ = none := by
  have hskip : ((Cursor.mk (offset + lead.length) (closeBracket :: rest)).cut n).skipHere? =
      none := by
    rcases Nat.lt_or_ge (offset + lead.length) n with hlt | hle
    · have hcut := Cursor.cut_append [closeBracket] rest hlt
      rw [List.singleton_append] at hcut
      rw [hcut]
      rfl
    · rw [Cursor.cut_of_le hle]
      rfl
  simp only [Level.entry?, Bool.false_eq_true, if_false, Level.value?, Cursor.toValue_cut,
    toValue_close hlead, hskip, Option.map_none]

/-- The members of an object, for a target with a flat component. -/
theorem course_members (hc : IsFlat c) {start next : Cursor} {branches : List Branch}
    (h : Members position start branches next) :
    Course n ⟨slot, c.text, below⟩ ⟨true, start.cut n, passed, targets⟩
      (branches.map (Branch.stop c)) := by
  induction h generalizing passed with
  | close hlead => exact .close (entry?_closeBrace hlead)
  | entry tag s hlead hoffset hrest _ ih =>
    refine .stop (entry?_tag tag s hlead hrest hoffset) rfl rfl ?_ hrest ih
    simp [Level.wants, Component.selects, hc.not_wild, hc.text_eq, BEq.comm]

/-- The elements of an array, for any target. -/
theorem course_items {start next : Cursor} {branches : List Branch}
    (h : Items position start branches next) :
    Course n ⟨slot, c.text, below⟩ ⟨false, start.cut n, position, targets⟩
      (branches.map (Branch.stop c)) := by
  induction h with
  | close hlead => exact .close (entry?_closeBracket hlead)
  | entry gap s hlead hoffset hrest _ ih =>
    refine .stop (entry?_gap gap s hlead hrest hoffset) rfl rfl ?_ hrest ih
    simp [Level.wants, Component.selects_position]

theorem openAt_cut {bracket : Cursor} (hlt : bracket.offset < n) (targets : List Target) :
    Level.openAt (bracket.cut n) targets =
      { Level.openAt bracket targets with
        cursor := (Level.openAt bracket targets).cursor.cut n } := by
  rw [Level.openAt, Cursor.peek?_cut hlt, Cursor.advance_one_cut hlt]
  rfl

theorem openAt_object (offset : Nat) (gap : Gap) (members : List (Grammar.Entry Tag Node))
    (rest : Bytes) (targets : List Target) :
    Level.openAt ⟨offset, (Node.object gap members).text ++ rest⟩ targets =
      ⟨true, (Cursor.mk offset ((Node.object gap members).text ++ rest)).advance 1, 0,
        targets⟩ := by
  rw [Level.openAt, Node.text_object]
  rfl

theorem openAt_array (offset : Nat) (gap : Gap) (items : List (Grammar.Entry Gap Node))
    (rest : Bytes) (targets : List Target) :
    Level.openAt ⟨offset, (Node.array gap items).text ++ rest⟩ targets =
      ⟨false, (Cursor.mk offset ((Node.array gap items).text ++ rest)).advance 1, 0, targets⟩ := by
  rw [Level.openAt, Node.text_array]
  rfl

/-- The level of a container lists its branches. -/
theorem course_openAt (slot : Nat) (below : List Bytes) (targets : List Target) (hc : IsFlat c)
    (s : Spot) (hs : s.node.isContainer = true) (hlt : s.offset < n) (rest : Bytes) :
    Course n ⟨slot, c.text, below⟩
      (Level.openAt ((Cursor.mk s.offset (s.node.text ++ rest)).cut n) targets)
      (s.branches.map (Branch.stop c)) := by
  rw [openAt_cut hlt]
  obtain ⟨offset, node⟩ := s
  -- Behind the bracket the level lists what the grammar has inside of it
  cases node with
  | word w => cases hs
  | number n => cases hs
  | string body => cases hs
  | object gap members =>
    rw [openAt_object]
    exact course_members hc (members_object offset gap members rest)
  | array gap items =>
    rw [openAt_array]
    exact course_items (items_array offset gap items rest)

end Courses

/-! ## Scans -/

/-- Stores what was found, if anything was. -/
def Answers.put (answers : Answers) (slot : Nat) (found : Option Result) : Answers :=
  match found with
  | some value => answers.setIfInBounds slot (some value)
  | none => answers

/-- What the scan of a batch finds below a value in a document that ends at an offset: nothing
inside of a value that is not whole. -/
def shownBelow (n : Nat) (components : List Component) (s : Spot) : Option Result :=
  if components.isEmpty || s.after ≤ n then searchShown n components s else none

/-- What a target leads to, below a value that it selects, amounts to a search. -/
def Serves (n : Nat) (target : Target) (goal : Spot → Option Result) : Prop :=
  match target.next? with
  | none => ∀ s, goal s = s.shown n
  | some next => ∀ s : Spot,
      (s.node.isContainer = false ∨ n < s.after → goal s = none) ∧
      (s.node.isContainer = true → s.after ≤ n →
        ∀ (rest : Bytes) (a : Answers) (outer : List Level), a[target.slot]? = some none →
          scan a (Level.openAt ⟨s.offset, s.node.text ++ rest⟩ [next] :: outer) =
            scan (a.put target.slot (goal s)) outer)

section Scans

variable {a : Answers} {n : Nat} {target : Target} {goal : Spot → Option Result} {level : Level}

theorem has_of_free (hfree : a[target.slot]? = some none) : a.has target = false := by
  simp [Answers.has, hfree]

theorem has_of_put (hfree : a[target.slot]? = some none) (value : Result) :
    (a.put target.slot (some value)).has target = true := by
  have hlt : target.slot < a.size := (Array.getElem?_eq_some_iff.1 hfree).1
  simp [Answers.put, Answers.has, hlt]

/-- A level whose only target has its answer is left. -/
theorem scan_put (target : Target) (level : Level) (hfree : a[target.slot]? = some none)
    (htargets : level.targets = [target]) (value : Result) (outer : List Level) :
    scan (a.put target.slot (some value)) (level :: outer) =
      scan (a.put target.slot (some value)) outer := by
  apply scan_of_all level
  rw [htargets, List.all_cons, has_of_put hfree]
  rfl

theorem wanted_singleton (hfree : a[target.slot]? = some none)
    (htargets : level.targets = [target]) {entry : Entry} {selected : Bool}
    (hwants : level.wants entry target = selected) :
    level.wanted a entry = if selected then [target] else [] := by
  rw [Level.wanted, htargets]
  cases selected <;> simp [has_of_free hfree, hwants]

/-- A target without further components is answered with the value itself. -/
theorem answer_leaf {entry : Entry} {reading : Reading}
    (hread : entry.value.readHere? = some reading) (slot : Nat) (component : Bytes) :
    Level.answer a entry [⟨slot, component, []⟩] = a.put slot (some reading.value) := by
  simp [Level.answer, hread, Answers.store, Answers.put]

/-- A target with further components enters the value, if that is a container. -/
theorem inner?_deeper (entry : Entry) (slot : Nat) (component next : Bytes) (below : List Bytes) :
    Level.inner? entry [⟨slot, component, next :: below⟩] =
      if Scan.atContainer entry.value then some (Level.openAt entry.value [⟨slot, next, below⟩])
      else none := by
  cases hkind : Scan.atContainer entry.value <;> simp [Level.inner?, Target.next?, hkind]

/-- A level at the end of the text has no further entry. -/
theorem entry?_end (level : Level) {c : Cursor} (hlevel : level.cursor = c.cut n)
    (h : n ≤ c.offset) : level.entry? = none := by
  obtain ⟨object, cursor, passed, targets⟩ := level
  have hcursor : cursor = ⟨n, []⟩ := hlevel.trans (Cursor.cut_of_le h)
  subst hcursor
  cases object <;> rfl

/-- What serves a target finds nothing below a value that can not be read. -/
theorem Serves.none_of_shown (hserves : Serves n target goal) {s : Spot} (h : s.shown n = none) :
    goal s = none := by
  obtain ⟨slot, component, below⟩ := target
  cases below with
  | nil => exact (hserves s).trans h
  | cons next below =>
    refine (hserves s).1 (.inr (Nat.lt_of_not_le fun hle => ?_))
    rw [Spot.shown_of_after_le hle] at h
    cases h

/-- An entry that a target looks for is answered, or looked through if it is a whole container,
before the scan goes on with its level. -/
theorem scan_wanted (hserves : Serves n target goal) {entry : Entry} {s : Spot} {rest : Bytes}
    (hvalue : entry.value = (Cursor.mk s.offset (s.node.text ++ rest)).cut n)
    (hrest : Follows rest) {found : Result} (hshown : s.shown n = some found)
    (hfree : a[target.slot]? = some none) (level : Level) (outer : List Level) :
    scan (Level.answer a entry [target])
        ((Level.inner? entry [target]).toList ++ level :: outer) =
      scan (a.put target.slot (goal s)) (level :: outer) := by
  obtain ⟨slot, component, below⟩ := target
  cases below with
  | nil =>
    have hgoal : goal s = some found := (hserves s).trans hshown
    have hread := readHere?_cut s hrest n
    rw [← hvalue, hshown, Option.map_some] at hread
    rw [answer_leaf hread, hgoal]
    rfl
  | cons next below =>
    have hlt := Spot.offset_lt_of_shown hshown
    have hanswer : Level.answer a entry [⟨slot, component, next :: below⟩] = a := rfl
    obtain ⟨hnone, hcontainer⟩ := hserves s
    rw [hanswer, inner?_deeper, hvalue, atContainer_cut s rest hlt]
    cases hkind : s.node.isContainer with
    | false =>
      -- A scalar holds nothing for the components below
      rw [hnone (.inl hkind)]
      rfl
    | true =>
      have hafter : s.after ≤ n := Spot.after_le_of_shown hkind hshown
      rw [if_pos rfl, Cursor.cut_append s.node.text rest hafter]
      exact hcontainer hkind hafter _ a (level :: outer) hfree

/-- A scan of a level for a single target stores the first answer below its stops, and goes on with
the levels outside. -/
theorem scan_course (hserves : Serves n target goal) {stops : List Stop}
    (hcourse : Course n target level stops) (htargets : level.targets = [target])
    (hfree : a[target.slot]? = some none) (outer : List Level) :
    scan a (level :: outer) = scan (a.put target.slot (firstAnswer goal stops)) outer := by
  -- On the course: an entry that can not be read ends it, and nothing is found behind
  induction hcourse with
  | close hentry => exact scan_of_end _ hentry outer
  | @stop level entry stops selected s rest hentry hvalue hnext hwants hrest hcourse ih =>
    have hlast := ih htargets
    cases hshown : s.shown n with
    | none =>
      have hlevel := entry?_end (level.pass entry) hnext (Spot.le_after_of_shown hshown)
      have hfirst : firstAnswer goal (⟨selected, s⟩ :: stops) = firstAnswer goal stops := by
        cases selected with
        | false => rfl
        | true => rw [firstAnswer_selected, hserves.none_of_shown hshown, Option.none_or]
      rw [hshown, Option.map_none] at hentry
      rw [scan_of_end _ hentry, hfirst, ← hlast, scan_of_end _ hlevel]
    | some found =>
      rw [hshown, Option.map_some] at hentry
      have hall : level.targets.all a.has = false := by
        simp [htargets, has_of_free hfree]
      rw [scan_of_entry hall hentry, wanted_singleton hfree htargets hwants]
      cases selected with
      | false =>
        rw [firstAnswer_passed, ← hlast]
        rfl
      | true =>
        rw [if_pos rfl, firstAnswer_selected,
          scan_wanted hserves hvalue hrest hshown hfree (level.pass entry) outer]
        cases goal s with
        | none => exact hlast
        | some value => exact scan_put target (level.pass entry) hfree htargets value outer

theorem shownBelow_of_after_le {components : List Component} {s : Spot} (h : s.after ≤ n) :
    shownBelow n components s = (search components s).map Spot.reading := by
  rw [shownBelow, if_pos (by simp [h]), searchShown_of_after_le h]

/-- A scan of a whole container is a search in it, if the search below its branches serves the
target. -/
theorem scan_openAt_of_serves {slot : Nat} {c : Component} {components : List Component}
    (hc : IsFlat c)
    (hserves : ∀ n, Serves n ⟨slot, c.text, components.map Component.text⟩
      (shownBelow n components))
    (s : Spot) (hs : s.node.isContainer = true) (rest : Bytes) (hfree : a[slot]? = some none)
    (outer : List Level) :
    scan a (Level.openAt ⟨s.offset, s.node.text ++ rest⟩
        [⟨slot, c.text, components.map Component.text⟩] :: outer) =
      scan (a.put slot ((search (c :: components) s).map Spot.reading)) outer := by
  -- No cut is a cut at the end of the text
  obtain ⟨n, hn⟩ : ∃ n, n = s.offset + (s.node.text ++ rest).length := ⟨_, rfl⟩
  have hafter : s.after ≤ n := by
    rw [hn, Spot.after, List.length_append]
    omega
  have hcourse := course_openAt slot (components.map Component.text)
    [⟨slot, c.text, components.map Component.text⟩] hc s hs
    (Nat.lt_of_lt_of_le s.offset_lt_after hafter) rest
  rw [Cursor.cut_self (Nat.le_of_eq hn.symm)] at hcourse
  have hbelow : ∀ stop ∈ s.branches.map (Branch.stop c),
      shownBelow n components stop.spot = (search components stop.spot).map Spot.reading := by
    intro stop hstop
    obtain ⟨b, hb, rfl⟩ := List.mem_map.1 hstop
    have hbounds := Spot.bounds_branch hb
    exact shownBelow_of_after_le (Nat.le_trans (Nat.le_of_lt hbounds.2) hafter)
  rw [search_cons, ← firstAnswer_stops, ← map_firstAnswer hbelow]
  exact scan_course (hserves n) hcourse rfl hfree outer

/-- The search below values that are whole serves the target of a flat path. -/
theorem serves_shownBelow {components : List Component} (hflat : ∀ c ∈ components, IsFlat c)
    (n slot : Nat) (component : Bytes) :
    Serves n ⟨slot, component, components.map Component.text⟩ (shownBelow n components) := by
  -- On the components, from the inner to the outer container
  induction components generalizing n component with
  | nil => exact fun s => rfl
  | cons c components ih =>
    rw [List.forall_mem_cons] at hflat
    intro s
    refine ⟨fun hnone => ?_, fun hs hafter rest a outer hfree => ?_⟩
    · rcases hnone with hscalar | hcut
      · rw [shownBelow, searchShown_scalar (by simp) hscalar, ite_self]
      · exact if_neg (by simpa using hcut)
    · rw [shownBelow_of_after_le hafter]
      exact scan_openAt_of_serves hflat.1 (fun n => ih hflat.2 n c.text) s hs rest hfree outer

/-- A scan of a container for a flat path is a search in it. -/
theorem scan_openAt (c : Component) (components : List Component)
    (hflat : ∀ c' ∈ c :: components, IsFlat c') (s : Spot) (hs : s.node.isContainer = true)
    (rest : Bytes) {slot : Nat} (hfree : a[slot]? = some none) (outer : List Level) :
    scan a (Level.openAt ⟨s.offset, s.node.text ++ rest⟩
        [⟨slot, c.text, components.map Component.text⟩] :: outer) =
      scan (a.put slot ((search (c :: components) s).map Spot.reading)) outer := by
  rw [List.forall_mem_cons] at hflat
  exact scan_openAt_of_serves hflat.1 (fun n => serves_shownBelow hflat.2 n slot c.text) s hs rest
    hfree outer

end Scans

/-! ## Batches -/

section Batches

variable {engine : Engine} {slot : Nat}

theorem slot_of_target? {maxDepth : Nat} {path : Bytes} {target : Target}
    (h : target? maxDepth slot path = some target) : target.slot = slot := by
  unfold target? at h
  split at h
  · exact Option.some.inj h ▸ rfl
  · cases h

theorem onlyAt_target? (maxDepth place : Nat) (path : Bytes) :
    onlyAt slot (target? maxDepth place path).toList =
      if place = slot then (target? maxDepth place path).toList else [] := by
  cases htarget : target? maxDepth place path with
  | none => simp [onlyAt]
  | some target =>
    have hslot := slot_of_target? htarget
    by_cases heq : place = slot
    · simp [onlyAt, hslot, heq]
    · simp [onlyAt, hslot, heq]

/-- At each place of a batch stands the target of the path there, if it is flat. -/
theorem onlyAt_targets (slot maxDepth first : Nat) (paths : List Bytes) :
    onlyAt slot ((paths.mapIdx fun i path => target? maxDepth (i + first) path).filterMap id) =
      if first ≤ slot then (paths[slot - first]?.bind (target? maxDepth slot)).toList else [] := by
  induction paths generalizing first with
  | nil => simp [onlyAt]
  | cons path paths ih =>
    have hcons : ((path :: paths).mapIdx fun i path =>
          target? maxDepth (i + first) path).filterMap id =
        (target? maxDepth first path).toList ++
          (paths.mapIdx fun i path => target? maxDepth (i + (first + 1)) path).filterMap id := by
      rw [List.mapIdx_cons, List.filterMap_cons]
      simp only [Nat.zero_add, id_eq, Nat.add_right_comm _ 1 first, Nat.add_assoc]
      cases target? maxDepth first path <;> rfl
    have happend : ∀ a b : List Target, onlyAt slot (a ++ b) = onlyAt slot a ++ onlyAt slot b :=
      fun a b => List.filter_append a b
    rw [hcons, happend, onlyAt_target?, ih (first + 1)]
    -- The place comes later, is the first one or lies before it
    rcases Nat.lt_trichotomy first slot with hlt | rfl | hgt
    · have hindex : slot - first = slot - (first + 1) + 1 := by omega
      rw [if_neg (Nat.ne_of_lt hlt), if_pos (Nat.succ_le_of_lt hlt), if_pos (Nat.le_of_lt hlt),
        hindex, List.getElem?_cons_succ, List.nil_append]
    · rw [if_pos rfl, if_neg (Nat.not_succ_le_self first), if_pos (Nat.le_refl first), Nat.sub_self,
        List.getElem?_cons_zero, List.append_nil]
      rfl
    · rw [if_neg (Nat.ne_of_gt hgt), if_neg (by omega), if_neg (by omega)]
      rfl

/-- What the scan of a batch stores at the place of a flat path is what a search finds. -/
theorem getElem?_answers (d : Document) (hroot : d.root.isContainer = true) {maxDepth : Nat}
    {paths : List Bytes} {path : Bytes} (hpath : paths[slot]? = some path) {target : Target}
    (htarget : target? maxDepth slot path = some target) (c : Component)
    (components : List Component) (hflat : ∀ c' ∈ c :: components, IsFlat c')
    (heq : target = ⟨slot, c.text, components.map Component.text⟩) :
    (answers d.text paths.length
        ((paths.mapIdx fun i path => target? maxDepth i path).filterMap id))[slot]? =
      some ((search (c :: components) d.spot).map Spot.reading) := by
  have honly := onlyAt_targets slot maxDepth 0 paths
  rw [if_pos (Nat.zero_le slot), Nat.sub_zero, hpath, Option.bind_some, htarget,
    Option.toList_some] at honly
  simp only [Nat.add_zero] at honly
  generalize (paths.mapIdx fun i path => target? maxDepth i path).filterMap id = targets at honly
  have hne : targets.isEmpty = false := by
    cases targets with
    | nil => cases honly
    | cons => rfl
  have hlt : slot < paths.length := (List.getElem?_eq_some_iff.1 hpath).1
  have hfree : (Array.replicate paths.length (none : Option Result))[slot]? = some none := by
    simp [hlt]
  obtain ⟨b, rest, htext, -, -⟩ := Node.container_cons hroot
  rw [answers, toContainer_document d hroot, hne]
  simp only [htext, List.cons_append, List.isEmpty_cons, Bool.or_self, Bool.false_eq_true,
    if_false]
  -- The other paths of the batch do not matter at this place
  rw [scan_only slot _ _ _ rfl, ← List.cons_append, ← htext]
  have hlevel : [Level.openAt ⟨d.before.text.length, d.root.text ++ d.after.text⟩ targets].map
        (Level.only slot) =
      [Level.openAt ⟨d.spot.offset, d.spot.node.text ++ d.after.text⟩
        [⟨slot, c.text, components.map Component.text⟩]] := by
    rw [← heq, ← honly]
    rfl
  rw [hlevel, scan_openAt c components hflat d.spot hroot d.after.text hfree [], scan_nil]
  cases search (c :: components) d.spot with
  | none => exact hfree
  | some s => simp [Answers.put, hlt]

end Batches

end JsonQuery.Batch

namespace JsonQuery.Engine

open Ascii Batch Grammar

/-- What a batch answers to a path at a place, with the answers of the scan. -/
def entry (engine : Engine) (document : Bytes) (answers : Answers) (slot : Nat) (path : Bytes) :
    Result :=
  match target? engine.config.maxDepth slot path with
  | some _ => (answers[slot]?.getD none).getD .missing
  | none => (engine.get document path).value

/-- A batch is filled place by place. -/
theorem value_fillFrom (engine : Engine) (document : Bytes) (answers : Answers) (slot : Nat)
    (results : List Result) (counts : Counters) (paths : List Bytes) :
    (engine.fillFrom document answers slot results counts paths).value =
      results.reverse ++
        paths.mapIdx fun i path => engine.entry document answers (slot + i) path := by
  induction paths generalizing slot results counts with
  | nil => simp [fillFrom]
  | cons path paths ih =>
    have hnext : ∀ i, slot + 1 + i = slot + (i + 1) := fun i => by omega
    rw [fillFrom, List.mapIdx_cons]
    -- A flat path takes its answer from the scan, any other one is resolved
    split
    · rename_i target htarget
      dsimp only
      rw [ih]
      simp [entry, htarget, hnext]
    · rename_i hnone
      dsimp only
      rw [ih]
      simp [entry, hnone, hnext]

/-- A batch is filled with what queries find, if that is what the scan stores for flat paths. -/
theorem fillFrom_eq (engine : Engine) (document : Bytes) (answers : Answers) (slot : Nat)
    (results : List Result) (counts : Counters) (paths : List Bytes)
    (h : ∀ i path, paths[i]? = some path →
      (target? engine.config.maxDepth (slot + i) path).isSome = true →
        (answers[slot + i]?.getD none).getD .missing = (engine.get document path).value) :
    (engine.fillFrom document answers slot results counts paths).value =
      results.reverse ++ paths.map fun path => (engine.get document path).value := by
  rw [value_fillFrom]
  congr 1
  apply List.ext_getElem?
  intro i
  rw [List.getElem?_mapIdx, List.getElem?_map]
  cases hpath : paths[i]? with
  | none => rfl
  | some path =>
    have hflat := h i path hpath
    rw [Option.map_some, Option.map_some, entry]
    -- Only a flat path takes its answer from the scan
    split
    · rename_i target htarget
      rw [hflat (by rw [htarget]; rfl)]
    · rfl

/-- **A batch agrees with single queries.**  In a document whose root is a container, a batch has
one answer for each of its paths, which is the answer to a query for that path alone, whatever the
paths and the engine are. -/
theorem getMany_eq_map_get (engine : Engine) (d : Document) (hroot : d.root.isContainer = true)
    (paths : List Bytes) :
    (engine.getMany d.text paths).value =
      paths.map fun path => (engine.get d.text path).value := by
  rw [getMany, fillFrom_eq]
  · rfl
  · intro slot path hpath hsome
    rw [Nat.zero_add] at hsome ⊢
    obtain ⟨target, htarget⟩ := Option.isSome_iff_exists.1 hsome
    have hparts := htarget
    unfold target? at hparts
    split at hparts
    · rename_i part parts hcomponents
      obtain ⟨components, hmap, rfl, hne, hdepth, hlines, hbar, hflat⟩ :=
        exists_components hcomponents
      cases components with
      | nil => exact absurd rfl hne
      | cons c components =>
        obtain ⟨rfl, rfl⟩ := List.cons.inj hmap
        have hstored := getElem?_answers d hroot hpath htarget c components hflat
          (Option.some.inj hparts).symm
        have hfits := fits_of_no_bar (bar_notMem_of_pathOf hbar) d.spot
        rw [hstored, get_pathOf engine d hroot _ hne hdepth hlines hfits]
        rfl
    · cases hparts

theorem getMany_eq_map_get_sample :
    (Engine.standard.getMany Document.sample.text
        [Bytes.ofString "a.0", Bytes.ofString "a.#"]).value =
      [(Engine.standard.get Document.sample.text (Bytes.ofString "a.0")).value,
        (Engine.standard.get Document.sample.text (Bytes.ofString "a.#")).value] :=
  getMany_eq_map_get Engine.standard .sample rfl _

end JsonQuery.Engine
