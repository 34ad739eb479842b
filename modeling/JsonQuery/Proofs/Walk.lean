import JsonQuery.Proofs.Shown
import JsonQuery.Proofs.Tours

/-!
# A walk is a search

The stack of scans that a walk keeps is the call stack of the search in the tree: a scan stops at
the branches of its container, enters those that are selected, and goes on behind the ones in which
nothing is found.  A walk enters a container without knowing whether it ends, so this holds of a
document that ends anywhere, and of the search in what is left of its tree.

## Layers

- **Reactions**: `Walk.react` is what a walk does about one event, `Walk.entered` what entering a
  container leads to, and `Walk.conclude` how a walk goes on when a search has ended.
- **Ends**: at the end of the text all scans end.
- **Tours**: a walk over a tour takes the first stop that answers, by induction over the tour.
- **Residues**: a bar behind a backslash ends a component that meets an array.  Nothing is found
  there, but the walk keeps what stands behind the bar as its pipe.  `residue` is the pipe that a
  search leaves, `residueShown` the one that it leaves in front of a cut, and `Fits` tells the
  searches that leave the pipe alone.
- **Containers**: entering a container is searching it, by induction over the components.
-/

namespace JsonQuery

open Ascii

/-! ## Reactions -/

/-- The pipe of a walk behind a component, where a bar ends it. -/
def Tail.kept (tail : Tail) (pipe : Option Bytes) : Option Bytes :=
  match tail with
  | .pipe path => some path
  | _ => pipe

namespace Walk

/-- Goes on with a container whose inside starts at a cursor. -/
def entered (env : Surroundings) (walk : Walk) (object : Bool) (c : Cursor) (path : Bytes)
    (room : Nat) (frames : List Frame) : Walk :=
  match openAt env object c path room walk with
  | (walk, .scan inner) => run env walk c (inner :: frames)
  | (walk, .passed next) => run env walk next frames
  | (walk, .over) => walk

/-- Goes on with what happens at one member or element. -/
def react (env : Surroundings) (walk : Walk) (room : Nat) (frames : List Frame) : Event → Walk
  | .skip scan next => run env walk next (⟨scan, room⟩ :: frames)
  | .close next => run env walk next frames
  | .found value => { walk with value }
  | .enter scan bracket path =>
    entered env walk (bracket.peek? = some openBrace) (bracket.advance 1) path (room - 1)
      (⟨scan, room⟩ :: frames)

theorem run_nil (env : Surroundings) (walk : Walk) (c : Cursor) : run env walk c [] = walk := by
  rw [run]

/-- A walk reacts to the next event of its innermost scan. -/
theorem run_cons (env : Surroundings) (walk : Walk) (c : Cursor) (frame : Frame)
    (frames : List Frame) :
    run env walk c (frame :: frames) =
      react env walk frame.room frames (frame.scan.step c) := by
  rw [run]
  -- One case per event of the scan
  split
  · rename_i hstep
    rw [hstep]
    rfl
  · rename_i hstep
    rw [hstep]
    rfl
  · rename_i hstep
    rw [hstep]
    rfl
  · rename_i hstep
    rw [hstep]
    simp only [react, entered]
    split <;> rename_i hopen <;> rw [hopen]

/-- Induction over the events of a walk: the innermost scan goes on, ends, finds a value or comes to
a container, which is entered or looked through. -/
@[elab_as_elim]
theorem run_induction {env : Surroundings} {motive : Walk → Cursor → List Frame → Prop}
    (nil : ∀ walk c, motive walk c [])
    (skip : ∀ walk c frame frames scan next, Scan.step frame.scan c = .skip scan next →
      motive walk next (⟨scan, frame.room⟩ :: frames) → motive walk c (frame :: frames))
    (close : ∀ walk c frame frames next, Scan.step frame.scan c = .close next →
      motive walk next frames → motive walk c (frame :: frames))
    (found : ∀ walk c frame frames value, Scan.step frame.scan c = .found value →
      motive walk c (frame :: frames))
    (enter : ∀ walk c frame frames scan bracket path,
      Scan.step frame.scan c = .enter scan bracket path →
      (∀ after inner, openAt env (bracket.peek? = some openBrace) (bracket.advance 1) path
          (frame.room - 1) walk = (after, .scan inner) →
        motive after (bracket.advance 1) (inner :: ⟨scan, frame.room⟩ :: frames)) →
      (∀ after next, openAt env (bracket.peek? = some openBrace) (bracket.advance 1) path
          (frame.room - 1) walk = (after, .passed next) →
        motive after next (⟨scan, frame.room⟩ :: frames)) →
      motive walk c (frame :: frames))
    (walk : Walk) (c : Cursor) (frames : List Frame) : motive walk c frames := by
  induction walk, c, frames using run.induct env with
  | case1 walk c => exact nil walk c
  | case2 walk c frame frames scan next hstep ih => exact skip _ _ _ _ _ _ hstep ih
  | case3 walk c frame frames next hstep ih => exact close _ _ _ _ _ hstep ih
  | case4 walk c frame frames value hstep => exact found _ _ _ _ _ hstep
  | case5 walk c frame frames scan bracket path hstep object outer after inner hopen ih =>
    refine enter _ _ _ _ _ _ _ hstep (fun after' inner' hopen' => ?_) fun after' next hopen' => ?_
    · obtain ⟨rfl, h⟩ := Prod.mk.inj (hopen.symm.trans hopen')
      cases h
      exact ih
    · cases hopen.symm.trans hopen'
  | case6 walk c frame frames scan bracket path hstep object outer after next hopen ih =>
    refine enter _ _ _ _ _ _ _ hstep (fun after' inner' hopen' => ?_) fun after' next' hopen' => ?_
    · cases hopen.symm.trans hopen'
    · obtain ⟨rfl, h⟩ := Prod.mk.inj (hopen.symm.trans hopen')
      cases h
      exact ih
  | case7 walk c frame frames scan bracket path hstep object after hopen =>
    refine enter _ _ _ _ _ _ _ hstep (fun after' inner' hopen' => ?_) fun after' next' hopen' => ?_
    · cases hopen.symm.trans hopen'
    · cases hopen.symm.trans hopen'

theorem enter_eq_entered (env : Surroundings) (object : Bool) (c : Cursor) (path : Bytes)
    (room : Nat) : enter env object c path room = entered env {} object c path room [] := by
  rw [enter, entered]
  rcases openAt env object c path room {} with ⟨walk, frame | next | _⟩
  · rfl
  · exact (run_nil env walk next).symm
  · rfl

/-- Changes the pipe alone. -/
def withPipe (walk : Walk) (pipe : Option Bytes) : Walk :=
  { walk with pipe }

@[simp] theorem withPipe_withPipe (walk : Walk) (a b : Option Bytes) :
    (walk.withPipe a).withPipe b = walk.withPipe b :=
  rfl

theorem keepPipe_eq (tail : Tail) (walk : Walk) :
    walk.keepPipe tail = walk.withPipe (tail.kept walk.pipe) := by
  cases tail <;> rfl

@[simp] theorem value_keepPipe (tail : Tail) (walk : Walk) :
    (walk.keepPipe tail).value = walk.value := by
  cases tail <;> rfl

/-- How a walk goes on when a search has ended: it is over with what was found, and otherwise goes
on behind the place of the search. -/
def conclude (env : Surroundings) (walk : Walk) (found : Option Result) (next : Cursor)
    (frames : List Frame) : Walk :=
  match found with
  | some value => { walk with value }
  | none => run env walk next frames

end Walk

namespace Grammar

open Extent Walk

/-! ## Ends -/

section Ends

variable {env : Surroundings} {room n : Nat} {rest : Bytes}

theorem step_end (scan : Scan) (offset : Nat) :
    scan.step ⟨offset, []⟩ = .close ⟨offset, []⟩ := by
  cases scan with
  | members component => rfl
  | elements target tail passed =>
    have hnil : Separates [] := fun c hc => by cases hc
    have hend : (Cursor.mk offset []).cut offset = ⟨offset, []⟩ :=
      Cursor.cut_of_le (Nat.le_refl offset)
    have hstep := stepElement_end target tail passed hnil offset offset
    rw [List.length_nil, Nat.add_zero, hend] at hstep
    exact hstep

/-- At the end of the text all scans end. -/
theorem run_end (env : Surroundings) (walk : Walk) (offset : Nat) (frames : List Frame) :
    run env walk ⟨offset, []⟩ frames = walk := by
  induction frames with
  | nil => exact run_nil env walk _
  | cons frame frames ih =>
    rw [run_cons, step_end]
    exact ih

theorem run_cut_of_le {c : Cursor} (h : n ≤ c.offset) (walk : Walk) (frames : List Frame) :
    run env walk (c.cut n) frames = walk := by
  rw [Cursor.cut_of_le h, run_end]

theorem react_pass (s : Spot) (hrest : Follows rest) (scan : Scan) (walk : Walk)
    (frames : List Frame) :
    react env walk room frames
        (scan.pass ((Cursor.mk s.offset (s.node.text ++ rest)).cut n)) =
      run env walk ((Cursor.mk s.after rest).cut n) (⟨scan, room⟩ :: frames) := by
  rw [Scan.pass, skipHere?_cut s hrest]
  cases hshown : s.shown n with
  | some value => rfl
  | none =>
    -- The value can not be read to its end, so the document ends inside of it or before
    rw [run_cut_of_le (Spot.le_after_of_shown hshown)]
    exact run_end env walk _ frames

theorem react_take (s : Spot) (hrest : Follows rest) (scan : Scan) (walk : Walk)
    (frames : List Frame) :
    react env walk room frames (Scan.take ((Cursor.mk s.offset (s.node.text ++ rest)).cut n)) =
      conclude env walk (s.shown n) ((Cursor.mk s.after rest).cut n) (⟨scan, room⟩ :: frames) := by
  rw [Scan.take, readHere?_cut s hrest]
  cases hshown : s.shown n with
  | some value => rfl
  | none =>
    refine (run_end env walk _ frames).trans ?_
    exact (run_cut_of_le (Spot.le_after_of_shown hshown) walk _).symm

end Ends

/-! ## Tours -/

/-- The rest of a path, below a value that is selected, amounts to a search with a goal, which
leaves the walk with a pipe, in a document that ends at an offset. -/
def AmountsTo (env : Surroundings) (n : Nat) (tail : Tail) (room : Nat)
    (goal : Spot → Option Result) (left : Spot → Option Bytes → Option Bytes) : Prop :=
  ∀ (s : Spot) (rest : Bytes), Follows rest → ∀ (scan : Scan) (walk : Walk) (frames : List Frame),
    react env walk room frames
        (scan.select tail ((Cursor.mk s.offset (s.node.text ++ rest)).cut n)) =
      conclude env (walk.withPipe (left s walk.pipe)) (goal s) ((Cursor.mk s.after rest).cut n)
        (⟨scan, room⟩ :: frames)

/-- The first answer below the stops that are selected. -/
def firstAnswer {Answer : Type} (goal : Spot → Option Answer) (stops : List Stop) :
    Option Answer :=
  (stops.filter Stop.selected).findSome? fun stop => goal stop.spot

/-- The pipe that is left by a search below the stops that are selected, up to the first that
answers. -/
def lastPipe {Answer : Type} (goal : Spot → Option Answer)
    (left : Spot → Option Bytes → Option Bytes) : List Stop → Option Bytes → Option Bytes
  | [], pipe => pipe
  | ⟨false, _⟩ :: stops, pipe => lastPipe goal left stops pipe
  | ⟨true, s⟩ :: stops, pipe =>
    if (goal s).isSome then left s pipe else lastPipe goal left stops (left s pipe)

section Tours

variable {Answer : Type} {goal : Spot → Option Answer}
  {left : Spot → Option Bytes → Option Bytes} {stops : List Stop}

theorem firstAnswer_selected (goal : Spot → Option Answer) (s : Spot) (stops : List Stop) :
    firstAnswer goal (⟨true, s⟩ :: stops) = (goal s).or (firstAnswer goal stops) := by
  cases hgoal : goal s <;> simp [firstAnswer, hgoal]

theorem firstAnswer_passed (goal : Spot → Option Answer) (s : Spot) (stops : List Stop) :
    firstAnswer goal (⟨false, s⟩ :: stops) = firstAnswer goal stops :=
  rfl

/-- Searches that answer alike do so together. -/
theorem map_firstAnswer {Other : Type} {f : Answer → Other} {goal' : Spot → Option Other}
    (h : ∀ stop ∈ stops, goal' stop.spot = (goal stop.spot).map f) :
    firstAnswer goal' stops = (firstAnswer goal stops).map f := by
  rw [firstAnswer, firstAnswer, List.map_findSome?]
  exact findSome?_congr fun stop hstop => h stop (List.mem_filter.1 hstop).1

/-- Searches that answer alike and leave the same pipes do so together. -/
theorem lastPipe_congr {Other : Type} {goal' : Spot → Option Other}
    {left' : Spot → Option Bytes → Option Bytes}
    (hgoal : ∀ stop ∈ stops, (goal' stop.spot).isSome = (goal stop.spot).isSome)
    (hleft : ∀ stop ∈ stops, left' stop.spot = left stop.spot) (pipe : Option Bytes) :
    lastPipe goal' left' stops pipe = lastPipe goal left stops pipe := by
  induction stops generalizing pipe with
  | nil => rfl
  | cons stop stops ih =>
    rw [List.forall_mem_cons] at hgoal hleft
    obtain ⟨selected, s⟩ := stop
    cases selected with
    | false => exact ih hgoal.2 hleft.2 pipe
    | true => rw [lastPipe, lastPipe, hgoal.1, hleft.1, ih hgoal.2 hleft.2]

/-- Searches that leave the pipe alone do so together. -/
theorem lastPipe_eq_self
    (h : ∀ stop ∈ stops, stop.selected = true → ∀ pipe, left stop.spot pipe = pipe)
    (pipe : Option Bytes) : lastPipe goal left stops pipe = pipe := by
  induction stops with
  | nil => rfl
  | cons stop stops ih =>
    rw [List.forall_mem_cons] at h
    obtain ⟨selected, s⟩ := stop
    cases selected with
    | false => exact ih h.2
    | true => rw [lastPipe, h.1 rfl, ih h.2, ite_self]

/-- A walk over a tour takes the first answer, and goes on behind the container without one. -/
theorem run_tour {env : Surroundings} {n : Nat} {tail : Tail} {room : Nat}
    {goal : Spot → Option Result} (hans : AmountsTo env n tail room goal left) {scan : Scan}
    {c next : Cursor} (h : Tour n tail scan c stops next) (walk : Walk) (frames : List Frame) :
    run env walk (c.cut n) (⟨scan, room⟩ :: frames) =
      conclude env (walk.withPipe (lastPipe goal left stops walk.pipe)) (firstAnswer goal stops)
        (next.cut n) frames := by
  -- On the tour: a stop that answers ends the walk, any other leaves it to the stops behind
  induction h generalizing walk with
  | close hstep =>
    rw [run_cons, hstep]
    rfl
  | @stop scan after c next stops selected s rest hstep hrest htour ih =>
    cases selected with
    | true =>
      rw [run_cons, hstep, if_pos rfl, hans s rest hrest after walk frames, firstAnswer_selected,
        lastPipe]
      -- Below a stop that is selected the walk may end or come back
      cases goal s with
      | some found => rfl
      | none => exact ih (walk.withPipe (left s walk.pipe))
    | false =>
      rw [run_cons, hstep, if_neg (by simp), react_pass s hrest, firstAnswer_passed]
      exact ih walk

end Tours

/-! ## Residues -/

theorem kept_tailOf (components : List Component) (pipe : Option Bytes) :
    (tailOf components).kept pipe = pipe := by
  cases components <;> rfl

/-- The pipe of a walk that enters a container for components. -/
def entryPipe (c : Component) (components : List Component) (s : Spot) (pipe : Option Bytes) :
    Option Bytes :=
  if s.node.lead = .array then (elementTail components c).kept pipe else pipe

/-- The pipe that a search for components leaves. -/
def residue : List Component → Spot → Option Bytes → Option Bytes
  | [], _, pipe => pipe
  | c :: components, s, pipe =>
    lastPipe (search components) (residue components) (s.branches.map (Branch.stop c))
      (entryPipe c components s pipe)

/-- No component with a bar in it meets an array. -/
def Fits : List Component → Spot → Prop
  | [], _ => True
  | c :: components, s =>
    (bar ∈ c.text → s.node.lead ≠ .array) ∧
      ∀ b ∈ s.branches, c.selects b.label = true → Fits components b.toSpot

theorem fits_of_no_bar {components : List Component} (h : ∀ c ∈ components, bar ∉ c.text)
    (s : Spot) : Fits components s := by
  induction components generalizing s with
  | nil => trivial
  | cons c components ih =>
    rw [List.forall_mem_cons] at h
    exact ⟨fun hbar => absurd hbar h.1, fun b _ _ => ih h.2 b.toSpot⟩

theorem entryPipe_eq_self {c : Component} {s : Spot}
    (h : bar ∈ c.text → s.node.lead ≠ .array) (components : List Component)
    (pipe : Option Bytes) : entryPipe c components s pipe = pipe := by
  unfold entryPipe
  split
  · rename_i harray
    have hbar : bar ∉ c.text := fun hbar => h hbar harray
    have hne := elementTail_ne_pipe components hbar
    cases htail : elementTail components c with
    | done => rfl
    | deeper path => rfl
    | pipe path => exact absurd htail (hne path)
  · rfl

/-- The pipe that a search for components leaves in a document that ends at an offset. -/
def residueShown (n : Nat) : List Component → Spot → Option Bytes → Option Bytes
  | [], _, pipe => pipe
  | c :: components, s, pipe =>
    if s.offset < n then
      lastPipe (searchShown n components) (residueShown n components)
        (s.branches.map (Branch.stop c)) (entryPipe c components s pipe)
    else pipe

/-- A search below a scalar leaves the pipe alone. -/
theorem residueShown_scalar (n : Nat) (components : List Component) {s : Spot}
    (h : s.node.isContainer = false) (pipe : Option Bytes) :
    residueShown n components s pipe = pipe := by
  cases components with
  | nil => rfl
  | cons c components =>
    have harray : s.node.lead ≠ .array := by
      intro harray
      rw [Node.isContainer, harray] at h
      cases h
    rw [residueShown, Spot.branches_scalar h, entryPipe, if_neg harray]
    exact ite_self _

/-- Stops in front of the cut leave the pipe that they leave in the whole document, if the searches
below them do. -/
theorem lastPipe_shown {n : Nat} {components : List Component} {stops : List Stop}
    (hafter : ∀ stop ∈ stops, stop.spot.after ≤ n)
    (hleft : ∀ stop ∈ stops, residueShown n components stop.spot = residue components stop.spot)
    (pipe : Option Bytes) :
    lastPipe (searchShown n components) (residueShown n components) stops pipe =
      lastPipe (search components) (residue components) stops pipe := by
  refine lastPipe_congr (fun stop hstop => ?_) hleft pipe
  rw [searchShown_of_after_le (hafter stop hstop), Option.isSome_map]

/-- In front of the cut the search leaves the pipe that it leaves in the whole document. -/
theorem residueShown_of_after_le {n : Nat} {components : List Component} {s : Spot}
    (h : s.after ≤ n) : residueShown n components s = residue components s := by
  induction components generalizing s with
  | nil => rfl
  | cons c components ih =>
    funext pipe
    have hlt := s.offset_lt_after
    have hafter : ∀ stop ∈ s.branches.map (Branch.stop c), stop.spot.after ≤ n := by
      intro stop hstop
      obtain ⟨b, hb, rfl⟩ := List.mem_map.1 hstop
      have hbounds := Spot.bounds_branch hb
      simp only [Branch.stop]
      omega
    rw [residueShown, residue, if_pos (by omega),
      lastPipe_shown hafter fun stop hstop => ih (hafter stop hstop)]

/-- A search that fits leaves the pipe alone, wherever the document ends. -/
theorem residueShown_of_fits (n : Nat) {components : List Component} {s : Spot}
    (h : Fits components s) (pipe : Option Bytes) : residueShown n components s pipe = pipe := by
  induction components generalizing s pipe with
  | nil => rfl
  | cons c components ih =>
    rw [residueShown, entryPipe_eq_self h.1, lastPipe_eq_self, ite_self]
    intro stop hstop hselected pipe
    obtain ⟨b, hb, rfl⟩ := List.mem_map.1 hstop
    exact ih (h.2 b hb hselected) pipe

/-- A search that fits leaves the pipe alone. -/
theorem residue_of_fits {components : List Component} {s : Spot} (h : Fits components s)
    (pipe : Option Bytes) : residue components s pipe = pipe := by
  rw [← residueShown_of_after_le (Nat.le_refl s.after), residueShown_of_fits _ h]

/-! ## Containers -/

/-- The first answer below the stops at branches is the first below the branches that are
selected. -/
theorem firstAnswer_stops {Answer : Type} (goal : Spot → Option Answer) (c : Component)
    (branches : List Branch) :
    firstAnswer goal (branches.map (Branch.stop c)) =
      (branches.filter fun b => c.selects b.label).findSome? fun b => goal b.toSpot := by
  rw [firstAnswer, List.filter_map, List.findSome?_map]
  rfl

section Containers

variable (env : Surroundings)

/-- The scan of a container for a component. -/
def Component.scan (c : Component) (components : List Component) (s : Spot) : Scan :=
  if s.node.lead = .array then .elements (Number.position? c.text) (elementTail components c) 0
  else .members ⟨c.text, c.isWild, tailOf components⟩

/-- Entering an array scans its elements for a component. -/
theorem openAt_array (c : Component) (components : List Component) (start : Cursor) {room : Nat}
    (hroom : room ≠ 0) (walk : Walk) :
    openAt env false start (pathOf (c :: components)) room walk =
      (walk.withPipe ((elementTail components c).kept walk.pipe),
        .scan ⟨.elements (Number.position? c.text) (elementTail components c) 0, room⟩) := by
  rw [openAt, if_neg hroom, if_neg Bool.false_ne_true, openArray, elementComponent_eq]
  simp only [keepPipe_eq]

/-- Entering a container scans it for a component, wherever its inside starts. -/
theorem openAt_container (c : Component) (components : List Component) (s : Spot)
    (hs : s.node.isContainer = true) (start : Cursor) {room : Nat} (hroom : room ≠ 0)
    (walk : Walk) :
    openAt env (s.node.lead == .object) start (pathOf (c :: components)) room walk =
      (walk.withPipe (entryPipe c components s walk.pipe),
        .scan ⟨c.scan components s, room⟩) := by
  obtain ⟨offset, node⟩ := s
  -- The kind of the container decides which reader meets the component
  cases node with
  | word w => cases hs
  | number n => cases hs
  | string body => cases hs
  | object gap members =>
    rw [openAt, if_neg hroom]
    simp [Node.lead, openObject, keyComponent_pathOf, keepPipe_eq, kept_tailOf, entryPipe,
      Component.scan]
  | array gap items => exact openAt_array env c components start hroom walk

/-- The branches of a container are searched for a component. -/
theorem tour_container (c : Component) (components : List Component) (s : Spot)
    (hs : s.node.isContainer = true) (rest : Bytes) (n : Nat) :
    Tour n (tailOf components) (c.scan components s)
      ((Cursor.mk s.offset (s.node.text ++ rest)).advance 1) (s.branches.map (Branch.stop c))
      ⟨s.after, rest⟩ := by
  obtain ⟨offset, node⟩ := s
  cases node with
  | word w => cases hs
  | number n => cases hs
  | string body => cases hs
  | object gap members => exact tour_members c _ (members_object offset gap members rest) n
  | array gap items =>
    exact tour_elements c (elementTail_of_position components)
      (items_array offset gap items rest) n

theorem peek?_container (s : Spot) (hs : s.node.isContainer = true) (rest : Bytes) :
    decide ((Cursor.mk s.offset (s.node.text ++ rest)).peek? = some openBrace) =
      (s.node.lead == .object) := by
  obtain ⟨offset, node⟩ := s
  cases node with
  | word w => cases hs
  | number n => cases hs
  | string body => cases hs
  | array gap items =>
    rw [Node.text_array]
    rfl
  | object gap members =>
    rw [Node.text_object]
    rfl

variable {env} {n : Nat}

/-- Entering a container is searching for a component in what is left of it, if the rest of the path
amounts to a search. -/
theorem entered_of_amountsTo {components : List Component} {room : Nat}
    (hans : AmountsTo env n (tailOf components) room (searchShown n components)
      (residueShown n components))
    (hroom : room ≠ 0) (c : Component) (s : Spot) (hs : s.node.isContainer = true)
    (hlt : s.offset < n) (rest : Bytes) (walk : Walk) (frames : List Frame) :
    entered env walk (s.node.lead == .object)
        (((Cursor.mk s.offset (s.node.text ++ rest)).advance 1).cut n) (pathOf (c :: components))
        room frames =
      conclude env (walk.withPipe (residueShown n (c :: components) s walk.pipe))
        (searchShown n (c :: components) s) ((Cursor.mk s.after rest).cut n) frames := by
  -- Open the container, then walk over the tour of its branches
  simp only [entered, openAt_container env c components s hs _ hroom]
  rw [run_tour hans (tour_container c components s hs rest n), firstAnswer_stops,
    withPipe_withPipe, ← searchShown_cons, residueShown, if_pos hlt]
  rfl

/-- The rest of a path of components amounts to a search for them. -/
theorem amountsTo_tailOf (env : Surroundings) (n : Nat) (components : List Component) {room : Nat}
    (hroom : components.length < room) :
    AmountsTo env n (tailOf components) room (searchShown n components)
      (residueShown n components) := by
  -- On the components, each of which costs the walk one level of its room
  induction components generalizing room with
  | nil =>
    intro s rest hrest scan walk frames
    exact react_take s hrest scan walk frames
  | cons c components ih =>
    intro s rest hrest scan walk frames
    rcases Nat.lt_or_ge s.offset n with hlt | hle
    · cases hcontainer : s.node.isContainer with
      | false =>
        -- A scalar leads no further, so it is passed over
        simp only [tailOf, Scan.select, atContainer_cut s rest hlt, hcontainer,
          Bool.false_eq_true, if_false]
        rw [react_pass s hrest, searchShown_scalar (by simp) hcontainer,
          residueShown_scalar _ _ hcontainer]
        rfl
      | true =>
        have hinner : components.length < room - 1 := by
          simp only [List.length_cons] at hroom
          omega
        simp only [tailOf, Scan.select, atContainer_cut s rest hlt, hcontainer, if_true, react]
        rw [Cursor.peek?_cut hlt, peek?_container s hcontainer rest, Cursor.advance_one_cut hlt,
          entered_of_amountsTo (ih hinner) (by omega) c s hcontainer hlt rest walk
            (⟨scan, room⟩ :: frames)]
    · -- Behind the cut there is nothing to select
      have hafter := s.offset_lt_after
      rw [Cursor.cut_of_le hle, select_end, searchShown_of_le hle, residueShown,
        if_neg (Nat.not_lt.2 hle)]
      refine (run_end env walk _ frames).trans ?_
      exact (run_cut_of_le (by simp only; omega) walk _).symm

/-- Entering a container with a path of components is searching for them in what is left of it. -/
theorem entered_shown (env : Surroundings) (c : Component) (components : List Component) (s : Spot)
    (hs : s.node.isContainer = true) (hlt : s.offset < n) (rest : Bytes) {room : Nat}
    (hroom : (c :: components).length ≤ room) (walk : Walk) (frames : List Frame) :
    entered env walk (s.node.lead == .object)
        (((Cursor.mk s.offset (s.node.text ++ rest)).advance 1).cut n) (pathOf (c :: components))
        room frames =
      conclude env (walk.withPipe (residueShown n (c :: components) s walk.pipe))
        (searchShown n (c :: components) s) ((Cursor.mk s.after rest).cut n) frames := by
  rw [List.length_cons] at hroom
  exact entered_of_amountsTo (amountsTo_tailOf env n components hroom) (by omega) c s hs hlt rest
    walk frames

end Containers

end Grammar

end JsonQuery
