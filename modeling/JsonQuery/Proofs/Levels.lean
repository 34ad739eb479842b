import JsonQuery.Proofs.Descent
import JsonQuery.Proofs.Unaided

/-!
# How much depth a path of components needs

A path of components needs one level of depth for each of them, whatever text it is resolved in: a
walk finds nothing before it has entered that many containers, and enters no more of them.  A pipe
that is left where an array cuts a component in two needs no more levels than are left behind the
container in front of it, unless the array is the outermost one, and in that one nothing is found.
So a path finds the same with any depth that it fits into, and nothing with less.

## Layers

- **Scans**: what a scan does is decided by the components behind its own.
- **Walks**: scans with enough room and with too little, by induction over the events of a walk.
- **Chains**: resolution with more depth, by induction over the links, and with too little.
-/

namespace JsonQuery

open Ascii Grammar

/-! ## Scans -/

/-- A scan of an array for no position at all. -/
def Scan.Nowhere (scan : Scan) : Prop :=
  ∃ tail passed, scan = .elements none tail passed

/-- A scan that selects nothing, or behind whose component some others follow. -/
def Scan.LeadsTo (components : List Component) (scan : Scan) : Prop :=
  scan.Nowhere ∨ scan.tail = tailOf components

/-- What happens in a scan behind whose component some others follow. -/
def Event.LeadsTo (components : List Component) : Event → Prop
  | .skip scan _ => scan.LeadsTo components
  | .enter scan _ path =>
    scan.LeadsTo components ∧ ∃ c rest, components = c :: rest ∧ path = pathOf components
  | .found _ => components = []
  | .close _ => True

namespace Scan

section Scans

variable {scan : Scan} {components : List Component}

/-- A scan for no position passes over all elements. -/
theorem Nowhere.step (h : scan.Nowhere) (c : Cursor) :
    (∃ scan' next, scan.step c = .skip scan' next ∧ scan'.Nowhere) ∨
      ∃ next, scan.step c = .close next := by
  obtain ⟨tail, passed, rfl⟩ := h
  dsimp only [Scan.step, stepElement]
  split
  · exact .inr ⟨_, rfl⟩
  · rw [if_neg (fun hnone => nomatch hnone), pass]
    split
    · exact .inl ⟨_, _, rfl, tail, passed + 1, rfl⟩
    · exact .inr ⟨_, rfl⟩

theorem pass_ne_found (scan : Scan) (c : Cursor) (value : Result) :
    scan.pass c ≠ .found value := by
  unfold pass
  split <;> exact Event.noConfusion

theorem select_deeper_ne_found (scan : Scan) (path : Bytes) (c : Cursor) (value : Result) :
    scan.select (.deeper path) c ≠ .found value := by
  dsimp only [select]
  split
  · exact Event.noConfusion
  · exact pass_ne_found scan c value

/-- Where the path goes on, nothing is found yet. -/
theorem step_ne_found {path : Bytes} (h : scan.tail = .deeper path) (c : Cursor)
    (value : Result) : scan.step c ≠ .found value := by
  cases scan with
  | members component =>
    have htail : component.tail = .deeper path := h
    dsimp only [Scan.step, stepMember]
    split
    · exact Event.noConfusion
    · split
      · exact Event.noConfusion
      · split
        · rw [htail]
          exact select_deeper_ne_found _ _ _ _
        · exact pass_ne_found _ _ _
  | elements target tail passed =>
    have htail : tail = .deeper path := h
    dsimp only [Scan.step, stepElement]
    split
    · exact Event.noConfusion
    · split
      · rw [htail]
        exact select_deeper_ne_found _ _ _ _
      · exact pass_ne_found _ _ _

/-- A container is entered with the components that follow, and a value is found where none do. -/
theorem LeadsTo.step (h : scan.LeadsTo components) (c : Cursor) :
    (scan.step c).LeadsTo components := by
  rcases h with hnowhere | htail
  · rcases hnowhere.step c with ⟨next, after, hstep, hnext⟩ | ⟨after, hstep⟩
    · rw [hstep]
      exact .inl hnext
    · rw [hstep]
      trivial
  · have hkeeps := scan.keeps_step c
    cases hstep : scan.step c with
    | skip next after =>
      rw [hstep] at hkeeps
      exact .inr (hkeeps.trans htail)
    | enter next bracket path =>
      rw [hstep] at hkeeps
      have hdeeper := htail.symm.trans hkeeps.2
      cases components with
      | nil => cases hdeeper
      | cons component rest =>
        exact ⟨.inr (hkeeps.1.trans htail), component, rest, rfl, (Tail.deeper.inj hdeeper).symm⟩
    | found value =>
      cases components with
      | nil => rfl
      | cons component rest => exact absurd hstep (step_ne_found htail c value)
    | close next => trivial

end Scans

end Scan

/-! ## Walks -/

/-- A path for at most so many components, of which none but the first one may be empty. -/
def FitsLevels (levels : Nat) (path : Bytes) : Prop :=
  ∃ c components, path = pathOf (c :: components) ∧ (∀ c ∈ components, c.text ≠ []) ∧
    components.length < levels

/-- An open scan with room for the components behind its own, and for no more than some levels. -/
def Frame.Fits (levels : Nat) (frame : Frame) : Prop :=
  frame.room ≤ levels ∧ ∃ components, frame.scan.LeadsTo components ∧
    (∀ c ∈ components, c.text ≠ []) ∧ components.length < frame.room

/-- An open scan with less room than the components behind its own need, which are no more than some
levels. -/
def Frame.Short (levels : Nat) (frame : Frame) : Prop :=
  0 < frame.room ∧ ∃ components, frame.scan.LeadsTo components ∧
    (∀ c ∈ components, c.text ≠ []) ∧ frame.room ≤ components.length ∧ components.length ≤ levels

namespace Walk

section Walks

variable {env : Surroundings} {walk : Walk} {levels : Nat}

/-- The pipe of a walk fits into some levels. -/
def PipeFits (levels : Nat) (walk : Walk) : Prop :=
  ∀ pipe ∈ walk.pipe, FitsLevels levels pipe

theorem PipeFits.keepPipe (hwalk : PipeFits levels walk) {tail : Tail}
    (htail : ∀ path, tail = .pipe path → FitsLevels levels path) :
    PipeFits levels (walk.keepPipe tail) := by
  cases tail with
  | done => exact hwalk
  | deeper path => exact hwalk
  | pipe path =>
    intro pipe hpipe
    obtain rfl : path = pipe := Option.some.inj hpipe
    exact htail path rfl

/-- Entering a container for components starts a scan for the first of them.  A pipe is left only by
an array that has no element for it. -/
theorem openAt_leadsTo (env : Surroundings) (object : Bool) (start : Cursor) (c : Component)
    (components : List Component) {room : Nat} (hroom : room ≠ 0) (walk : Walk) :
    ∃ scan tail,
      openAt env object start (pathOf (c :: components)) room walk =
        (walk.keepPipe tail, .scan ⟨scan, room⟩) ∧
      scan.LeadsTo components ∧
      ∀ path, tail = .pipe path →
        scan.Nowhere ∧ ∃ c', path = pathOf (c' :: components) := by
  rw [openAt, if_neg hroom]
  cases object with
  | true =>
    refine ⟨.members ⟨c.text, c.isWild, tailOf components⟩, tailOf components, ?_, .inr rfl, ?_⟩
    · simp only [if_true, openObject, keyComponent_pathOf]
    · exact fun path hpath => absurd hpath (tailOf_ne_pipe components path)
  | false =>
    refine ⟨.elements (Number.position? c.text) (elementTail components c) 0,
      elementTail components c, ?_, ?_⟩
    · simp [openArray, elementComponent_eq]
    · cases hposition : Number.position? c.text with
      | none =>
        have hnowhere : (Scan.elements none (elementTail components c) 0).Nowhere := ⟨_, _, rfl⟩
        exact ⟨.inl hnowhere, fun _ hpath => ⟨hnowhere, exists_pathOf_of_elementTail hpath⟩⟩
      | some n =>
        rw [elementTail_of_position components (by rw [hposition]; rfl)]
        exact ⟨.inr rfl, fun path hpath => absurd hpath (tailOf_ne_pipe components path)⟩

/-- Open scans that fit hit no bound, and the pipe that they leave fits into the levels behind the
outermost one. -/
theorem run_fits (hhits : walk.hits = 0) (hpipe : PipeFits levels walk) (c : Cursor)
    (frames : List Frame) (hframes : ∀ frame ∈ frames, frame.Fits (levels + 1)) :
    (run env walk c frames).hits = 0 ∧ PipeFits levels (run env walk c frames) := by
  -- On the events of the walk: each container that is entered takes one level
  induction walk, c, frames using @run_induction env with
  | nil walk c =>
    rw [run_nil]
    exact ⟨hhits, hpipe⟩
  | skip walk c frame frames scan next hstep ih =>
    obtain ⟨⟨hroom, components, hleads, hne, hlength⟩, hframes⟩ := List.forall_mem_cons.1 hframes
    have hnext := hleads.step c
    rw [hstep] at hnext
    rw [run_cons, hstep]
    exact ih hhits hpipe
      (List.forall_mem_cons.2 ⟨⟨hroom, components, hnext, hne, hlength⟩, hframes⟩)
  | close walk c frame frames next hstep ih =>
    rw [run_cons, hstep]
    exact ih hhits hpipe (List.forall_mem_cons.1 hframes).2
  | found walk c frame frames value hstep =>
    rw [run_cons, hstep]
    exact ⟨hhits, hpipe⟩
  | enter walk c frame frames scan bracket path hstep ihscan ihpassed =>
    obtain ⟨⟨hroom, components, hleads, hne, hlength⟩, hframes⟩ := List.forall_mem_cons.1 hframes
    have hnext := hleads.step c
    rw [hstep] at hnext
    obtain ⟨houter, component, rest, rfl, rfl⟩ := hnext
    obtain ⟨-, hrest⟩ := List.forall_mem_cons.1 hne
    have hless : rest.length < frame.room - 1 := by
      rw [List.length_cons] at hlength
      omega
    obtain ⟨inner, tail, hopen, hinner, htail⟩ := openAt_leadsTo env
      (bracket.peek? = some openBrace) (bracket.advance 1) component rest
      (Nat.ne_zero_of_lt hless) walk
    have hkept : PipeFits levels (walk.keepPipe tail) := by
      apply hpipe.keepPipe
      intro path hpath
      obtain ⟨-, c', rfl⟩ := htail path hpath
      exact ⟨c', rest, rfl, hrest, by omega⟩
    have hrun := ihscan _ _ hopen (by rwa [hits_keepPipe]) hkept
      (List.forall_mem_cons.2 ⟨⟨by dsimp only; omega, rest, hinner, hrest, hless⟩,
        List.forall_mem_cons.2 ⟨⟨hroom, _, houter, hne, hlength⟩, hframes⟩⟩)
    rw [run_cons, hstep]
    simp only [react, entered, hopen]
    exact hrun

/-- Open scans with too little room find nothing. -/
theorem run_short (hpipe : PipeFits levels walk) (c : Cursor) (frames : List Frame)
    (hframes : ∀ frame ∈ frames, frame.Short levels) :
    (run env walk c frames).value = walk.value ∧ PipeFits levels (run env walk c frames) := by
  -- On the events of the walk: no container is entered in front of the last component
  induction walk, c, frames using @run_induction env with
  | nil walk c =>
    rw [run_nil]
    exact ⟨rfl, hpipe⟩
  | skip walk c frame frames scan next hstep ih =>
    obtain ⟨⟨hroom, components, hleads, hlength⟩, hframes⟩ := List.forall_mem_cons.1 hframes
    have hnext := hleads.step c
    rw [hstep] at hnext
    rw [run_cons, hstep]
    exact ih hpipe (List.forall_mem_cons.2 ⟨⟨hroom, components, hnext, hlength⟩, hframes⟩)
  | close walk c frame frames next hstep ih =>
    rw [run_cons, hstep]
    exact ih hpipe (List.forall_mem_cons.1 hframes).2
  | found walk c frame frames value hstep =>
    obtain ⟨⟨hroom, components, hleads, -, hlength, -⟩, -⟩ := List.forall_mem_cons.1 hframes
    have hnext := hleads.step c
    rw [hstep] at hnext
    obtain rfl : components = [] := hnext
    exact absurd hlength (Nat.not_le.2 hroom)
  | enter walk c frame frames scan bracket path hstep ihscan ihpassed =>
    obtain ⟨⟨hroom, components, hleads, hne, hlength, hlevels⟩, hframes⟩ :=
      List.forall_mem_cons.1 hframes
    have hnext := hleads.step c
    rw [hstep] at hnext
    obtain ⟨houter, component, rest, rfl, rfl⟩ := hnext
    obtain ⟨-, hrest⟩ := List.forall_mem_cons.1 hne
    rw [List.length_cons] at hlength hlevels
    rw [run_cons, hstep]
    simp only [react, entered]
    by_cases hzero : frame.room - 1 = 0
    · -- Without room the walk is over
      rw [openAt, if_pos hzero]
      exact ⟨rfl, hpipe⟩
    · obtain ⟨inner, tail, hopen, hinner, htail⟩ := openAt_leadsTo env
        (bracket.peek? = some openBrace) (bracket.advance 1) component rest hzero walk
      have hkept : PipeFits levels (walk.keepPipe tail) := by
        apply hpipe.keepPipe
        intro path hpath
        obtain ⟨-, c', rfl⟩ := htail path hpath
        exact ⟨c', rest, rfl, hrest, by omega⟩
      have hrun := ihscan _ _ hopen hkept
        (List.forall_mem_cons.2 ⟨⟨by dsimp only; omega, rest, hinner, hrest, by dsimp only; omega,
          by omega⟩, List.forall_mem_cons.2
            ⟨⟨hroom, _, houter, hne, by rwa [List.length_cons], by rwa [List.length_cons]⟩,
              hframes⟩⟩)
      rw [value_keepPipe] at hrun
      rw [hopen]
      exact hrun

/-- A scan that selects nothing changes nothing about the walk. -/
theorem run_nowhere (env : Surroundings) (walk : Walk) (c : Cursor) (frames : List Frame)
    (hframes : ∀ frame ∈ frames, frame.scan.Nowhere) : run env walk c frames = walk := by
  induction walk, c, frames using @run_induction env with
  | nil walk c => exact run_nil env walk c
  | skip walk c frame frames scan next hstep ih =>
    obtain ⟨hframe, hframes⟩ := List.forall_mem_cons.1 hframes
    rcases hframe.step c with ⟨_, _, hskip, hnext⟩ | ⟨_, hclose⟩
    · obtain ⟨rfl, rfl⟩ := Event.skip.inj (hstep.symm.trans hskip)
      rw [run_cons, hstep]
      exact ih (List.forall_mem_cons.2 ⟨hnext, hframes⟩)
    · cases hstep.symm.trans hclose
  | close walk c frame frames next hstep ih =>
    rw [run_cons, hstep]
    exact ih (List.forall_mem_cons.1 hframes).2
  | found walk c frame frames value hstep =>
    rcases (List.forall_mem_cons.1 hframes).1.step c with ⟨_, _, hskip, -⟩ | ⟨_, hclose⟩
    · cases hstep.symm.trans hskip
    · cases hstep.symm.trans hclose
  | enter walk c frame frames scan bracket path hstep ihscan ihpassed =>
    rcases (List.forall_mem_cons.1 hframes).1.step c with ⟨_, _, hskip, -⟩ | ⟨_, hclose⟩
    · cases hstep.symm.trans hskip
    · cases hstep.symm.trans hclose

theorem pipeFits_blank : PipeFits levels {} :=
  nofun

variable {c : Component} {components : List Component} (hne : ∀ c ∈ components, c.text ≠ [])

include hne

/-- A walk for components that there is room for hits no bound.  Its pipe fits into the levels
behind the first one, unless nothing was found. -/
theorem start_fits (env : Surroundings) (text : Bytes) (hlength : components.length < levels + 1) :
    (start env text (pathOf (c :: components)) (levels + 1)).hits = 0 ∧
      ∀ pipe ∈ (start env text (pathOf (c :: components)) (levels + 1)).pipe,
        FitsLevels levels pipe ∨
          (start env text (pathOf (c :: components)) (levels + 1)).value = .missing ∧
            FitsLevels (levels + 1) pipe := by
  rw [start, lines?_pathOf_cons c hne]
  dsimp only
  split
  · exact ⟨rfl, fun pipe hkept => .inl (pipeFits_blank pipe hkept)⟩
  · rename_i b hpeek
    obtain ⟨scan, tail, hopen, hleads, htail⟩ := openAt_leadsTo env (b == openBrace)
      ((Cursor.start text).toContainer.advance 1) c components (Nat.succ_ne_zero levels) {}
    have hframe : Frame.Fits (levels + 1) ⟨scan, levels + 1⟩ :=
      ⟨Nat.le_refl _, components, hleads, hne, hlength⟩
    have hrun := @run_fits env {} levels rfl pipeFits_blank
      ((Cursor.start text).toContainer.advance 1) [⟨scan, levels + 1⟩]
      (List.forall_mem_singleton.2 hframe)
    rw [enter, hopen]
    cases tail with
    | done => exact ⟨hrun.1, fun pipe hkept => .inl (hrun.2 pipe hkept)⟩
    | deeper path => exact ⟨hrun.1, fun pipe hkept => .inl (hrun.2 pipe hkept)⟩
    | pipe path =>
      obtain ⟨hnowhere, c', rfl⟩ := htail path rfl
      dsimp only
      rw [run_nowhere env _ _ _ (List.forall_mem_singleton.2 hnowhere)]
      refine ⟨rfl, fun pipe hkept => .inr ⟨rfl, ?_⟩⟩
      obtain rfl := Option.some.inj hkept
      exact ⟨c', components, rfl, hne, hlength⟩

/-- A walk for components that there is too little room for finds nothing. -/
theorem start_short (env : Surroundings) (text : Bytes) {room : Nat}
    (hroom : room ≤ components.length) :
    (start env text (pathOf (c :: components)) room).value = .missing ∧
      PipeFits (components.length + 1) (start env text (pathOf (c :: components)) room) := by
  rw [start, lines?_pathOf_cons c hne]
  dsimp only
  split
  · exact ⟨rfl, pipeFits_blank⟩
  · rename_i b hpeek
    rw [enter]
    by_cases hzero : room = 0
    · rw [openAt, if_pos hzero]
      exact ⟨rfl, pipeFits_blank⟩
    · obtain ⟨scan, tail, hopen, hleads, htail⟩ := openAt_leadsTo env (b == openBrace)
        ((Cursor.start text).toContainer.advance 1) c components hzero {}
      have hkept : PipeFits (components.length + 1) (({} : Walk).keepPipe tail) := by
        apply pipeFits_blank.keepPipe
        intro path hpath
        obtain ⟨-, c', rfl⟩ := htail path hpath
        exact ⟨c', components, rfl, hne, Nat.lt_succ_self _⟩
      have hframe : Frame.Short (components.length + 1) ⟨scan, room⟩ :=
        ⟨Nat.pos_of_ne_zero hzero, components, hleads, hne, hroom, Nat.le_succ _⟩
      have hrun := @run_short env _ _ hkept ((Cursor.start text).toContainer.advance 1)
        [⟨scan, room⟩] (List.forall_mem_singleton.2 hframe)
      rw [value_keepPipe] at hrun
      rw [hopen]
      exact hrun

end Walks

end Walk

/-! ## Chains -/

namespace Engine

section Chains

variable (engine : Engine)

/-- A path that fits finds the same with more depth. -/
theorem value_chain_fits (room : Nat) {levels : Nat} {path : Bytes}
    (hpath : FitsLevels levels path) (text : Bytes) (base : Option Nat) (counts : Counters)
    (more : Nat) :
    (engine.chain (engine.resolve room) room text path base counts (levels + more)).value =
      (engine.chain (engine.resolve room) room text path base counts levels).value := by
  -- On the depth, of which every link of the chain takes one
  induction levels generalizing path text base counts with
  | zero =>
    obtain ⟨_, _, -, -, hlength⟩ := hpath
    exact absurd hlength (Nat.not_lt_zero _)
  | succ levels ih =>
    obtain ⟨c, components, rfl, hne, hlength⟩ := hpath
    have hlink := fun depth => link_pathOf engine (engine.resolve room) room depth text
      (c :: components)
    have hdepth : levels + 1 + more = levels + more + 1 := by omega
    have hsteady := @Walk.start_steady ⟨engine.dialect, engine.resolve room⟩ more
      (engine.resolve_steady more room) text (pathOf (c :: components)) (levels + 1)
    obtain ⟨hhits, hpipe⟩ := @Walk.start_fits levels c components hne
      ⟨engine.dialect, engine.resolve room⟩ text hlength
    have hsame := hsteady.same hhits
    rw [hdepth] at hsame ⊢
    rw [chain_components _ _ _ _ _ (hlink _), chain_components _ _ _ _ _ (hlink _), hsame]
    dsimp only
    generalize Walk.start _ text _ (levels + 1) = walk at hpipe ⊢
    cases hkept : walk.pipe with
    | none => rfl
    | some pipe =>
      dsimp only
      rcases hpipe pipe hkept with hfits | ⟨hmissing, c, components, rfl, hne, -⟩
      · exact ih hfits _ _ _
      · -- Nothing comes of nothing with any depth
        have hlines := lines?_pathOf_cons c hne
        rw [hmissing, chain_missing engine _ _ _ hlines, chain_missing engine _ _ _ hlines]

/-- A path finds nothing with less depth than there are components. -/
theorem value_chain_short (nested : Nested) (room : Nat) {c : Component}
    {components : List Component} (hne : ∀ c ∈ components, c.text ≠ []) (text : Bytes)
    (base : Option Nat) (counts : Counters) {depth : Nat} (hdepth : depth ≤ components.length) :
    (engine.chain nested room text (pathOf (c :: components)) base counts depth).value =
      .missing := by
  cases depth with
  | zero => rfl
  | succ depth =>
    obtain ⟨hmissing, hpipe⟩ := @Walk.start_short c components hne ⟨engine.dialect, nested⟩ text _
      hdepth
    rw [chain_components _ _ _ _ _ (link_pathOf engine _ _ _ text (c :: components))]
    dsimp only
    generalize Walk.start _ text _ (depth + 1) = walk at hmissing hpipe ⊢
    rw [hmissing]
    cases hkept : walk.pipe with
    | none => exact Result.missing_rebase base
    | some pipe =>
      obtain ⟨c', rest, rfl, hrest, -⟩ := hpipe pipe hkept
      exact chain_missing engine _ _ _ (lines?_pathOf_cons c' hrest) _ _ _

/-- With one level less than the depth of a query, a path finds what the query finds if it fits into
that many levels, and nothing otherwise. -/
theorem value_nested_levels {depth : Nat} (hmax : engine.config.maxDepth = depth + 1)
    (text : Bytes) {c : Component} {components : List Component}
    (hne : ∀ c ∈ components, c.text ≠ []) :
    (engine.resolve 127 text (pathOf (c :: components)) depth).value =
      if components.length < depth then (engine.get text (pathOf (c :: components))).value
      else .missing := by
  split
  · rename_i hlength
    have hplain : IsPlain (pathOf (c :: components)) := ⟨_, rfl⟩
    rw [get, hmax, pathNesting, engine.resolve_plain 126 127 text hplain (depth + 1)]
    exact (engine.value_chain_fits 126 ⟨c, components, rfl, hne, hlength⟩ text (some 0) .zero
      1).symm
  · rename_i hlength
    exact engine.value_chain_short _ _ hne text _ _ (Nat.not_lt.1 hlength)

end Chains

end Engine

end JsonQuery
