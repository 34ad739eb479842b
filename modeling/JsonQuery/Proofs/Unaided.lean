import JsonQuery.Proofs.Mentions

/-!
# Paths of components are resolved without nested paths

A path that is written for components starts with no byte that has a meaning, and so does whatever
is left of it behind a dot or a bar, even where the reader of positions cuts an escape in two.  So
no filter, no projection, no modifier and no sub-selector is ever met on the way.  Such a path is
resolved by walks alone, which ask nothing of what resolves nested paths, and the room for nested
paths does not matter.

## Layers

- **Paths**: what follows a component is written for components again.
- **Walks**: containers are entered, and scans driven, alike in all surroundings.
- **Chains**: resolution with any room for nested paths, by induction over the links.
-/

namespace JsonQuery

open Ascii Grammar

/-! ## Paths -/

/-- A path that is written for components. -/
def IsPlain (path : Bytes) : Prop :=
  ∃ components, path = pathOf components

/-- What follows a component is a plain path. -/
def Tail.LeadsPlain : Tail → Prop
  | .done => True
  | .deeper path | .pipe path => IsPlain path

/-- The pipe of a walk is a plain path. -/
def Walk.PipesPlain (walk : Walk) : Prop :=
  ∀ pipe ∈ walk.pipe, IsPlain pipe

section Paths

theorem leadsPlain_tailOf (components : List Component) : (tailOf components).LeadsPlain := by
  cases components with
  | nil => trivial
  | cons c components => exact ⟨_, rfl⟩

/-- An escape that is cut in two leaves the pieces behind it. -/
theorem leadsPlain_elementTail (components : List Component) (c : Component) :
    (elementTail components c).LeadsPlain := by
  induction c with
  | nil => exact leadsPlain_tailOf components
  | cons piece pieces ih =>
    cases piece with
    | escaped b =>
      rw [elementTail]
      split
      · exact ⟨_, rfl⟩
      · split
        · exact ⟨_, rfl⟩
        · exact ih
    | plain b hb => exact ih
    | any => exact ih
    | one => exact ih

theorem IsPlain.lines? {path rest : Bytes} (h : IsPlain path)
    (hlines : Walk.lines? path = some rest) : IsPlain rest := by
  obtain ⟨components, rfl⟩ := h
  have hdots : [dot, dot] <+: pathOf components := by
    by_contra hdots
    rw [(lines?_eq_none_iff _).2 hdots] at hlines
    cases hlines
  obtain ⟨_, _, c, tail, -, -, -, hrest⟩ := exists_behind_dots hdots
  exact ⟨c :: tail, Option.some.inj (hlines.symm.trans hrest)⟩

end Paths

/-! ## Walks -/

namespace Walk

section Walks

variable {env env' : Surroundings} {walk : Walk} {path : Bytes}

theorem PipesPlain.keepPipe (hwalk : PipesPlain walk) {tail : Tail} (htail : tail.LeadsPlain) :
    PipesPlain (walk.keepPipe tail) := by
  cases tail with
  | done => exact hwalk
  | deeper path => exact hwalk
  | pipe path =>
    intro pipe hpipe
    obtain rfl : path = pipe := Option.some.inj hpipe
    exact htail

/-- What is scanned for behind a plain path is plain. -/
def OpensPlain : Opening → Prop
  | .scan frame => frame.scan.tail.LeadsPlain
  | .passed _ | .over => True

/-- A plain path selects members or a position, whatever the dialect is. -/
theorem openAt_plain (env env' : Surroundings) (object : Bool) (c : Cursor) (hpath : IsPlain path)
    (room : Nat) (hwalk : PipesPlain walk) :
    openAt env' object c path room walk = openAt env object c path room walk ∧
      PipesPlain (openAt env object c path room walk).1 ∧
      OpensPlain (openAt env object c path room walk).2 := by
  obtain ⟨components, rfl⟩ := hpath
  obtain ⟨component, rest, hpath⟩ := exists_pathOf_cons components
  rw [hpath, openAt, openAt]
  split
  · exact ⟨rfl, hwalk, trivial⟩
  · split
    · simp only [openObject, keyComponent_pathOf]
      exact ⟨trivial, hwalk.keepPipe (leadsPlain_tailOf rest), leadsPlain_tailOf rest⟩
    · have htail := leadsPlain_elementTail rest component
      simp only [openArray, elementComponent_eq]
      exact ⟨trivial, hwalk.keepPipe htail, htail⟩

/-- Open scans for plain paths are driven alike, and keep plain pipes. -/
theorem run_plain (env env' : Surroundings) (hwalk : PipesPlain walk) (c : Cursor)
    (frames : List Frame) (hframes : ∀ frame ∈ frames, frame.scan.tail.LeadsPlain) :
    run env' walk c frames = run env walk c frames ∧ PipesPlain (run env walk c frames) := by
  -- On the events of the walk, which leave scans for plain paths behind
  induction walk, c, frames using @run_induction env with
  | nil walk c =>
    rw [run_nil, run_nil]
    exact ⟨rfl, hwalk⟩
  | skip walk c frame frames scan next hstep ih =>
    obtain ⟨hframe, hframes⟩ := List.forall_mem_cons.1 hframes
    have hkeeps := Scan.keeps_step frame.scan c
    rw [hstep] at hkeeps
    rw [run_cons, run_cons, hstep]
    exact ih hwalk (List.forall_mem_cons.2 ⟨hkeeps ▸ hframe, hframes⟩)
  | close walk c frame frames next hstep ih =>
    rw [run_cons, run_cons, hstep]
    exact ih hwalk (List.forall_mem_cons.1 hframes).2
  | found walk c frame frames value hstep =>
    rw [run_cons, run_cons, hstep]
    exact ⟨rfl, hwalk⟩
  | enter walk c frame frames scan bracket path hstep ihscan ihpassed =>
    obtain ⟨hframe, hframes⟩ := List.forall_mem_cons.1 hframes
    have hkeeps := Scan.keeps_step frame.scan c
    rw [hstep] at hkeeps
    obtain ⟨hscan, hdeeper⟩ := hkeeps
    have hpath : IsPlain path := by
      rw [hdeeper] at hframe
      exact hframe
    have houter : ∀ frame' ∈ ⟨scan, frame.room⟩ :: frames, frame'.scan.tail.LeadsPlain :=
      List.forall_mem_cons.2 ⟨hscan ▸ hframe, hframes⟩
    obtain ⟨hsame, hplain, hopens⟩ := openAt_plain env env' (bracket.peek? = some openBrace)
      (bracket.advance 1) hpath (frame.room - 1) hwalk
    rw [run_cons, run_cons, hstep]
    simp only [react, entered, hsame]
    rcases hopen : openAt env (bracket.peek? = some openBrace) (bracket.advance 1) path
      (frame.room - 1) walk with ⟨after, inner | next | _⟩
    · rw [hopen] at hplain hopens
      exact ihscan after inner hopen hplain (List.forall_mem_cons.2 ⟨hopens, houter⟩)
    · rw [hopen] at hplain
      exact ihpassed after next hopen hplain houter
    · rw [hopen] at hplain
      exact ⟨rfl, hplain⟩

theorem enter_plain (env env' : Surroundings) (object : Bool) (c : Cursor) (hpath : IsPlain path)
    (room : Nat) :
    enter env' object c path room = enter env object c path room ∧
      PipesPlain (enter env object c path room) := by
  have hblank : PipesPlain {} := nofun
  obtain ⟨hsame, hplain, hopens⟩ := openAt_plain env env' object c hpath room hblank
  rw [enter, enter, hsame]
  generalize openAt env object c path room {} = opened at hplain hopens ⊢
  rcases opened with ⟨after, inner | next | _⟩
  · exact run_plain env env' hplain c [inner] (List.forall_mem_singleton.2 hopens)
  · exact ⟨rfl, hplain⟩
  · exact ⟨rfl, hplain⟩

/-- A walk for a plain path is the same in all surroundings, and its pipe is plain. -/
theorem start_plain (env env' : Surroundings) (text : Bytes) (hpath : IsPlain path) (room : Nat) :
    start env' text path room = start env text path room ∧
      PipesPlain (start env text path room) := by
  unfold start
  split
  · rename_i rest hlines
    exact enter_plain env env' _ _ (hpath.lines? hlines) room
  · dsimp only
    split
    · exact ⟨rfl, nofun⟩
    · exact enter_plain env env' _ _ hpath room

end Walks

end Walk

/-! ## Chains -/

namespace Engine

variable (engine : Engine)

/-- A chain of plain paths consists of walks, whatever resolves nested paths. -/
theorem chain_plain (nested nested' : Nested) (room room' : Nat) (text : Bytes) {path : Bytes}
    (hpath : IsPlain path) (base : Option Nat) (counts : Counters) (depth : Nat) :
    engine.chain nested' room' text path base counts depth =
      engine.chain nested room text path base counts depth := by
  -- On the depth, of which every link of the chain takes one
  induction depth generalizing text path base counts with
  | zero => rfl
  | succ depth ih =>
    have hlink : ∀ nested room, engine.link nested room depth text path = .components := by
      obtain ⟨components, rfl⟩ := hpath
      exact fun nested room => link_pathOf engine nested room depth text components
    obtain ⟨hwalk, hpipe⟩ := Walk.start_plain ⟨engine.dialect, nested⟩ ⟨engine.dialect, nested'⟩
      text hpath (depth + 1)
    rw [chain_components _ _ _ _ _ (hlink nested' room'),
      chain_components _ _ _ _ _ (hlink nested room)]
    dsimp only
    rw [hwalk]
    generalize Walk.start _ text path (depth + 1) = walk at hpipe
    split
    · rfl
    · rename_i pipe hkept
      exact ih walk.value.raw (hpipe pipe hkept) _ _

/-- For a plain path any room for nested paths is as good as any other, as long as it has its
own. -/
theorem resolve_plain (room room' : Nat) (text : Bytes) {path : Bytes} (hpath : IsPlain path)
    (depth : Nat) :
    engine.resolve (room' + 1) text path depth = engine.resolve (room + 1) text path depth := by
  rw [resolve, resolve]
  exact engine.chain_plain _ _ _ _ text hpath (some 0) .zero depth

end Engine

end JsonQuery
