import JsonQuery.Proofs.Depth
import JsonQuery.Proofs.Lines

/-!
# A pipe is chaining

A pipe behind a path of components changes nothing about the walk for them: the same containers are
entered and the same value is found, whatever bytes the text holds.  The walk only keeps the path
behind the pipe, and the chain then goes on inside of the value as a query of its own would.

## Layers

- **Paths**: the readers of components meet the pipe where the path without it ends.
- **Scans**: a scan for a path with a pipe makes the same steps.
- **Walks**: entering containers and driving the scans, by induction over the events of a walk.
- **Queries**: resolving behind the pipe is querying the result.
-/

namespace JsonQuery

open Ascii

/-! ## Paths -/

/-- The path with a pipe and another path behind it. -/
def piped (path next : Bytes) : Bytes :=
  path ++ bar :: next

/-- What follows a component whose path has a pipe behind it. -/
def Tail.piped (next : Bytes) : Tail → Tail
  | .done => .pipe next
  | .deeper path => .deeper (JsonQuery.piped path next)
  | .pipe path => .pipe (JsonQuery.piped path next)

section Paths

variable (dialect : Dialect) (next : Bytes)

/-- A pipe ends the name of a modifier, so it makes no other path behind a dot a modifier. -/
theorem Dialect.pipesInto_piped (path : Bytes) :
    dialect.pipesInto (piped path next) = dialect.pipesInto path := by
  cases path with
  | nil => rfl
  | cons c rest =>
    have hname : (piped rest next).takeWhile (!endsModifierName ·) =
        rest.takeWhile (!endsModifierName ·) := by
      induction rest with
      | nil => rfl
      | cons b rest ih =>
        rw [piped, List.cons_append, List.takeWhile_cons, List.takeWhile_cons]
        split
        · exact congrArg (b :: ·) ih
        · rfl
    have hpiped : piped (c :: rest) next = c :: piped rest next := rfl
    simp only [pipesInto, hpiped, hname]

theorem Dialect.afterDot_piped (path : Bytes) :
    dialect.afterDot (piped path next) = (dialect.afterDot path).piped next := by
  simp only [afterDot, pipesInto_piped]
  split <;> rfl

namespace ElementComponent

/-- The part read from a path with a pipe behind it. -/
def Part.piped (part : Part) : Part :=
  { part with tail := part.tail.piped next }

/-- The reader of a part stops at a bar wherever it stands. -/
theorem partFrom_piped {path : Bytes} (hbar : bar ∉ path) (before : Bytes) (counting : Bool) :
    partFrom dialect before counting (JsonQuery.piped path next) =
      (partFrom dialect before counting path).piped next := by
  induction path generalizing before counting with
  | nil => rfl
  | cons c rest ih =>
    rw [List.mem_cons, not_or] at hbar
    have hne : c ≠ bar := fun h => hbar.1 h.symm
    have hpiped : JsonQuery.piped (c :: rest) next = c :: JsonQuery.piped rest next := rfl
    rw [hpiped, partFrom, partFrom, if_neg hne, if_neg hne]
    split
    · rw [dialect.afterDot_piped]
      cases counting <;> rfl
    · exact ih hbar.2 _ _

/-- Only a hash sign alone asks what follows it. -/
theorem Part.selection_piped {part : Part} {n : Option Nat} (h : part.selection = .position n) :
    (part.piped next).selection = .position n := by
  unfold Part.selection at h ⊢
  split at h
  · split at h
    · split at h <;> cases h
    · rename_i hcounting htext
      rw [← h]
      simp [Part.piped, hcounting, htext]
  · rename_i hcounting
    rw [← h]
    simp [Part.piped, hcounting]

end ElementComponent

namespace Grammar

theorem startsPlain_piped {path : Bytes} (h : StartsPlain path) :
    StartsPlain (piped path next) := by
  cases path with
  | nil =>
    intro b hb
    have hb : bar = b := by simpa [piped] using hb
    subst hb
    decide
  | cons c rest => exact fun b hb => h b hb

theorem parseFrom_behind_piped (before : Bytes) (wild : Bool) (components : List Component) :
    KeyComponent.parseFrom dialect before wild (piped (behind components) next) =
      ⟨before.reverse, wild, (tailOf components).piped next⟩ := by
  cases components with
  | nil =>
    have hpiped : piped (behind []) next = bar :: next := rfl
    rw [hpiped, parseFrom_cons dialect (by decide), if_pos rfl]
    rfl
  | cons c components =>
    have hpiped : piped (behind (c :: components)) next =
        dot :: piped (pathOf (c :: components)) next := rfl
    rw [hpiped, parseFrom_cons dialect (by decide), if_neg (by decide), if_pos rfl,
      afterDot_of_startsPlain dialect (startsPlain_piped next (startsPlain_pathOf _))]
    rfl

/-- Behind a component that meets an object stands the rest of the path, and then the pipe. -/
theorem keyComponent_piped (c : Component) (components : List Component) :
    KeyComponent.parse dialect (piped (pathOf (c :: components)) next) =
      ⟨c.text, c.isWild, (tailOf components).piped next⟩ := by
  have hpiped : piped (pathOf (c :: components)) next =
      c.text ++ piped (behind components) next := by
    rw [piped, piped, pathOf_cons, List.append_assoc]
  rw [hpiped, KeyComponent.parse, parseFrom_text, parseFrom_behind_piped]
  simp

theorem not_startsFilter_piped (components : List Component) :
    Filter.starts (piped (pathOf components) next) = false :=
  (startsPlain_piped next (startsPlain_pathOf components)).not_startsFilter

/-- A component that meets an array names the same position with a pipe behind its path. -/
theorem elementComponent_piped (c : Component) (components : List Component)
    (hbar : bar ∉ pathOf (c :: components)) :
    ∃ tail, ElementComponent.parse? dialect (pathOf (c :: components)) =
        some ⟨.position (Number.position? c.text), tail⟩ ∧
      ElementComponent.parse? dialect (piped (pathOf (c :: components)) next) =
        some ⟨.position (Number.position? c.text), tail.piped next⟩ ∧
      ((Number.position? c.text).isSome = true → tail = tailOf components) ∧
      ∀ path, tail ≠ .pipe path := by
  have hparse := elementComponent_eq dialect c components
  refine ⟨elementTail components c, hparse, ?_, elementTail_of_position components,
    elementTail_ne_pipe components (bar_notMem_of_pathOf hbar c List.mem_cons_self)⟩
  rw [ElementComponent.parse?, not_startsFilter_pathOf, if_neg Bool.false_ne_true,
    Option.some.injEq, ElementComponent.mk.injEq] at hparse
  rw [ElementComponent.parse?, not_startsFilter_piped, if_neg Bool.false_ne_true,
    ElementComponent.partFrom_piped dialect next hbar]
  dsimp only
  rw [ElementComponent.Part.selection_piped next hparse.1, ← hparse.2]
  rfl

end Grammar

end Paths

/-! ## Scans -/

/-- The scan for a path with a pipe behind it. -/
def Scan.piped (next : Bytes) : Scan → Scan
  | .members component => .members { component with tail := component.tail.piped next }
  | .elements target tail passed => .elements target (tail.piped next) passed

/-- What happens at a member or element where the path has a pipe behind it. -/
def Event.piped (next : Bytes) : Event → Event
  | .skip scan after => .skip (scan.piped next) after
  | .enter scan bracket path => .enter (scan.piped next) bracket (JsonQuery.piped path next)
  | .found value => .found value
  | .close after => .close after

/-- The open scan with a pipe behind its path. -/
def Frame.piped (next : Bytes) (frame : Frame) : Frame :=
  { frame with scan := frame.scan.piped next }

namespace Scan

theorem pass_piped (next : Bytes) (scan : Scan) (c : Cursor) :
    (scan.piped next).pass c = (scan.pass c).piped next := by
  unfold pass
  split <;> rfl

theorem take_piped (next : Bytes) (c : Cursor) : (take c).piped next = take c := by
  unfold take
  split <;> rfl

theorem select_piped (next : Bytes) (scan : Scan) (tail : Tail) (c : Cursor) :
    (scan.piped next).select (tail.piped next) c = (scan.select tail c).piped next := by
  cases tail with
  | done => exact (take_piped next c).symm
  | pipe path => exact (take_piped next c).symm
  | deeper path =>
    simp only [select, Tail.piped]
    split
    · rfl
    · exact pass_piped next scan c

theorem stepMember_piped (next : Bytes) (component : KeyComponent) (c : Cursor) :
    stepMember { component with tail := component.tail.piped next } c =
      (stepMember component c).piped next := by
  unfold stepMember
  dsimp only
  split
  · rfl
  · rename_i key hkey
    split
    · rfl
    · -- What follows a component does not decide which members it selects
      have hsame : KeyComponent.selects { component with tail := component.tail.piped next }
          key.body key.escaped = component.selects key.body key.escaped := rfl
      rw [hsame]
      split
      · exact select_piped next (members component) component.tail _
      · exact pass_piped next (members component) _

theorem stepElement_piped (next : Bytes) (target : Option Nat) (tail : Tail) (passed : Nat)
    (c : Cursor) :
    stepElement target (tail.piped next) passed c =
      (stepElement target tail passed c).piped next := by
  unfold stepElement
  dsimp only
  split
  · rfl
  · split
    · exact select_piped next (elements target tail (passed + 1)) tail _
    · exact pass_piped next (elements target tail (passed + 1)) _

/-- A pipe behind the path changes no step of a scan. -/
theorem step_piped (next : Bytes) (scan : Scan) (c : Cursor) :
    (scan.piped next).step c = (scan.step c).piped next := by
  cases scan with
  | members component => exact stepMember_piped next component c
  | elements target tail passed => exact stepElement_piped next target tail passed c

end Scan

/-! ## Walks -/

open Grammar

/-- What follows the component of a scan. -/
def Scan.tail : Scan → Tail
  | .members component => component.tail
  | .elements _ tail _ => tail

/-- A scan for components without a bar.  Where it selects nothing, what follows may be anything but
a pipe. -/
inductive Scan.Plain : Scan → Prop where
  | members {pattern : Bytes} {wild : Bool} {components : List Component}
      (hbar : bar ∉ pathOf components) : Plain (.members ⟨pattern, wild, tailOf components⟩)
  | position {n passed : Nat} {components : List Component} (hbar : bar ∉ pathOf components) :
      Plain (.elements (some n) (tailOf components) passed)
  | nowhere {tail : Tail} {passed : Nat} : Plain (.elements none tail passed)

/-- What happens in a scan for components without a bar. -/
def Event.Plain (tail : Tail) : Event → Prop
  | .skip scan _ => scan.Plain ∧ scan.tail = tail
  | .enter scan _ path =>
    scan.Plain ∧ scan.tail = tail ∧
      ∃ c components, path = pathOf (c :: components) ∧ bar ∉ pathOf (c :: components)
  | .found _ => tail = .done
  | .close _ => True

namespace Scan.Plain

theorem pass {scan : Scan} (h : scan.Plain) (c : Cursor) : (scan.pass c).Plain scan.tail := by
  unfold Scan.pass
  split
  · exact ⟨h, rfl⟩
  · trivial

theorem select {scan : Scan} {components : List Component} (h : scan.Plain)
    (htail : scan.tail = tailOf components) (hbar : bar ∉ pathOf components) (c : Cursor) :
    (scan.select (tailOf components) c).Plain scan.tail := by
  cases components with
  | nil =>
    simp only [tailOf, Scan.select, Scan.take]
    split
    · exact htail
    · trivial
  | cons component components =>
    simp only [tailOf, Scan.select]
    split
    · exact ⟨h, rfl, component, components, rfl, hbar⟩
    · exact h.pass c

/-- A step of such a scan leads to such a scan. -/
theorem step {scan : Scan} (h : scan.Plain) (c : Cursor) : (scan.step c).Plain scan.tail := by
  cases h with
  | members hbar =>
    simp only [Scan.step, Scan.stepMember]
    split
    · trivial
    · split
      · trivial
      · split
        · exact (Plain.members hbar).select rfl hbar _
        · exact (Plain.members hbar).pass _
  | @position n passed components hbar =>
    have hnext : (Scan.elements (some n) (tailOf components) (passed + 1)).Plain := .position hbar
    simp only [Scan.step, Scan.stepElement]
    split
    · trivial
    · split
      · exact hnext.select rfl hbar _
      · exact hnext.pass _
  | @nowhere tail passed =>
    have hnext : (Scan.elements none tail (passed + 1)).Plain := .nowhere
    simp only [Scan.step, Scan.stepElement]
    split
    · trivial
    · exact hnext.pass _

end Scan.Plain

namespace Walk

variable (env : Surroundings) (next : Bytes)

variable {next} in
theorem keepPipe_piped {tail : Tail} (htail : ∀ path, tail ≠ .pipe path) (walk : Walk)
    (pipe : Option Bytes) :
    ∃ pipe', (walk.withPipe pipe).keepPipe (tail.piped next) = walk.withPipe pipe' ∧
      (tail = .done → pipe' = some next) ∧ (pipe = some next → pipe' = some next) := by
  cases tail with
  | done => exact ⟨some next, rfl, fun _ => rfl, fun _ => rfl⟩
  | deeper path => exact ⟨pipe, rfl, nofun, id⟩
  | pipe path => exact absurd rfl (htail path)

theorem bar_notMem_tail {c : Component} {components : List Component}
    (hbar : bar ∉ pathOf (c :: components)) : bar ∉ pathOf components := by
  cases components with
  | nil => simp
  | cons c' components =>
    rw [pathOf_cons, List.mem_append, not_or, behind, List.mem_cons, not_or] at hbar
    exact hbar.2.2

theorem tailOf_ne_pipe (components : List Component) (path : Bytes) :
    tailOf components ≠ .pipe path := by
  cases components <;> simp [tailOf]

theorem keepPipe_of_ne_pipe {tail : Tail} (htail : ∀ path, tail ≠ .pipe path) (walk : Walk) :
    walk.keepPipe tail = walk := by
  cases tail with
  | done => rfl
  | deeper path => rfl
  | pipe path => exact absurd rfl (htail path)

/-- Entering a container for components without a bar starts a scan for them.  With a pipe behind
them it starts that scan with the pipe, which is kept if the scan may find a value. -/
theorem openAt_piped (object : Bool) (start : Cursor) (c : Component)
    (components : List Component) (hbar : bar ∉ pathOf (c :: components)) {room : Nat}
    (hroom : room ≠ 0) (walk : Walk) (pipe : Option Bytes) :
    ∃ scan pipe', scan.Plain ∧
      openAt env object start (pathOf (c :: components)) room walk =
        (walk, .scan ⟨scan, room⟩) ∧
      openAt env object start (piped (pathOf (c :: components)) next) room
          (walk.withPipe pipe) =
        (walk.withPipe pipe', .scan ⟨scan.piped next, room⟩) ∧
      (scan.tail = .done → pipe' = some next) ∧ (pipe = some next → pipe' = some next) := by
  have hrest := bar_notMem_tail hbar
  rw [openAt, openAt, if_neg hroom, if_neg hroom]
  cases object with
  | true =>
    have hne := tailOf_ne_pipe components
    obtain ⟨pipe', hkeep, hdone, hsame⟩ := keepPipe_piped hne walk pipe
    refine ⟨.members ⟨c.text, c.isWild, tailOf components⟩, pipe', .members hrest, ?_, ?_, hdone,
      hsame⟩
    · simp only [if_true, openObject, keyComponent_pathOf, keepPipe_of_ne_pipe hne]
    · simp only [if_true, openObject, keyComponent_piped, hkeep]
      rfl
  | false =>
    obtain ⟨tail, hparse, hparse', htail, hne⟩ :=
      elementComponent_piped env.dialect next c components hbar
    obtain ⟨pipe', hkeep, hdone, hsame⟩ := keepPipe_piped hne walk pipe
    refine ⟨.elements (Number.position? c.text) tail 0, pipe', ?_, ?_, ?_, hdone, hsame⟩
    · cases hposition : Number.position? c.text with
      | none => exact .nowhere
      | some n =>
        rw [htail (by rw [hposition]; rfl)]
        exact .position hrest
    · simp [openArray, hparse, keepPipe_of_ne_pipe hne]
    · simp [openArray, hparse', hkeep, Scan.piped]

/-- The open scans are for components without a bar, and as far as one of them may find a value, the
pipe of the walk is the path behind the bar. -/
def Keeps (pipe : Option Bytes) (frames : List Frame) : Prop :=
  ∀ frame ∈ frames, frame.scan.Plain ∧ (frame.scan.tail = .done → pipe = some next)

variable {next} in
theorem Keeps.mono {pipe pipe' : Option Bytes} {frames : List Frame}
    (h : Keeps next pipe frames) (hpipe : pipe = some next → pipe' = some next) :
    Keeps next pipe' frames :=
  fun frame hframe => ⟨(h frame hframe).1, fun hdone => hpipe ((h frame hframe).2 hdone)⟩

/-- The open scans for components without a bar make the same walk with a pipe behind them, and if
they find a value the pipe has been kept. -/
theorem run_piped (walk : Walk) (c : Cursor) (frames : List Frame) (pipe : Option Bytes)
    (hkeeps : Keeps next pipe frames) (hpipe : walk.pipe = none)
    (hmissing : walk.value.found = false) :
    ∃ pipe', run env (walk.withPipe pipe) c (frames.map (Frame.piped next)) =
        (run env walk c frames).withPipe pipe' ∧
      (run env walk c frames).pipe = none ∧
      ((run env walk c frames).value.found = true → pipe' = some next) := by
  -- On the events of the walk without the pipe
  induction walk, c, frames using run_induction generalizing pipe with
  | nil walk c =>
    refine ⟨pipe, ?_, ?_, ?_⟩
    · rw [run_nil]
      exact run_nil env _ c
    · rwa [run_nil]
    · rw [run_nil, hmissing]
      exact nofun
  | skip walk c frame frames scan after hstep ih =>
    rw [Keeps, List.forall_mem_cons] at hkeeps
    have hplain := hkeeps.1.1.step c
    have hstep' := frame.scan.step_piped next c
    rw [hstep] at hplain hstep'
    have hkeeps' : Keeps next pipe (⟨scan, frame.room⟩ :: frames) :=
      List.forall_mem_cons.2 ⟨⟨hplain.1, hplain.2 ▸ hkeeps.1.2⟩, hkeeps.2⟩
    rw [List.map_cons, run_cons, run_cons, hstep]
    simp only [Frame.piped, hstep']
    exact ih pipe hkeeps' hpipe hmissing
  | close walk c frame frames after hstep ih =>
    rw [Keeps, List.forall_mem_cons] at hkeeps
    have hstep' := frame.scan.step_piped next c
    rw [hstep] at hstep'
    rw [List.map_cons, run_cons, run_cons, hstep]
    simp only [Frame.piped, hstep']
    exact ih pipe hkeeps.2 hpipe hmissing
  | found walk c frame frames value hstep =>
    rw [Keeps, List.forall_mem_cons] at hkeeps
    have hplain := hkeeps.1.1.step c
    have hstep' := frame.scan.step_piped next c
    rw [hstep] at hplain hstep'
    rw [List.map_cons, run_cons, run_cons, hstep]
    simp only [Frame.piped, hstep']
    exact ⟨pipe, rfl, hpipe, fun _ => hkeeps.1.2 hplain⟩
  | enter walk c frame frames scan bracket path hstep ihscan ihpassed =>
    rw [Keeps, List.forall_mem_cons] at hkeeps
    have hplain := hkeeps.1.1.step c
    have hstep' := frame.scan.step_piped next c
    rw [hstep] at hplain hstep'
    obtain ⟨hscan, htail, component, components, rfl, hbar⟩ := hplain
    rw [List.map_cons, run_cons, run_cons, hstep]
    simp only [Frame.piped, hstep', Event.piped, react, entered]
    by_cases hroom : frame.room - 1 = 0
    · -- Without room both walks are over
      simp only [openAt, hroom, if_true]
      refine ⟨pipe, rfl, hpipe, fun hfound => ?_⟩
      rw [show (walk.count .oneDepthHit).value = walk.value from rfl, hmissing] at hfound
      cases hfound
    · obtain ⟨inner, pipe', hinner, hopen, hopen', hdone, hsame⟩ := openAt_piped env next
        (bracket.peek? = some openBrace) (bracket.advance 1) component components hbar hroom walk
        pipe
      have hkeeps' : Keeps next pipe'
          (⟨inner, frame.room - 1⟩ :: ⟨scan, frame.room⟩ :: frames) := by
        refine List.forall_mem_cons.2 ⟨⟨hinner, hdone⟩, List.forall_mem_cons.2 ⟨⟨hscan, ?_⟩, ?_⟩⟩
        · exact fun h => hsame (hkeeps.1.2 (htail ▸ h))
        · exact Keeps.mono hkeeps.2 hsame
      rw [hopen, hopen']
      exact ihscan walk _ hopen pipe' hkeeps' hpipe hmissing

/-- A path of components is written for at least one, the empty one if need be. -/
theorem exists_pathOf_cons (components : List Component) :
    ∃ c rest, pathOf components = pathOf (c :: rest) := by
  cases components with
  | nil => exact ⟨[], [], rfl⟩
  | cons c rest => exact ⟨c, rest, rfl⟩

theorem enter_piped (object : Bool) (c : Cursor) (components : List Component)
    (hbar : bar ∉ pathOf components) (room : Nat) :
    ∃ pipe, enter env object c (piped (pathOf components) next) room =
        (enter env object c (pathOf components) room).withPipe pipe ∧
      (enter env object c (pathOf components) room).pipe = none ∧
      ((enter env object c (pathOf components) room).value.found = true → pipe = some next) := by
  obtain ⟨component, rest, hpath⟩ := exists_pathOf_cons components
  rw [hpath] at hbar ⊢
  by_cases hroom : room = 0
  · simp only [enter, openAt, hroom, if_true]
    exact ⟨none, rfl, rfl, Bool.noConfusion⟩
  · obtain ⟨scan, pipe, hscan, hopen, hopen', hdone, -⟩ :=
      openAt_piped env next object c component rest hbar hroom {} none
    have hkeeps : Keeps next pipe [⟨scan, room⟩] := by
      simpa [Keeps] using ⟨hscan, hdone⟩
    rw [enter, enter, hopen]
    rw [show openAt env object c (piped (pathOf (component :: rest)) next) room {} = _ from hopen']
    exact run_piped env next {} c [⟨scan, room⟩] pipe hkeeps rfl rfl

theorem lines?_piped (path : Bytes) :
    lines? (piped path next) = (lines? path).map (piped · next) := by
  have hne : bar ≠ dot := by decide
  rcases path with _ | ⟨a, _ | ⟨b, rest⟩⟩
  · cases next <;> simp [piped, lines?, hne]
  · simp [piped, lines?, hne]
  · simp only [piped, List.cons_append, lines?]
    split <;> rfl

/-- A walk for components without a bar finds the same with a pipe behind them, and keeps the pipe
if it finds a value. -/
theorem start_piped (text : Bytes) (components : List Component) (hbar : bar ∉ pathOf components)
    (room : Nat) :
    ∃ pipe, start env text (piped (pathOf components) next) room =
        (start env text (pathOf components) room).withPipe pipe ∧
      (start env text (pathOf components) room).pipe = none ∧
      ((start env text (pathOf components) room).value.found = true → pipe = some next) := by
  rw [start, start, lines?_piped]
  cases hlines : lines? (pathOf components) with
  | some rest =>
    -- Behind the two dots there are components again
    have hdots : [dot, dot] <+: pathOf components := by
      refine Decidable.byContradiction fun h => ?_
      rw [(lines?_eq_none_iff _).2 h] at hlines
      cases hlines
    obtain ⟨a, b, c, tail, rfl, ha, hb, hrest⟩ := exists_behind_dots hdots
    obtain rfl : pathOf (c :: tail) = rest := Option.some.inj (hrest.symm.trans hlines)
    exact enter_piped env next false _ (c :: tail) (bar_notMem_tail (bar_notMem_tail hbar)) room
  | none =>
    dsimp only [Option.map_none]
    cases (Cursor.start text).toContainer.peek? with
    | none => exact ⟨none, rfl, rfl, Bool.noConfusion⟩
    | some b => exact enter_piped env next _ _ components hbar room

end Walk

/-! ## Queries -/

namespace Engine

/-- A pipe behind components leaves them the first link of the chain. -/
theorem link_piped (engine : Engine) (nested : Nested) (room depth : Nat) (text next : Bytes)
    (components : List Component) :
    engine.link nested room depth text (piped (pathOf components) next) = .components :=
  link_of_startsPlain engine nested room depth text
    (startsPlain_piped next (startsPlain_pathOf components))

/-- Behind components that find a value the chain goes on inside of that value. -/
theorem get_piped_eq_chain (engine : Engine) (text next : Bytes) (components : List Component)
    (hbar : bar ∉ pathOf components) {depth : Nat} (hmax : engine.config.maxDepth = depth + 1)
    (hfound : (engine.get text (pathOf components)).value.found = true) :
    let value := (engine.get text (pathOf components)).value
    ∃ counts, engine.get text (piped (pathOf components) next) =
      ((engine.chain (engine.resolve 127) 127 value.raw next (some 0) .zero depth).map
        (·.rebase value.index)).after counts := by
  obtain ⟨pipe, hwalk, hnone, hkept⟩ := Walk.start_piped ⟨engine.dialect, engine.resolve 127⟩ next
    text components hbar (depth + 1)
  have hvalue := get_of_startsPlain engine text (startsPlain_pathOf components) hmax
  dsimp only at hvalue
  rw [hnone] at hvalue
  rw [hvalue] at hfound ⊢
  -- The walk has found a value, so it has kept the pipe
  obtain rfl := hkept hfound
  rw [get, hmax, resolve_pathNesting,
    chain_components _ _ _ _ _ (link_piped engine _ _ _ _ _ _), hwalk]
  generalize Walk.start _ text (pathOf components) (depth + 1) = walk
  simp only [Walk.withPipe]
  rw [chain_eq_rebase, zero_shift, Counted.after_after]
  exact ⟨_, rfl⟩

/-- **A pipe is chaining.**  Behind components without a bar that find a value in a text, whatever
bytes that holds, a pipe goes on as a query of the value does: with the same payload and the same
offsets.  The only condition is that no bound on depth is hit. -/
theorem get_piped (engine : Engine) (text next : Bytes) (components : List Component)
    (hbar : bar ∉ pathOf components)
    (hfound : (engine.get text (pathOf components)).value.found = true)
    (hhits : (engine.get text (piped (pathOf components) next)).counts.depthHits = 0) :
    (engine.get text (piped (pathOf components) next)).value =
      (engine.getFrom (engine.get text (pathOf components)).value next).value := by
  cases hmax : engine.config.maxDepth with
  | zero =>
    -- Without any depth nothing is found
    rw [get, hmax] at hfound
    exact absurd hfound Bool.false_ne_true
  | succ depth =>
    obtain ⟨counts, hget⟩ := get_piped_eq_chain engine text next components hbar hmax hfound
    generalize (engine.get text (pathOf components)).value = value at hget ⊢
    have hsteady := engine.chain_steady (engine.resolve_steady 1 127) 127 value.raw next (some 0)
      .zero depth
    -- The query of the value has one more level of depth, which changes nothing without a hit
    rw [hget] at hhits ⊢
    have hnone : (engine.chain (engine.resolve 127) 127 value.raw next (some 0) .zero depth).hits =
        0 := (Nat.add_eq_zero_iff.1 hhits).2
    rw [getFrom, descend, hmax, resolve_pathNesting, hsteady.same hnone]
    rfl

theorem get_piped_sample :
    let text := Bytes.ofString "\x7b\"a\":\x7b\"b\":1\x7d\x7d"
    let a := pathOf [.ofName [0x61]]
    (Engine.standard.get text (piped a [0x62])).value =
        (Engine.standard.getFrom (Engine.standard.get text a).value [0x62]).value ∧
      (Engine.standard.get text (piped a [0x62])).value = .located (.number [0x31]) 10 :=
  ⟨get_piped Engine.standard _ _ _ (by decide) (by decide +kernel) (by decide +kernel),
    by decide +kernel⟩

end Engine

end JsonQuery
