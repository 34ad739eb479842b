import JsonQuery.Proofs.Chains
import JsonQuery.Proofs.Walk

/-!
# Resolving by asking for modifiers

A procedure is written without any modifier at hand.  Where it needs one it asks for it by name, and
goes on with the reply, so its questions are all that it has to do with modifiers.  With a registry
it is performed: the registry replies, and what it runs is counted.  Resolving a path is performing
a procedure, which knows how paths are read but no modifier, so what an engine counts are the runs
that its procedure asks for.

## Layers

- **Charges**: setting the counters of a value to all that was counted.
- **Procedures**: computations that ask, what they come to with a registry, and their runs.
- **Elements**, **Walks**, **Chains**: the parts of resolution as procedures, each with the law that
  performing it is what the engine does.
- **Runs**: resolving counts the runs of its procedure, and nothing besides but depth hits.
-/

namespace JsonQuery

open Ascii

/-! ## Charges -/

namespace Counted

variable {α β : Type}

/-- What a computation comes to when all that was counted is set in it, from some counts on. -/
def charge (set : Counters → α → β) (counts : Counters) (x : Counted α) : β :=
  set (counts + x.counts) x.value

theorem charge_zero (set : Counters → α → β) (x : Counted α) :
    x.charge set .zero = set x.counts x.value := by
  rw [charge, Counters.zero_add]

theorem after_zero (x : Counted α) : x.after .zero = x := by
  rw [after, Counters.zero_add]

theorem charge_after (set : Counters → α → β) (counts before : Counters) (x : Counted α) :
    (x.after before).charge set counts = x.charge set (counts + before) := by
  rw [charge, charge, after, Counters.add_assoc]

end Counted

/-! ## Procedures -/

/-- A modifier that is asked for by its name, and what it is to be run on. -/
structure Request where
  name : Bytes
  room : Nat
  text : Bytes
  argument : Bytes

/-- A modifier that was run, and what it came to. -/
structure Run extends Request where
  outcome : Except ModifierError Bytes

/-- Whether a modifier gave up. -/
def Run.failed (run : Run) : Bool :=
  match run.outcome with
  | .ok _ => false
  | .error _ => true

/-- A request that a modifier is run for. -/
def Request.run (request : Request) (modifier : Modifier) : Run :=
  ⟨request, modifier request.room request.text request.argument⟩

/-- A computation that asks for modifiers.  The reply is the outcome of the one that it asks for, or
nothing if there is none of the name. -/
inductive Procedure (α : Type) where
  | done (value : α)
  /-- A bound on depth is used up. -/
  | cutShort (next : Procedure α)
  | ask (request : Request) (next : Option (Except ModifierError Bytes) → Procedure α)

namespace Procedure

variable {α β : Type}

/-- Goes on with the value of a procedure. -/
def bind : Procedure α → (α → Procedure β) → Procedure β
  | done value, f => f value
  | cutShort next, f => cutShort (next.bind f)
  | ask request next, f => ask request fun reply => (next reply).bind f

instance : Monad Procedure where
  pure := done
  bind := bind

variable (registry : Registry)

/-- What a procedure comes to with the modifiers of a registry. -/
def perform : Procedure α → Counted α
  | done value => .quiet value
  | cutShort next => next.perform.after .oneDepthHit
  | ask request next =>
    match registry.find? request.name with
    | none => (next none).perform
    | some modifier =>
      let run := request.run modifier
      (next (some run.outcome)).perform.after (.oneCall run.failed)

/-- The modifiers of a registry that a procedure has run, in order. -/
def runs : Procedure α → List Run
  | done _ => []
  | cutShort next => next.runs
  | ask request next =>
    match registry.find? request.name with
    | none => (next none).runs
    | some modifier =>
      let run := request.run modifier
      run :: (next (some run.outcome)).runs

section Laws

/-- What is counted on both sides of a procedure that goes on adds up. -/
@[simp] theorem perform_bind (p : Procedure α) (f : α → Procedure β) :
    (p >>= f).perform registry =
      ((f (p.perform registry).value).perform registry).after (p.perform registry).counts := by
  show (p.bind f).perform registry = _
  induction p with
  | done value => simp [bind, perform, Counted.quiet, Counted.after]
  | cutShort next ih =>
    rw [bind, perform, ih, perform, Counted.after_after]
    rfl
  | ask request next ih =>
    rw [bind, perform, perform]
    cases registry.find? request.name with
    | none => exact ih none
    | some modifier =>
      dsimp only
      rw [ih, Counted.after_after]
      rfl

@[simp] theorem perform_map (f : α → β) (p : Procedure α) :
    (f <$> p).perform registry = (p.perform registry).map f := by
  show (p >>= fun value => pure (f value)).perform registry = _
  rw [perform_bind]
  rfl

/-- What is run are modifiers of the registry, each on what it was asked for. -/
theorem exists_of_mem_runs {p : Procedure α} {run : Run} (h : run ∈ p.runs registry) :
    ∃ modifier, registry.find? run.name = some modifier ∧ run = run.toRequest.run modifier := by
  induction p with
  | done value => cases h
  | cutShort next ih => exact ih h
  | ask request next ih =>
    rw [runs] at h
    cases hfind : registry.find? request.name with
    | none =>
      rw [hfind] at h
      exact ih none h
    | some modifier =>
      rw [hfind] at h
      rcases List.mem_cons.1 h with rfl | h
      · exact ⟨modifier, hfind, rfl⟩
      · exact ih _ h

end Laws

end Procedure

/-! ## Elements -/

/-- What a procedure needs to know to walk a document: how paths are read, and how one is resolved
inside of a text. -/
structure Plan where
  dialect : Dialect
  nested : (text path : Bytes) → (room : Nat) → Procedure Result

namespace Plan

/-- The surroundings of a walk in which paths are resolved by performing a plan. -/
def surroundings (plan : Plan) (registry : Registry) : Surroundings :=
  ⟨plan.dialect, fun text path room => (plan.nested text path room).perform registry⟩

/-- Resolves a path inside of a value. -/
def descend (plan : Plan) (value : Result) (path : Bytes) (room : Nat) : Procedure Result :=
  (·.rebase value.index) <$> plan.nested value.raw path room

/-- What a path finds in each of the elements, behind what it found before. -/
def project (plan : Plan) (path : Bytes) (room : Nat) (walk : Walk) (kept : List Gathered) :
    List Result → Procedure Walk
  | [] => pure { walk with value := Gathered.collect kept.reverse }
  | element :: elements => do
    let found ← plan.descend element path room
    if found.found then
      plan.project path room walk (Gathered.ofResult found element :: kept) elements
    else plan.project path room walk kept elements

/-- Whether an element passes a filter. -/
def judge (plan : Plan) (f : Filter) (room : Nat) (element : Result) : Procedure Bool :=
  match element.value with
  | .json _ => f.accepts <$> plan.descend element f.path room
  | _ => pure (f.path.isEmpty && f.accepts element)

/-- What is taken from an element that passes a filter. -/
def pick (plan : Plan) (path : Option Bytes) (room : Nat) (element : Result) : Procedure Result :=
  match path with
  | some path => plan.descend element path room
  | none => pure element

/-- Applies a filter to elements in order. -/
def filterFrom (plan : Plan) (f : Filter) (path pipe : Option Bytes) (room : Nat) (walk : Walk)
    (kept : List Gathered) : List Result → Procedure Walk.Filtered
  | [] => pure ⟨walk, kept, false⟩
  | element :: elements => do
    if ← plan.judge f room element then
      let picked ← plan.pick path room element
      let walk := walk.keepSplit pipe
      if f.collects then
        let kept := if picked.found then Gathered.ofResult picked element :: kept else kept
        plan.filterFrom f path pipe room walk kept elements
      else pure ⟨{ walk with value := picked }, kept, true⟩
    else plan.filterFrom f path pipe room walk kept elements

end Plan

namespace Walk

/-- Sets the counters. -/
def charged (counts : Counters) (walk : Walk) : Walk :=
  { walk with counts }

/-- Sets the counters of what a filter leads to. -/
def Filtered.charged (counts : Counters) (filtered : Filtered) : Filtered :=
  { filtered with walk := filtered.walk.charged counts }

/-- Sets the counters of what entering a container leads to. -/
def chargedOpening (counts : Counters) (opened : Walk × Opening) : Walk × Opening :=
  (opened.1.charged counts, opened.2)

section Elements

@[simp] theorem count_charged (walk : Walk) (a b : Counters) :
    (walk.charged a).count b = walk.charged (a + b) :=
  rfl

@[simp] theorem keepSplit_charged (pipe : Option Bytes) (walk : Walk) (counts : Counters) :
    (walk.charged counts).keepSplit pipe = (walk.keepSplit pipe).charged counts := by
  cases pipe <;> rfl

@[simp] theorem keepPipe_charged (tail : Tail) (walk : Walk) (counts : Counters) :
    (walk.charged counts).keepPipe tail = (walk.keepPipe tail).charged counts := by
  cases tail <;> rfl

variable (plan : Plan) (registry : Registry) (counts : Counters)

/-- Performing a plan is resolving in its surroundings. -/
theorem descend_perform (value : Result) (path : Bytes) (room : Nat) :
    (plan.surroundings registry).descend value path room =
      (plan.descend value path room).perform registry := by
  rw [Plan.descend, Procedure.perform_map]
  rfl

theorem judge_perform (f : Filter) (room : Nat) (element : Result) :
    judge (plan.surroundings registry) f room element =
      (plan.judge f room element).perform registry := by
  rw [judge, Plan.judge]
  cases element.value with
  | json => rw [Procedure.perform_map, ← descend_perform]
  | _ => rfl

theorem pick_perform (path : Option Bytes) (room : Nat) (element : Result) :
    pick (plan.surroundings registry) path room element =
      (plan.pick path room element).perform registry := by
  cases path with
  | none => rfl
  | some path => exact descend_perform plan registry element path room

theorem project_perform (path : Bytes) (room : Nat) (walk : Walk) (kept : List Gathered)
    (elements : List Result) :
    project (plan.surroundings registry) path room (walk.charged counts) kept elements =
      ((plan.project path room walk kept elements).perform registry).charge charged counts := by
  induction elements generalizing counts kept with
  | nil => rfl
  | cons element elements ih =>
    rw [project, Plan.project, Procedure.perform_bind, Counted.charge_after, descend_perform]
    cases ((plan.descend element path room).perform registry).value.found with
    | true => exact ih _ _
    | false => exact ih _ _

theorem filterFrom_perform (f : Filter) (path pipe : Option Bytes) (room : Nat) (walk : Walk)
    (kept : List Gathered) (elements : List Result) :
    filterFrom (plan.surroundings registry) f path pipe room (walk.charged counts) kept elements =
      ((plan.filterFrom f path pipe room walk kept elements).perform registry).charge
        Filtered.charged counts := by
  induction elements generalizing walk counts kept with
  | nil => rfl
  | cons element elements ih =>
    rw [filterFrom, Plan.filterFrom, Procedure.perform_bind, Counted.charge_after, judge_perform,
      count_charged]
    dsimp only
    cases ((plan.judge f room element).perform registry).value with
    | true =>
      rw [if_pos rfl, if_pos rfl, keepSplit_charged, count_charged, pick_perform,
        Procedure.perform_bind, Counted.charge_after]
      cases f.collects with
      | true => exact ih _ _ _
      | false => rfl
    | false => exact ih _ _ _

end Elements

end Walk

/-! ## Walks -/

namespace Plan

/-- Applies a filter to an array. -/
def openFilter (plan : Plan) (f : Filter) (tail : Tail) (room : Nat) (walk : Walk)
    (array : Elements) : Procedure (Walk × Opening) :=
  let (path, pipe) := Walk.insidePath tail
  (fun filtered => filtered.close f.collects array) <$>
    plan.filterFrom f path pipe room walk [] array.items

/-- Enters the array whose elements start at a cursor. -/
def openArray (plan : Plan) (c : Cursor) (path : Bytes) (room : Nat) (walk : Walk) :
    Procedure (Walk × Opening) :=
  match ElementComponent.parse? plan.dialect path with
  | none => pure (walk, .over)
  | some component =>
    let walk := walk.keepPipe component.tail
    match component.selection with
    | .position target => pure (walk, .scan ⟨.elements target component.tail 0, room⟩)
    | .count =>
      let array := c.elementsFrom []
      if array.complete then pure ({ walk with value := .count array.items.length }, .over)
      else pure (walk, .passed array.next)
    | .each path =>
      let array := c.elementsFrom []
      if array.complete then
        let (path, pipe) := Pipe.split path
        (·, .over) <$> plan.project path (room - 1) (walk.keepSplit pipe) [] array.items
      else pure (walk, .passed array.next)
    | .filter f => plan.openFilter f component.tail (room - 1) walk (c.elementsFrom [])

/-- Enters the container whose inside starts at a cursor. -/
def openAt (plan : Plan) (object : Bool) (c : Cursor) (path : Bytes) (room : Nat) (walk : Walk) :
    Procedure (Walk × Opening) :=
  if room = 0 then .cutShort (pure (walk, .over))
  else if object then
    let component := KeyComponent.parse plan.dialect path
    pure (walk.keepPipe component.tail, .scan ⟨.members component, room⟩)
  else plan.openArray c path room walk

/-- Drives the open scans, the innermost first, from a cursor on. -/
def run (plan : Plan) (walk : Walk) (c : Cursor) : List Frame → Procedure Walk
  | [] => pure walk
  | frame :: frames =>
    match _hstep : frame.scan.step c with
    | .skip scan next => plan.run walk next ({ frame with scan } :: frames)
    | .close next => plan.run walk next frames
    | .found value => pure { walk with value }
    | .enter scan bracket path => do
      let object := bracket.peek? = some openBrace
      let outer := { frame with scan } :: frames
      match ← plan.openAt object (bracket.advance 1) path (frame.room - 1) walk with
      | (walk, .scan inner) => plan.run walk (bracket.advance 1) (inner :: outer)
      -- What is looked through is an array, and the outer scan resumes behind it
      | (walk, .passed _) => plan.run walk ((bracket.advance 1).elementsFrom []).next outer
      | (walk, .over) => pure walk
termination_by frames => 2 * c.left + frames.length
decreasing_by
  all_goals
    have hadv := Scan.advances_step frame.scan c
    rw [_hstep] at hadv
    simp only [Event.Advances] at hadv
    simp only [List.length_cons]
  · omega
  · omega
  · simp only [Cursor.left_advance]
    omega
  · have hle := Cursor.left_elementsFrom_le [] (bracket.advance 1)
    rw [Cursor.left_advance] at hle
    omega

/-- Goes on with what happens at one member or element. -/
def react (plan : Plan) (walk : Walk) (room : Nat) (frames : List Frame) : Event → Procedure Walk
  | .skip scan next => plan.run walk next (⟨scan, room⟩ :: frames)
  | .close next => plan.run walk next frames
  | .found value => pure { walk with value }
  | .enter scan bracket path => do
    let object := bracket.peek? = some openBrace
    match ← plan.openAt object (bracket.advance 1) path (room - 1) walk with
    | (walk, .scan inner) => plan.run walk (bracket.advance 1) (inner :: ⟨scan, room⟩ :: frames)
    | (walk, .passed _) =>
      plan.run walk ((bracket.advance 1).elementsFrom []).next (⟨scan, room⟩ :: frames)
    | (walk, .over) => pure walk

theorem run_cons (plan : Plan) (walk : Walk) (c : Cursor) (frame : Frame) (frames : List Frame) :
    plan.run walk c (frame :: frames) = plan.react walk frame.room frames (frame.scan.step c) := by
  rw [run]
  -- One case per event of the scan
  split <;> rename_i hstep <;> rw [hstep] <;> rfl

/-- Starts with the container whose inside starts at a cursor. -/
def enter (plan : Plan) (object : Bool) (c : Cursor) (path : Bytes) (room : Nat) :
    Procedure Walk := do
  match ← plan.openAt object c path room {} with
  | (walk, .scan frame) => plan.run walk c [frame]
  | (walk, _) => pure walk

/-- Walks the first object or array of a text, or its values behind two dots. -/
def start (plan : Plan) (text path : Bytes) (room : Nat) : Procedure Walk :=
  match Walk.lines? path with
  | some rest => plan.enter false (.start text) rest room
  | none =>
    let bracket := (Cursor.start text).toContainer
    match bracket.peek? with
    | none => pure {}
    | some b => plan.enter (b == openBrace) (bracket.advance 1) path room

end Plan

namespace Walk

section Walks

/-- Closing a filter leaves the counters alone. -/
theorem close_charged (collects : Bool) (array : Elements) (filtered : Filtered)
    (counts : Counters) :
    (filtered.charged counts).close collects array =
      chargedOpening counts (filtered.close collects array) := by
  obtain ⟨walk, kept, settled⟩ := filtered
  have hvalue : (walk.charged counts).value = walk.value := rfl
  cases settled with
  | true => rfl
  | false =>
    simp only [Filtered.close, Filtered.charged, hvalue]
    split
    · contradiction
    · split
      · rfl
      · rfl

variable (plan : Plan) (registry : Registry) (counts : Counters)

theorem openFilter_perform (f : Filter) (tail : Tail) (room : Nat) (walk : Walk)
    (array : Elements) :
    openFilter (plan.surroundings registry) f tail room (walk.charged counts) array =
      ((plan.openFilter f tail room walk array).perform registry).charge chargedOpening counts := by
  unfold openFilter Plan.openFilter
  rcases insidePath tail with ⟨path, pipe⟩
  dsimp only
  rw [Procedure.perform_map, filterFrom_perform]
  exact close_charged f.collects array _ _

theorem openArray_perform (c : Cursor) (path : Bytes) (room : Nat) (walk : Walk) :
    openArray (plan.surroundings registry) c path room (walk.charged counts) =
      ((plan.openArray c path room walk).perform registry).charge chargedOpening counts := by
  rw [openArray, Plan.openArray, show (plan.surroundings registry).dialect = plan.dialect from rfl]
  cases ElementComponent.parse? plan.dialect path with
  | none => rfl
  | some component =>
    dsimp only
    rw [keepPipe_charged]
    cases component.selection with
    | position target => rfl
    | count =>
      dsimp only
      cases (c.elementsFrom []).complete with
      | true => rfl
      | false => rfl
    | each path =>
      dsimp only
      cases (c.elementsFrom []).complete with
      | true =>
        rw [if_pos rfl, if_pos rfl]
        rcases Pipe.split path with ⟨path, pipe⟩
        dsimp only
        rw [Procedure.perform_map, keepSplit_charged, project_perform]
        rfl
      | false => rfl
    | filter f => exact openFilter_perform plan registry counts f _ _ _ _

theorem openAt_perform (object : Bool) (c : Cursor) (path : Bytes) (room : Nat) (walk : Walk) :
    openAt (plan.surroundings registry) object c path room (walk.charged counts) =
      ((plan.openAt object c path room walk).perform registry).charge chargedOpening counts := by
  rw [openAt, Plan.openAt]
  by_cases hroom : room = 0
  · rw [if_pos hroom, if_pos hroom]
    rfl
  · rw [if_neg hroom, if_neg hroom]
    cases object with
    | true =>
      rw [if_pos rfl, if_pos rfl, openObject]
      dsimp only
      rw [keepPipe_charged]
      rfl
    | false => exact openArray_perform plan registry counts c path room walk

/-- Driving the scans is performing the procedure that drives them. -/
theorem run_perform (walk : Walk) (c : Cursor) (frames : List Frame) :
    run (plan.surroundings registry) (walk.charged counts) c frames =
      ((plan.run walk c frames).perform registry).charge charged counts := by
  -- On the events of the walk, whose counters are whatever was counted before
  suffices hrun : ∀ before, before = walk.charged counts →
      run (plan.surroundings registry) before c frames =
        ((plan.run walk c frames).perform registry).charge charged counts from hrun _ rfl
  intro before hbefore
  induction before, c, frames using @run_induction (plan.surroundings registry)
    generalizing walk counts with
  | nil before c =>
    rw [run_nil, Plan.run, hbefore]
    rfl
  | skip before c frame frames scan next hstep ih =>
    rw [run_cons, hstep, Plan.run_cons, hstep]
    exact ih _ _ hbefore
  | close before c frame frames next hstep ih =>
    rw [run_cons, hstep, Plan.run_cons, hstep]
    exact ih _ _ hbefore
  | found before c frame frames value hstep =>
    rw [run_cons, hstep, Plan.run_cons, hstep, hbefore]
    rfl
  | enter before c frame frames scan bracket path hstep ihscan ihpassed =>
    rw [run_cons, hstep, Plan.run_cons, hstep, react, entered, Plan.react, Procedure.perform_bind,
      Counted.charge_after]
    have hopen := openAt_perform plan registry counts (bracket.peek? = some openBrace)
      (bracket.advance 1) path (frame.room - 1) walk
    rw [← hbefore] at hopen
    generalize (plan.openAt (bracket.peek? = some openBrace) (bracket.advance 1) path
      (frame.room - 1) walk).perform registry = opened at hopen ⊢
    rcases opened with ⟨⟨walk, inner | next | _⟩, charges⟩
    · rw [hopen]
      exact ihscan _ inner hopen _ _ rfl
    · rw [hopen]
      obtain rfl := eq_next_of_openAt_eq_passed hopen
      exact ihpassed _ _ hopen _ _ rfl
    · rw [hopen]
      rfl

theorem enter_perform (object : Bool) (c : Cursor) (path : Bytes) (room : Nat) :
    enter (plan.surroundings registry) object c path room =
      ((plan.enter object c path room).perform registry).charge charged .zero := by
  have hopen : openAt (plan.surroundings registry) object c path room {} =
      ((plan.openAt object c path room {}).perform registry).charge chargedOpening .zero :=
    openAt_perform plan registry .zero object c path room {}
  rw [enter, Plan.enter, Procedure.perform_bind, Counted.charge_after, hopen]
  generalize (plan.openAt object c path room {}).perform registry = opened
  rcases opened with ⟨⟨walk, frame | next | _⟩, charges⟩
  · exact run_perform plan registry _ walk c [frame]
  · rfl
  · rfl

/-- Starting a walk is performing the procedure that starts it. -/
theorem start_perform (text path : Bytes) (room : Nat) :
    start (plan.surroundings registry) text path room =
      ((plan.start text path room).perform registry).charge charged .zero := by
  rw [start, Plan.start]
  cases lines? path with
  | some rest => exact enter_perform plan registry false _ rest room
  | none =>
    dsimp only
    cases (Cursor.start text).toContainer.peek? with
    | none => rfl
    | some b => exact enter_perform plan registry _ _ path room

end Walks

end Walk

/-! ## Chains -/

namespace Engine

/-- What the first component of a path asks for, without what was counted. -/
inductive Demand where
  /-- A text that the rest of the path is applied to. -/
  | output (text rest : Bytes)
  /-- The result of a sub-selector and of all that follows it. -/
  | selected (result : Result)
  /-- A call of a modifier that there is none of, with the path behind its name. -/
  | unknown (rest : Bytes)
  /-- Components that are matched by walking. -/
  | components

/-- What a link counts, and what it asks for. -/
def Link.counted : Link → Counted Demand
  | .output made => ⟨.output made.text made.rest, made.counts⟩
  | .selected result => ⟨.selected result.value, result.counts⟩
  | .unknown rest => .quiet (.unknown rest)
  | .components => .quiet .components

end Engine

namespace Plan

open Engine (Demand)

/-- The object or array of what the parts of a sub-selector find. -/
def selectParts (plan : Plan) (object : Bool) (depth : Nat) (text : Bytes) (found : List Bytes) :
    List Selector → Procedure Result
  | [] =>
    let (opener, closer) := if object then (openBrace, closeBrace) else (openBracket, closeBracket)
    pure (.built (.json (opener :: Bytes.commaJoin found.reverse ++ [closer])))
  | part :: parts => do
    let value ← plan.nested text part.path depth
    if value.found then
      let item := if object then part.label ++ colon :: value.raw else value.raw
      plan.selectParts object depth text (item :: found) parts
    else plan.selectParts object depth text found parts

/-- What a path that starts with a sub-selector finds; nothing when it is not one. -/
def select? (plan : Plan) (depth : Nat) (text path : Bytes) : Option (Procedure Result) :=
  (Selector.parse? path).bind fun (parts, rest) =>
    (Engine.selectorTail? rest).map fun next? => do
      let selected ← plan.selectParts (path.head? == some openBrace) depth text [] parts
      match next? with
      | none => pure selected
      | some next => Result.detached <$> plan.nested selected.raw next depth

/-- Asks for a modifier.  One that fails hands its input on. -/
def call (room : Nat) (text : Bytes) (call : Invocation) : Procedure Demand :=
  let input := Utf8.lossy text
  .ask ⟨call.name, room, input, call.argument⟩ fun
    | some (.ok output) => pure (.output output call.behind)
    | some (.error _) => pure (.output input call.behind)
    | none => pure (.unknown call.rest)

/-- The first link of a path. -/
def link (plan : Plan) (room depth : Nat) (text path : Bytes) : Procedure Demand :=
  match path with
  | c :: _ :: _ =>
    if c = atSign && plan.dialect.modifiers then
      call room text (Invocation.parse path)
    else if c = bang then
      match Literal.parse? path with
      | some (text, rest) => pure (.output text rest)
      | none => pure .components
    else if opensContainer c then
      match plan.select? depth text path with
      | some result => .selected <$> result
      | none => pure .components
    else pure .components
  | _ => pure .components

/-- What a walk has found, with the pipe that it kept applied to it. -/
def applied (plan : Plan) (walk : Walk) (depth : Nat) : Procedure Result :=
  match walk.pipe with
  | some pipe => plan.descend walk.value pipe depth
  | none => pure walk.value

/-- Resolves a path inside of a text. -/
def chain (plan : Plan) (room : Nat) (text path : Bytes) (base : Option Nat) :
    (depth : Nat) → Procedure Result
  | 0 => .cutShort (pure .missing)
  | depth + 1 => do
    match ← plan.link room depth text path with
    | .output text rest =>
      match Path.continuation? rest with
      | none => pure (parse text).detached
      | some next => plan.chain room text next none depth
    | .selected result => pure (result.rebase base)
    | .unknown rest =>
      let walk ← plan.start text path (depth + 1)
      let found ← plan.applied walk depth
      if found.found then pure (found.rebase base)
      else
        match Path.continuation? rest with
        | none => pure ((parse text).rebase base)
        | some next => plan.chain room text next base depth
    | .components =>
      let walk ← plan.start text path (depth + 1)
      match walk.pipe with
      | none => pure (walk.value.rebase base)
      | some pipe =>
        plan.chain room walk.value.raw pipe (Engine.shift base walk.value.index) depth

end Plan

/-- Resolves a path inside of a text, with room for nested paths and some depth left. -/
def Procedure.resolve (dialect : Dialect) :
    (room : Nat) → (text path : Bytes) → (depth : Nat) → Procedure Result
  | 0, _, _, _ => .cutShort (pure .missing)
  | room + 1, text, path, depth =>
    Plan.chain ⟨dialect, Procedure.resolve dialect room⟩ room text path (some 0) depth

namespace Engine

section Chains

variable (plan : Plan) (registry : Registry) (counts : Counters)

theorem selectParts_perform (object : Bool) (depth : Nat) (text : Bytes) (found : List Bytes)
    (parts : List Selector) :
    selectParts (plan.surroundings registry).nested object depth text found counts parts =
      ((plan.selectParts object depth text found parts).perform registry).after counts := by
  induction parts generalizing found counts with
  | nil => rfl
  | cons part parts ih =>
    have hnested : (plan.surroundings registry).nested text part.path depth =
      (plan.nested text part.path depth).perform registry := rfl
    rw [selectParts, Plan.selectParts, Procedure.perform_bind, Counted.after_after, hnested]
    dsimp only
    by_cases hfound : ((plan.nested text part.path depth).perform registry).value.found = true
    · rw [if_pos hfound, if_pos hfound]
      exact ih _ _
    · rw [if_neg hfound, if_neg hfound]
      exact ih _ _

theorem select?_perform (depth : Nat) (text path : Bytes) :
    select? (plan.surroundings registry).nested depth text path =
      (plan.select? depth text path).map (·.perform registry) := by
  rw [select?, Plan.select?, Option.map_bind]
  refine congrArg _ (funext fun (parts, rest) => ?_)
  rw [Function.comp_apply, Option.map_map]
  refine congrArg (Option.map · _) (funext fun next? => ?_)
  rw [Function.comp_apply, Procedure.perform_bind, selectParts_perform, Counted.after_zero]
  cases next? with
  | none => rfl
  | some next =>
    dsimp only
    rw [Procedure.perform_map]
    rfl

/-- Asking for a modifier runs it, if there is one of the name. -/
theorem call_perform (registry : Registry) (room : Nat) (text : Bytes) (call : Invocation) :
    (match registry.find? call.name with
      | some modifier => Link.output (runModifier modifier room text call)
      | none => Link.unknown call.rest).counted =
      (Plan.call room text call).perform registry := by
  rw [Plan.call, Procedure.perform.eq_def]
  dsimp only
  cases registry.find? call.name with
  | none => rfl
  | some modifier =>
    dsimp only [Link.counted, Request.run]
    rw [runModifier]
    cases modifier room (Utf8.lossy text) call.argument with
    | ok output => rfl
    | error fault => rfl

theorem link_perform (engine : Engine) (hdialect : plan.dialect = engine.dialect) (room depth : Nat)
    (text path : Bytes) :
    (engine.link (plan.surroundings engine.registry).nested room depth text path).counted =
      (plan.link room depth text path).perform engine.registry := by
  rcases path with _ | ⟨c, _ | ⟨d, rest⟩⟩
  · rfl
  · rfl
  · rw [link, Plan.link, hdialect, show engine.dialect.modifiers = engine.config.modifiers from rfl]
    generalize c :: d :: rest = path
    by_cases hcall : (decide (c = atSign) && engine.config.modifiers) = true
    · rw [if_pos hcall, if_pos hcall]
      exact call_perform engine.registry room text (Invocation.parse path)
    · rw [if_neg hcall, if_neg hcall]
      by_cases hbang : c = bang
      · rw [if_pos hbang, if_pos hbang]
        cases Literal.parse? path with
        | none => rfl
        | some found => rfl
      · rw [if_neg hbang, if_neg hbang]
        by_cases hopens : opensContainer c = true
        · rw [if_pos hopens, if_pos hopens, select?_perform]
          cases plan.select? depth text path with
          | none => rfl
          | some result =>
            rw [Option.map_some]
            dsimp only
            rw [Procedure.perform_map]
            rfl
        · rw [if_neg hopens, if_neg hopens]
          rfl

theorem applied_perform (walk : Walk) (depth : Nat) :
    (plan.surroundings registry).applied (walk.charged counts) depth =
      (plan.applied walk depth).perform registry := by
  obtain ⟨value, pipe, before⟩ := walk
  cases pipe with
  | none => rfl
  | some pipe => exact Walk.descend_perform plan registry value pipe depth

/-- A chain is performing its procedure. -/
theorem chain_perform (engine : Engine) (hdialect : plan.dialect = engine.dialect) (room : Nat)
    (text path : Bytes) (base : Option Nat) (depth : Nat) :
    engine.chain (plan.surroundings engine.registry).nested room text path base counts depth =
      ((plan.chain room text path base depth).perform engine.registry).after counts := by
  induction depth generalizing text path base counts with
  | zero => rfl
  | succ depth ih =>
    have hlinked := link_perform plan engine hdialect room depth text path
    have henv : Surroundings.mk engine.dialect (plan.surroundings engine.registry).nested =
        plan.surroundings engine.registry := by
      rw [← hdialect]
      rfl
    rw [Plan.chain, Procedure.perform_bind, ← hlinked, Counted.after_after]
    cases hlink : engine.link (plan.surroundings engine.registry).nested room depth text path with
    | output output =>
      rw [chain_output _ _ _ _ _ hlink]
      dsimp only [Link.counted]
      cases Path.continuation? output.rest with
      | none => rfl
      | some next => exact ih _ _ _ _
    | selected result =>
      rw [chain_selected _ _ _ _ _ hlink]
      rfl
    | unknown rest =>
      rw [chain_unknown _ _ _ _ _ hlink]
      dsimp only [Link.counted, Counted.quiet]
      rw [henv, Walk.start_perform, Procedure.perform_bind, Procedure.perform_bind,
        Counted.after_after, Counted.after_after, Counters.add_zero, Counted.charge_zero,
        applied_perform]
      generalize (plan.start text path (depth + 1)).perform engine.registry = started
      generalize (plan.applied started.value depth).perform engine.registry = found
      by_cases hfound : found.value.found = true
      · rw [if_pos hfound, if_pos hfound]
        rfl
      · rw [if_neg hfound, if_neg hfound]
        cases Path.continuation? rest with
        | none => rfl
        | some next => exact ih _ _ _ _
    | components =>
      rw [chain_components _ _ _ _ _ hlink]
      dsimp only [Link.counted, Counted.quiet]
      rw [henv, Walk.start_perform, Procedure.perform_bind, Counted.after_after, Counters.add_zero,
        Counted.charge_zero]
      generalize (plan.start text path (depth + 1)).perform engine.registry = started
      obtain ⟨⟨value, pipe, before⟩, charges⟩ := started
      cases pipe with
      | none => rfl
      | some pipe => exact ih _ _ _ _

/-- **Resolving is performing a procedure.**  The procedure is told how paths are read, and learns
what modifiers do by asking for them alone. -/
theorem resolve_perform (engine : Engine) (room : Nat) (text path : Bytes) (depth : Nat) :
    engine.resolve room text path depth =
      (Procedure.resolve engine.dialect room text path depth).perform engine.registry := by
  induction room generalizing text path depth with
  | zero => rfl
  | succ room ih =>
    have hnested : engine.resolve room =
        (Plan.surroundings ⟨engine.dialect, Procedure.resolve engine.dialect room⟩
          engine.registry).nested :=
      funext fun text => funext fun path => funext fun depth => ih text path depth
    rw [resolve, Procedure.resolve, hnested, chain_perform _ _ engine rfl, Counted.after_zero]

end Chains

end Engine

/-! ## Runs -/

/-- What some runs and some depth hits count. -/
def Counters.ofRuns (runs : List Run) (depthHits : Nat) : Counters :=
  { modifierCalls := runs.length, modifierFailures := runs.countP Run.failed, depthHits }

theorem Counters.oneDepthHit_ofRuns (runs : List Run) (hits : Nat) :
    oneDepthHit + ofRuns runs hits = ofRuns runs (1 + hits) := by
  show add oneDepthHit (ofRuns runs hits) = _
  simp [add, oneDepthHit, ofRuns]

theorem Counters.oneCall_ofRuns (run : Run) (runs : List Run) (hits : Nat) :
    oneCall run.failed + ofRuns runs hits = ofRuns (run :: runs) hits := by
  show add (oneCall run.failed) (ofRuns runs hits) = _
  simp [add, oneCall, ofRuns, List.countP_cons, Nat.add_comm]

/-- A procedure counts its runs, and nothing besides but depth hits. -/
theorem Procedure.exists_counts_perform {α : Type} (registry : Registry) (p : Procedure α) :
    ∃ hits, (p.perform registry).counts = .ofRuns (p.runs registry) hits := by
  induction p with
  | done value => exact ⟨0, rfl⟩
  | cutShort next ih =>
    obtain ⟨hits, hcounts⟩ := ih
    refine ⟨1 + hits, ?_⟩
    rw [perform, Counted.after, hcounts, runs, Counters.oneDepthHit_ofRuns]
  | ask request next ih =>
    rw [perform, runs]
    cases registry.find? request.name with
    | none => exact ih none
    | some modifier =>
      obtain ⟨hits, hcounts⟩ := ih (some (request.run modifier).outcome)
      refine ⟨hits, ?_⟩
      dsimp only [Counted.after]
      rw [hcounts, Counters.oneCall_ofRuns]

namespace Engine

/-- The modifiers that are run when a path is resolved inside of a text, in order: those that the
procedure of the path asks for. -/
def runs (engine : Engine) (text path : Bytes) : List Run :=
  (Procedure.resolve engine.dialect pathNesting text path engine.config.maxDepth).runs
    engine.registry

/-- Only modifiers of the registry are run, and each run is the outcome of its modifier. -/
theorem registered_of_mem_runs (engine : Engine) (text path : Bytes) :
    ∀ run ∈ engine.runs text path,
      ∃ modifier, engine.registry.find? run.name = some modifier ∧
        run = run.toRequest.run modifier :=
  fun _ hrun => Procedure.exists_of_mem_runs _ hrun

/-- Resolving a path counts its runs, and nothing besides but depth hits. -/
theorem exists_counts_resolve (engine : Engine) (text path : Bytes) :
    ∃ hits, (engine.resolve pathNesting text path engine.config.maxDepth).counts =
      .ofRuns (engine.runs text path) hits := by
  rw [resolve_perform]
  exact Procedure.exists_counts_perform _ _

end Engine

end JsonQuery
