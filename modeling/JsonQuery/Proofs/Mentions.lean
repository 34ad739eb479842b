import JsonQuery.Proofs.Chaining
import JsonQuery.Proofs.Excerpts

/-!
# Queries depend on the modifiers that their path mentions

A path mentions a modifier where its name stands behind an at sign.  The registry is asked for names
all over: where a call is met, but also to tell whether a path behind a dot is applied as a whole,
in components, inside of filters, projections and sub-selectors.  Each of these names stands in the
path of the query behind an at sign.  So a query finds the same under any two registries that agree
on the names that its path mentions, and registering a modifier changes no query but those that
mention it.

## Layers

- **Agreement**: registries, dialects and surroundings that agree on all excerpts of a path.
- **Components**: readers in dialects that agree read the same.
- **Elements**: projections and filters.
- **Walks**: entering a container, and driving the open scans, by induction over their events.
- **Chains**: sub-selectors, the links of a chain, and resolution by induction over the nesting.
- **Queries**: single paths, batches, and the registry before and after a modifier is registered.
-/

namespace JsonQuery

open Ascii Grammar

/-! ## Agreement -/

/-- A path mentions a modifier: its name stands there behind an at sign. -/
def Mentions (path name : Bytes) : Prop :=
  atSign :: name <:+: path

instance (path name : Bytes) : Decidable (Mentions path name) :=
  inferInstanceAs (Decidable (atSign :: name <:+: path))

/-- Registries that hold the same under all names that a path mentions. -/
def Registry.AgreeOn (whole : Bytes) (registry registry' : Registry) : Prop :=
  ∀ name, Mentions whole name → registry'.find? name = registry.find? name

/-- Dialects that apply the same excerpts of a path as a whole. -/
def Dialect.AgreeOn (whole : Bytes) (dialect dialect' : Dialect) : Prop :=
  ∀ path, path <:+: whole → dialect'.pipesInto path = dialect.pipesInto path

/-- Ways to resolve paths that find the same for all excerpts of a path. -/
def Engine.Nested.AgreeOn (whole : Bytes) (nested nested' : Engine.Nested) : Prop :=
  ∀ text path depth, path <:+: whole → nested' text path depth = nested text path depth

/-- Surroundings in which walks for excerpts of a path find the same. -/
structure Surroundings.AgreeOn (whole : Bytes) (env env' : Surroundings) : Prop where
  dialect : env.dialect.AgreeOn whole env'.dialect
  nested : Engine.Nested.AgreeOn whole env.nested env'.nested

/-! ## Components -/

section Components

variable {whole path : Bytes} {dialect dialect' : Dialect}

/-- The name that decides whether a path is applied as a whole stands in front of it. -/
theorem Registry.AgreeOn.dialects {registry registry' : Registry}
    (h : registry.AgreeOn whole registry') (modifiers : Bool) :
    Dialect.AgreeOn whole ⟨modifiers, registry.contains⟩ ⟨modifiers, registry'.contains⟩ := by
  intro path hpath
  cases path with
  | nil => rfl
  | cons c rest =>
    by_cases hat : c = atSign
    · subst hat
      have hname : Mentions whole (rest.takeWhile (!endsModifierName ·)) := by
        have hfront : rest.takeWhile (!endsModifierName ·) <+: rest := List.takeWhile_prefix _
        exact ((List.prefix_cons_inj atSign).2 hfront).isInfix.trans hpath
      simp [Dialect.pipesInto, Registry.contains, h _ hname]
    · simp [Dialect.pipesInto, hat]

variable (h : dialect.AgreeOn whole dialect') (hpath : path <:+: whole)

include h hpath

theorem Dialect.AgreeOn.afterDot : dialect'.afterDot path = dialect.afterDot path := by
  rw [Dialect.afterDot, Dialect.afterDot, h path hpath]

theorem KeyComponent.parseFrom_congr (before : Bytes) (wild : Bool) :
    parseFrom dialect' before wild path = parseFrom dialect before wild path := by
  fun_induction parseFrom dialect before wild path with
  | case1 => rfl
  | case2 => simp [parseFrom]
  | case3 before wild d rest ih =>
    rw [parseFrom, if_pos rfl]
    exact ih (infix_of_cons (infix_of_cons hpath))
  | case4 before wild rest => rw [parseFrom_cons _ (by decide), if_pos rfl]
  | case5 before wild rest =>
    rw [parseFrom_cons _ (by decide), if_neg (by decide), if_pos rfl,
      h.afterDot (infix_of_cons hpath)]
  | case6 before wild c rest hslash hbar hdot ih =>
    rw [parseFrom_cons _ hslash, if_neg hbar, if_neg hdot]
    exact ih (infix_of_cons hpath)

theorem ElementComponent.partFrom_congr (before : Bytes) (counting : Bool) :
    partFrom dialect' before counting path = partFrom dialect before counting path := by
  fun_induction partFrom dialect before counting path with
  | case1 => rfl
  | case2 before counting rest => rw [partFrom, if_pos rfl]
  | case3 before counting rest =>
    rw [partFrom, if_neg (by decide), if_pos rfl, h.afterDot (infix_of_cons hpath)]
  | case4 before counting c rest hbar hdot ih =>
    rw [partFrom, if_neg hbar, if_neg hdot]
    exact ih (infix_of_cons hpath)

theorem ElementComponent.parse?_congr : parse? dialect' path = parse? dialect path := by
  unfold parse?
  split
  · refine Option.map_congr fun ⟨f, length⟩ _ => ?_
    have hbehind : path.drop length <:+: whole := (List.drop_suffix length path).isInfix.trans hpath
    simp only [partFrom_congr h hbehind]
  · rw [partFrom_congr h hpath]

end Components

/-! ## Elements -/

namespace Walk

/-- The pipe of a walk is cut out of a whole path. -/
def Within (whole : Bytes) (walk : Walk) : Prop :=
  ∀ pipe ∈ walk.pipe, pipe <:+: whole

section Elements

variable {whole path : Bytes} {env env' : Surroundings} {walk : Walk}

theorem Within.count (hwalk : walk.Within whole) (counts : Counters) :
    (walk.count counts).Within whole :=
  hwalk

theorem Within.keepPipe (hwalk : walk.Within whole) {tail : Tail} (htail : tail.Within whole) :
    (walk.keepPipe tail).Within whole := by
  cases tail with
  | done => exact hwalk
  | deeper path => exact hwalk
  | pipe path =>
    intro pipe hpipe
    obtain rfl : path = pipe := Option.some.inj hpipe
    exact htail

theorem Within.keepSplit (hwalk : walk.Within whole) {pipe : Option Bytes}
    (hpipe : ∀ path ∈ pipe, path <:+: whole) : (walk.keepSplit pipe).Within whole := by
  cases pipe with
  | none => exact hwalk
  | some path => exact hpipe

theorem pipe_project (env : Surroundings) (path : Bytes) (room : Nat) (walk : Walk)
    (kept : List Gathered) (elements : List Result) :
    (project env path room walk kept elements).pipe = walk.pipe := by
  induction elements generalizing walk kept with
  | nil => rfl
  | cons element elements ih =>
    rw [project]
    split
    · exact ih _ _
    · exact ih _ _

theorem within_filterFrom (env : Surroundings) (f : Filter) (path : Option Bytes)
    {pipe : Option Bytes} (hpipe : ∀ path ∈ pipe, path <:+: whole) (room : Nat)
    (hwalk : walk.Within whole) (kept : List Gathered) (elements : List Result) :
    (filterFrom env f path pipe room walk kept elements).walk.Within whole := by
  induction elements generalizing walk kept with
  | nil => exact hwalk
  | cons element elements ih =>
    rw [filterFrom]
    dsimp only
    split
    · have hkept : ((walk.count (judge env f room element).counts).keepSplit pipe).Within whole :=
        (hwalk.count _).keepSplit hpipe
      split
      · exact ih (hkept.count _) _
      · exact hkept
    · exact ih (hwalk.count _) _

theorem within_close {filtered : Filtered} (h : filtered.walk.Within whole) (collects : Bool)
    (array : Elements) : (filtered.close collects array).1.Within whole := by
  unfold Filtered.close
  split
  · exact h
  · split
    · exact h
    · exact h

variable (h : env.AgreeOn whole env')

include h

theorem descend_congr (hpath : path <:+: whole) (value : Result) (room : Nat) :
    env'.descend value path room = env.descend value path room := by
  rw [Surroundings.descend, Surroundings.descend, h.nested value.raw path room hpath]

theorem project_congr (hpath : path <:+: whole) (room : Nat) (walk : Walk) (kept : List Gathered)
    (elements : List Result) :
    project env' path room walk kept elements = project env path room walk kept elements := by
  induction elements generalizing walk kept with
  | nil => rfl
  | cons element elements ih => simp only [project, descend_congr h hpath, ih]

theorem judge_congr {f : Filter} (hf : f.path <:+: whole) (room : Nat) (element : Result) :
    judge env' f room element = judge env f room element := by
  unfold judge
  split
  · rw [descend_congr h hf]
  · rfl

theorem pick_congr {path : Option Bytes} (hpath : ∀ inside ∈ path, inside <:+: whole) (room : Nat)
    (element : Result) : pick env' path room element = pick env path room element := by
  cases path with
  | none => rfl
  | some inside => exact descend_congr h (hpath inside rfl) element room

theorem filterFrom_congr {f : Filter} (hf : f.path <:+: whole) {path : Option Bytes}
    (hpath : ∀ inside ∈ path, inside <:+: whole) (pipe : Option Bytes) (room : Nat) (walk : Walk)
    (kept : List Gathered) (elements : List Result) :
    filterFrom env' f path pipe room walk kept elements =
      filterFrom env f path pipe room walk kept elements := by
  induction elements generalizing walk kept with
  | nil => rfl
  | cons element elements ih =>
    simp only [filterFrom, judge_congr h hf, pick_congr h hpath, ih]

end Elements

end Walk

/-! ## Walks -/

/-- What an opened container is scanned for is cut out of a whole path. -/
def Opening.Within (whole : Bytes) : Opening → Prop
  | .scan frame => frame.scan.tail.Within whole
  | .passed _ | .over => True

/-- An event leaves what follows the component of a scan, and enters containers for it. -/
def Event.Keeps (tail : Tail) : Event → Prop
  | .skip scan _ => scan.tail = tail
  | .enter scan _ path => scan.tail = tail ∧ tail = .deeper path
  | .found _ | .close _ => True

namespace Scan

theorem keeps_pass (scan : Scan) (c : Cursor) : (scan.pass c).Keeps scan.tail := by
  unfold pass
  split
  · rfl
  · trivial

theorem keeps_select (scan : Scan) (c : Cursor) : (scan.select scan.tail c).Keeps scan.tail := by
  unfold select
  split
  · rename_i path htail
    split
    · exact ⟨rfl, htail⟩
    · exact keeps_pass scan c
  · unfold take
    split
    · trivial
    · trivial

theorem keeps_step (scan : Scan) (c : Cursor) : (scan.step c).Keeps scan.tail := by
  cases scan with
  | members component =>
    rw [step, stepMember]
    dsimp only
    split
    · trivial
    · split
      · trivial
      · split
        · exact keeps_select (.members component) _
        · exact keeps_pass (.members component) _
  | elements target tail passed =>
    rw [step, stepElement]
    split
    · trivial
    · split
      · exact keeps_select (.elements target tail (passed + 1)) _
      · exact keeps_pass (.elements target tail (passed + 1)) _

end Scan

namespace Walk

theorem opening_within_close (whole : Bytes) (collects : Bool) (array : Elements)
    (filtered : Filtered) : (filtered.close collects array).2.Within whole := by
  unfold Filtered.close
  split
  · trivial
  · split
    · trivial
    · trivial

section Walks

variable {whole path : Bytes} {env env' : Surroundings} {walk : Walk}

/-- Behind a filter the path goes on inside of the elements up to a pipe of its own. -/
theorem within_insidePath {tail : Tail} (htail : tail.Within whole) :
    (∀ inside ∈ (insidePath tail).1, inside <:+: whole) ∧
      ∀ pipe ∈ (insidePath tail).2, pipe <:+: whole := by
  cases tail with
  | done => exact ⟨nofun, nofun⟩
  | pipe path => exact ⟨nofun, nofun⟩
  | deeper path =>
    obtain ⟨hinside, hpipe⟩ := Pipe.infix_split path
    refine ⟨fun inside h => ?_, fun pipe h => (hpipe pipe h).trans htail⟩
    obtain rfl : (Pipe.split path).1 = inside := Option.some.inj h
    exact hinside.trans htail

/-- Entering an array keeps pipes that are excerpts, and starts scans for excerpts. -/
theorem within_openArray (env : Surroundings) (c : Cursor) (hpath : path <:+: whole) (room : Nat)
    (hwalk : walk.Within whole) :
    (openArray env c path room walk).1.Within whole ∧
      (openArray env c path room walk).2.Within whole := by
  unfold openArray
  split
  · exact ⟨hwalk, trivial⟩
  · rename_i component hparse
    obtain ⟨hselection, htail⟩ := ElementComponent.within_parse? env.dialect hparse hpath
    have hkept := hwalk.keepPipe htail
    split
    · exact ⟨hkept, htail⟩
    · dsimp only
      split
      · exact ⟨hkept, trivial⟩
      · exact ⟨hkept, trivial⟩
    · rename_i inner heach
      rw [heach] at hselection
      have hsplit : (walk.keepPipe component.tail |>.keepSplit (Pipe.split inner).2).Within whole :=
        hkept.keepSplit fun pipe h => ((Pipe.infix_split inner).2 pipe h).trans hselection
      dsimp only
      split
      · refine ⟨fun pipe hpipe => hsplit pipe ?_, trivial⟩
        rwa [pipe_project] at hpipe
      · exact ⟨hkept, trivial⟩
    · have hpipe := (within_insidePath htail).2
      exact ⟨within_close (within_filterFrom env _ _ hpipe _ hkept _ _) _ _,
        opening_within_close _ _ _ _⟩

theorem within_openAt (env : Surroundings) (object : Bool) (c : Cursor) (hpath : path <:+: whole)
    (room : Nat) (hwalk : walk.Within whole) :
    (openAt env object c path room walk).1.Within whole ∧
      (openAt env object c path room walk).2.Within whole := by
  unfold openAt
  split
  · exact ⟨hwalk.count _, trivial⟩
  · split
    · have htail := KeyComponent.within_parseFrom env.dialect [] false hpath
      exact ⟨hwalk.keepPipe htail, htail⟩
    · exact within_openArray env c hpath room hwalk

variable (h : env.AgreeOn whole env')

include h

theorem openArray_congr (c : Cursor) (hpath : path <:+: whole) (room : Nat) (walk : Walk) :
    openArray env' c path room walk = openArray env c path room walk := by
  unfold openArray
  rw [ElementComponent.parse?_congr h.dialect hpath]
  split
  · rfl
  · rename_i component hparse
    obtain ⟨hselection, htail⟩ := ElementComponent.within_parse? env.dialect hparse hpath
    dsimp only
    split
    · rfl
    · rfl
    · rename_i inner heach
      rw [heach] at hselection
      simp only [project_congr h ((Pipe.infix_split inner).1.trans hselection)]
    · rename_i f hfilter
      rw [hfilter] at hselection
      simp only [openFilter, filterFrom_congr h hselection (within_insidePath htail).1]

theorem openAt_congr (object : Bool) (c : Cursor) (hpath : path <:+: whole) (room : Nat)
    (walk : Walk) : openAt env' object c path room walk = openAt env object c path room walk := by
  have hcomponent : KeyComponent.parse env'.dialect path = KeyComponent.parse env.dialect path :=
    KeyComponent.parseFrom_congr h.dialect hpath [] false
  rw [openAt, openAt, openArray_congr h c hpath, openObject, openObject, hcomponent]

/-- Driving scans for excerpts agrees, and keeps excerpts as pipes. -/
theorem run_congr (hwalk : walk.Within whole) (c : Cursor) (frames : List Frame)
    (hframes : ∀ frame ∈ frames, frame.scan.tail.Within whole) :
    run env' walk c frames = run env walk c frames ∧ (run env walk c frames).Within whole := by
  -- On the events of the walk, which leave scans for excerpts behind
  induction walk, c, frames using @run_induction env with
  | nil walk c =>
    rw [run_nil, run_nil]
    exact ⟨rfl, hwalk⟩
  | skip walk c frame frames scan next hstep ih =>
    obtain ⟨hframe, hframes⟩ := List.forall_mem_cons.1 hframes
    have hkeeps := Scan.keeps_step frame.scan c
    rw [hstep] at hkeeps
    rw [run_cons, run_cons, hstep]
    exact ih hwalk (List.forall_mem_cons.2 ⟨hkeeps ▸ hframe, hframes⟩)
  | close walk c frame frames next hstep ih =>
    rw [run_cons, run_cons, hstep]
    exact ih hwalk (List.forall_mem_cons.1 hframes).2
  | found walk c frame frames value hstep =>
    rw [run_cons, run_cons, hstep]
    exact ⟨rfl, hwalk⟩
  | enter walk c frame frames scan bracket path hstep ihscan ihpassed =>
    obtain ⟨hframe, hframes⟩ := List.forall_mem_cons.1 hframes
    have hkeeps := Scan.keeps_step frame.scan c
    rw [hstep] at hkeeps
    obtain ⟨hscan, hdeeper⟩ := hkeeps
    have hpath : path <:+: whole := by
      rw [hdeeper] at hframe
      exact hframe
    have houter : ∀ frame' ∈ ⟨scan, frame.room⟩ :: frames, frame'.scan.tail.Within whole :=
      List.forall_mem_cons.2 ⟨hscan ▸ hframe, hframes⟩
    have hwithin := within_openAt env (bracket.peek? = some openBrace) (bracket.advance 1) hpath
      (frame.room - 1) hwalk
    rw [run_cons, run_cons, hstep]
    simp only [react, entered]
    rw [openAt_congr h _ _ hpath]
    rcases hopen : openAt env (bracket.peek? = some openBrace) (bracket.advance 1) path
      (frame.room - 1) walk with ⟨after, inner | next | _⟩
    · rw [hopen] at hwithin
      exact ihscan after inner hopen hwithin.1 (List.forall_mem_cons.2 ⟨hwithin.2, houter⟩)
    · rw [hopen] at hwithin
      exact ihpassed after next hopen hwithin.1 houter
    · rw [hopen] at hwithin
      exact ⟨rfl, hwithin.1⟩

theorem enter_congr (object : Bool) (c : Cursor) (hpath : path <:+: whole) (room : Nat) :
    enter env' object c path room = enter env object c path room ∧
      (enter env object c path room).Within whole := by
  have hblank : Walk.Within whole {} := nofun
  have hwithin := within_openAt env object c hpath room hblank
  rw [enter, enter, openAt_congr h object c hpath]
  generalize openAt env object c path room {} = opened at hwithin ⊢
  rcases opened with ⟨after, inner | next | _⟩
  · exact run_congr h hwithin.1 c [inner] (List.forall_mem_singleton.2 hwithin.2)
  · exact ⟨rfl, hwithin.1⟩
  · exact ⟨rfl, hwithin.1⟩

omit h in
theorem infix_lines? {path rest : Bytes} (h : lines? path = some rest) : rest <:+: path := by
  unfold lines? at h
  split at h
  · split at h
    · obtain rfl := Option.some.inj h
      exact infix_of_cons (infix_of_cons List.infix_rfl)
    · cases h
  · cases h

/-- A walk for an excerpt finds the same in surroundings that agree, and keeps an excerpt as its
pipe. -/
theorem start_congr (text : Bytes) (hpath : path <:+: whole) (room : Nat) :
    start env' text path room = start env text path room ∧
      (start env text path room).Within whole := by
  unfold start
  split
  · rename_i rest hlines
    exact enter_congr h _ _ ((infix_lines? hlines).trans hpath) room
  · dsimp only
    split
    · exact ⟨rfl, nofun⟩
    · exact enter_congr h _ _ hpath room

/-- What a walk keeps behind a bar is applied alike to what it found. -/
theorem applied_congr {walk : Walk} (hwalk : walk.Within whole) (room : Nat) :
    Surroundings.applied env' walk room = Surroundings.applied env walk room := by
  unfold Surroundings.applied
  split
  · rename_i pipe hkept
    exact descend_congr h (hwalk pipe hkept) walk.value room
  · rfl

end Walks

end Walk

/-! ## Chains -/

namespace Engine

section Chains

variable {whole path : Bytes} {nested nested' : Nested} {engine engine' : Engine}

theorem selectParts_congr (h : nested.AgreeOn whole nested') (object : Bool) (depth : Nat)
    (text : Bytes) {parts : List Selector} (hparts : ∀ part ∈ parts, part.path <:+: whole)
    (found : List Bytes) (counts : Counters) :
    selectParts nested' object depth text found counts parts =
      selectParts nested object depth text found counts parts := by
  induction parts generalizing found counts with
  | nil => rfl
  | cons part parts ih =>
    obtain ⟨hpart, hparts⟩ := List.forall_mem_cons.1 hparts
    simp only [selectParts, h text part.path depth hpart, ih hparts]

theorem infix_of_selectorTail? {rest next : Bytes} (h : selectorTail? rest = some (some next)) :
    next <:+: rest := by
  unfold selectorTail? at h
  split at h
  · cases h
  · obtain ⟨next', hnext, hsome⟩ := Option.map_eq_some_iff.1 h
    obtain rfl := Option.some.inj hsome
    exact Path.infix_continuation? hnext

theorem select?_congr (h : nested.AgreeOn whole nested') (depth : Nat) (text : Bytes)
    (hpath : path <:+: whole) :
    select? nested' depth text path = select? nested depth text path := by
  unfold select?
  cases hparse : Selector.parse? path with
  | none => rfl
  | some parsed =>
    obtain ⟨parts, rest⟩ := parsed
    obtain ⟨hparts, hrest⟩ := Selector.infix_parse? hparse
    have hselected := selectParts_congr h (path.head? == some openBrace) depth text
      (fun part hpart => (hparts part hpart).trans hpath) [] .zero
    dsimp only [Option.bind_some]
    refine Option.map_congr fun next? hnext => ?_
    cases next? with
    | none => exact hselected
    | some next =>
      have hnext := (infix_of_selectorTail? hnext).trans (hrest.trans hpath)
      dsimp only
      rw [hselected, h _ next depth hnext]

/-- What the rest of a chain resolves is cut out of a whole path. -/
def Link.Within (whole : Bytes) : Link → Prop
  | .output handed => handed.rest <:+: whole
  | .unknown rest => rest <:+: whole
  | .selected _ | .components => True

/-- A link leaves an excerpt of the path to the rest of the chain. -/
theorem within_link (engine : Engine) (nested : Nested) (room depth : Nat) (text : Bytes)
    (hpath : path <:+: whole) : (engine.link nested room depth text path).Within whole := by
  unfold link
  split
  · rename_i c d rest
    have hcall := (Invocation.parse_isInfix (c :: d :: rest)).2.trans hpath
    split
    · dsimp only
      split
      · unfold runModifier
        dsimp only
        split
        · exact (Invocation.behind_isInfix _).trans hcall
        · exact (Invocation.behind_isInfix _).trans hcall
      · exact hcall
    · split
      · split
        · rename_i literal hliteral
          exact (Literal.infix_parse? hliteral).trans hpath
        · trivial
      · split
        · split
          · trivial
          · trivial
        · trivial
  · trivial

variable (hconfig : engine'.config = engine.config)
  (hregistry : engine.registry.AgreeOn whole engine'.registry)

include hconfig hregistry

theorem agreeOn_dialect : engine.dialect.AgreeOn whole engine'.dialect := by
  rw [dialect, dialect, hconfig]
  exact hregistry.dialects engine.config.modifiers

/-- The name that a link calls stands in front of the path, behind its at sign. -/
theorem link_congr (h : nested.AgreeOn whole nested') (room depth : Nat) (text : Bytes)
    (hpath : path <:+: whole) :
    engine'.link nested' room depth text path = engine.link nested room depth text path := by
  unfold link
  split
  · rename_i c d rest
    have hfind : c = atSign → engine'.registry.find? (Invocation.parse (c :: d :: rest)).name =
        engine.registry.find? (Invocation.parse (c :: d :: rest)).name := by
      rintro rfl
      have hname := (Invocation.parse_isInfix (atSign :: d :: rest)).1
      exact hregistry _ (((List.prefix_cons_inj atSign).2 hname).isInfix.trans hpath)
    rw [hconfig, select?_congr h depth text hpath]
    split
    · rename_i hcall
      have hat : c = atSign := by
        simp only [Bool.and_eq_true, decide_eq_true_eq] at hcall
        exact hcall.1
      dsimp only
      rw [hfind hat]
    · rfl
  · rfl

/-- A chain for an excerpt finds the same, link by link. -/
theorem chain_congr (h : nested.AgreeOn whole nested') (room : Nat) (text : Bytes)
    (hpath : path <:+: whole) (base : Option Nat) (counts : Counters) (depth : Nat) :
    engine'.chain nested' room text path base counts depth =
      engine.chain nested room text path base counts depth := by
  -- On the depth, of which every link of the chain takes one
  induction depth generalizing text path base counts with
  | zero => rfl
  | succ depth ih =>
    have henv : Surroundings.AgreeOn whole ⟨engine.dialect, nested⟩ ⟨engine'.dialect, nested'⟩ :=
      ⟨agreeOn_dialect hconfig hregistry, h⟩
    have hlinks := link_congr hconfig hregistry h room depth text hpath
    have hwithin := within_link engine nested room depth text hpath
    obtain ⟨hwalk, hpipe⟩ := Walk.start_congr henv text hpath (depth + 1)
    cases hlink : engine.link nested room depth text path with
    | output output =>
      rw [hlink] at hlinks hwithin
      rw [chain_output _ _ _ _ _ hlink, chain_output _ _ _ _ _ hlinks]
      split
      · rfl
      · rename_i next hnext
        exact ih output.text ((Path.infix_continuation? hnext).trans hwithin) _ _
    | selected result =>
      rw [hlink] at hlinks
      rw [chain_selected _ _ _ _ _ hlink, chain_selected _ _ _ _ _ hlinks]
    | unknown rest =>
      rw [hlink] at hlinks hwithin
      rw [chain_unknown _ _ _ _ _ hlink, chain_unknown _ _ _ _ _ hlinks]
      dsimp only
      rw [hwalk]
      generalize Walk.start _ text path (depth + 1) = walk at hpipe
      rw [Walk.applied_congr henv hpipe depth]
      split
      · rfl
      · split
        · rfl
        · rename_i next hnext
          exact ih text ((Path.infix_continuation? hnext).trans hwithin) _ _
    | components =>
      rw [hlink] at hlinks
      rw [chain_components _ _ _ _ _ hlink, chain_components _ _ _ _ _ hlinks]
      dsimp only
      rw [hwalk]
      generalize Walk.start _ text path (depth + 1) = walk at hpipe
      split
      · rfl
      · rename_i pipe hkept
        exact ih walk.value.raw (hpipe pipe hkept) _ _

omit hregistry in
/-- Resolution asks for no other modifiers than those that the path mentions. -/
theorem resolve_congr (room : Nat) (hregistry : engine.registry.AgreeOn whole engine'.registry) :
    (engine.resolve room).AgreeOn whole (engine'.resolve room) := by
  -- On the room: what is nested has one less
  induction room with
  | zero => exact fun _ _ _ _ => rfl
  | succ room ih =>
    intro text path depth hpath
    exact chain_congr hconfig hregistry ih room text hpath (some 0) .zero depth

end Chains

/-! ## Queries -/

section Queries

variable {engine engine' : Engine} (hconfig : engine'.config = engine.config)

include hconfig

/-- A query finds the same under registries that agree on the names that its path mentions. -/
theorem get_congr (document : Bytes) {path : Bytes}
    (hregistry : engine.registry.AgreeOn path engine'.registry) :
    engine'.get document path = engine.get document path := by
  rw [get, get, hconfig,
    resolve_congr hconfig pathNesting hregistry document path _ List.infix_rfl]

theorem fillFrom_congr (document : Bytes) (answers : Batch.Answers) {paths : List Bytes}
    (hregistry : ∀ path ∈ paths, engine.registry.AgreeOn path engine'.registry) (slot : Nat)
    (results : List Result) (counts : Counters) :
    engine'.fillFrom document answers slot results counts paths =
      engine.fillFrom document answers slot results counts paths := by
  induction paths generalizing slot results counts with
  | nil => rfl
  | cons path paths ih =>
    obtain ⟨hpath, hpaths⟩ := List.forall_mem_cons.1 hregistry
    simp only [fillFrom, hconfig, get_congr hconfig document hpath, ih hpaths]

/-- Flat paths mention no modifier, and the others are resolved one by one. -/
theorem getMany_congr (document : Bytes) {paths : List Bytes}
    (hregistry : ∀ path ∈ paths, engine.registry.AgreeOn path engine'.registry) :
    engine'.getMany document paths = engine.getMany document paths := by
  simp only [getMany, hconfig, fillFrom_congr hconfig document _ hregistry]

end Queries

end Engine

/-- A path that does not mention a name sees no difference when it is registered. -/
theorem Registry.agreeOn_register (registry : Registry) {name path : Bytes}
    (hpath : ¬Mentions path name) (modifier : Modifier) :
    registry.AgreeOn path (registry.register name modifier) := by
  intro other hother
  apply registry.find?_register_of_ne
  rintro rfl
  exact hpath hother

/-- **Registering a modifier changes the queries of no path but those that mention it.**  Whether
the name is new or its modifier is replaced, single paths and batches find the same in any document,
and count the same. -/
theorem Engine.register_frame (engine : Engine) (name : Bytes) (modifier : Modifier)
    (document : Bytes) {paths : List Bytes} (hpaths : ∀ path ∈ paths, ¬Mentions path name) :
    let registered : Engine := { engine with registry := engine.registry.register name modifier }
    (∀ path ∈ paths, registered.get document path = engine.get document path) ∧
      registered.getMany document paths = engine.getMany document paths := by
  intro registered
  have hconfig : registered.config = engine.config := rfl
  have hregistry : ∀ path ∈ paths, engine.registry.AgreeOn path registered.registry :=
    fun path hpath => engine.registry.agreeOn_register (hpaths path hpath) modifier
  exact ⟨fun path hpath => get_congr hconfig document (hregistry path hpath),
    getMany_congr hconfig document hregistry⟩

/-- Replacing a modifier shows where a path calls it, and does not where the path calls another. -/
theorem Engine.register_frame_sample :
    let registry := Registry.builtins.register (Bytes.ofString "this") fun _ _ _ => .ok [0x30]
    let replaced : Engine := ⟨Engine.standard.config, registry⟩
    let text := Bytes.ofString "\x7b\"a\":[1,2]\x7d"
    (replaced.get text (Bytes.ofString "a.@tostr")).value =
        (Engine.standard.get text (Bytes.ofString "a.@tostr")).value ∧
      (replaced.get text (Bytes.ofString "a.@this")).value ≠
        (Engine.standard.get text (Bytes.ofString "a.@this")).value := by
  have hpaths : ∀ path ∈ [Bytes.ofString "a.@tostr"], ¬Mentions path (Bytes.ofString "this") := by
    decide
  have hframe := (Engine.register_frame .standard (Bytes.ofString "this") (fun _ _ _ => .ok [0x30])
    (Bytes.ofString "\x7b\"a\":[1,2]\x7d") hpaths).1
  exact ⟨congrArg Counted.value (hframe _ List.mem_cons_self), by decide +kernel⟩

end JsonQuery
