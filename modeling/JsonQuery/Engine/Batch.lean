import JsonQuery.Engine.Resolve

/-!
# Batches of paths

Many paths are answered in one scan of the document, as long as they are flat: keys and positions
between dots, without any byte that has a meaning of its own.  Each container is scanned for all
paths that lead into it, and entered only where some of them still wants an answer.  Paths of any
other form are resolved one by one.

- `Engine.getMany` answers a list of paths, one result for each.
-/

namespace JsonQuery

open Ascii

namespace Batch

/-! ## Flat paths -/

/-- Bytes that have a meaning besides their own in a path. -/
def isSpecial (c : UInt8) : Bool :=
  c == backslash || c == star || c == question || c == hash || c == atSign || c == bang || c == bar
    || isOpener c || isCloser c

/-- A flat path that is looked for in a container. -/
structure Target where
  /-- The place of its answer. -/
  slot : Nat
  /-- The component that is matched in the container. -/
  component : Bytes
  /-- The components behind it. -/
  rest : List Bytes
  deriving DecidableEq, Repr, Inhabited

/-- The components of a flat path that is no deeper than a bound. -/
def components? (maxDepth : Nat) (path : Bytes) : Option (List Bytes) :=
  if (Walk.lines? path).isSome || path.any isSpecial then none
  else
    let components := path.splitOn dot
    if components.length ≤ maxDepth then some components else none

/-- A flat path with the place of its answer. -/
def target? (maxDepth slot : Nat) (path : Bytes) : Option Target :=
  match components? maxDepth path with
  | some (component :: rest) => some ⟨slot, component, rest⟩
  | _ => none

/-- The target inside of the container that its component has led to. -/
def Target.next? (target : Target) : Option Target :=
  match target.rest with
  | [] => none
  | component :: rest => some ⟨target.slot, component, rest⟩

/-! ## Levels of the scan -/

/-- The answers found so far, by place. -/
abbrev Answers := Array (Option Result)

/-- Whether a target has its answer. -/
def Answers.has (answers : Answers) (target : Target) : Bool :=
  match answers[target.slot]? with
  | some (some _) => true
  | _ => false

/-- Stores an answer for all targets of a list. -/
def Answers.store (answers : Answers) (value : Result) (targets : List Target) : Answers :=
  targets.foldl (fun answers target => answers.setIfInBounds target.slot (some value)) answers

/-- A container that is being scanned, and what is looked for in it. -/
structure Level where
  object : Bool
  cursor : Cursor
  /-- The number of elements passed. -/
  passed : Nat
  targets : List Target
  deriving Repr, Inhabited

/-- A member or element of a level. -/
structure Entry where
  /-- The key of a member. -/
  key? : Option Bytes
  /-- Where its value starts. -/
  value : Cursor
  /-- Where it ends. -/
  next : Cursor
  deriving Repr, Inhabited

namespace Level

/-- The level of the container that opens at a cursor. -/
def openAt (bracket : Cursor) (targets : List Target) : Level :=
  ⟨bracket.peek? == some openBrace, bracket.advance 1, 0, targets⟩

/-- The key of the next member, with its escapes read, and the place behind it. -/
def key? (c : Cursor) : Option (Bytes × Cursor) :=
  c.key?.map fun key => (if key.escaped then Quoted.decode key.body else key.body, key.next)

/-- The value from a cursor on, up to the end of the container. -/
def value? (closer : UInt8) (c : Cursor) : Option (Cursor × Cursor) :=
  let value := c.toValue closer
  value.skipHere?.map fun next => (value, next)

/-- The next member or element. -/
def entry? (level : Level) : Option Entry :=
  if level.object then
    (key? level.cursor).bind fun (key, c) =>
      (value? closeBrace c).map fun (value, next) => ⟨some key, value, next⟩
  else (value? closeBracket level.cursor).map fun (value, next) => ⟨none, value, next⟩

/-- Whether a target looks for an entry. -/
def wants (level : Level) (entry : Entry) (target : Target) : Bool :=
  match entry.key? with
  | some key => target.component == key
  | none => Number.position? target.component == some level.passed

/-- The answers with what an entry adds to them. -/
def answer (answers : Answers) (entry : Entry) (wanted : List Target) : Answers :=
  let leaves := wanted.filter fun target => target.rest.isEmpty
  if leaves.isEmpty then answers
  else
    match entry.value.readHere? with
    | some reading => answers.store reading.value leaves
    | none => answers

/-- The level inside of an entry, if some target leads into it. -/
def inner? (entry : Entry) (wanted : List Target) : Option Level :=
  let deeper := wanted.filterMap Target.next?
  if deeper.isEmpty || !Scan.atContainer entry.value then none
  else some (openAt entry.value deeper)

/-- The level behind an entry. -/
def pass (level : Level) (entry : Entry) : Level :=
  { level with cursor := entry.next, passed := level.passed + 1 }

end Level

/-! ## Levels only move on -/

theorem Level.left_value?_lt {closer : UInt8} {c value next : Cursor}
    (h : value? closer c = some (value, next)) : next.left < value.left ∧ value.left ≤ c.left := by
  obtain ⟨_, hskip, hpair⟩ := Option.map_eq_some_iff.1 h
  cases hpair
  exact ⟨Cursor.left_lt_of_skipHere? hskip, Cursor.left_toValue_le closer c⟩

theorem Level.left_entry?_lt {level : Level} {entry : Entry} (h : level.entry? = some entry) :
    entry.next.left < entry.value.left ∧ entry.value.left ≤ level.cursor.left := by
  unfold entry? at h
  split at h
  · obtain ⟨⟨key, c⟩, hkey, h⟩ := Option.bind_eq_some_iff.1 h
    obtain ⟨⟨value, next⟩, hvalue, rfl⟩ := Option.map_eq_some_iff.1 h
    obtain ⟨found, hfound, hpair⟩ := Option.map_eq_some_iff.1 hkey
    cases hpair
    have hvalue := left_value?_lt hvalue
    exact ⟨hvalue.1, Nat.le_trans hvalue.2 (Cursor.left_le_of_key? hfound)⟩
  · obtain ⟨⟨value, next⟩, hvalue, rfl⟩ := Option.map_eq_some_iff.1 h
    exact left_value?_lt hvalue

theorem Level.left_inner?_lt {entry : Entry} {wanted : List Target} {inner : Level}
    (hpos : 0 < entry.value.left) (h : inner? entry wanted = some inner) :
    inner.cursor.left < entry.value.left := by
  unfold inner? at h
  dsimp only at h
  split at h
  · cases h
  · cases h
    show (entry.value.advance 1).left < entry.value.left
    rw [Cursor.left_advance]
    omega

/-- A weight of the work that a level leaves.  It may enter containers that reach to the end of the
document, so the weight has to outgrow that of two levels with one byte less ahead. -/
def Level.weight (level : Level) : Nat :=
  Nat.pow 4 level.cursor.left

theorem Level.weight_pos (level : Level) : 0 < level.weight :=
  Nat.pow_pos (by omega)

theorem Level.weight_lt {a b : Level} (h : a.cursor.left < b.cursor.left) :
    4 * a.weight ≤ b.weight := by
  rw [weight, weight, Nat.pow_eq, Nat.pow_eq, Nat.mul_comm, ← Nat.pow_succ]
  exact Nat.pow_le_pow_right (by omega) h

/-- The work that a stack of levels leaves. -/
def work : List Level → Nat
  | [] => 0
  | level :: outer => level.weight + 1 + work outer

/-! ## The scan -/

/-- Scans the levels, the innermost first, until none is left. -/
def scan (answers : Answers) (levels : List Level) : Answers :=
  match levels with
  | [] => answers
  | level :: outer =>
    -- A level is left as soon as nobody waits for it any more
    if level.targets.all answers.has then scan answers outer
    else
      match _hentry : level.entry? with
      | none => scan answers outer
      | some entry =>
        let wanted := level.targets.filter fun target =>
          !answers.has target && level.wants entry target
        let answers := Level.answer answers entry wanted
        match _hinner : Level.inner? entry wanted with
        | some inner => scan answers (inner :: level.pass entry :: outer)
        -- Nothing to enter: the scan goes on behind the entry
        | none => scan answers (level.pass entry :: outer)
termination_by work levels
decreasing_by
  all_goals simp only [work]
  · omega
  · omega
  -- Entering a container: two levels with less ahead of them take the place of one
  · have hleft := Level.left_entry?_lt _hentry
    have hinner := Level.left_inner?_lt (by omega) _hinner
    have hin := Level.weight_lt (Nat.lt_of_lt_of_le hinner hleft.2)
    have hnext : 4 * (level.pass entry).weight ≤ level.weight :=
      Level.weight_lt (Nat.lt_of_lt_of_le hleft.1 hleft.2)
    have hpos := Level.weight_pos inner
    omega
  · have hleft := Level.left_entry?_lt _hentry
    have hnext : 4 * (level.pass entry).weight ≤ level.weight :=
      Level.weight_lt (Nat.lt_of_lt_of_le hleft.1 hleft.2)
    have hpos := Level.weight_pos (level.pass entry)
    omega

/-- The answers of one scan of a document for flat paths. -/
def answers (document : Bytes) (size : Nat) (targets : List Target) : Answers :=
  let blank := Array.replicate size none
  let bracket := (Cursor.start document).toContainer
  if targets.isEmpty || bracket.rest.isEmpty then blank
  else scan blank [Level.openAt bracket targets]

end Batch

namespace Engine

/-- Resolves, one by one and in order, the paths of a list that are not flat.  `results` holds the
results of the paths before, the last one first. -/
def fillFrom (engine : Engine) (document : Bytes) (answers : Batch.Answers) (slot : Nat)
    (results : List Result) (counts : Counters) : List Bytes → Counted (List Result)
  | [] => ⟨results.reverse, counts⟩
  | path :: paths =>
    match Batch.target? engine.config.maxDepth slot path with
    | some _ =>
      let result := (answers[slot]?.getD none).getD .missing
      engine.fillFrom document answers (slot + 1) (result :: results) counts paths
    | none =>
      let found := engine.get document path
      engine.fillFrom document answers (slot + 1) (found.value :: results) (counts + found.counts)
        paths

/-- Resolves a list of paths inside of a document; the results are in the order of the paths. -/
def getMany (engine : Engine) (document : Bytes) (paths : List Bytes) : Counted (List Result) :=
  let targets := (paths.mapIdx fun slot path =>
    Batch.target? engine.config.maxDepth slot path).filterMap id
  let answers := Batch.answers document paths.length targets
  let counts := Counters.batch targets.length (paths.length - targets.length)
  engine.fillFrom document answers 0 [] counts paths

end Engine

end JsonQuery
