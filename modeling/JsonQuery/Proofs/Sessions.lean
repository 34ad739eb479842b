import JsonQuery.Engine.Session
import JsonQuery.Proofs.Procedures

/-!
# Counters account for operations

In a session of two engines the counters of each are the sum of what its queries count.  Resolving a
path counts the modifiers that are run for it, a query for one path counts a get, and a batch counts
its paths by whether its scan answers them or they are resolved one by one, in which case they count
as gets too.  So the counters can be told from the operations alone, and what one engine is asked
leaves the counters of the other one as they are.

## Layers

- **Counters**: adding counters up, field by field, and counters that account for some events.
- **Queries**: each query accounts for itself; for a batch, by induction over its paths.
- **Sessions**: a step adds what its query counts, and so does a run, step by step.
-/

namespace JsonQuery

/-! ## Counters -/

namespace Counters

/-- No event happened more often on the left. -/
instance : LE Counters where
  le a b := a.gets ≤ b.gets ∧ a.batchScanned ≤ b.batchScanned ∧ a.batchSingles ≤ b.batchSingles ∧
    a.modifierCalls ≤ b.modifierCalls ∧ a.modifierFailures ≤ b.modifierFailures ∧
    a.depthHits ≤ b.depthHits

section Fields

variable (a b : Counters)

@[simp] theorem gets_add : (a + b).gets = a.gets + b.gets :=
  rfl

@[simp] theorem batchScanned_add : (a + b).batchScanned = a.batchScanned + b.batchScanned :=
  rfl

@[simp] theorem batchSingles_add : (a + b).batchSingles = a.batchSingles + b.batchSingles :=
  rfl

@[simp] theorem modifierCalls_add : (a + b).modifierCalls = a.modifierCalls + b.modifierCalls :=
  rfl

@[simp] theorem modifierFailures_add :
    (a + b).modifierFailures = a.modifierFailures + b.modifierFailures :=
  rfl

theorem le_refl : a ≤ a :=
  ⟨Nat.le_refl _, Nat.le_refl _, Nat.le_refl _, Nat.le_refl _, Nat.le_refl _, Nat.le_refl _⟩

theorem le_add : a ≤ a + b :=
  ⟨Nat.le_add_right _ _, Nat.le_add_right _ _, Nat.le_add_right _ _, Nat.le_add_right _ _,
    Nat.le_add_right _ _, Nat.le_add_right _ _⟩

end Fields

theorem le_trans {a b c : Counters} (hab : a ≤ b) (hbc : b ≤ c) : a ≤ c := by
  obtain ⟨hgets, hscanned, hsingles, hcalls, hfailures, hhits⟩ := hab
  obtain ⟨hgets', hscanned', hsingles', hcalls', hfailures', hhits'⟩ := hbc
  exact ⟨Nat.le_trans hgets hgets', Nat.le_trans hscanned hscanned',
    Nat.le_trans hsingles hsingles', Nat.le_trans hcalls hcalls',
    Nat.le_trans hfailures hfailures', Nat.le_trans hhits hhits'⟩

/-- Counters account for some gets, for the paths of batches and for runs of modifiers. -/
structure Account (counters : Counters) (gets batched : Nat) (runs : List Run) : Prop where
  gets : counters.gets = gets + counters.batchSingles
  batched : counters.batchScanned + counters.batchSingles = batched
  calls : counters.modifierCalls = runs.length
  failures : counters.modifierFailures = runs.countP Run.failed

theorem Account.zero : Account zero 0 0 [] :=
  ⟨rfl, rfl, rfl, rfl⟩

theorem Account.add {a b : Counters} {gets gets' batched batched' : Nat} {runs runs' : List Run}
    (ha : a.Account gets batched runs) (hb : b.Account gets' batched' runs') :
    (a + b).Account (gets + gets') (batched + batched') (runs ++ runs') where
  gets := by
    rw [gets_add, batchSingles_add, ha.gets, hb.gets]
    omega
  batched := by
    rw [batchScanned_add, batchSingles_add, ← ha.batched, ← hb.batched]
    omega
  calls := by rw [modifierCalls_add, ha.calls, hb.calls, List.length_append]
  failures := by rw [modifierFailures_add, ha.failures, hb.failures, List.countP_append]

end Counters

/-! ## Queries -/

namespace Engine

section Batches

variable (engine : Engine)

/-- A path that a batch resolves on its own. -/
def isSingle (path : Bytes) : Bool :=
  (Batch.components? engine.config.maxDepth path).isNone

theorem isNone_target? (slot : Nat) (path : Bytes) :
    (Batch.target? engine.config.maxDepth slot path).isNone = engine.isSingle path := by
  rw [isSingle, Batch.target?]
  cases hcomponents : Batch.components? engine.config.maxDepth path with
  | none => rfl
  | some components =>
    -- A path that is split has at least one component
    cases components with
    | cons component rest => rfl
    | nil =>
      unfold Batch.components? at hcomponents
      split at hcomponents
      · cases hcomponents
      · dsimp only at hcomponents
        split at hcomponents
        · exact absurd (Option.some.inj hcomponents) (List.splitOn_ne_nil _ _)
        · cases hcomponents

/-- The scan of a batch has one target for each path that is not resolved on its own. -/
theorem length_targets (paths : List Bytes) :
    ((paths.mapIdx fun slot path =>
      Batch.target? engine.config.maxDepth slot path).filterMap id).length +
        paths.countP engine.isSingle = paths.length := by
  suffices hall : ∀ target? : Nat → Bytes → Option Batch.Target,
      (∀ slot path, (target? slot path).isNone = engine.isSingle path) →
      ((paths.mapIdx target?).filterMap id).length + paths.countP engine.isSingle =
        paths.length from
    hall _ engine.isNone_target?
  induction paths with
  | nil => intro _ _; rfl
  | cons path paths ih =>
    intro target? htarget
    have hrest := ih (fun slot => target? (slot + 1)) fun slot => htarget (slot + 1)
    have hpath := htarget 0 path
    rw [List.mapIdx_cons, List.filterMap_cons, List.countP_cons, ← hpath, List.length_cons]
    cases target? 0 path with
    | none =>
      dsimp only [id, Option.isNone]
      rw [if_pos rfl]
      omega
    | some target =>
      dsimp only [id, Option.isNone]
      rw [if_neg Bool.false_ne_true, List.length_cons]
      omega

/-- The modifiers that are run for the paths of a batch. -/
def batchRuns (document : Bytes) (paths : List Bytes) : List Run :=
  (paths.filter engine.isSingle).flatMap (engine.runs document)

/-- A query for one path counts one get and its runs. -/
theorem exists_counts_get (document path : Bytes) :
    ∃ hits, (engine.get document path).counts =
      .oneGet + .ofRuns (engine.runs document path) hits := by
  obtain ⟨hits, hcounts⟩ := engine.exists_counts_resolve document path
  exact ⟨hits, by rw [get, Counted.after, hcounts]⟩

/-- Filling in a batch counts a get and the runs of every path that is resolved on its own. -/
theorem counts_fillFrom (document : Bytes) (answers : Batch.Answers) (slot : Nat)
    (results : List Result) (counts : Counters) (paths : List Bytes) :
    let filled := (engine.fillFrom document answers slot results counts paths).counts
    filled.gets = counts.gets + paths.countP engine.isSingle ∧
      filled.batchScanned = counts.batchScanned ∧ filled.batchSingles = counts.batchSingles ∧
      filled.modifierCalls = counts.modifierCalls + (engine.batchRuns document paths).length ∧
      filled.modifierFailures =
        counts.modifierFailures + (engine.batchRuns document paths).countP Run.failed := by
  induction paths generalizing slot results counts with
  | nil => exact ⟨rfl, rfl, rfl, rfl, rfl⟩
  | cons path paths ih =>
    have hsingle := engine.isNone_target? slot path
    rw [fillFrom, batchRuns, List.filter_cons, List.countP_cons, ← hsingle]
    cases Batch.target? engine.config.maxDepth slot path with
    | some target => exact ih (slot + 1) _ counts
    | none =>
      obtain ⟨hits, hcounts⟩ := engine.exists_counts_get document path
      obtain ⟨hgets, hscanned, hsingles, hcalls, hfailures⟩ := ih (slot + 1)
        ((engine.get document path).value :: results) (counts + (engine.get document path).counts)
      dsimp only
      rw [hgets, hscanned, hsingles, hcalls, hfailures, hcounts, batchRuns]
      -- The path counts its get and its runs, and then come those of the paths behind it
      simp [Counters.oneGet, Counters.ofRuns, Nat.add_assoc, Nat.add_comm 1]

/-- A batch counts all its paths, and a get for each one that is resolved on its own. -/
theorem account_getMany (document : Bytes) (paths : List Bytes) :
    (engine.getMany document paths).counts.Account 0 paths.length
      (engine.batchRuns document paths) := by
  have hlength := engine.length_targets paths
  rw [getMany]
  generalize ((paths.mapIdx fun slot path =>
    Batch.target? engine.config.maxDepth slot path).filterMap id) = targets at hlength ⊢
  obtain ⟨hgets, hscanned, hsingles, hcalls, hfailures⟩ := engine.counts_fillFrom document
    (Batch.answers document paths.length targets) 0 []
    (Counters.batch targets.length (paths.length - targets.length)) paths
  constructor
  · rw [hgets, hsingles]
    simp only [Counters.batch]
    omega
  · rw [hscanned, hsingles]
    simp only [Counters.batch]
    omega
  · rw [hcalls]
    simp only [Counters.batch, Nat.zero_add]
  · rw [hfailures]
    simp only [Counters.batch, Nat.zero_add]

end Batches

end Engine

namespace Query

/-- Whether a query is for one path of a document. -/
def isGet : Query → Bool
  | get _ _ => true
  | _ => false

/-- The paths that a batch is given. -/
def batched : Query → List Bytes
  | getMany _ paths => paths
  | _ => []

/-- The modifiers that an engine runs for a query, in order. -/
def runs (engine : Engine) : Query → List Run
  | get document path => engine.runs document path
  | getMany document paths => engine.batchRuns document paths
  | getFrom r path => engine.runs r.raw path
  | parse _ | valid _ | lines _ => []

/-- What is counted for a query accounts for it. -/
theorem account_answer (engine : Engine) (query : Query) :
    (query.answer engine).counts.Account (if query.isGet then 1 else 0) query.batched.length
      (query.runs engine) := by
  cases query with
  | get document path =>
    obtain ⟨hits, hcounts⟩ := engine.exists_counts_get document path
    rw [answer, Counted.map, hcounts]
    exact ⟨rfl, rfl, by simp [Counters.oneGet, Counters.ofRuns, runs],
      by simp [Counters.oneGet, Counters.ofRuns, runs]⟩
  | getMany document paths => exact engine.account_getMany document paths
  | getFrom r path =>
    obtain ⟨hits, hcounts⟩ := engine.exists_counts_resolve r.raw path
    have hanswer : ((getFrom r path).answer engine).counts =
        (engine.resolve Engine.pathNesting r.raw path engine.config.maxDepth).counts := rfl
    rw [hanswer, hcounts]
    exact ⟨rfl, rfl, rfl, rfl⟩
  | parse document => exact .zero
  | valid document => exact .zero
  | lines document => exact .zero

end Query

/-! ## Sessions -/

/-- What an operation asks an engine. -/
def Operation.query? (side : Side) : Operation → Option Query
  | register _ _ => none
  | ask asked query => if asked = side then some query else none

namespace Session

section Sessions

variable (s : Session) (side : Side)

/-- The modifiers that are run for an engine by operations one after the other. -/
def runs (side : Side) : Session → List Operation → List Run
  | _, [] => []
  | s, operation :: operations =>
    ((operation.query? side).elim [] fun query => query.runs (s.engine side)) ++
      runs side (s.step operation) operations

/-- A step adds what an engine counts for what it is asked, and nothing when it is not asked. -/
theorem counters_step (operation : Operation) :
    (s.step operation).counters side = s.counters side +
      (operation.query? side).elim .zero fun query => (query.answer (s.engine side)).counts := by
  cases operation with
  | register name modifier => exact (Counters.add_zero _).symm
  | ask asked query =>
    rw [step, ask, Operation.query?]
    dsimp only
    by_cases hside : side = asked
    · subst hside
      rw [if_pos rfl, if_pos rfl]
      rfl
    · rw [if_neg hside, if_neg (Ne.symm hside)]
      exact (Counters.add_zero _).symm

theorem run_append (operations more : List Operation) :
    s.run (operations ++ more) = (s.run operations).run more :=
  List.foldl_append

/-- No operation makes a counter smaller. -/
theorem counters_le_run (operations : List Operation) :
    s.counters side ≤ (s.run operations).counters side := by
  induction operations generalizing s with
  | nil => exact Counters.le_refl _
  | cons operation operations ih =>
    have hstep : s.counters side ≤ (s.step operation).counters side := by
      rw [counters_step]
      exact Counters.le_add _ _
    exact Counters.le_trans hstep (ih (s.step operation))

/-- Counters that account for what was before a run account for the run behind it. -/
theorem account_run {gets batched : Nat} {before : List Run}
    (h : (s.counters side).Account gets batched before) (operations : List Operation) :
    ((s.run operations).counters side).Account
      (gets + (operations.filterMap (Operation.query? side)).countP Query.isGet)
      (batched + ((operations.filterMap (Operation.query? side)).flatMap Query.batched).length)
      (before ++ s.runs side operations) := by
  induction operations generalizing s gets batched before with
  | nil =>
    rw [runs, List.append_nil]
    exact h
  | cons operation operations ih =>
    have hstep := counters_step s side operation
    cases hquery : operation.query? side with
    | none =>
      rw [hquery, Option.elim_none, Counters.add_zero] at hstep
      rw [runs, hquery, List.filterMap_cons, hquery]
      exact ih (s.step operation) (hstep ▸ h)
    | some query =>
      rw [hquery, Option.elim_some] at hstep
      have haccount := h.add (query.account_answer (s.engine side))
      rw [← hstep] at haccount
      have hrun := ih (s.step operation) haccount
      rw [runs, hquery, List.filterMap_cons, hquery]
      dsimp only [Option.elim]
      rw [List.countP_cons, List.flatMap_cons, List.length_append, ← List.append_assoc,
        Nat.add_comm (List.countP _ _), ← Nat.add_assoc, ← Nat.add_assoc]
      exact hrun

/-- Asking the other engine leaves the counters of an engine alone. -/
theorem counters_step_other (query : Query) :
    (s.step (.ask side.other query)).counters side = s.counters side := by
  have hother : side.other ≠ side := by cases side <;> decide
  rw [counters_step, Operation.query?, if_neg hother]
  exact Counters.add_zero _

/-- **Counters account for operations.**  Two engines share a registry and have counted nothing.
Whatever operations follow, of both engines and of the registry, the gets of each engine are its
queries for one path and the paths of its batches that were resolved one by one; these and the ones
that a scan answered are all paths that its batches were given; and the modifiers that it counts are
those that were run for its queries, with those that failed.  Further operations make no counter
smaller, and queries to the other engine leave them as they are. -/
theorem counters_account (configs : Side → Config) (registry : Registry)
    (operations : List Operation) (side : Side) :
    let s := Session.new configs registry
    let counters := (s.run operations).counters side
    let queries := operations.filterMap (Operation.query? side)
    (counters.gets = queries.countP Query.isGet + counters.batchSingles ∧
        counters.batchScanned + counters.batchSingles =
          (queries.flatMap Query.batched).length ∧
        counters.modifierCalls = (s.runs side operations).length ∧
        counters.modifierFailures = (s.runs side operations).countP Run.failed) ∧
      (∀ more, counters ≤ (s.run (operations ++ more)).counters side) ∧
      ∀ query, (s.run (operations ++ [.ask side.other query])).counters side = counters := by
  intro s counters queries
  have haccount := s.account_run side Counters.Account.zero operations
  rw [Nat.zero_add, Nat.zero_add, List.nil_append] at haccount
  refine ⟨⟨haccount.gets, haccount.batched, haccount.calls, haccount.failures⟩, fun more => ?_,
    fun query => ?_⟩
  · rw [run_append]
    exact counters_le_run _ _ _
  · rw [run_append]
    exact counters_step_other _ _ _

/-- A modifier that gives up is registered, and both engines are asked for paths that name it. -/
theorem counters_account_sample :
    let giveUp : Modifier := fun _ _ _ => .error .failed
    let s := Session.new (fun _ => {}) .empty
    let document := Bytes.ofString "[1]"
    let operations := [.register (Bytes.ofString "f") giveUp,
      .ask .first (.get document (Bytes.ofString "@f|0")),
      .ask .second (.getMany document
        [Bytes.ofString "0", Bytes.ofString "@f", Bytes.ofString "[0,@f,@g]"]),
      .ask .first (.getFrom (JsonQuery.parse document) (Bytes.ofString "0.@f"))]
    let counters := (s.run operations).counters .second
    counters.gets = counters.batchSingles ∧ counters.batchScanned + counters.batchSingles = 3 ∧
      counters.modifierCalls = 2 ∧ counters.modifierFailures = 2 ∧
      ((s.run operations).counters .first).gets = 1 ∧
      ((s.run operations).counters .first).modifierCalls = 2 := by
  intro giveUp s document operations counters
  obtain ⟨⟨hgets, hbatched, hcalls, hfailures⟩, -⟩ :=
    counters_account (fun _ => {}) .empty operations .second
  obtain ⟨⟨hgets', -, hcalls', -⟩, -⟩ := counters_account (fun _ => {}) .empty operations .first
  refine ⟨hgets.trans (Nat.zero_add _), hbatched, hcalls.trans ?_, hfailures.trans ?_,
    hgets'.trans ?_, hcalls'.trans ?_⟩
  · decide +kernel
  · decide +kernel
  · decide +kernel
  · decide +kernel

end Sessions

end Session

end JsonQuery
