import JsonQuery.Engine.Batch
import JsonQuery.WellFormed

/-!
# Sessions

Two engines share a registry, and each of them has a configuration and counters of its own.  A
session is what queries to either of them and registrations make of both.

- `Query.answer` is what an engine answers, with what it counts;
- `Session.step` is one operation, and `Session.run` one after the other.
-/

namespace JsonQuery

/-- One of two engines. -/
inductive Side where
  | first
  | second
  deriving DecidableEq, Repr, Inhabited

/-- The other one of two engines. -/
def Side.other : Side → Side
  | first => second
  | second => first

/-! ## Queries -/

/-- A query to an engine. -/
inductive Query where
  /-- A path inside of a document. -/
  | get (document path : Bytes)
  /-- Several paths inside of a document. -/
  | getMany (document : Bytes) (paths : List Bytes)
  /-- A path inside of a result, such as one that was found before. -/
  | getFrom (r : Result) (path : Bytes)
  /-- A document as a result. -/
  | parse (document : Bytes)
  /-- Whether a document is well-formed. -/
  | valid (document : Bytes)
  /-- The values of a document that has one on each line. -/
  | lines (document : Bytes)
  deriving DecidableEq, Repr, Inhabited

/-- What a query is answered with. -/
inductive Answer where
  | result (r : Result)
  | results (rs : List Result)
  | verdict (valid : Bool)
  deriving DecidableEq, Repr, Inhabited

/-- The answer of an engine, and what it counts.  Only resolving paths counts. -/
def Query.answer (engine : Engine) : Query → Counted Answer
  | get document path => (engine.get document path).map .result
  | getMany document paths => (engine.getMany document paths).map .results
  | getFrom r path => (engine.getFrom r path).map .result
  | parse document => .quiet (.result (JsonQuery.parse document))
  | valid document => .quiet (.verdict (isWellFormedUtf8 document))
  | lines document => .quiet (.results (parseAll document))

/-! ## Operations -/

/-- Two engines with a registry in common. -/
structure Session where
  registry : Registry
  configs : Side → Config
  counters : Side → Counters

/-- What a session is told to do. -/
inductive Operation where
  /-- Registers a modifier for both engines. -/
  | register (name : Bytes) (modifier : Modifier)
  /-- Asks one of the engines. -/
  | ask (side : Side) (query : Query)

namespace Session

/-- Two engines that have not counted anything. -/
def new (configs : Side → Config) (registry : Registry) : Session :=
  ⟨registry, configs, fun _ => .zero⟩

/-- One of the engines. -/
def engine (s : Session) (side : Side) : Engine :=
  .new (s.configs side) s.registry

/-- Registers a modifier for both engines. -/
def register (s : Session) (name : Bytes) (modifier : Modifier) : Session :=
  { s with registry := s.registry.register name modifier }

/-- Asks one of the engines, which counts what it does. -/
def ask (s : Session) (side : Side) (query : Query) : Session × Answer :=
  let answer := query.answer (s.engine side)
  let counters := fun other =>
    if other = side then s.counters other + answer.counts else s.counters other
  ({ s with counters }, answer.value)

/-- One operation. -/
def step (s : Session) : Operation → Session
  | .register name modifier => s.register name modifier
  | .ask side query => (s.ask side query).1

/-- Operations one after the other. -/
def run (s : Session) (operations : List Operation) : Session :=
  operations.foldl step s

end Session

end JsonQuery
