import JsonQuery.Engine.Batch
import JsonQuery.Modifier.Builtins

/-!
# The standard engine

The engine with the default configuration and the built-in modifiers, and queries on it that leave
the counters aside.
-/

namespace JsonQuery

/-- The engine with the default configuration and the built-in modifiers. -/
def Engine.standard : Engine :=
  .new {} .builtins

/-- What a path finds in a document. -/
def get (document path : Bytes) : Result :=
  (Engine.standard.get document path).value

/-- What each of several paths finds in a document. -/
def getMany (document : Bytes) (paths : List Bytes) : List Result :=
  (Engine.standard.getMany document paths).value

/-- What a path finds in a result. -/
def Result.get (r : Result) (path : Bytes) : Result :=
  (Engine.standard.getFrom r path).value

end JsonQuery
