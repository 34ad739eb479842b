/-!
# Configuration

The bounds and switches of an engine.  A configuration out of range is either refused or moved to
the nearest one in range.
-/

namespace JsonQuery

/-- What an engine is told about its work. -/
structure Config where
  /-- The number of containers, pipes and nested paths that may be entered inside one another. -/
  maxDepth : Nat := 1024
  /-- Components that start with an at sign name modifiers, not keys. -/
  modifiers : Bool := true
  deriving DecidableEq, Repr, Inhabited

/-- Why a configuration is refused. -/
inductive ConfigError where
  | zeroDepth
  | excessiveDepth
  deriving DecidableEq, Repr

namespace Config

/-- The largest depth that is supported. -/
def depthLimit : Nat :=
  65536

/-- The fault of a configuration, if it has one. -/
def fault? (config : Config) : Option ConfigError :=
  if config.maxDepth = 0 then some .zeroDepth
  else if depthLimit < config.maxDepth then some .excessiveDepth
  else none

/-- The nearest configuration in range. -/
def clamped (config : Config) : Config :=
  { config with maxDepth := max 1 (min config.maxDepth depthLimit) }

/-- The configuration itself when it has no fault. -/
def checked (config : Config) : Except ConfigError Config :=
  match config.fault? with
  | some fault => .error fault
  | none => .ok config

end Config

/-- What a refused configuration is answered with. -/
def ConfigError.message : ConfigError → String
  | zeroDepth => "Invalid nesting depth: max_depth cannot be zero"
  | excessiveDepth => "Invalid nesting depth: max_depth cannot exceed " ++ toString Config.depthLimit

end JsonQuery
