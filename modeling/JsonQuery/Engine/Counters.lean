/-!
# Counters

An engine counts what it does.  A computation answers with its value and with what it adds to the
counters, so nothing that it counts can change what it finds.
-/

namespace JsonQuery

/-- How often each counted event happened.  The numbers stand for counters of 64 bits, which start
again from zero when they are full: the two differ only behind 2 ^ 64 events of one kind. -/
structure Counters where
  /-- Single paths resolved, also on behalf of a batch. -/
  gets : Nat := 0
  /-- Paths of batches that the shared scan answered. -/
  batchScanned : Nat := 0
  /-- Paths of batches that were resolved one by one. -/
  batchSingles : Nat := 0
  /-- Modifiers that were run. -/
  modifierCalls : Nat := 0
  /-- Modifiers that failed. -/
  modifierFailures : Nat := 0
  /-- Resolutions cut short by a bound on depth. -/
  depthHits : Nat := 0
  deriving DecidableEq, Repr, Inhabited

namespace Counters

/-- No event. -/
def zero : Counters :=
  {}

/-- The events of both. -/
def add (a b : Counters) : Counters :=
  { gets := a.gets + b.gets
    batchScanned := a.batchScanned + b.batchScanned
    batchSingles := a.batchSingles + b.batchSingles
    modifierCalls := a.modifierCalls + b.modifierCalls
    modifierFailures := a.modifierFailures + b.modifierFailures
    depthHits := a.depthHits + b.depthHits }

instance : Add Counters :=
  ⟨add⟩

/-- One path resolved. -/
def oneGet : Counters :=
  { gets := 1 }

/-- One resolution cut short. -/
def oneDepthHit : Counters :=
  { depthHits := 1 }

/-- One modifier run. -/
def oneCall (failed : Bool) : Counters :=
  { modifierCalls := 1, modifierFailures := if failed then 1 else 0 }

/-- A batch of paths. -/
def batch (scanned singles : Nat) : Counters :=
  { batchScanned := scanned, batchSingles := singles }

end Counters

/-- A value, and what finding it added to the counters. -/
structure Counted (α : Type) where
  value : α
  counts : Counters
  deriving DecidableEq, Repr, Inhabited

namespace Counted

/-- A value that nothing was counted for. -/
def quiet {α : Type} (value : α) : Counted α :=
  ⟨value, .zero⟩

/-- Changes the value alone. -/
def map {α β : Type} (f : α → β) (x : Counted α) : Counted β :=
  ⟨f x.value, x.counts⟩

/-- Adds events that were counted before. -/
def after {α : Type} (counts : Counters) (x : Counted α) : Counted α :=
  ⟨x.value, counts + x.counts⟩

end Counted

end JsonQuery
