import JsonQuery.Bytes

/-!
# Modifiers and their registry

A modifier turns the text of a value into another text.  Modifiers have names, under which paths
call them.
-/

namespace JsonQuery

/-- Why a modifier fails. -/
inductive ModifierError where
  /-- The argument is not a JSON document. -/
  | malformedArgument
  /-- The argument holds values of the wrong types. -/
  | mistypedArgument
  /-- The argument asks for something that is not allowed. -/
  | refusedArgument
  /-- The modifier gives up for reasons of its own. -/
  | failed
  deriving DecidableEq, Repr

/-- A function of a text and of the argument in the path.  The number is the room for nested paths
that is left where the modifier is called, for modifiers that resolve paths themselves. -/
abbrev Modifier :=
  (room : Nat) → (text argument : Bytes) → Except ModifierError Bytes

/-- Modifiers by their names. -/
structure Registry where
  /-- The modifiers, of which the first one of a name counts. -/
  entries : List (Bytes × Modifier)

namespace Registry

/-- The registry without modifiers. -/
def empty : Registry :=
  ⟨[]⟩

/-- Adds a modifier, in place of any other of that name. -/
def register (name : Bytes) (modifier : Modifier) (registry : Registry) : Registry :=
  ⟨(name, modifier) :: registry.entries.filter fun entry => entry.1 != name⟩

/-- The modifier of a name. -/
def find? (registry : Registry) (name : Bytes) : Option Modifier :=
  registry.entries.lookup name

/-- Whether there is a modifier of a name. -/
def contains (registry : Registry) (name : Bytes) : Bool :=
  (registry.find? name).isSome

/-- The names of all modifiers in ascending order. -/
def names (registry : Registry) : List Bytes :=
  (registry.entries.map Prod.fst).mergeSort fun a b => !(b < a)

/-! ## What a registration changes -/

theorem find?_register_self (registry : Registry) (name : Bytes) (modifier : Modifier) :
    (registry.register name modifier).find? name = some modifier :=
  List.lookup_cons_self

/-- What is found under a name does not depend on the entries of other names. -/
theorem lookup_filter_ne {name other : Bytes} (hne : other ≠ name)
    (entries : List (Bytes × Modifier)) :
    (entries.filter fun entry => entry.1 != name).lookup other = entries.lookup other := by
  induction entries with
  | nil => rfl
  | cons entry entries ih =>
    obtain ⟨key, modifier⟩ := entry
    by_cases hkey : key = name
    · subst hkey
      simp [List.lookup_cons, beq_eq_false_iff_ne.2 hne, ih]
    · simp [List.lookup_cons, hkey, ih]

/-- Registering a modifier changes what is found under its name alone. -/
theorem find?_register_of_ne (registry : Registry) {name other : Bytes} (hne : other ≠ name)
    (modifier : Modifier) :
    (registry.register name modifier).find? other = registry.find? other := by
  simp [register, find?, List.lookup_cons, beq_eq_false_iff_ne.2 hne, lookup_filter_ne hne]

end Registry

end JsonQuery
