import JsonQuery.Modifier.Builtins

/-!
# Pipelines of modifiers

A pipeline hands the output of each modifier on to the next one.  What every call keeps, the
pipeline keeps from one end to the other.

## Layers

- **Calls**: a modifier that is called by its name, and what it makes of a text.
- **Runs**: the outputs of a pipeline, one call after the other.
-/

namespace JsonQuery

/-! ## Calls -/

/-- A call of a modifier by its name, with an argument. -/
structure Call where
  name : Bytes
  argument : Bytes

namespace Registry

section Pipelines

variable (registry : Registry) (room : Nat)

/-- What a call makes of a text; nothing when there is no such modifier or when it fails. -/
def output? (text : Bytes) (call : Call) : Option Bytes :=
  (registry.find? call.name).bind fun modifier => (modifier room text call.argument).toOption

/-- The output of a call is what its modifier answers. -/
theorem output?_of_find? {registry : Registry} {call : Call} {modifier : Modifier}
    (hfind : registry.find? call.name = some modifier) {room : Nat} {text output : Bytes}
    (hanswer : modifier room text call.argument = .ok output) :
    registry.output? room text call = some output := by
  rw [output?, hfind, Option.bind_some, hanswer]
  rfl

/-! ## Runs -/

/-- What the calls of a pipeline put out, each going on with the output of the one before; nothing
when one of them puts nothing out. -/
def outputs (text : Bytes) : List Call → Option (List Bytes)
  | [] => some []
  | call :: calls =>
    (registry.output? room text call).bind fun output =>
      (outputs output calls).map (output :: ·)

theorem outputs_cons_of_some {registry : Registry} {room : Nat} {text output : Bytes} {call : Call}
    (h : registry.output? room text call = some output) (calls : List Call) :
    registry.outputs room text (call :: calls) =
      (registry.outputs room output calls).map (output :: ·) := by
  rw [outputs, h, Option.bind_some]

/-- What every call keeps holds of all outputs of a pipeline, and no call of it is without one. -/
theorem outputs_of_forall_output? {Keeps : Bytes → Prop} {Allowed : Call → Prop}
    (hstep : ∀ text call, Keeps text → Allowed call →
      ∃ output, registry.output? room text call = some output ∧ Keeps output)
    (text : Bytes) (htext : Keeps text) (calls : List Call) (hcalls : ∀ c ∈ calls, Allowed c) :
    ∃ outputs, registry.outputs room text calls = some outputs ∧
      outputs.length = calls.length ∧ ∀ output ∈ outputs, Keeps output := by
  -- On the calls, with the output of the first one as the text of the others
  induction calls generalizing text with
  | nil => exact ⟨[], rfl, rfl, by simp⟩
  | cons call calls ih =>
    rw [List.forall_mem_cons] at hcalls
    obtain ⟨output, houtput, hkeeps⟩ := hstep text call htext hcalls.1
    obtain ⟨outputs, houtputs, hlength, hall⟩ := ih output hkeeps hcalls.2
    refine ⟨output :: outputs, ?_, congrArg (· + 1) hlength, List.forall_mem_cons.2 ⟨hkeeps, hall⟩⟩
    rw [outputs_cons_of_some houtput, houtputs]
    rfl

end Pipelines

end Registry

end JsonQuery
