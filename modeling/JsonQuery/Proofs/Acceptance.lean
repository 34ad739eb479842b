import JsonQuery.Proofs.Grammar

/-!
# The machine accepts the grammar

The machine of `WellFormed` reads a document byte by byte with a stack of open containers; the
grammar builds documents as trees.  Here every tree is accepted; `Recognition` is the converse.

## Layers

- **Runs**: `State.after` is the state behind a text, `Accepted` a text that leads to an end.
- **Tokens**: words, strings and numbers lead from the place of a value to `Rests`, the place
  behind one.
- **Trees**: by induction over the tree, every value does.
-/

namespace JsonQuery.WellFormed

open Ascii Grammar

/-! ## Runs -/

/-- The state behind a text, or nothing where no document goes on with it. -/
def State.after (s : State) (text : Bytes) : Option State :=
  text.foldlM State.step s

/-- A text leads from a state to the end of a document. -/
def Accepted (s : State) (text : Bytes) : Prop :=
  ∃ t, s.after text = some t ∧ t.accepts = true

section Runs

variable {s t u : State} {c : UInt8} {a b text rest : Bytes}

@[simp] theorem State.after_nil (s : State) : s.after [] = some s :=
  rfl

theorem State.after_cons (s : State) (c : UInt8) (rest : Bytes) :
    s.after (c :: rest) = (s.step c).bind (State.after · rest) := by
  simp [State.after]

theorem State.after_append (s : State) (a b : Bytes) :
    s.after (a ++ b) = (s.after a).bind (State.after · b) := by
  simp [State.after, List.foldlM_append]

theorem after_cons_of_step (hstep : s.step c = some t) : s.after (c :: rest) = t.after rest := by
  rw [State.after_cons, hstep]
  rfl

theorem after_trans (ha : s.after a = some t) (hb : t.after b = some u) :
    s.after (a ++ b) = some u := by
  rw [State.after_append, ha]
  exact hb

/-- A document that is not empty is accepted if its first byte leads to a state that accepts the
rest. -/
theorem accepted_cons : Accepted s (c :: rest) ↔ ∃ t, s.step c = some t ∧ Accepted t rest := by
  simp only [Accepted, State.after_cons, Option.bind_eq_some_iff]
  constructor
  · rintro ⟨u, ⟨t, hstep, hu⟩, haccepts⟩
    exact ⟨t, hstep, u, hu, haccepts⟩
  · rintro ⟨t, hstep, u, hu, haccepts⟩
    exact ⟨u, ⟨t, hstep, hu⟩, haccepts⟩

theorem accepted_nil : Accepted s [] ↔ s.accepts = true := by
  simp [Accepted]

theorem accepted_append_of_after (ha : s.after a = some t) (hb : Accepted t b) :
    Accepted s (a ++ b) := by
  obtain ⟨u, hu, haccepts⟩ := hb
  exact ⟨u, after_trans ha hu, haccepts⟩

/-! ## Verdicts of runs -/

theorem run_valid_iff (s : State) (offset : Nat) (text : Bytes) :
    (run s offset text).valid = true ↔ Accepted s text := by
  -- The run goes through the text as `Accepted` does, one byte and one state at a time
  induction text generalizing s offset with
  | nil =>
    rw [accepted_nil, run]
    split <;> simp_all
  | cons c rest ih =>
    rw [accepted_cons, run]
    cases hstep : s.step c with
    | none => simp
    | some t => simpa using ih t (offset + 1)

/-- A run that accepts has read the whole text. -/
theorem run_offset_of_accepted (s : State) (offset : Nat) (text : Bytes) (h : Accepted s text) :
    (run s offset text).offset = offset + text.length := by
  induction text generalizing s offset with
  | nil => simp [run, accepted_nil.1 h]
  | cons c rest ih =>
    obtain ⟨t, hstep, hrest⟩ := accepted_cons.1 h
    simp only [run, hstep, List.length_cons]
    rw [ih t (offset + 1) hrest]
    omega

/-- A run that refuses stands no further than behind the bytes that it could read. -/
theorem run_offset_of_refused (s : State) (offset : Nat) (text : Bytes) (h : ¬Accepted s text) :
    ∃ n ≤ text.length, (run s offset text).offset ≤ offset + n ∧
      (s.after (text.take n)).isSome = true := by
  induction text generalizing s offset with
  | nil =>
    rw [accepted_nil] at h
    refine ⟨0, Nat.le_refl _, ?_, rfl⟩
    simp [run, h]
  | cons c rest ih =>
    cases hstep : s.step c with
    | none =>
      -- The byte itself is refused: what was read is the text in front of it
      refine ⟨0, Nat.zero_le _, ?_, rfl⟩
      simp [run, hstep]
    | some t =>
      -- The byte is read, so the refusal comes later and one byte more was read before it
      have hrest : ¬Accepted t rest := fun hrest => h (accepted_cons.2 ⟨t, hstep, hrest⟩)
      obtain ⟨n, hn, hle, hsome⟩ := ih t (offset + 1) hrest
      refine ⟨n + 1, Nat.succ_le_succ hn, ?_, ?_⟩
      · simp only [run, hstep]
        omega
      · rw [List.take_succ_cons, after_cons_of_step hstep]
        exact hsome

end Runs

/-! ## Behind a value -/

/-- The parts behind which a number may end. -/
def NumberPart.ends (part : NumberPart) : Bool :=
  part == .zero || part == .whole || part == .fraction || part == .exponent

/-- The machine stands behind a value, or behind a number that may still go on. -/
def Rests (stack : List Frame) (s : State) : Prop :=
  s = ⟨stack, .between .next⟩ ∨ ∃ part, part.ends = true ∧ s = ⟨stack, .number part⟩

section Behind

variable {stack : List Frame} {s : State} {c : UInt8}

theorem endsNumber_of_isGap (h : isGap c = true) : Extent.endsNumber c = true := by
  simp only [isGap, Bool.or_eq_true, beq_iff_eq] at h
  rcases h with ((rfl | rfl) | rfl) | rfl <;> rfl

/-- A byte that ends numbers belongs to none of their parts. -/
theorem not_digit_of_endsNumber (h : Extent.endsNumber c = true) :
    isDigit c = false ∧ c ≠ dot ∧ c ≠ lowerE ∧ c ≠ upperE := by
  grind [isDigit, Extent.endsNumber, isSpace]

/-- Behind a number the machine steps as behind any other value. -/
theorem step_of_rests (hs : Rests stack s) (hc : Extent.endsNumber c = true) :
    s.step c = State.stepBetween ⟨stack, .between .next⟩ .next c := by
  obtain ⟨hdigit, hdot, hlower, hupper⟩ := not_digit_of_endsNumber hc
  rcases hs with rfl | ⟨part, hpart, rfl⟩
  · rfl
  · -- In a number, the byte goes on with none of the parts, so the number ends in front of it
    cases part <;>
      simp_all [NumberPart.ends, State.step, State.stepNumber, State.stepBetween, State.expect,
        State.afterValue, State.pop]

theorem accepts_of_rests (hs : Rests [] s) : s.accepts = true := by
  rcases hs with rfl | ⟨part, hpart, rfl⟩
  · rfl
  · simpa [State.accepts, NumberPart.ends] using hpart

theorem after_gap (stack : List Frame) (e : Expect) (gap : Gap) :
    (State.mk stack (.between e)).after gap.text = some ⟨stack, .between e⟩ := by
  obtain ⟨text, hgap⟩ := gap
  induction text with
  | nil => rfl
  | cons c rest ih =>
    simp only [List.mem_cons, forall_eq_or_imp] at hgap
    rw [after_cons_of_step (t := ⟨stack, .between e⟩)]
    · exact ih hgap.2
    · simp [State.step, State.stepBetween, State.expect, mem_gapBytes.1 hgap.1]

/-- A gap behind a value leads nowhere else. -/
theorem after_gap_of_rests (hs : Rests stack s) (gap : Gap) :
    ∃ t, s.after gap.text = some t ∧ Rests stack t := by
  obtain ⟨text, hgap⟩ := gap
  cases text with
  | nil => exact ⟨s, rfl, hs⟩
  | cons c rest =>
    simp only [List.mem_cons, forall_eq_or_imp] at hgap
    have hc := mem_gapBytes.1 hgap.1
    -- The first byte of the gap ends a number, if there is one; then nothing is left to end
    refine ⟨⟨stack, .between .next⟩, ?_, .inl rfl⟩
    rw [after_cons_of_step (t := ⟨stack, .between .next⟩)]
    · exact after_gap stack .next ⟨rest, hgap.2⟩
    · rw [step_of_rests hs (endsNumber_of_isGap hc)]
      simp [State.stepBetween, State.expect, hc]

end Behind

/-! ## Tokens are accepted -/

section Tokens

variable {stack : List Frame} {part : NumberPart} {text : Bytes}

theorem after_word (stack : List Frame) (w : Word) :
    (State.mk stack (.between .value)).after w.text = some ⟨stack, .between .next⟩ := by
  rcases w with _ | _ | _ <;> rfl

/-- The inside of a string leads to its closing quote. -/
theorem after_body (stack : List Frame) (isKey : Bool) (h : IsBody text) :
    (State.mk stack (.string isKey)).after text = some ⟨stack, .string isKey⟩ := by
  -- One case for each way to write a character; each leads back to the inside of the string
  induction h with
  | nil => rfl
  | @plain c rest hquote hslash hspace _ ih =>
    rw [after_cons_of_step (t := ⟨stack, .string isKey⟩)]
    · exact ih
    · simp [State.step, State.stepString, State.enter, hquote, hslash, hspace]
  | @short c rest hc _ ih =>
    rw [after_cons_of_step (t := ⟨stack, .escape isKey⟩) rfl,
      after_cons_of_step (t := ⟨stack, .string isKey⟩)]
    · exact ih
    · simp [State.step, State.stepEscape, State.enter, mem_shortEscapes.1 hc]
  | unit h₁ h₂ h₃ h₄ _ ih =>
    rw [after_cons_of_step (t := ⟨stack, .escape isKey⟩) rfl,
      after_cons_of_step (t := ⟨stack, .unit isKey 4⟩) rfl,
      after_cons_of_step (t := ⟨stack, .unit isKey 3⟩),
      after_cons_of_step (t := ⟨stack, .unit isKey 2⟩),
      after_cons_of_step (t := ⟨stack, .unit isKey 1⟩),
      after_cons_of_step (t := ⟨stack, .string isKey⟩)]
    · exact ih
    all_goals simp [State.step, State.stepUnit, State.enter, ← isHexDigit_eq, h₁, h₂, h₃, h₄]

/-- Behind its opening quote a string leads to the place behind it. -/
theorem after_body_quote (stack : List Frame) (isKey : Bool) (h : IsBody text) :
    (State.mk stack (.string isKey)).after (text ++ [quote]) =
      some (State.closeString isKey ⟨stack, .string isKey⟩) :=
  after_trans (after_body stack isKey h) rfl

/-- The parts of a number that hold any run of digits. -/
def NumberPart.repeats (part : NumberPart) : Bool :=
  part == .whole || part == .fraction || part == .exponent

theorem step_digit_of_repeats {c : UInt8} (hpart : part.repeats = true) (hc : isDigit c = true) :
    State.step ⟨stack, .number part⟩ c = some ⟨stack, .number part⟩ := by
  cases part <;> simp_all [NumberPart.repeats, State.step, State.stepNumber, State.enter]

theorem after_digits (stack : List Frame) (hpart : part.repeats = true)
    (h : text.all isDigit = true) :
    (State.mk stack (.number part)).after text = some ⟨stack, .number part⟩ := by
  induction text with
  | nil => rfl
  | cons c rest ih =>
    simp only [List.all_cons, Bool.and_eq_true] at h
    rw [after_cons_of_step (step_digit_of_repeats hpart h.1)]
    exact ih h.2

/-- Digits lead from the place in front of a part into it, and no further. -/
theorem after_isDigits {s : State} (hpart : part.repeats = true)
    (hstep : ∀ c, isDigit c = true → s.step c = some ⟨stack, .number part⟩)
    (h : Number.isDigits text = true) : s.after text = some ⟨stack, .number part⟩ := by
  cases text with
  | nil => simp [Number.isDigits] at h
  | cons c rest =>
    simp only [Number.isDigits, List.isEmpty_cons, Bool.not_false, Bool.true_and, List.all_cons,
      Bool.and_eq_true] at h
    rw [after_cons_of_step (hstep c h.1)]
    exact after_digits stack hpart h.2

/-- The parts of a number that an exponent may follow. -/
def NumberPart.takesExponent (part : NumberPart) : Bool :=
  part == .zero || part == .whole || part == .fraction

/-- The parts of a number that a fraction may follow. -/
def NumberPart.takesFraction (part : NumberPart) : Bool :=
  part == .zero || part == .whole

theorem NumberPart.ends_of_takesExponent (h : part.takesExponent = true) : part.ends = true := by
  cases part <;> simp_all [takesExponent, ends]

theorem NumberPart.takesExponent_of_takesFraction (h : part.takesFraction = true) :
    part.takesExponent = true := by
  cases part <;> simp_all [takesExponent, takesFraction]

theorem step_mark {c : UInt8} (hpart : part.takesExponent = true)
    (hc : c = lowerE ∨ c = upperE) :
    State.step ⟨stack, .number part⟩ c = some ⟨stack, .number .exponentMark⟩ := by
  rcases hc with rfl | rfl <;> cases part <;> first | rfl | cases hpart

theorem step_dot (hpart : part.takesFraction = true) :
    State.step ⟨stack, .number part⟩ dot = some ⟨stack, .number .point⟩ := by
  cases part <;> first | rfl | cases hpart

theorem after_exponent (stack : List Frame) (hpart : part.takesExponent = true)
    (h : IsExponent text) :
    ∃ t, (State.mk stack (.number part)).after text = some t ∧ Rests stack t := by
  rcases h with rfl | ⟨mark, sign, digits, hmark, hsign, hdigits, rfl⟩
  · exact ⟨_, rfl, .inr ⟨part, NumberPart.ends_of_takesExponent hpart, rfl⟩⟩
  · refine ⟨⟨stack, .number .exponent⟩, ?_, .inr ⟨.exponent, rfl, rfl⟩⟩
    rw [after_cons_of_step (step_mark hpart hmark)]
    have hstep : ∀ c, isDigit c = true →
        State.step ⟨stack, .number .exponentSign⟩ c = some ⟨stack, .number .exponent⟩ := by
      intro c hc
      simp [State.step, State.stepNumber, State.enter, hc]
    -- Without a sign the first digit is read from behind the mark, with one from behind the sign
    rcases hsign with rfl | rfl | rfl
    · apply after_isDigits rfl _ hdigits
      intro c hc
      have hsign : ¬(c = plus ∨ c = minus) := by grind [isDigit]
      simp [State.step, State.stepNumber, State.enter, hc, hsign]
    · exact after_trans (a := [plus]) rfl (after_isDigits rfl hstep hdigits)
    · exact after_trans (a := [minus]) rfl (after_isDigits rfl hstep hdigits)

theorem after_fraction (stack : List Frame) (hpart : part.takesFraction = true)
    {fraction exponent : Bytes} (hfraction : IsFraction fraction)
    (hexponent : IsExponent exponent) :
    ∃ t, (State.mk stack (.number part)).after (fraction ++ exponent) = some t ∧
      Rests stack t := by
  rcases hfraction with rfl | ⟨digits, hdigits, rfl⟩
  · exact after_exponent stack (NumberPart.takesExponent_of_takesFraction hpart) hexponent
  · have hrun : (State.mk stack (.number part)).after (dot :: digits) =
        some ⟨stack, .number .fraction⟩ := by
      rw [after_cons_of_step (step_dot hpart)]
      apply after_isDigits rfl _ hdigits
      intro c hc
      simp [State.step, State.stepNumber, State.enter, hc]
    obtain ⟨t, ht, hrests⟩ : ∃ t, (State.mk stack (.number .fraction)).after exponent = some t ∧
        Rests stack t := after_exponent stack rfl hexponent
    exact ⟨t, after_trans hrun ht, hrests⟩

/-- A step into a part of a number, from the place of a value or from behind a minus. -/
theorem step_whole {e : Mode} (he : e = .between .value ∨ e = .number .minus) {c : UInt8}
    (hc : isDigit c = true) :
    State.step ⟨stack, e⟩ c =
      some ⟨stack, .number (if c = zero then .zero else .whole)⟩ := by
  have hne : c ≠ openBrace ∧ c ≠ openBracket ∧ c ≠ quote ∧ c ≠ minus ∧ isGap c = false := by
    grind [isDigit, isGap]
  rcases he with rfl | rfl
  · by_cases hzero : c = zero
    · subst hzero
      rfl
    · simp [State.step, State.stepBetween, State.startValue, State.enter, hne, hc, hzero]
  · by_cases hzero : c = zero
    · subst hzero
      rfl
    · simp [State.step, State.stepNumber, State.enter, hc, hzero]

theorem after_whole (stack : List Frame) {e : Mode} (he : e = .between .value ∨ e = .number .minus)
    (h : IsWhole text) :
    ∃ part, part.takesFraction = true ∧
      (State.mk stack e).after text = some ⟨stack, .number part⟩ := by
  rcases h with rfl | ⟨hdigits, hhead⟩
  · refine ⟨.zero, rfl, ?_⟩
    rw [after_cons_of_step (step_whole he rfl)]
    rfl
  · refine ⟨.whole, rfl, ?_⟩
    cases text with
    | nil => simp [Number.isDigits] at hdigits
    | cons c rest =>
      have hne : c ≠ zero := by simpa using hhead
      simp only [Number.isDigits, List.isEmpty_cons, Bool.not_false, Bool.true_and, List.all_cons,
        Bool.and_eq_true] at hdigits
      rw [after_cons_of_step (step_whole he hdigits.1), if_neg hne]
      exact after_digits stack rfl hdigits.2

theorem after_number (stack : List Frame) (n : Numeral) :
    ∃ t, (State.mk stack (.between .value)).after n.text = some t ∧ Rests stack t := by
  obtain ⟨negative, whole, fraction, exponent, hwhole, hfraction, hexponent⟩ := n
  -- A minus leads to a place of its own, from which the digits are read as without one
  have hsign : ∃ e, (e = .between .value ∨ e = .number .minus) ∧
      (State.mk stack (.between .value)).after (if negative then [minus] else []) =
        some ⟨stack, e⟩ := by
    cases negative with
    | false => exact ⟨_, .inl rfl, rfl⟩
    | true => exact ⟨_, .inr rfl, rfl⟩
  obtain ⟨e, he, hsign⟩ := hsign
  obtain ⟨part, hpart, hrun⟩ := after_whole stack he hwhole
  obtain ⟨t, ht, hrests⟩ := after_fraction stack hpart hfraction hexponent
  exact ⟨t, after_trans hsign (after_trans hrun ht), hrests⟩

end Tokens

/-! ## Trees are accepted -/

namespace Frame

/-- What stands behind the opener of a container. -/
def first : Frame → Expect
  | object => .firstKey
  | array => .firstValue

/-- What stands behind a comma of a container. -/
def later : Frame → Expect
  | object => .key
  | array => .value

/-- The bracket that a container opens with. -/
def opener : Frame → UInt8
  | object => openBrace
  | array => openBracket

/-- The bracket that a container ends with. -/
def closer : Frame → UInt8
  | object => closeBrace
  | array => closeBracket

end Frame

section Trees

variable {stack : List Frame} {frame : Frame} {s : State} {c : UInt8}

theorem step_opener {e : Expect} (he : e = .value ∨ e = .firstValue) :
    State.step ⟨stack, .between e⟩ frame.opener =
      some ⟨frame :: stack, .between frame.first⟩ := by
  rcases he with rfl | rfl <;> cases frame <;> rfl

theorem step_closer_of_first :
    State.step ⟨frame :: stack, .between frame.first⟩ frame.closer =
      some ⟨stack, .between .next⟩ := by
  cases frame <;> rfl

theorem step_closer_of_rests (hs : Rests (frame :: stack) s) :
    s.step frame.closer = some ⟨stack, .between .next⟩ := by
  rw [step_of_rests hs (by cases frame <;> rfl)]
  cases frame <;> rfl

theorem step_comma_of_rests (hs : Rests (frame :: stack) s) :
    s.step comma = some ⟨frame :: stack, .between frame.later⟩ := by
  rw [step_of_rests hs rfl]
  cases frame <;> rfl

/-- A value may stand in front of the bracket of an empty array. -/
theorem step_firstValue (hc : startsValue c = true) :
    State.step ⟨stack, .between .firstValue⟩ c = State.step ⟨stack, .between .value⟩ c := by
  have hclose : c ≠ closeBracket := by
    rintro rfl
    exact absurd hc (by decide)
  have hgap : isGap c = false := by
    apply Bool.eq_false_iff.2
    intro hgap
    simp only [isGap, Bool.or_eq_true, beq_iff_eq] at hgap
    rcases hgap with ((rfl | rfl) | rfl) | rfl <;> exact absurd hc (by decide)
  simp [State.step, State.stepBetween, State.startValue, State.push, State.enter, hclose, hgap]

/-- From the place of a value, the text leads to the place behind it. -/
def LeadsOn (text : Bytes) : Prop :=
  ∀ stack e, e = .value ∨ e = .firstValue →
    ∃ t, (State.mk stack (.between e)).after text = some t ∧ Rests stack t

/-- From the place of an entry, what stands in front of its value leads to the place of a value. -/
def LeadsIn (frame : Frame) (text : Bytes) : Prop :=
  ∀ stack e, e = frame.first ∨ e = frame.later →
    ∃ e', (e' = .value ∨ e' = .firstValue) ∧
      (State.mk (frame :: stack) (.between e)).after text =
        some ⟨frame :: stack, .between e'⟩

theorem leadsOn_of_value {text : Bytes} {c : UInt8} {rest : Bytes} (htext : text = c :: rest)
    (hc : startsValue c = true)
    (h : ∀ stack, ∃ t, (State.mk stack (.between .value)).after text = some t ∧ Rests stack t) :
    LeadsOn text := by
  -- The first element of an array is read like any other value, since it is no closing bracket
  rintro stack e (rfl | rfl)
  · exact h stack
  · obtain ⟨t, ht, hrests⟩ := h stack
    refine ⟨t, ?_, hrests⟩
    rw [htext, State.after_cons, step_firstValue hc, ← State.after_cons, ← htext]
    exact ht

theorem leadsIn_gap (gap : Gap) : LeadsIn .array gap.text := by
  rintro stack e (rfl | rfl)
  · exact ⟨.firstValue, .inr rfl, after_gap _ _ gap⟩
  · exact ⟨.value, .inl rfl, after_gap _ _ gap⟩

theorem leadsIn_tag (tag : Tag) : LeadsIn .object tag.text := by
  intro stack e he
  refine ⟨.value, .inl rfl, ?_⟩
  -- A key may be the first of its object or come behind a comma; its quote is read alike
  have hkey : (State.mk (.object :: stack) (.between e)).after (Bytes.quoted tag.key.text) =
      some ⟨.object :: stack, .between .colon⟩ := by
    have hquote : State.step ⟨.object :: stack, .between e⟩ quote =
        some ⟨.object :: stack, .string true⟩ := by
      rcases he with rfl | rfl <;> rfl
    rw [Bytes.quoted, List.cons_append, after_cons_of_step hquote]
    exact after_body_quote _ true tag.key.isBody
  refine after_trans (after_gap _ _ tag.before) (after_trans hkey ?_)
  refine after_trans (after_gap _ _ tag.between) ?_
  rw [after_cons_of_step (t := ⟨.object :: stack, .between .value⟩) rfl]
  exact after_gap _ _ tag.after

/-- Entries with commas between them lead from the place of the first to the place behind the
last. -/
theorem after_inside {Front : Type} {front : Front → Bytes} (hfront : ∀ f, LeadsIn frame (front f))
    (entry : Entry Front Node) (entries : List (Entry Front Node))
    (hvalue : ∀ e ∈ entry :: entries, LeadsOn e.value.text) (stack : List Frame) (e : Expect)
    (he : e = frame.first ∨ e = frame.later) :
    ∃ t, (State.mk (frame :: stack) (.between e)).after (inside front (entry :: entries)) =
      some t ∧ Rests (frame :: stack) t := by
  -- The first entry stands behind the opener or behind a comma, and all others behind a comma
  induction entries generalizing entry e with
  | nil =>
    obtain ⟨e', he', hfront⟩ := hfront entry.front stack e he
    obtain ⟨t, ht, hrests⟩ := hvalue entry (List.mem_singleton_self entry) (frame :: stack) e' he'
    obtain ⟨u, hu, hgap⟩ := after_gap_of_rests hrests entry.gap
    refine ⟨u, ?_, hgap⟩
    rw [inside_cons]
    simp only [separator, List.isEmpty_nil, if_true, inside_nil, List.append_nil]
    exact after_trans hfront (after_trans ht hu)
  | cons next entries ih =>
    obtain ⟨e', he', hfront⟩ := hfront entry.front stack e he
    obtain ⟨t, ht, hrests⟩ := hvalue entry List.mem_cons_self (frame :: stack) e' he'
    obtain ⟨u, hu, hgap⟩ := after_gap_of_rests hrests entry.gap
    obtain ⟨v, hv, hend⟩ := ih next (fun e he => hvalue e (List.mem_cons_of_mem _ he)) _ (.inr rfl)
    refine ⟨v, ?_, hend⟩
    rw [inside_cons]
    simp only [separator, List.isEmpty_cons, Bool.false_eq_true, if_false, List.append_assoc,
      List.singleton_append]
    refine after_trans hfront (after_trans ht (after_trans hu ?_))
    rw [after_cons_of_step (step_comma_of_rests hgap)]
    exact hv

theorem leadsOn_container {Front : Type} {front : Front → Bytes}
    (hfront : ∀ f, LeadsIn frame (front f)) (gap : Gap) (entries : List (Entry Front Node))
    (hvalue : ∀ e ∈ entries, LeadsOn e.value.text) :
    LeadsOn (frame.opener :: (gap.text ++ (inside front entries ++ [frame.closer]))) := by
  intro stack e he
  refine ⟨⟨stack, .between .next⟩, ?_, .inl rfl⟩
  rw [after_cons_of_step (step_opener he)]
  apply after_trans (after_gap _ _ gap)
  -- An empty container is closed right away, any other behind its last entry
  cases entries with
  | nil => exact after_cons_of_step step_closer_of_first
  | cons entry entries =>
    obtain ⟨t, ht, hrests⟩ := after_inside hfront entry entries hvalue stack _ (.inl rfl)
    exact after_trans ht (after_cons_of_step (step_closer_of_rests hrests))

/-- The machine reads every value, whatever is open around it. -/
theorem leadsOn_node (n : Node) : LeadsOn n.text := by
  -- The stack is arbitrary in the statement, so the hypotheses apply inside of the container
  induction n with
  | word w =>
    obtain ⟨c, rest, htext, hc⟩ := (Node.word w).text_cons
    refine leadsOn_of_value htext hc fun stack => ?_
    exact ⟨_, by rw [Node.text]; exact after_word stack w, .inl rfl⟩
  | number n =>
    obtain ⟨c, rest, htext, hc⟩ := (Node.number n).text_cons
    refine leadsOn_of_value htext hc fun stack => ?_
    rw [Node.text]
    exact after_number stack n
  | string body =>
    obtain ⟨c, rest, htext, hc⟩ := (Node.string body).text_cons
    refine leadsOn_of_value htext hc fun stack => ⟨⟨stack, .between .next⟩, ?_, .inl rfl⟩
    rw [Node.text, Bytes.quoted, List.cons_append,
      after_cons_of_step (t := ⟨stack, .string false⟩) rfl]
    exact after_body_quote stack false body.isBody
  | array gap items ih =>
    rw [Node.text_array]
    have hcontainer := leadsOn_container leadsIn_gap gap items ih
    exact hcontainer
  | object gap members ih =>
    rw [Node.text_object]
    have hcontainer := leadsOn_container leadsIn_tag gap members ih
    exact hcontainer

/-- Every document of the grammar is accepted. -/
theorem accepted_document (d : Document) : Accepted .start d.text := by
  obtain ⟨t, ht, hrests⟩ := leadsOn_node d.root [] .value (.inl rfl)
  obtain ⟨u, hu, hend⟩ := after_gap_of_rests hrests d.after
  refine ⟨u, ?_, accepts_of_rests hend⟩
  exact after_trans (after_gap [] .value d.before) (after_trans ht hu)

end Trees

end JsonQuery.WellFormed
