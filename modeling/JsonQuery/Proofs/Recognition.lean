import JsonQuery.Proofs.Acceptance

/-!
# Accepted texts are documents

The converse of `Acceptance`: whatever the machine of `WellFormed` accepts is the text of a tree,
and whatever it has read without a refusal is the front of one.

## Layers

- **Tokens**: inside of a token, a text that leads to an end goes on with the rest of the token.
- **Values**: from the place of a value, a text that leads to an end goes on with a value, by
  induction over the length of the text.
- **Every state can end**: some text closes all that is open.
- **Validation**: the verdict on a text and the offset that comes with it.
-/

namespace JsonQuery.WellFormed

open Ascii Grammar

/-! ## Accepted texts start with tokens -/

section Front

variable {stack : List Frame} {part : NumberPart} {text : Bytes}

theorem accepted_gap {e : Expect} (h : Accepted ⟨stack, .between e⟩ text) :
    ∃ (gap : Gap) (rest : Bytes), text = gap.text ++ rest ∧
      Accepted ⟨stack, .between e⟩ rest ∧ ∀ c ∈ rest.head?, isGap c = false := by
  -- Byte by byte: the front is taken as long as the bytes may stand between tokens
  induction text with
  | nil => exact ⟨⟨[], by simp⟩, [], rfl, h, by simp⟩
  | cons c text ih =>
    cases hc : isGap c with
    | false => exact ⟨⟨[], by simp⟩, c :: text, rfl, h, by simpa using hc⟩
    | true =>
      obtain ⟨t, hstep, hrest⟩ := accepted_cons.1 h
      simp only [State.step, State.stepBetween, hc, if_true, Option.some.injEq] at hstep
      subst hstep
      obtain ⟨gap, rest, rfl, haccepted, hhead⟩ := ih hrest
      refine ⟨⟨c :: gap.text, ?_⟩, rest, rfl, haccepted, hhead⟩
      rw [List.forall_mem_cons]
      exact ⟨mem_gapBytes.2 hc, gap.isGap⟩

/-- A word goes on with all of its letters. -/
theorem accepted_word {behind : Nat} {ahead : Bytes} (hahead : ahead ≠ [])
    (h : Accepted ⟨stack, .word behind ahead⟩ text) :
    ∃ rest, text = ahead ++ rest ∧ Accepted ⟨stack, .between .next⟩ rest := by
  -- On the letters that are still to come
  induction ahead generalizing behind text with
  | nil => exact absurd rfl hahead
  | cons d ahead ih =>
    cases text with
    | nil => simp [accepted_nil, State.accepts] at h
    | cons c text =>
      obtain ⟨t, hstep, hrest⟩ := accepted_cons.1 h
      simp only [State.step, State.stepWord, Option.ite_none_right_eq_some] at hstep
      obtain ⟨rfl, hstep⟩ := hstep
      cases ahead with
      | nil =>
        cases hstep
        exact ⟨text, rfl, hrest⟩
      | cons d' ahead =>
        cases hstep
        obtain ⟨rest, rfl, haccepted⟩ := ih (by simp) hrest
        exact ⟨rest, rfl, haccepted⟩

theorem accepted_unit {isKey : Bool} {left : Nat} (h : Accepted ⟨stack, .unit isKey left⟩ text) :
    ∃ c rest, text = c :: rest ∧ isHexDigit c = true ∧
      Accepted ⟨stack, if left ≤ 1 then .string isKey else .unit isKey (left - 1)⟩ rest := by
  cases text with
  | nil => simp [accepted_nil, State.accepts] at h
  | cons c rest =>
    obtain ⟨t, hstep, hrest⟩ := accepted_cons.1 h
    simp only [State.step, State.stepUnit, Option.ite_none_right_eq_some] at hstep
    obtain ⟨hc, hstep⟩ := hstep
    cases hstep
    exact ⟨c, rest, rfl, by rw [isHexDigit_eq, hc], hrest⟩

/-- Inside of a string the text goes on with a body and the closing quote. -/
theorem accepted_body {isKey : Bool} (text : Bytes) (h : Accepted ⟨stack, .string isKey⟩ text) :
    ∃ (body : Body) (rest : Bytes), text = body.text ++ quote :: rest ∧
      Accepted (State.closeString isKey ⟨stack, .string isKey⟩) rest := by
  cases text with
  | nil => simp [accepted_nil, State.accepts] at h
  | cons c text =>
    obtain ⟨t, hstep, hrest⟩ := accepted_cons.1 h
    -- The four branches of the machine: the end, an escape, a control byte, any other byte
    by_cases hquote : c = quote
    · subst hquote
      cases hstep
      exact ⟨⟨[], .nil⟩, text, rfl, hrest⟩
    by_cases hslash : c = backslash
    · subst hslash
      cases hstep
      cases text with
      | nil => simp [accepted_nil, State.accepts, State.enter] at hrest
      | cons d text =>
        obtain ⟨u, hstep, hrest⟩ := accepted_cons.1 hrest
        by_cases hshort : isShortEscape d = true
        · simp only [State.step, State.enter, State.stepEscape, hshort, if_true,
            Option.some.injEq] at hstep
          subst hstep
          obtain ⟨body, rest, rfl, haccepted⟩ := accepted_body text hrest
          exact ⟨⟨_, .short (mem_shortEscapes.2 hshort) body.isBody⟩, rest, rfl, haccepted⟩
        · simp only [State.step, State.enter, State.stepEscape, hshort, if_false,
            Option.ite_none_right_eq_some, Bool.false_eq_true] at hstep
          obtain ⟨rfl, hstep⟩ := hstep
          cases hstep
          -- The counter runs from four down, so four digits follow
          obtain ⟨c₁, text, rfl, h₁, hrest⟩ := accepted_unit hrest
          obtain ⟨c₂, text, rfl, h₂, hrest⟩ := accepted_unit hrest
          obtain ⟨c₃, text, rfl, h₃, hrest⟩ := accepted_unit hrest
          obtain ⟨c₄, text, rfl, h₄, hrest⟩ := accepted_unit hrest
          obtain ⟨body, rest, rfl, haccepted⟩ := accepted_body text hrest
          exact ⟨⟨_, .unit h₁ h₂ h₃ h₄ body.isBody⟩, rest, rfl, haccepted⟩
    by_cases hspace : c < space
    · simp [State.step, State.stepString, hquote, hslash, hspace] at hstep
    · simp only [State.step, State.stepString, hquote, hslash, hspace, if_false,
        Option.some.injEq] at hstep
      subst hstep
      obtain ⟨body, rest, rfl, haccepted⟩ := accepted_body text hrest
      exact ⟨⟨_, .plain hquote hslash hspace body.isBody⟩, rest, rfl, haccepted⟩
termination_by text.length

/-! ## Accepted texts start with numbers -/

/-- A number that does not go on is a value like any other. -/
theorem accepted_of_ends (hpart : part.ends = true)
    (hdigit : part.repeats = true → ∀ c ∈ text.head?, isDigit c = false)
    (hdot : part.takesFraction = true → ∀ c ∈ text.head?, c ≠ dot)
    (hmark : part.takesExponent = true → ∀ c ∈ text.head?, c ≠ lowerE ∧ c ≠ upperE)
    (h : Accepted ⟨stack, .number part⟩ text) : Accepted ⟨stack, .between .next⟩ text := by
  cases text with
  | nil =>
    rw [accepted_nil] at h ⊢
    simp only [State.accepts, Bool.and_eq_true] at h ⊢
    exact ⟨h.1, trivial⟩
  | cons c rest =>
    obtain ⟨t, hstep, hrest⟩ := accepted_cons.1 h
    refine accepted_cons.2 ⟨t, ?_, hrest⟩
    rw [← hstep]
    -- Each part refuses exactly the bytes that the hypotheses rule out
    cases part <;>
      simp_all [NumberPart.ends, NumberPart.repeats, NumberPart.takesFraction,
        NumberPart.takesExponent, State.step, State.stepNumber, State.stepBetween, State.expect,
        State.afterValue, State.pop]

theorem accepted_digits (hpart : part.repeats = true)
    (h : Accepted ⟨stack, .number part⟩ text) :
    ∃ digits rest, text = digits ++ rest ∧ digits.all isDigit = true ∧
      Accepted ⟨stack, .number part⟩ rest ∧ ∀ c ∈ rest.head?, isDigit c = false := by
  induction text with
  | nil => exact ⟨[], [], rfl, rfl, h, by simp⟩
  | cons c text ih =>
    cases hc : isDigit c with
    | false => exact ⟨[], c :: text, rfl, rfl, h, by simpa using hc⟩
    | true =>
      obtain ⟨t, hstep, hrest⟩ := accepted_cons.1 h
      rw [step_digit_of_repeats hpart hc, Option.some.injEq] at hstep
      subst hstep
      obtain ⟨digits, rest, rfl, hdigits, haccepted, hhead⟩ := ih hrest
      exact ⟨c :: digits, rest, rfl, by simp [hc, hdigits], haccepted, hhead⟩

/-- In front of a part that holds at least one digit, the text goes on with digits. -/
theorem accepted_isDigits {s : State} (hpart : part.repeats = true) (hend : s.accepts = false)
    (hstep : ∀ c t, s.step c = some t → isDigit c = true ∧ ⟨stack, .number part⟩ = t)
    (h : Accepted s text) :
    ∃ digits rest, text = digits ++ rest ∧ Number.isDigits digits = true ∧
      Accepted ⟨stack, .number part⟩ rest ∧ ∀ c ∈ rest.head?, isDigit c = false := by
  cases text with
  | nil =>
    rw [accepted_nil, hend] at h
    cases h
  | cons c text =>
    obtain ⟨t, ht, hrest⟩ := accepted_cons.1 h
    obtain ⟨hc, rfl⟩ := hstep c t ht
    obtain ⟨digits, rest, rfl, hdigits, haccepted, hhead⟩ := accepted_digits hpart hrest
    exact ⟨c :: digits, rest, rfl, by simp [Number.isDigits, hc, hdigits], haccepted, hhead⟩

/-- Behind an `e` stand an optional sign and digits. -/
theorem accepted_mark (h : Accepted ⟨stack, .number .exponentMark⟩ text) :
    ∃ sign digits rest, text = sign ++ digits ++ rest ∧
      (sign = [] ∨ sign = [plus] ∨ sign = [minus]) ∧ Number.isDigits digits = true ∧
      Accepted ⟨stack, .number .exponent⟩ rest ∧ ∀ c ∈ rest.head?, isDigit c = false := by
  cases text with
  | nil => simp [accepted_nil, State.accepts] at h
  | cons c text =>
    by_cases hsign : c = plus ∨ c = minus
    · obtain ⟨t, hstep, hrest⟩ := accepted_cons.1 h
      simp only [State.step, State.stepNumber, Bool.or_eq_true, decide_eq_true_eq, hsign, if_true,
        Option.some.injEq] at hstep
      subst hstep
      have hdigits : ∀ c t, State.step ⟨stack, .number .exponentSign⟩ c = some t →
          isDigit c = true ∧ ⟨stack, .number .exponent⟩ = t := by
        intro c t hstep
        simpa [State.step, State.stepNumber, State.enter] using hstep
      obtain ⟨digits, rest, rfl, hdigits, haccepted, hhead⟩ :=
        accepted_isDigits rfl (by simp [State.accepts]) hdigits hrest
      refine ⟨[c], digits, rest, rfl, .inr ?_, hdigits, haccepted, hhead⟩
      simpa using hsign
    · obtain ⟨t, hstep, hrest⟩ := accepted_cons.1 h
      simp only [State.step, State.stepNumber, Bool.or_eq_true, decide_eq_true_eq, hsign, if_false,
        Option.ite_none_right_eq_some, Option.some.injEq] at hstep
      obtain ⟨hc, rfl⟩ := hstep
      obtain ⟨digits, rest, rfl, hdigits, haccepted, hhead⟩ := accepted_digits rfl hrest
      refine ⟨[], c :: digits, rest, rfl, .inl rfl, ?_, haccepted, hhead⟩
      simp [Number.isDigits, hc, hdigits]

theorem accepted_exponent (hpart : part.takesExponent = true)
    (hdigit : part.repeats = true → ∀ c ∈ text.head?, isDigit c = false)
    (hdot : part.takesFraction = true → ∀ c ∈ text.head?, c ≠ dot)
    (h : Accepted ⟨stack, .number part⟩ text) :
    ∃ exponent rest, text = exponent ++ rest ∧ IsExponent exponent ∧
      Accepted ⟨stack, .between .next⟩ rest := by
  -- An exponent stands there only if the text goes on with its mark
  by_cases hmark : ∀ c ∈ text.head?, c ≠ lowerE ∧ c ≠ upperE
  · have hends := NumberPart.ends_of_takesExponent hpart
    exact ⟨[], text, rfl, .inl rfl, accepted_of_ends hends hdigit hdot (fun _ => hmark) h⟩
  · cases text with
    | nil => simp at hmark
    | cons c text =>
      have hc : c = lowerE ∨ c = upperE := by
        simpa [Decidable.or_iff_not_imp_left] using hmark
      obtain ⟨t, hstep, hrest⟩ := accepted_cons.1 h
      rw [step_mark hpart hc, Option.some.injEq] at hstep
      subst hstep
      obtain ⟨sign, digits, rest, rfl, hsign, hdigits, haccepted, hhead⟩ := accepted_mark hrest
      refine ⟨c :: (sign ++ digits), rest, by simp, .inr ⟨c, sign, digits, hc, hsign, hdigits, rfl⟩,
        ?_⟩
      exact accepted_of_ends rfl (fun _ => hhead) (by simp [NumberPart.takesFraction])
        (by simp [NumberPart.takesExponent]) haccepted

theorem accepted_fraction (hpart : part.takesFraction = true)
    (hdigit : part.repeats = true → ∀ c ∈ text.head?, isDigit c = false)
    (h : Accepted ⟨stack, .number part⟩ text) :
    ∃ fraction exponent rest, text = fraction ++ exponent ++ rest ∧ IsFraction fraction ∧
      IsExponent exponent ∧ Accepted ⟨stack, .between .next⟩ rest := by
  have hexponent := NumberPart.takesExponent_of_takesFraction hpart
  -- A text without a dot may still hold an exponent
  by_cases hdot : ∀ c ∈ text.head?, c ≠ dot
  · obtain ⟨exponent, rest, rfl, hexponent, haccepted⟩ :=
      accepted_exponent hexponent hdigit (fun _ => hdot) h
    exact ⟨[], exponent, rest, by simp, .inl rfl, hexponent, haccepted⟩
  · cases text with
    | nil => simp at hdot
    | cons c text =>
      have hc : c = dot := by simpa using hdot
      subst hc
      obtain ⟨t, hstep, hrest⟩ := accepted_cons.1 h
      rw [step_dot hpart, Option.some.injEq] at hstep
      subst hstep
      have hstep : ∀ c t, State.step ⟨stack, .number .point⟩ c = some t →
          isDigit c = true ∧ ⟨stack, .number .fraction⟩ = t := by
        intro c t hstep
        simpa [State.step, State.stepNumber, State.enter] using hstep
      obtain ⟨digits, rest, rfl, hdigits, haccepted, hhead⟩ :=
        accepted_isDigits rfl (by simp [State.accepts]) hstep hrest
      obtain ⟨exponent, rest, rfl, hexponent, haccepted⟩ :=
        accepted_exponent rfl (fun _ => hhead) (by simp [NumberPart.takesFraction]) haccepted
      exact ⟨dot :: digits, exponent, rest, by simp, .inr ⟨digits, hdigits, rfl⟩, hexponent,
        haccepted⟩

/-- From the place of a value, or from behind a minus, a digit starts a number. -/
theorem accepted_whole {e : Mode} (he : e = .between .value ∨ e = .number .minus) {c : UInt8}
    (hc : isDigit c = true) (h : Accepted ⟨stack, e⟩ (c :: text)) :
    ∃ whole fraction exponent rest, c :: text = whole ++ (fraction ++ exponent) ++ rest ∧
      IsWhole whole ∧ IsFraction fraction ∧ IsExponent exponent ∧
      Accepted ⟨stack, .between .next⟩ rest := by
  obtain ⟨t, hstep, hrest⟩ := accepted_cons.1 h
  rw [step_whole he hc, Option.some.injEq] at hstep
  subst hstep
  -- A zero stands alone, every other digit may be followed by more
  by_cases hzero : c = zero
  · rw [if_pos hzero] at hrest
    obtain ⟨fraction, exponent, rest, rfl, hfraction, hexponent, haccepted⟩ :=
      accepted_fraction rfl (by simp [NumberPart.repeats]) hrest
    exact ⟨[c], fraction, exponent, rest, rfl, .inl (by rw [hzero]), hfraction, hexponent,
      haccepted⟩
  · rw [if_neg hzero] at hrest
    obtain ⟨digits, rest, rfl, hdigits, hrest, hhead⟩ := accepted_digits rfl hrest
    obtain ⟨fraction, exponent, rest, rfl, hfraction, hexponent, haccepted⟩ :=
      accepted_fraction rfl (fun _ => hhead) hrest
    refine ⟨c :: digits, fraction, exponent, rest, by simp, .inr ⟨?_, ?_⟩, hfraction, hexponent,
      haccepted⟩
    · simp [Number.isDigits, hc, hdigits]
    · simpa using hzero

/-- Behind a minus a number starts. -/
theorem accepted_minus (h : Accepted ⟨stack, .number .minus⟩ text) :
    ∃ whole fraction exponent rest, text = whole ++ (fraction ++ exponent) ++ rest ∧
      IsWhole whole ∧ IsFraction fraction ∧ IsExponent exponent ∧
      Accepted ⟨stack, .between .next⟩ rest := by
  cases text with
  | nil => simp [accepted_nil, State.accepts] at h
  | cons c text =>
    have hc : isDigit c = true := by
      obtain ⟨t, hstep, -⟩ := accepted_cons.1 h
      simp only [State.step, State.stepNumber] at hstep
      split at hstep
      · rename_i hzero
        rw [hzero]
        rfl
      · split at hstep
        · assumption
        · cases hstep
    exact accepted_whole (.inr rfl) hc h

end Front

/-! ## Accepted texts start with values -/

/-- A text leads to an end from the place of an entry of a container only if it starts with an
entry, what stands in front of the value included. -/
def StartsEntry {Front : Type} (frame : Frame) (front : Front → Bytes) (text : Bytes) : Prop :=
  ∀ stack, Accepted ⟨frame :: stack, .between frame.later⟩ text →
    ∃ (f : Front) (node : Node) (rest : Bytes), text = front f ++ (node.text ++ rest) ∧
      Accepted ⟨frame :: stack, .between .next⟩ rest

/-- A text leads to an end from the place of a value only if it starts with a value behind a
gap. -/
def StartsValue (text : Bytes) : Prop :=
  ∀ stack, Accepted ⟨stack, .between .value⟩ text →
    ∃ (gap : Gap) (node : Node) (rest : Bytes), text = gap.text ++ (node.text ++ rest) ∧
      Accepted ⟨stack, .between .next⟩ rest

section Values

variable {stack : List Frame} {frame : Frame} {text : Bytes}

theorem startsEntry_array (h : StartsValue text) : StartsEntry .array Gap.text text :=
  fun stack haccepted => h (.array :: stack) haccepted

/-- In front of a value an object holds a key and a colon. -/
theorem accepted_tag (h : Accepted ⟨.object :: stack, .between .key⟩ text) :
    ∃ (before : Gap) (key : Body) (between : Gap) (rest : Bytes),
      text = before.text ++ (Bytes.quoted key.text ++ (between.text ++ colon :: rest)) ∧
      Accepted ⟨.object :: stack, .between .value⟩ rest := by
  obtain ⟨before, text, rfl, h, hgap⟩ := accepted_gap h
  cases text with
  | nil => simp [accepted_nil, State.accepts] at h
  | cons c text =>
    obtain ⟨t, hstep, hrest⟩ := accepted_cons.1 h
    have hc : isGap c = false := by simpa using hgap
    simp only [State.step, State.stepBetween, hc, Bool.false_eq_true, if_false, State.startKey,
      Option.ite_none_right_eq_some, Option.some.injEq] at hstep
    obtain ⟨rfl, rfl⟩ := hstep
    obtain ⟨key, text, rfl, hbehind⟩ := accepted_body text hrest
    -- A string that closes as a key leaves the machine in front of the colon
    have hcolon : Accepted ⟨.object :: stack, .between .colon⟩ text := hbehind
    obtain ⟨between, text, rfl, h, hgap⟩ := accepted_gap hcolon
    cases text with
    | nil => simp [accepted_nil, State.accepts] at h
    | cons c text =>
      obtain ⟨t, hstep, hrest⟩ := accepted_cons.1 h
      have hc : isGap c = false := by simpa using hgap
      simp only [State.step, State.stepBetween, hc, Bool.false_eq_true, if_false,
        Option.ite_none_right_eq_some, Option.some.injEq] at hstep
      obtain ⟨rfl, rfl⟩ := hstep
      exact ⟨before, key, between, text, by simp [Bytes.quoted], hrest⟩

theorem startsEntry_object (h : ∀ rest : Bytes, rest.length ≤ text.length → StartsValue rest) :
    StartsEntry .object Tag.text text := by
  intro stack haccepted
  obtain ⟨before, key, between, rest, rfl, hrest⟩ := accepted_tag haccepted
  have hlength : rest.length ≤
      (before.text ++ (Bytes.quoted key.text ++ (between.text ++ colon :: rest))).length := by
    simp only [List.length_append, List.length_cons]
    omega
  obtain ⟨after, node, rest, rfl, hnext⟩ := h rest hlength _ hrest
  exact ⟨⟨before, key, between, after⟩, node, rest, by simp [Tag.text], hnext⟩

/-- Behind a value of a container comes a comma with more entries, or the bracket that ends it. -/
theorem accepted_next (h : Accepted ⟨frame :: stack, .between .next⟩ text) :
    ∃ (gap : Gap) (rest : Bytes),
      (text = gap.text ++ comma :: rest ∧
        Accepted ⟨frame :: stack, .between frame.later⟩ rest) ∨
      (text = gap.text ++ frame.closer :: rest ∧ Accepted ⟨stack, .between .next⟩ rest) := by
  obtain ⟨gap, text, rfl, h, hgap⟩ := accepted_gap h
  cases text with
  | nil => simp [accepted_nil, State.accepts] at h
  | cons c text =>
    obtain ⟨t, hstep, hrest⟩ := accepted_cons.1 h
    have hc : isGap c = false := by simpa using hgap
    -- Both containers go on alike, each with its own closer
    have hafter : (if c = comma then some ⟨frame :: stack, .between frame.later⟩
        else if c = frame.closer then some ⟨stack, .between .next⟩ else none) = some t := by
      rw [← hstep]
      simp only [State.step, State.stepBetween, hc, Bool.false_eq_true, if_false]
      cases frame <;> rfl
    split at hafter
    · rename_i hcomma
      cases hafter
      exact ⟨gap, text, .inl ⟨by rw [hcomma], hrest⟩⟩
    · simp only [Option.ite_none_right_eq_some, Option.some.injEq] at hafter
      obtain ⟨rfl, rfl⟩ := hafter
      exact ⟨gap, text, .inr ⟨rfl, hrest⟩⟩

/-- From the place of an entry the text goes on with entries up to the bracket that ends the
container. -/
theorem accepted_inside {Front : Type} {front : Front → Bytes} (text : Bytes)
    (hentry : ∀ rest : Bytes, rest.length ≤ text.length → StartsEntry frame front rest)
    (h : Accepted ⟨frame :: stack, .between frame.later⟩ text) :
    ∃ (entries : List (Entry Front Node)) (rest : Bytes), entries ≠ [] ∧
      text = inside front entries ++ frame.closer :: rest ∧
      Accepted ⟨stack, .between .next⟩ rest := by
  obtain ⟨f, node, rest, htext, hnext⟩ := hentry text (Nat.le_refl _) stack h
  obtain ⟨gap, rest, ⟨rfl, hrest⟩ | ⟨rfl, hrest⟩⟩ := accepted_next hnext
  · -- The text behind the comma is shorter, which carries the recursion
    have hlt : rest.length < text.length := by
      rw [htext]
      simp only [List.length_append, List.length_cons]
      omega
    obtain ⟨entries, rest, hne, rfl, haccepted⟩ := accepted_inside rest
      (fun rest hle => hentry rest (Nat.le_trans hle (Nat.le_of_lt hlt))) hrest
    refine ⟨⟨f, node, gap⟩ :: entries, rest, by simp, ?_, haccepted⟩
    have hsome : entries.isEmpty = false := by simpa using hne
    rw [htext, inside_cons]
    simp [separator, hsome]
  · refine ⟨[⟨f, node, gap⟩], rest, by simp, ?_, hrest⟩
    rw [htext, inside_cons]
    simp [separator]
termination_by text.length

/-- Behind the opener of a container stands its inside, up to the bracket that ends it. -/
theorem accepted_container {Front : Type} (front : Front → Bytes)
    (hentry : ∀ rest : Bytes, rest.length ≤ text.length → StartsEntry frame front rest)
    (h : Accepted ⟨frame :: stack, .between frame.first⟩ text) :
    ∃ (gap : Gap) (entries : List (Entry Front Node)) (rest : Bytes),
      text = gap.text ++ (inside front entries ++ frame.closer :: rest) ∧
      Accepted ⟨stack, .between .next⟩ rest := by
  obtain ⟨gap, text, rfl, h, hgap⟩ := accepted_gap h
  cases text with
  | nil => cases frame <;> simp [accepted_nil, State.accepts] at h
  | cons c text =>
    obtain ⟨t, hstep, hrest⟩ := accepted_cons.1 h
    have hc : isGap c = false := by simpa using hgap
    -- Only the first place takes the closer, every other byte is read as in a later place
    by_cases hclose : c = frame.closer
    · subst hclose
      rw [step_closer_of_first, Option.some.injEq] at hstep
      subst hstep
      exact ⟨gap, [], text, rfl, hrest⟩
    · have hlater : Accepted ⟨frame :: stack, .between frame.later⟩ (c :: text) := by
        refine accepted_cons.2 ⟨t, ?_, hrest⟩
        rw [← hstep]
        cases frame <;>
          simp_all [Frame.later, Frame.first, Frame.closer, State.step, State.stepBetween,
            State.startValue, State.startKey, State.push, State.enter]
      have hlength : (c :: text).length ≤ (gap.text ++ c :: text).length := by
        rw [List.length_append]
        omega
      obtain ⟨entries, rest, -, htext, haccepted⟩ := accepted_inside (c :: text)
        (fun rest hle => hentry rest (Nat.le_trans hle hlength)) hlater
      exact ⟨gap, entries, rest, by rw [htext], haccepted⟩

/-- A digit in the place of a value starts a number without a sign. -/
theorem accepted_unsigned {c : UInt8} (hc : isDigit c = true)
    (h : Accepted ⟨stack, .between .value⟩ (c :: text)) :
    ∃ (node : Node) (rest : Bytes), c :: text = node.text ++ rest ∧
      Accepted ⟨stack, .between .next⟩ rest := by
  obtain ⟨whole, fraction, exponent, rest, htext, hwhole, hfraction, hexponent, haccepted⟩ :=
    accepted_whole (.inl rfl) hc h
  refine ⟨.number ⟨false, whole, fraction, exponent, hwhole, hfraction, hexponent⟩, rest, ?_,
    haccepted⟩
  simpa [Node.text, Numeral.text] using htext

/-- A letter that starts a word settles the letters behind it. -/
theorem exists_word_of_tail {c : UInt8} {ahead : Bytes} (h : wordTail? c = some ahead) :
    ∃ w : Word, w.text = c :: ahead ∧ ahead ≠ [] := by
  simp only [wordTail?] at h
  split at h
  · rename_i hc
    cases h
    exact ⟨.boolean true, by rw [hc]; rfl, by decide⟩
  split at h
  · rename_i hc
    cases h
    exact ⟨.boolean false, by rw [hc]; rfl, by decide⟩
  · simp only [Option.ite_none_right_eq_some, Option.some.injEq] at h
    obtain ⟨hc, rfl⟩ := h
    exact ⟨.null, by rw [hc]; rfl, by decide⟩

/-- From the place of a value the text goes on with a value, if all shorter texts do. -/
theorem startsValue_of_shorter
    (ih : ∀ rest : Bytes, rest.length < text.length → StartsValue rest) : StartsValue text := by
  intro stack h
  obtain ⟨gap, text, rfl, h, hgap⟩ := accepted_gap h
  cases text with
  | nil => simp [accepted_nil, State.accepts] at h
  | cons c text =>
    have hshorter : ∀ rest : Bytes, rest.length ≤ text.length → StartsValue rest := by
      intro rest hle
      apply ih
      simp only [List.length_append, List.length_cons]
      omega
    obtain ⟨t, hstep, hrest⟩ := accepted_cons.1 h
    have hc : isGap c = false := by simpa using hgap
    simp only [State.step, State.stepBetween, hc, Bool.false_eq_true, if_false,
      State.startValue] at hstep
    -- The machine chooses by the first byte: two openers, a quote, a minus, a digit or a letter
    split at hstep
    · rename_i hbrace
      cases hstep
      obtain ⟨inner, members, rest, rfl, haccepted⟩ := accepted_container Tag.text
        (fun text hle => startsEntry_object fun rest hrest =>
          hshorter rest (Nat.le_trans hrest hle)) hrest
      refine ⟨gap, .object inner members, rest, ?_, haccepted⟩
      simp [Node.text_object, hbrace, Frame.closer]
    split at hstep
    · rename_i hbracket
      cases hstep
      obtain ⟨inner, items, rest, rfl, haccepted⟩ := accepted_container Gap.text
        (fun text hle => startsEntry_array (hshorter text hle)) hrest
      refine ⟨gap, .array inner items, rest, ?_, haccepted⟩
      simp [Node.text_array, hbracket, Frame.closer]
    split at hstep
    · rename_i hquote
      cases hstep
      obtain ⟨body, rest, rfl, haccepted⟩ := accepted_body text hrest
      refine ⟨gap, .string body, rest, ?_, haccepted⟩
      simp [Node.text, Bytes.quoted, hquote]
    split at hstep
    · rename_i hminus
      cases hstep
      obtain ⟨whole, fraction, exponent, rest, rfl, hwhole, hfraction, hexponent, haccepted⟩ :=
        accepted_minus hrest
      refine ⟨gap, .number ⟨true, whole, fraction, exponent, hwhole, hfraction, hexponent⟩, rest,
        ?_, haccepted⟩
      simp [Node.text, Numeral.text, hminus]
    split at hstep
    · rename_i hzero
      obtain ⟨node, rest, htext, haccepted⟩ := accepted_unsigned (by rw [hzero]; rfl) h
      exact ⟨gap, node, rest, by rw [htext], haccepted⟩
    split at hstep
    · rename_i hdigit
      obtain ⟨node, rest, htext, haccepted⟩ := accepted_unsigned hdigit h
      exact ⟨gap, node, rest, by rw [htext], haccepted⟩
    obtain ⟨ahead, hword, rfl⟩ := Option.map_eq_some_iff.1 hstep
    -- What is left is a word, found by its first letter
    obtain ⟨w, hw, hne⟩ := exists_word_of_tail hword
    obtain ⟨rest, rfl, haccepted⟩ := accepted_word hne hrest
    exact ⟨gap, .word w, rest, by rw [Node.text, hw]; rfl, haccepted⟩

/-- From the place of a value every text that leads to an end starts with a value. -/
theorem startsValue_text (text : Bytes) : StartsValue text :=
  startsValue_of_shorter fun rest _ => startsValue_text rest
termination_by text.length

/-- Every accepted text is a document of the grammar. -/
theorem document_of_accepted (h : Accepted .start text) : ∃ d : Document, d.text = text := by
  obtain ⟨before, node, text, rfl, hnext⟩ := startsValue_text text [] h
  obtain ⟨after, rest, rfl, hrest, hgap⟩ := accepted_gap hnext
  -- With no container open, nothing but a gap may stand behind the value
  cases rest with
  | nil => exact ⟨⟨before, node, after⟩, by simp [Document.text]⟩
  | cons c rest =>
    obtain ⟨t, hstep, -⟩ := accepted_cons.1 hrest
    have hc : isGap c = false := by simpa using hgap
    simp [State.step, State.stepBetween, hc, State.afterValue] at hstep

end Values

/-! ## Every state can end -/

section Ends

variable {stack : List Frame} {s t : State} {a b : Bytes}

/-- A state from which some text leads to the end of a document. -/
def CanEnd (s : State) : Prop :=
  ∃ text, Accepted s text

theorem CanEnd.of_after (ha : s.after a = some t) (h : CanEnd t) : CanEnd s := by
  obtain ⟨b, hb⟩ := h
  exact ⟨a ++ b, accepted_append_of_after ha hb⟩

theorem CanEnd.of_step {c : UInt8} (hstep : s.step c = some t) (h : CanEnd t) : CanEnd s :=
  of_after (a := [c]) (by rw [after_cons_of_step hstep, State.after_nil]) h

/-- Behind a value the open containers are closed one by one. -/
theorem canEnd_of_rests (hs : Rests stack s) : CanEnd s := by
  induction stack generalizing s with
  | nil => exact ⟨[], accepted_nil.2 (accepts_of_rests hs)⟩
  | cons frame stack ih => exact .of_step (step_closer_of_rests hs) (ih (.inl rfl))

theorem canEnd_value {e : Expect} (he : e = .value ∨ e = .firstValue) :
    CanEnd ⟨stack, .between e⟩ := by
  -- The shortest way on is a `null` in the place of the value
  obtain ⟨t, ht, hrests⟩ := leadsOn_node (.word .null) stack e he
  exact .of_after ht (canEnd_of_rests hrests)

theorem canEnd_colon : CanEnd ⟨stack, .between .colon⟩ :=
  .of_step (c := colon) rfl (canEnd_value (.inl rfl))

theorem canEnd_string (isKey : Bool) : CanEnd ⟨stack, .string isKey⟩ := by
  cases isKey with
  | false => exact .of_step (c := quote) rfl (canEnd_of_rests (.inl rfl))
  | true => exact .of_step (c := quote) rfl canEnd_colon

theorem canEnd_unit (isKey : Bool) (left : Nat) : CanEnd ⟨stack, .unit isKey left⟩ := by
  induction left with
  | zero => exact .of_step (c := zero) rfl (canEnd_string isKey)
  | succ left ih =>
    have hstep : State.step ⟨stack, .unit isKey (left + 1)⟩ zero =
        some ⟨stack, if left + 1 ≤ 1 then .string isKey else .unit isKey left⟩ := rfl
    refine .of_step hstep ?_
    split
    · exact canEnd_string isKey
    · exact ih

theorem canEnd_number (part : NumberPart) : CanEnd ⟨stack, .number part⟩ := by
  have hrests : ∀ part : NumberPart, part.ends = true → CanEnd ⟨stack, .number part⟩ :=
    fun part hpart => canEnd_of_rests (.inr ⟨part, hpart, rfl⟩)
  cases part with
  | minus => exact .of_step (c := zero) rfl (hrests .zero rfl)
  | point => exact .of_step (c := zero) rfl (hrests .fraction rfl)
  | exponentMark => exact .of_step (c := zero) rfl (hrests .exponent rfl)
  | exponentSign => exact .of_step (c := zero) rfl (hrests .exponent rfl)
  | zero | whole | fraction | exponent => exact hrests _ rfl

theorem canEnd_word (behind : Nat) (ahead : Bytes) : CanEnd ⟨stack, .word behind ahead⟩ := by
  induction ahead generalizing behind with
  | nil => exact .of_step (c := space) rfl (canEnd_of_rests (.inl rfl))
  | cons c ahead ih =>
    have hstep : State.step ⟨stack, .word behind (c :: ahead)⟩ c =
        some (if ahead.isEmpty then ⟨stack, .between .next⟩
          else ⟨stack, .word (behind + 1) ahead⟩) := by
      simp [State.step, State.stepWord, State.expect, State.enter]
    refine .of_step hstep ?_
    split
    · exact canEnd_of_rests (.inl rfl)
    · exact ih (behind + 1)

/-- Whatever the machine has read, some text leads on to the end of a document. -/
theorem canEnd (s : State) : CanEnd s := by
  obtain ⟨stack, mode⟩ := s
  cases mode with
  | between e =>
    cases e with
    | value => exact canEnd_value (.inl rfl)
    | firstValue => exact canEnd_value (.inr rfl)
    | key => exact .of_step (c := quote) rfl (canEnd_string true)
    | firstKey => exact .of_step (c := quote) rfl (canEnd_string true)
    | colon => exact canEnd_colon
    | next => exact canEnd_of_rests (.inl rfl)
  | string isKey => exact canEnd_string isKey
  | escape isKey => exact .of_step (c := quote) rfl (canEnd_string isKey)
  | unit isKey left => exact canEnd_unit isKey left
  | number part => exact canEnd_number part
  | word behind ahead => exact canEnd_word behind ahead

end Ends

/-! ## Validation -/

section Validation

variable {text : Bytes}

/-- The accepted texts are the texts of the trees. -/
theorem accepted_iff_document : Accepted .start text ↔ ∃ d : Document, d.text = text := by
  constructor
  · exact document_of_accepted
  · rintro ⟨d, rfl⟩
    exact accepted_document d

theorem isWellFormed_iff_document :
    isWellFormed text = true ↔ ∃ d : Document, d.text = text := by
  rw [isWellFormed, validate, run_valid_iff, accepted_iff_document]

/-- What is read without a refusal is the front of a document. -/
theorem exists_document_of_after (h : (State.start.after text).isSome = true) :
    ∃ d : Document, text <+: d.text := by
  obtain ⟨t, ht⟩ := Option.isSome_iff_exists.1 h
  -- What was read and a way to the end make up an accepted text
  obtain ⟨rest, hrest⟩ := canEnd t
  obtain ⟨d, hd⟩ := document_of_accepted (accepted_append_of_after ht hrest)
  exact ⟨d, rest, hd.symm⟩

/-- The validator accepts the documents of the grammar and no other text.  The offset of its verdict
is the length of a document, and otherwise marks a part of the text that some document starts
with. -/
theorem validate_iff_document (text : Bytes) :
    ((validate text).valid = true ↔ ∃ d : Document, d.text = text) ∧
    ((validate text).valid = true → (validate text).offset = text.length) ∧
    ((validate text).valid = false → (validate text).offset ≤ text.length ∧
      ∃ d : Document, text.take (validate text).offset <+: d.text) := by
  refine ⟨isWellFormed_iff_document, ?_, ?_⟩
  · intro hvalid
    have h := run_offset_of_accepted .start 0 text ((run_valid_iff .start 0 text).1 hvalid)
    rwa [Nat.zero_add] at h
  · intro hvalid
    have hrefused : ¬Accepted .start text := by
      rw [← run_valid_iff .start 0 text]
      exact Bool.eq_false_iff.1 hvalid
    -- The offset never passes the place of the refusal
    obtain ⟨n, hn, hoffset, hsome⟩ := run_offset_of_refused .start 0 text hrefused
    obtain ⟨d, hd⟩ := exists_document_of_after hsome
    have hle : (validate text).offset ≤ n := Nat.zero_add n ▸ hoffset
    refine ⟨Nat.le_trans hle hn, d, ?_⟩
    exact (List.take_prefix_take_left hle).trans hd

end Validation

end JsonQuery.WellFormed
