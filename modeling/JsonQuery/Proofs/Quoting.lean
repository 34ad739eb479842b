import JsonQuery.Result.Conversion

/-!
# Quoting a text and reading it back

Each byte is spelled by itself: as it is, behind a backslash, or as a code unit of four digits.
Reading the spelling of a byte gives the byte, so reading what was quoted gives the text again.

## Layers

- **Bytes**: the three ways to spell a byte, and what each is read as.
- **Texts**: reading the spelling of a text.
-/

namespace JsonQuery.Quoted

open Ascii

/-! ## Bytes -/

section Bytes

/-- The ways to spell a byte in a body. -/
inductive Spelling (c : UInt8) : Bytes → Prop where
  /-- As it is. -/
  | plain (hquote : c ≠ quote) (hslash : c ≠ backslash) (hspace : ¬c < space) : Spelling c [c]
  /-- By a short escape. -/
  | short {d : UInt8} (hd : d ≠ lowerU) (hshort : short? d = some c) : Spelling c [backslash, d]
  /-- By a code unit, which only control bytes need. -/
  | unit (hspace : c < space) :
      Spelling c [backslash, lowerU, zero, zero, hexDigit (c.toNat / 16), hexDigit (c.toNat % 16)]

theorem spelling_spell (c : UInt8) : Spelling c (spell c) := by
  -- The short escapes one by one, then all other control bytes
  unfold spell
  split
  · rename_i h
    simp only [Bool.or_eq_true, decide_eq_true_eq] at h
    rcases h with rfl | rfl
    · exact .short (by decide) rfl
    · exact .short (by decide) rfl
  · rename_i hquoted
    simp only [Bool.or_eq_true, decide_eq_true_eq, not_or] at hquoted
    split
    · exact .short (by decide) (by simp only [*]; rfl)
    · split
      · exact .short (by decide) (by simp only [*]; rfl)
      · split
        · exact .short (by decide) (by simp only [*]; rfl)
        · split
          · exact .short (by decide) (by simp only [*]; rfl)
          · split
            · exact .short (by decide) (by simp only [*]; rfl)
            · split
              · exact .unit ‹_›
              · exact .plain hquoted.1 hquoted.2 ‹_›

theorem hexValue?_hexDigit {n : Nat} (h : n < 16) : hexValue? (hexDigit n) = some n := by
  have hall : ∀ n : Fin 16, hexValue? (hexDigit n) = some n.val := by decide
  exact hall ⟨n, h⟩

/-- Four digits are read as the byte that they were written for. -/
theorem unit?_hexDigits (c : UInt8) (rest : Bytes) :
    unit? (zero :: zero :: hexDigit (c.toNat / 16) :: hexDigit (c.toNat % 16) :: rest) =
      some c.toNat := by
  have hzero : hexValue? zero = some 0 := rfl
  have hc := c.toNat_lt
  rw [unit?, hzero, hexValue?_hexDigit (by omega), hexValue?_hexDigit (by omega)]
  simp only [Option.bind_eq_bind, Option.bind_some, Option.pure_def, Option.some.injEq]
  omega

/-- The code unit of a control byte is a character of that byte alone. -/
theorem unitEscape_hexDigits {c : UInt8} (hspace : c < space) (rest : Bytes) :
    unitEscape (zero :: zero :: hexDigit (c.toNat / 16) :: hexDigit (c.toNat % 16) :: rest) =
      ⟨[c], 5⟩ := by
  have hall : ∀ n : Fin 32, isHighSurrogate n = false ∧
      Utf8.encode [unitChar n] = [UInt8.ofNat n] := by decide
  obtain ⟨hhigh, hchar⟩ := hall ⟨c.toNat, hspace⟩
  rw [UInt8.ofNat_toNat] at hchar
  rw [unitEscape, unit?_hexDigits]
  simp only [hhigh, hchar, Bool.false_eq_true, if_false]

/-- The spelling of a byte is read as the byte. -/
theorem Spelling.decodeFrom {c : UInt8} {text : Bytes} (h : Spelling c text) (out rest : Bytes) :
    decodeFrom 0 out (text ++ rest) = decodeFrom 0 (c :: out) rest := by
  have hslash : ¬backslash < space := by decide
  cases h with
  | plain hquote hslash hspace =>
    rw [List.singleton_append, Quoted.decodeFrom, if_neg hspace, if_neg hslash]
  | @short d hd hshort =>
    have hescape : escape? (d :: rest) = some ⟨[c], 1⟩ := by
      rw [escape?, if_neg hd, hshort]
      rfl
    simp only [List.cons_append, List.nil_append]
    rw [Quoted.decodeFrom, if_neg hslash, if_pos rfl, hescape]
    rfl
  | unit hspace =>
    simp only [List.cons_append, List.nil_append]
    rw [Quoted.decodeFrom, if_neg hslash, if_pos rfl, escape?, if_pos rfl,
      unitEscape_hexDigits hspace]
    rfl

end Bytes

/-! ## Texts -/

section Texts

variable {text : Bytes}

theorem decodeFrom_flatMap_spell (text out : Bytes) :
    decodeFrom 0 out (text.flatMap spell) = out.reverse ++ text := by
  induction text generalizing out with
  | nil => simp [decodeFrom]
  | cons c text ih =>
    rw [List.flatMap_cons, (spelling_spell c).decodeFrom, ih]
    simp

/-- The spelling of a UTF-8 text is read as the text. -/
theorem decode_flatMap_spell (hvalid : Utf8.isValid text = true) :
    decode (text.flatMap spell) = text := by
  rw [decode, decodeFrom_flatMap_spell, List.reverse_nil, List.nil_append, Utf8.lossy,
    if_pos hvalid]

/-- Different texts are quoted in different ways, also those that are not UTF-8. -/
theorem encode_inj {a b : Bytes} : encode a = encode b ↔ a = b := by
  refine ⟨fun h => ?_, congrArg encode⟩
  rw [encode, encode, Bytes.quoted, Bytes.quoted, List.cons_append, List.cons_append,
    List.cons_inj_right, List.append_left_inj] at h
  have hread := congrArg (decodeFrom 0 []) h
  rwa [decodeFrom_flatMap_spell, decodeFrom_flatMap_spell] at hread

/-- A text whose spelling holds no backslash is spelled as it is. -/
theorem flatMap_spell_of_backslash_notMem (h : backslash ∉ text.flatMap spell) :
    text.flatMap spell = text := by
  induction text with
  | nil => rfl
  | cons c text ih =>
    rw [List.flatMap_cons, List.mem_append, not_or] at h
    rw [List.flatMap_cons, ih h.2]
    have hspelling := spelling_spell c
    generalize spell c = spelled at h hspelling ⊢
    cases hspelling with
    | plain => rfl
    | short => exact absurd List.mem_cons_self h.1
    | unit => exact absurd List.mem_cons_self h.1

end Texts

end JsonQuery.Quoted
