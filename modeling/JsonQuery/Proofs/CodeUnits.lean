import JsonQuery.Proofs.Encoding
import JsonQuery.Proofs.Literals

/-!
# Strings as code units

An escape `\uXXXX` names a UTF-16 code unit and not a character, so what a string stands for is
told in code units first: those of its plain characters, of its short escapes and of its `\u`
escapes, one after the other.  Then the code units are read as UTF-16, where each half of a
surrogate pair that stands without the other one is U+FFFD.

The engine knows no code units.  It reads a string from the left and, behind the first half of a
pair, looks at the next six bytes for the other half.

## Layers

- **UTF-16**: the code units of a character, and the characters of code units.
- **Spelling**: `Spells` is which code units the inside of a string stands for.
- **Reading**: one lemma for each kind of spelling, with any text behind it.
- **Literals**: a string of a document is read as its code units are.
-/

namespace JsonQuery

open Ascii

/-! ## UTF-16 -/

namespace Utf16

/-- The code units of a character: its code point, or a surrogate pair when that takes more than
sixteen bits. -/
def units (c : Char) : List Nat :=
  if c.toNat < 0x10000 then [c.toNat]
  else [0xD800 + (c.toNat - 0x10000) / 0x400, 0xDC00 + (c.toNat - 0x10000) % 0x400]

/-- The first half of a surrogate pair. -/
def IsHigh (unit : Nat) : Prop :=
  0xD800 ≤ unit ∧ unit < 0xDC00
deriving Decidable

/-- The second half of a surrogate pair. -/
def IsLow (unit : Nat) : Prop :=
  0xDC00 ≤ unit ∧ unit < 0xE000
deriving Decidable

/-- The character of a surrogate pair. -/
def pair (high low : Nat) : Char :=
  Char.ofNat (0x10000 + (high - 0xD800) * 0x400 + (low - 0xDC00))

/-- The character of a code unit without a partner. -/
def alone (unit : Nat) : Char :=
  if IsHigh unit ∨ IsLow unit then Utf8.replacement else Char.ofNat unit

/-- The characters of code units, with U+FFFD for each surrogate that is not part of a pair. -/
def decode : List Nat → List Char
  | [] => []
  | [unit] => [alone unit]
  | unit :: next :: rest =>
    if IsHigh unit ∧ IsLow next then pair unit next :: decode rest
    else alone unit :: decode (next :: rest)

variable {unit : Nat} {rest : List Nat}

theorem decode_pair {next : Nat} (hhigh : IsHigh unit) (hlow : IsLow next) (rest : List Nat) :
    decode (unit :: next :: rest) = pair unit next :: decode rest := by
  rw [decode, if_pos ⟨hhigh, hlow⟩]

/-- A code unit is read by itself unless it starts a pair. -/
theorem decode_alone (h : IsHigh unit → ∀ next ∈ rest.head?, ¬IsLow next) :
    decode (unit :: rest) = alone unit :: decode rest := by
  cases rest with
  | nil => rfl
  | cons next rest =>
    rw [decode, if_neg]
    rintro ⟨hhigh, hlow⟩
    exact h hhigh next rfl hlow

theorem alone_of_not_surrogate (h : ¬(IsHigh unit ∨ IsLow unit)) : alone unit = Char.ofNat unit :=
  if_neg h

/-- A character is no surrogate. -/
theorem not_surrogate (c : Char) : ¬(IsHigh c.toNat ∨ IsLow c.toNat) := by
  have hvalid : c.toNat < 0xD800 ∨ 0xDFFF < c.toNat ∧ c.toNat < 0x110000 := c.valid
  simp only [IsHigh, IsLow]
  omega

/-- The code units of a character do not start with the second half of a pair. -/
theorem not_isLow_of_head? (c : Char) (hunit : unit ∈ (units c ++ rest).head?) :
    ¬IsLow unit := by
  have hvalid : c.toNat < 0xD800 ∨ 0xDFFF < c.toNat ∧ c.toNat < 0x110000 := c.valid
  unfold units at hunit
  split at hunit
  · obtain rfl : c.toNat = unit := by simpa using hunit
    exact fun hlow => not_surrogate c (.inr hlow)
  · obtain rfl : 0xD800 + (c.toNat - 0x10000) / 0x400 = unit := by simpa using hunit
    simp only [IsLow]
    omega

/-- The code units of a character are read as it, whatever comes behind them. -/
theorem decode_units (c : Char) (rest : List Nat) :
    decode (units c ++ rest) = c :: decode rest := by
  have hvalid : c.toNat < 0xD800 ∨ 0xDFFF < c.toNat ∧ c.toNat < 0x110000 := c.valid
  unfold units
  split
  · rw [List.singleton_append, decode_alone fun hhigh => absurd (.inl hhigh) (not_surrogate c),
      alone_of_not_surrogate (not_surrogate c), Char.ofNat_toNat]
  · -- The two halves hold ten bits each
    have hpair : pair (0xD800 + (c.toNat - 0x10000) / 0x400)
        (0xDC00 + (c.toNat - 0x10000) % 0x400) = c := by
      rw [pair]
      have hcode : 0x10000 + (0xD800 + (c.toNat - 0x10000) / 0x400 - 0xD800) * 0x400 +
          (0xDC00 + (c.toNat - 0x10000) % 0x400 - 0xDC00) = c.toNat := by omega
      rw [hcode, Char.ofNat_toNat]
    have hhigh : IsHigh (0xD800 + (c.toNat - 0x10000) / 0x400) := by
      simp only [IsHigh]
      omega
    have hlow : IsLow (0xDC00 + (c.toNat - 0x10000) % 0x400) := by
      simp only [IsLow]
      omega
    rw [List.cons_append, List.singleton_append, decode_pair hhigh hlow, hpair]

end Utf16

namespace Quoted

open Grammar

/-! ## Spelling -/

section Spelling

/-- The hexadecimal digits of both cases with their values. -/
def hexDigits : List (UInt8 × Nat) :=
  (Bytes.ofString "0123456789abcdef").zipIdx ++ (Bytes.ofString "0123456789ABCDEF").zipIdx

/-- The bytes that make an escape with the backslash in front of them, with the code points that
they stand for. -/
def shortUnits : List (UInt8 × Nat) :=
  [(quote, 0x22), (backslash, 0x5C), (slash, 0x2F), (lowerB, 0x08), (lowerF, 0x0C),
    (lowerN, 0x0A), (lowerR, 0x0D), (lowerT, 0x09)]

/-- The code units that the inside of a string stands for. -/
inductive Spells : Bytes → List Nat → Prop where
  | nil : Spells [] []
  /-- A character without an escape contributes its code units. -/
  | plain {c : Char} {text : Bytes} {units : List Nat} (hquote : c.toNat ≠ 0x22)
      (hslash : c.toNat ≠ 0x5C) (hspace : 0x20 ≤ c.toNat) (h : Spells text units) :
      Spells (Utf8.encode [c] ++ text) (Utf16.units c ++ units)
  /-- A short escape contributes its character. -/
  | short {c : UInt8} {unit : Nat} {text : Bytes} {units : List Nat} (hc : (c, unit) ∈ shortUnits)
      (h : Spells text units) : Spells (backslash :: c :: text) (unit :: units)
  /-- Four hexadecimal digits contribute the code unit that they name. -/
  | unit {c₁ c₂ c₃ c₄ : UInt8} {n₁ n₂ n₃ n₄ : Nat} {text : Bytes} {units : List Nat}
      (h₁ : (c₁, n₁) ∈ hexDigits) (h₂ : (c₂, n₂) ∈ hexDigits) (h₃ : (c₃, n₃) ∈ hexDigits)
      (h₄ : (c₄, n₄) ∈ hexDigits) (h : Spells text units) :
      Spells (backslash :: lowerU :: c₁ :: c₂ :: c₃ :: c₄ :: text)
        ((n₁ * 0x1000 + n₂ * 0x100 + n₃ * 0x10 + n₄) :: units)

end Spelling

/-! ## Bodies -/

section Bodies

variable {c : UInt8} {text : Bytes}

/-- A byte of a character that is written without an escape is neither a backslash nor a control
byte. -/
theorem ne_of_mem_encode {c : Char} (hslash : c.toNat ≠ 0x5C) (hspace : 0x20 ≤ c.toNat) {b : UInt8}
    (hb : b ∈ Utf8.encode [c]) : b ≠ backslash ∧ ¬b < space := by
  rw [Utf8.encode_singleton] at hb
  have hascii : b ≤ 0x7F → c.toNat = b.toNat := fun hle =>
    ((Utf8.sequence_utf8EncodeChar c).eq_of_mem hle hb).2
  constructor
  · rintro rfl
    exact hslash (hascii (by decide))
  · intro hlt
    have hcode := hascii (UInt8.le_trans (UInt8.le_of_lt hlt) (by decide))
    have hbyte : b.toNat < 0x20 := UInt8.lt_iff_toNat_lt.1 hlt
    omega

theorem isBody_of_append {s tail : Bytes} (hs : backslash ∉ s) (h : IsBody (s ++ tail)) :
    IsBody tail := by
  induction s with
  | nil => exact h
  | cons c s ih =>
    rw [List.mem_cons, not_or] at hs
    rw [List.cons_append] at h
    generalize hrest : s ++ tail = rest at h ih
    cases h with
    | plain _ _ _ h => exact ih hs.2 h
    | short => exact absurd rfl hs.1
    | unit => exact absurd rfl hs.1

/-- A plain byte of a UTF-8 body starts a character that is written without an escape. -/
theorem exists_plain {rest : Bytes} (hquote : c ≠ quote) (hslash : c ≠ backslash)
    (hspace : ¬c < space) (hrest : IsBody rest) (hvalid : Utf8.isValid (c :: rest) = true) :
    ∃ (d : Char) (tail : Bytes), c :: rest = Utf8.encode [d] ++ tail ∧ d.toNat ≠ 0x22 ∧
      d.toNat ≠ 0x5C ∧ 0x20 ≤ d.toNat ∧ IsBody tail ∧ Utf8.isValid tail = true ∧
      tail.length < (c :: rest).length := by
  obtain ⟨s, n, tail, hs, htext, htail⟩ := Utf8.exists_sequence hvalid
  have hencode : Utf8.encode [Char.ofNat n] = s := by
    rw [Utf8.encode_singleton, hs.encode]
  -- A character of one byte is the first byte of the text
  have hfirst : ∀ m, (Char.ofNat n).toNat = m → m ≤ 0x7F → c = UInt8.ofNat m := by
    rintro m rfl hle
    rw [← hencode, Utf8.encode_singleton_of_ascii hle] at htext
    exact (List.cons.inj htext).1
  have hpos := hs.length_pos
  refine ⟨Char.ofNat n, tail, by rw [hencode, htext], ?_, ?_, ?_, ?_, htail, ?_⟩
  · exact fun h => hquote (hfirst _ h (by decide))
  · exact fun h => hslash (hfirst _ h (by decide))
  · by_contra hlt
    refine hspace ?_
    obtain ⟨b, hbyte, hb⟩ := Utf8.exists_byte (show (Char.ofNat n).toNat < 256 by omega)
    rw [hfirst _ rfl (by omega), hbyte, UInt8.lt_iff_toNat_lt, hb]
    exact Nat.lt_of_not_le hlt
  · refine isBody_of_append (s := s) (fun hmem => ?_) (htext ▸ .plain hquote hslash hspace hrest)
    obtain ⟨rfl, -⟩ := hs.eq_of_mem (by decide) hmem
    exact hslash (List.cons.inj htext).1
  · rw [htext, List.length_append]
    omega

theorem exists_mem_hexDigits (h : isHexDigit c = true) : ∃ n, (c, n) ∈ hexDigits := by
  have hall : ∀ m : Fin 256, isHexDigit (UInt8.ofNat m) = true →
      UInt8.ofNat m ∈ hexDigits.map Prod.fst := by decide +kernel
  have hmem := hall ⟨c.toNat, c.toNat_lt⟩
  rw [UInt8.ofNat_toNat] at hmem
  obtain ⟨⟨_, n⟩, hn, rfl⟩ := List.mem_map.1 (hmem h)
  exact ⟨n, hn⟩

theorem exists_mem_shortUnits (h : c ∈ shortEscapes) : ∃ unit, (c, unit) ∈ shortUnits := by
  have hall : shortEscapes = shortUnits.map Prod.fst := rfl
  rw [hall] at h
  obtain ⟨⟨_, unit⟩, hunit, rfl⟩ := List.mem_map.1 h
  exact ⟨unit, hunit⟩

/-- The inside of a string stands for code units. -/
theorem exists_spells (text : Bytes) (h : IsBody text) (hvalid : Utf8.isValid text = true) :
    ∃ units, Spells text units := by
  cases h with
  | nil => exact ⟨[], .nil⟩
  | plain hquote hslash hspace hrest =>
    obtain ⟨d, tail, htext, hquote', hslash', hspace', htail, hvalid', hlt⟩ :=
      exists_plain hquote hslash hspace hrest hvalid
    obtain ⟨units, hunits⟩ := exists_spells tail htail hvalid'
    rw [htext]
    exact ⟨_, .plain hquote' hslash' hspace' hunits⟩
  | @short c rest hc hrest =>
    obtain ⟨unit, hunit⟩ := exists_mem_shortUnits hc
    have hascii : ∀ b ∈ [backslash, c], b ≤ 0x7F := by
      have hall : ∀ p ∈ shortUnits, p.1 ≤ 0x7F := by decide
      simpa using And.intro (by decide : backslash ≤ 0x7F) (hall _ hunit)
    have hvalid' := (Utf8.isValid_append_iff (Utf8.isValid_of_ascii hascii)).1 hvalid
    obtain ⟨units, hunits⟩ := exists_spells rest hrest hvalid'
    exact ⟨_, .short hunit hunits⟩
  | @unit c₁ c₂ c₃ c₄ rest h₁ h₂ h₃ h₄ hrest =>
    obtain ⟨n₁, hn₁⟩ := exists_mem_hexDigits h₁
    obtain ⟨n₂, hn₂⟩ := exists_mem_hexDigits h₂
    obtain ⟨n₃, hn₃⟩ := exists_mem_hexDigits h₃
    obtain ⟨n₄, hn₄⟩ := exists_mem_hexDigits h₄
    have hascii : ∀ b ∈ [backslash, lowerU, c₁, c₂, c₃, c₄], b ≤ 0x7F := by
      have hall : ∀ p ∈ hexDigits, p.1 ≤ 0x7F := by decide
      simp only [List.forall_mem_cons]
      exact ⟨by decide, by decide, hall _ hn₁, hall _ hn₂, hall _ hn₃, hall _ hn₄, by simp⟩
    have hvalid' := (Utf8.isValid_append_iff (Utf8.isValid_of_ascii hascii)).1 hvalid
    obtain ⟨units, hunits⟩ := exists_spells rest hrest hvalid'
    exact ⟨_, .unit hn₁ hn₂ hn₃ hn₄ hunits⟩
termination_by text.length
decreasing_by
  all_goals
    subst_vars
    simp only [List.length_cons] at *
    omega

end Bodies

/-! ## Reading -/

section Reading

variable {text : Bytes} {units : List Nat}

theorem decodeFrom_plain {s : Bytes} (hs : ∀ b ∈ s, b ≠ backslash ∧ ¬b < space)
    (out rest : Bytes) : decodeFrom 0 out (s ++ rest) = decodeFrom 0 (s.reverse ++ out) rest := by
  induction s generalizing out with
  | nil => rfl
  | cons c s ih =>
    rw [List.forall_mem_cons] at hs
    rw [List.cons_append, decodeFrom, if_neg hs.1.2, if_neg hs.1.1, ih hs.2]
    simp

theorem decodeFrom_skip (skip : Nat) (out text : Bytes) :
    decodeFrom skip out text = decodeFrom 0 out (text.drop skip) := by
  induction text generalizing skip with
  | nil => cases skip <;> simp [decodeFrom]
  | cons c text ih =>
    cases skip with
    | zero => rfl
    | succ skip => rw [decodeFrom, ih, List.drop_succ_cons]

/-- An escape is read as its text, and what spells it is passed over. -/
theorem decodeFrom_escape {rest : Bytes} {e : Escape} (h : escape? rest = some e) (out : Bytes) :
    decodeFrom 0 out (backslash :: rest) =
      decodeFrom 0 (e.text.reverse ++ out) (rest.drop e.length) := by
  have hspace : ¬backslash < space := by decide
  rw [decodeFrom, if_neg hspace, if_pos rfl, h]
  exact decodeFrom_skip _ _ _

theorem unit?_of_mem {c₁ c₂ c₃ c₄ : UInt8} {n₁ n₂ n₃ n₄ : Nat} (h₁ : (c₁, n₁) ∈ hexDigits)
    (h₂ : (c₂, n₂) ∈ hexDigits) (h₃ : (c₃, n₃) ∈ hexDigits) (h₄ : (c₄, n₄) ∈ hexDigits)
    (rest : Bytes) :
    unit? (c₁ :: c₂ :: c₃ :: c₄ :: rest) = some (n₁ * 0x1000 + n₂ * 0x100 + n₃ * 0x10 + n₄) := by
  have hall : ∀ p ∈ hexDigits, hexValue? p.1 = some p.2 := by decide
  have hvalue : ∀ {c : UInt8} {n : Nat}, (c, n) ∈ hexDigits → hexValue? c = some n :=
    fun h => hall _ h
  rw [unit?, hvalue h₁, hvalue h₂, hvalue h₃, hvalue h₄]
  simp only [Option.bind_eq_bind, Option.bind_some, Option.pure_def, Option.some.injEq]
  omega

theorem isHighSurrogate_iff {unit : Nat} : isHighSurrogate unit = true ↔ Utf16.IsHigh unit := by
  simp [isHighSurrogate, Utf16.IsHigh]

theorem isLowSurrogate_iff {unit : Nat} : isLowSurrogate unit = true ↔ Utf16.IsLow unit := by
  simp [isLowSurrogate, Utf16.IsLow]

theorem unitChar_eq_alone (unit : Nat) : unitChar unit = Utf16.alone unit := by
  simp only [unitChar, Utf16.alone, Bool.or_eq_true, isHighSurrogate_iff, isLowSurrogate_iff]

theorem unitEscape_pair {unit low : Nat} (hunit : unit? text = some unit)
    (hhigh : Utf16.IsHigh unit) (hlow : lowSurrogate? (text.drop 4) = some low) :
    unitEscape text = ⟨Utf8.encode [Utf16.pair unit low], 11⟩ := by
  rw [unitEscape, hunit]
  dsimp only
  rw [if_pos (isHighSurrogate_iff.2 hhigh), hlow]
  rfl

theorem unitEscape_alone {unit : Nat} (hunit : unit? text = some unit)
    (h : Utf16.IsHigh unit → lowSurrogate? (text.drop 4) = none) :
    unitEscape text = ⟨Utf8.encode [Utf16.alone unit], 5⟩ := by
  rw [unitEscape, hunit]
  dsimp only
  by_cases hhigh : Utf16.IsHigh unit
  · rw [if_pos (isHighSurrogate_iff.2 hhigh), h hhigh, Utf16.alone, if_pos (.inl hhigh)]
  · rw [if_neg (mt isHighSurrogate_iff.1 hhigh), unitChar_eq_alone]

/-- The engine looks at the next six bytes for the other half of a pair.  It finds one exactly if
the next code unit is one, and the six bytes spell just that code unit. -/
theorem Spells.lookahead (h : Spells text units) :
    (∃ low rest, units = low :: rest ∧ Utf16.IsLow low ∧ lowSurrogate? text = some low ∧
      Spells (text.drop 6) rest ∧ (text.drop 6).length < text.length) ∨
    (lowSurrogate? text = none ∧ ∀ next ∈ units.head?, ¬Utf16.IsLow next) := by
  cases h with
  | nil => exact .inr ⟨rfl, by simp⟩
  | @plain c text units hquote hslash hspace h =>
    refine .inr ⟨?_, fun next hnext => Utf16.not_isLow_of_head? c hnext⟩
    -- A character does not start with a backslash
    obtain ⟨b, s, hs⟩ := List.exists_cons_of_length_pos (Utf8.sequence_utf8EncodeChar c).length_pos
    rw [← Utf8.encode_singleton] at hs
    have hb : b ≠ backslash := (ne_of_mem_encode hslash hspace (hs ▸ List.mem_cons_self)).1
    rw [hs, List.cons_append]
    cases s ++ text <;> simp [lowSurrogate?, hb]
  | @short c unit text units hc h =>
    have hall : ∀ p ∈ shortUnits, p.1 ≠ lowerU ∧ ¬Utf16.IsLow p.2 := by decide
    obtain ⟨hletter, hlow⟩ := hall _ hc
    refine .inr ⟨?_, fun next hnext => ?_⟩
    · simp [lowSurrogate?, hletter]
    · obtain rfl : unit = next := by simpa using hnext
      exact hlow
  | @unit c₁ c₂ c₃ c₄ n₁ n₂ n₃ n₄ text units h₁ h₂ h₃ h₄ h =>
    have hlook : lowSurrogate? (backslash :: lowerU :: c₁ :: c₂ :: c₃ :: c₄ :: text) =
        (unit? (c₁ :: c₂ :: c₃ :: c₄ :: text)).filter isLowSurrogate := rfl
    rw [hlook, unit?_of_mem h₁ h₂ h₃ h₄, Option.filter_some]
    by_cases hlow : Utf16.IsLow (n₁ * 0x1000 + n₂ * 0x100 + n₃ * 0x10 + n₄)
    · refine .inl ⟨_, units, rfl, hlow, if_pos (isLowSurrogate_iff.2 hlow), h, ?_⟩
      simp only [List.length_cons, List.drop_succ_cons, List.drop_zero]
      omega
    · refine .inr ⟨if_neg (mt isLowSurrogate_iff.1 hlow), fun next hnext => ?_⟩
      rw [← Option.some.inj hnext]
      exact hlow

/-- The inside of a string is read as its code units are. -/
theorem decodeFrom_of_spells (text : Bytes) (units : List Nat) (h : Spells text units)
    (out : Bytes) :
    decodeFrom 0 out text = out.reverse ++ Utf8.encode (Utf16.decode units) := by
  cases h with
  | nil => simp [decodeFrom, Utf16.decode, Utf8.encode]
  | @plain c text units hquote hslash hspace h =>
    have hpos := (Utf8.sequence_utf8EncodeChar c).length_pos
    rw [decodeFrom_plain fun b => ne_of_mem_encode hslash hspace, decodeFrom_of_spells _ _ h,
      Utf16.decode_units]
    simp [Utf8.encode]
  | @short c unit text units hc h =>
    have hall : ∀ p ∈ shortUnits, escape? [p.1] = some ⟨Utf8.encode [Utf16.alone p.2], 1⟩ ∧
        p.1 ≠ lowerU ∧ ¬Utf16.IsHigh p.2 := by decide
    obtain ⟨hescape, hletter, hhigh⟩ := hall _ hc
    have hbehind : escape? (c :: text) = escape? [c] := by
      rw [escape?, escape?, if_neg hletter, if_neg hletter]
    rw [decodeFrom_escape (hbehind.trans hescape), Utf16.decode_alone fun h => absurd h hhigh,
      List.drop_succ_cons, List.drop_zero, decodeFrom_of_spells _ _ h]
    simp [Utf8.encode]
  | @unit c₁ c₂ c₃ c₄ n₁ n₂ n₃ n₄ text units h₁ h₂ h₃ h₄ h =>
    have hunit := unit?_of_mem h₁ h₂ h₃ h₄ text
    generalize n₁ * 0x1000 + n₂ * 0x100 + n₃ * 0x10 + n₄ = unit at hunit ⊢
    have hescape : escape? (lowerU :: c₁ :: c₂ :: c₃ :: c₄ :: text) =
        some (unitEscape (c₁ :: c₂ :: c₃ :: c₄ :: text)) := rfl
    have halone (hnone : Utf16.IsHigh unit → lowSurrogate? text = none)
        (hnext : Utf16.IsHigh unit → ∀ next ∈ units.head?, ¬Utf16.IsLow next) :
        decodeFrom 0 out (backslash :: lowerU :: c₁ :: c₂ :: c₃ :: c₄ :: text) =
          out.reverse ++ Utf8.encode (Utf16.decode (unit :: units)) := by
      rw [decodeFrom_escape hescape, unitEscape_alone hunit hnone, Utf16.decode_alone hnext]
      show decodeFrom 0 _ text = _
      rw [decodeFrom_of_spells _ _ h]
      simp [Utf8.encode]
    -- A pair takes the next code unit along, everything else stands for itself
    rcases h.lookahead with ⟨low, rest, rfl, hlow, hlook, hrest, hlt⟩ | ⟨hlook, hnext⟩
    · by_cases hhigh : Utf16.IsHigh unit
      · rw [decodeFrom_escape hescape, unitEscape_pair hunit hhigh hlook,
          Utf16.decode_pair hhigh hlow]
        show decodeFrom 0 _ (text.drop 6) = _
        rw [decodeFrom_of_spells _ _ hrest]
        simp [Utf8.encode]
      · exact halone (absurd · hhigh) (absurd · hhigh)
    · exact halone (fun _ => hlook) (fun _ => hnext)
termination_by text.length
decreasing_by
  all_goals
    subst_vars
    simp only [List.length_cons, List.length_append, Utf8.encode_singleton] at *
    omega

end Reading

/-! ## Literals -/

section Literals

variable {text : Bytes} {units : List Nat}

/-- Without a backslash there is nothing to read but the characters themselves. -/
theorem decodeFrom_of_backslash_notMem (h : IsBody text) (hslash : backslash ∉ text) :
    decodeFrom 0 [] text = text := by
  have hbytes : ∀ b ∈ text, b ≠ backslash ∧ ¬b < space := by
    induction h with
    | nil => simp
    | plain _ hne hspace _ ih =>
      rw [List.mem_cons, not_or] at hslash
      exact List.forall_mem_cons.2 ⟨⟨hne, hspace⟩, ih hslash.2⟩
    | short => exact absurd List.mem_cons_self hslash
    | unit => exact absurd List.mem_cons_self hslash
  have hread := decodeFrom_plain hbytes [] []
  rwa [List.append_nil, List.append_nil, decodeFrom, List.reverse_reverse] at hread

theorem stringText_of_spells (hbody : IsBody text) (h : Spells text units) :
    Value.stringText (Bytes.quoted text) = Utf8.encode (Utf16.decode units) := by
  have hread := decodeFrom_of_spells text units h []
  rw [List.reverse_nil, List.nil_append] at hread
  rw [Value.stringText_quoted]
  split
  · rw [decode, hread, Utf8.lossy, if_pos (Utf8.isValid_encode _)]
  · rename_i hslash
    rw [← hread, decodeFrom_of_backslash_notMem hbody (by simpa using hslash)]

/-- A quoted text is well-formed only if a body stands between the quotes. -/
theorem isBody_of_isWellFormed (h : isWellFormed (Bytes.quoted text) = true) : IsBody text := by
  have htrimmed : IsTrimmed (Bytes.quoted text) := by
    have hquote : quote ∉ gapBytes := by decide
    have hlast : (Bytes.quoted text).getLast? = some quote := List.getLast?_concat
    exact ⟨fun c hc => Option.some.inj hc ▸ hquote,
      fun c hc => Option.some.inj (hlast.symm.trans hc) ▸ hquote⟩
  obtain ⟨n, hn⟩ := exists_node h htrimmed
  -- Only strings start with a quote
  have hlead : Lead.of? (Bytes.quoted text) = some n.lead := by
    rw [← hn, ← of?_node n [], List.append_nil]
  cases n with
  | string body =>
    rw [Node.text, Bytes.quoted, Bytes.quoted, List.cons_append, List.cons_append,
      List.cons_inj_right, List.append_left_inj] at hn
    exact hn ▸ body.isBody
  | word | number | array | object => cases hlead

/-- Every well-formed string in UTF-8 stands for code units, and it is read as these code units are:
a surrogate pair is one character, and each half without the other one is U+FFFD. -/
theorem text_of_spells (hwell : isWellFormedUtf8 (Bytes.quoted text) = true) :
    (∃ units, Spells text units) ∧ ∀ units, Spells text units →
      parse (Bytes.quoted text) = .located (.string (Bytes.quoted text)) 0 ∧
        (parse (Bytes.quoted text)).text = Utf8.encode (Utf16.decode units) := by
  rw [isWellFormedUtf8, Bool.and_eq_true] at hwell
  obtain ⟨hvalid, hwell⟩ := hwell
  have hbody := isBody_of_isWellFormed hwell
  have hparse := parse_quoted_append ⟨text, hbody⟩ hvalid []
  rw [List.append_nil] at hparse
  refine ⟨exists_spells text hbody (Utf8.isValid_quoted_iff.1 hvalid), fun units h => ⟨hparse, ?_⟩⟩
  rw [hparse]
  exact stringText_of_spells hbody h

/-- The first half of a pair in front of a whole pair, the second half of one by itself, a short
escape, and a character of four bytes. -/
theorem text_of_spells_sample :
    let text := Bytes.ofString "\\ud83d\\uD83D\\uDE00\\udc00\\n😀"
    isWellFormedUtf8 (Bytes.quoted text) = true ∧
      Spells text [0xD83D, 0xD83D, 0xDE00, 0xDC00, 0x0A, 0xD83D, 0xDE00] ∧
      (parse (Bytes.quoted text)).text = Utf8.encode [Utf8.replacement, Char.ofNat 0x1F600,
        Utf8.replacement, Char.ofNat 0x0A, Char.ofNat 0x1F600] := by
  intro text
  have hwell : isWellFormedUtf8 (Bytes.quoted text) = true := by decide
  -- From the last character to the first one
  have hface : Spells (Bytes.ofString "😀") [0xD83D, 0xDE00] :=
    .plain (c := Char.ofNat 0x1F600) (by decide) (by decide) (by decide) .nil
  have hfeed : Spells (Bytes.ofString "\\n😀") [0x0A, 0xD83D, 0xDE00] :=
    .short (by decide) hface
  have hlow : Spells (Bytes.ofString "\\udc00\\n😀") [0xDC00, 0x0A, 0xD83D, 0xDE00] :=
    @Spells.unit _ _ _ _ 13 12 0 0 _ _ (by decide) (by decide) (by decide) (by decide) hfeed
  have hpair : Spells (Bytes.ofString "\\uD83D\\uDE00\\udc00\\n😀")
      [0xD83D, 0xDE00, 0xDC00, 0x0A, 0xD83D, 0xDE00] :=
    @Spells.unit _ _ _ _ 13 8 3 13 _ _ (by decide) (by decide) (by decide) (by decide)
      (@Spells.unit _ _ _ _ 13 14 0 0 _ _ (by decide) (by decide) (by decide) (by decide) hlow)
  have hspells : Spells text [0xD83D, 0xD83D, 0xDE00, 0xDC00, 0x0A, 0xD83D, 0xDE00] :=
    @Spells.unit _ _ _ _ 13 8 3 13 _ _ (by decide) (by decide) (by decide) (by decide) hpair
  exact ⟨hwell, hspells, ((text_of_spells hwell).2 _ hspells).2⟩

end Literals

end Quoted

end JsonQuery
