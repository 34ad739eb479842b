import JsonQuery.Proofs.Encoding
import JsonQuery.Proofs.Numerals
import JsonQuery.Result.Conversion

/-!
# Integers wrap at 64 bits

There are two ways to read an integer.  As long as doubles hold all whole numbers of its size it is
read from its double, and from there on from its digits, in words that lose what 64 bits do not
hold.  The double of a run of digits is the whole number itself up to `maxSafe`, and past `maxSafe`
for any number past it, so each number is read in a way that is exact modulo `2 ^ 64`.

## Layers

- **Words**: what the digits of a number add up to in a word.
- **Doubles**: the doubles of whole numbers.
- **Integers**: a run of digits, with or without a minus, as a document and in a string.
-/

namespace JsonQuery

open Ascii

/-! ## Words -/

namespace Number

section Words

variable {digits : Bytes}

/-- Words of digits lose whole multiples of the size of a word, and nothing else. -/
theorem word_eq (digits : Bytes) : word digits = UInt64.ofNat (Bytes.toNat digits) := by
  have hfold : ∀ n : Nat, digits.foldl (fun n c => n * 10 + UInt64.ofNat (digitValue c))
      (UInt64.ofNat n) = UInt64.ofNat (digits.foldl (fun n c => n * 10 + digitValue c) n) := by
    induction digits with
    | nil => exact fun _ => rfl
    | cons c digits ih =>
      intro n
      -- One digit in the word is one digit in the number
      have hdigit : UInt64.ofNat n * 10 + UInt64.ofNat (digitValue c) =
          UInt64.ofNat (n * 10 + digitValue c) := by
        rw [UInt64.ofNat_add, UInt64.ofNat_mul]
        rfl
      rw [List.foldl_cons, List.foldl_cons, hdigit, ih]
  exact hfold 0

/-- An integer as it is written: digits, behind a minus if it is negative. -/
def integerText (negative : Bool) (digits : Bytes) : Bytes :=
  (if negative then [minus] else []) ++ digits

/-- The integer that is written with digits and an optional minus. -/
def integerOf (negative : Bool) (digits : Bytes) : Int :=
  if negative then -Bytes.toNat digits else Bytes.toNat digits

theorem isSign_minus (negative : Bool) : Grammar.IsSign (if negative then [minus] else []) := by
  cases negative with
  | false => exact .inl rfl
  | true => exact .inr (.inr rfl)

variable (hdigits : isDigits digits = true)

include hdigits

theorem exists_digit_cons : ∃ c rest, digits = c :: rest ∧ isDigit c = true := by
  cases digits with
  | nil => cases hdigits
  | cons c rest => exact ⟨c, rest, rfl, Grammar.all_isDigit hdigits c List.mem_cons_self⟩

theorem unsigned?_digits : unsigned? digits = some (UInt64.ofNat (Bytes.toNat digits)) := by
  rw [unsigned?, if_pos hdigits, word_eq]

/-- The digits behind the sign are read as a word, and the sign is taken in two's complement. -/
theorem signed?_integerText (negative : Bool) :
    signed? (integerText negative digits) = some (Int64.ofInt (integerOf negative digits)) := by
  have hunsigned : Grammar.Unsigned digits := by
    simpa using Grammar.unsigned_of_isDigits hdigits []
  have hstarts := Grammar.startsWith_append (isSign_minus negative) hunsigned
  have hdrop : dropSign (· == minus) (integerText negative digits) = digits := by
    obtain ⟨c, rest, rfl, hc⟩ := exists_digit_cons hdigits
    have hminus : c ≠ minus := by
      rintro rfl
      exact absurd hc (by decide)
    cases negative with
    | false => simp [integerText, dropSign, hminus]
    | true => rfl
  rw [signed?, hdrop, unsigned?_digits hdigits, integerText, hstarts, Option.map_some]
  cases negative with
  | false => simp [integerOf, Int64.ofInt_eq_ofNat]
  | true => simp [integerOf, Int64.ofInt_eq_ofNat]

end Words

end Number

/-! ## Doubles -/

namespace Double

section Whole

variable {m : Nat} {negative : Bool} {d : Double}

theorem unitsPerOne_eq : unitsPerOne = 2 ^ 1074 := by
  delta unitsPerOne
  generalize 1074 = bits
  exact Nat.pow_eq

/-- A whole number up to the first one that takes more than 53 bits is a magnitude. -/
theorem isMagnitude_whole (h : m ≤ 2 ^ precision) : IsMagnitude (m * unitsPerOne) :=
  unitsPerOne_eq ▸ isMagnitude_of_le h

/-- A magnitude is the nearest one to itself. -/
theorem IsMagnitude.isNearest {units : Nat} (h : IsMagnitude units) : IsNearest units units := by
  refine ⟨h, fun other _ => ?_, fun other _ hne hsame => absurd ?_ hne⟩
  · rw [sub_self, abs_zero]
    exact abs_nonneg _
  · rw [sub_self, abs_zero, abs_eq_zero, sub_eq_zero] at hsame
    exact_mod_cast hsame.symm

theorem maxSafe_add_one : maxSafe + 1 = 2 ^ precision := by
  decide

theorem unitsPerOne_pos : 0 < unitsPerOne := by
  rw [unitsPerOne_eq]
  positivity

/-- The range in which doubles hold all whole numbers is far below the limit. -/
theorem maxSafe_mul_lt_limit : maxSafe * unitsPerOne < limit := by
  rw [limit_eq]
  refine Nat.mul_lt_mul_of_pos_right (lt_of_lt_of_le (Nat.lt_succ_self _) ?_) unitsPerOne_pos
  rw [Nat.succ_eq_add_one, maxSafe_add_one]
  generalize hbits : 1024 = bits
  exact Nat.pow_le_pow_right (by decide) (hbits ▸ by decide)

/-- In that range the double of a whole number is the number itself. -/
theorem RoundsTo.eq_of_le (h : RoundsTo negative m d) (hsafe : m ≤ maxSafe) :
    d = finite negative (m * unitsPerOne) := by
  obtain ⟨units, hunits, hd⟩ := h
  rw [← Nat.cast_mul] at hunits
  have hbound := maxSafe_add_one
  have hexact : units = m * unitsPerOne :=
    hunits.unique (isMagnitude_whole (by omega)).isNearest
  have hlimit : m * unitsPerOne < limit :=
    lt_of_le_of_lt (Nat.mul_le_mul_right unitsPerOne hsafe) maxSafe_mul_lt_limit
  rw [hd, hexact, ofUnits, if_pos hlimit]

/-- The double of a whole number out of that range is out of it, too. -/
theorem RoundsTo.exists_of_lt (h : RoundsTo negative m d) (hbeyond : maxSafe < m) :
    ∃ units, maxSafe * unitsPerOne < units ∧ d = ofUnits negative units := by
  obtain ⟨units, hunits, hd⟩ := h
  refine ⟨units, ?_, hd⟩
  clear hd
  rw [← Nat.cast_mul] at hunits
  have hbound := maxSafe_add_one
  by_contra hle
  -- The first number out of the range is a magnitude, so none in the range is nearer
  have hfirst : IsMagnitude (2 ^ precision * unitsPerOne) := isMagnitude_whole le_rfl
  have hnear := hunits.nearest _ hfirst
  have hbelow : units < 2 ^ precision * unitsPerOne :=
    lt_of_le_of_lt (not_lt.1 hle) (Nat.mul_lt_mul_of_pos_right (by omega) unitsPerOne_pos)
  have habove : 2 ^ precision * unitsPerOne ≤ m * unitsPerOne :=
    Nat.mul_le_mul_right _ (by omega)
  have hbelow : (units : ℚ) < (2 ^ precision * unitsPerOne : Nat) := Nat.cast_lt.2 hbelow
  have habove : ((2 ^ precision * unitsPerOne : Nat) : ℚ) ≤ (m * unitsPerOne : Nat) :=
    Nat.cast_le.2 habove
  rw [abs_of_nonneg (by linarith), abs_of_nonneg (by linarith)] at hnear
  linarith

/-- A whole number is read from its double exactly if doubles hold all whole numbers up to it; the
double of any other one is out of that range, too. -/
theorem RoundsTo.safeInt?_eq (h : RoundsTo negative m d) :
    d.safeInt? = if m ≤ maxSafe then some (if negative then -(m : Int) else m) else none := by
  split
  · rename_i hsafe
    rw [h.eq_of_le hsafe]
    simp only [safeInt?, if_pos (Nat.mul_le_mul_right unitsPerOne hsafe), truncate,
      Nat.mul_div_cancel m unitsPerOne_pos]
  · rename_i hbeyond
    obtain ⟨units, hpast, hd⟩ := h.exists_of_lt (not_le.1 hbeyond)
    rw [hd, ofUnits]
    split
    · simp only [safeInt?, if_neg (not_le.2 hpast)]
    · rfl

end Whole

end Double

/-! ## Integers -/

/-- The documents that hold a text: the text itself, and the strings that stand for it. -/
inductive Holds (text : Bytes) : Bytes → Prop
  | itself : Holds text text
  | string {json raw : Bytes} (hvalue : (parse json).value = .string raw)
      (htext : Value.stringText raw = text) : Holds text json

section Integers

open Number

theorem spell_of_isNumberByte {c : UInt8} (hc : Grammar.isNumberByte c = true) :
    Quoted.spell c = [c] := by
  have hspelling := Quoted.spelling_spell c
  generalize Quoted.spell c = spelled at hspelling ⊢
  cases hspelling with
  | plain => rfl
  | short _ hshort =>
    have hescape : c = quote ∨ c = backslash ∨ c = slash ∨ c < space := by grind [Quoted.short?]
    grind [Grammar.isNumberByte, isDigit]
  | unit hspace => grind [Grammar.isNumberByte, isDigit]

variable {digits : Bytes} (hdigits : isDigits digits = true)

include hdigits

/-- The double of an integer is the one nearest to it. -/
theorem roundsTo_integerText (negative : Bool) :
    Double.RoundsTo negative (Bytes.toNat digits)
      (Number.double (integerText negative digits)) := by
  obtain ⟨c, rest, hcons, hc⟩ := exists_digit_cons hdigits
  have hparts : parts? digits = some ⟨digits, [], 0⟩ := by
    have hspan := @Grammar.span_isDigit digits [] (Grammar.all_isDigit hdigits) nofun
    rw [List.append_nil] at hspan
    have hne : digits.isEmpty = false := by
      rw [hcons]
      rfl
    rw [parts?, hspan]
    dsimp only [fraction, exponent?]
    rw [hne, Bool.false_and, if_neg Bool.false_ne_true, Option.map_some]
  have hsign : decide ((if negative then [minus] else []) = [minus]) = negative := by
    cases negative <;> rfl
  have hvalue := Double.roundsTo_ofDecimal negative (Bytes.toNat digits) 0
  rw [zpow_zero, mul_one] at hvalue
  rw [Number.double, integerText,
    Grammar.double?_of_digit (isSign_minus negative) (by rw [hcons]; rfl) hc, hsign, hparts]
  simpa [Parts.nearest] using hvalue

theorem isNumberByte_integerText (negative : Bool) :
    (integerText negative digits).all Grammar.isNumberByte = true := by
  rw [integerText, List.all_append, Grammar.all_isNumberByte_of_isDigits hdigits, Bool.and_true]
  cases negative <;> rfl

theorem isValid_integerText (negative : Bool) :
    Utf8.isValid (integerText negative digits) = true := by
  refine Utf8.isValid_of_ascii fun c hc => ?_
  have hc := List.all_eq_true.1 (isNumberByte_integerText hdigits negative) c hc
  grind [Grammar.isNumberByte, isDigit]

/-- An integer is a number of its own, with any number of zeros in front. -/
theorem parse_integerText (negative : Bool) :
    parse (integerText negative digits) = .located (.number (integerText negative digits)) 0 := by
  obtain ⟨c, rest, hcons, hc⟩ : ∃ c rest, integerText negative digits = c :: rest ∧
      (c = minus ∨ isDigit c = true) := by
    obtain ⟨c, rest, rfl, hc⟩ := exists_digit_cons hdigits
    cases negative with
    | false => exact ⟨c, rest, rfl, .inr hc⟩
    | true => exact ⟨minus, c :: rest, rfl, .inl rfl⟩
  have hbytes := isNumberByte_integerText hdigits negative
  have hlossy : Utf8.lossy (integerText negative digits) = integerText negative digits :=
    if_pos (isValid_integerText hdigits negative)
  generalize integerText negative digits = text at hcons hbytes hlossy ⊢
  have hlength : Extent.ofNumber text = text.length := by
    have hlength := Grammar.ofNumber_append (hcons ▸ List.cons_ne_nil c rest) hbytes
      Grammar.Follows.nil
    rwa [List.append_nil] at hlength
  have hspace : Extent.ofSpace text = 0 := by
    have hsolid : isSpace c = false := by grind [isSpace, isDigit]
    rw [hcons, Extent.ofSpace, List.takeWhile_cons, hsolid]
    rfl
  have hlead : Lead.of? text = some .number := hcons ▸ Grammar.of?_digit hc rest
  rw [parse, hspace, List.drop_zero, hlead]
  simp [Lead.isContainer, Extent.ofLead?, hlength, Value.ofSpan, hlossy]

/-- A string that holds an integer needs no escapes. -/
theorem encode_integerText (negative : Bool) :
    Quoted.encode (integerText negative digits) = Bytes.quoted (integerText negative digits) := by
  have hbytes := List.all_eq_true.1 (isNumberByte_integerText hdigits negative)
  have hspell : ∀ text : Bytes, (∀ c ∈ text, Grammar.isNumberByte c = true) →
      text.flatMap Quoted.spell = text := by
    intro text htext
    induction text with
    | nil => rfl
    | cons c text ih =>
      obtain ⟨hc, htext⟩ := List.forall_mem_cons.1 htext
      rw [List.flatMap_cons, spell_of_isNumberByte hc, ih htext]
      rfl
  rw [Quoted.encode, hspell _ hbytes]

theorem parse_quoted_integerText (negative : Bool) :
    (parse (Bytes.quoted (integerText negative digits))).value =
        .string (Bytes.quoted (integerText negative digits)) ∧
      Value.stringText (Bytes.quoted (integerText negative digits)) =
        integerText negative digits := by
  have hvalid := isValid_integerText hdigits negative
  rw [← encode_integerText hdigits negative]
  have hparse := Quoted.parse_encode_append hvalid []
  rw [List.append_nil] at hparse
  exact ⟨congrArg Result.value hparse, Quoted.stringText_encode hvalid⟩

/-- Both ways to read a signed word from a number agree on integers. -/
theorem signedOfNumber_integerText (negative : Bool) :
    Result.signedOfNumber (integerText negative digits) =
      Int64.ofInt (integerOf negative digits) := by
  rw [Result.signedOfNumber, (roundsTo_integerText hdigits negative).safeInt?_eq]
  split
  · rename_i n hsome
    split at hsome
    · rw [← Option.some.inj hsome, integerOf]
    · cases hsome
  · rw [signed?_integerText hdigits, Option.getD_some]

/-- Both ways to read an unsigned word from a number agree on integers without a sign. -/
theorem unsignedOfNumber_digits :
    Result.unsignedOfNumber digits = UInt64.ofNat (Bytes.toNat digits) := by
  have hvalue := (roundsTo_integerText hdigits false).safeInt?_eq
  rw [Result.unsignedOfNumber]
  change (Number.double digits).safeInt? = _ at hvalue
  rw [hvalue]
  split
  · rename_i n hsome
    split at hsome
    · obtain ⟨rfl, -⟩ : (Bytes.toNat digits : Int) = n ∧ 0 ≤ n := by simpa using hsome
      rw [Int.toNat_natCast]
    · cases hsome
  · rw [unsigned?_digits hdigits, Option.getD_some]

/-- A signed word is read from what holds an integer without loss, except for multiples of the size
of a word. -/
theorem Holds.signed {negative : Bool} {json : Bytes}
    (h : Holds (integerText negative digits) json) :
    (parse json).signed = Int64.ofInt (integerOf negative digits) := by
  cases h with
  | itself =>
    rw [parse_integerText hdigits]
    exact signedOfNumber_integerText hdigits negative
  | string hvalue htext =>
    simp only [Result.signed, hvalue, htext, signed?_integerText hdigits, Option.getD_some]

theorem Holds.unsigned {json : Bytes} (h : Holds (integerText false digits) json) :
    (parse json).unsigned = UInt64.ofNat (Bytes.toNat digits) := by
  cases h with
  | itself =>
    rw [parse_integerText hdigits]
    exact unsignedOfNumber_digits hdigits
  | string hvalue htext =>
    have htext : _ = digits := htext
    simp only [Result.unsigned, hvalue, htext, unsigned?_digits hdigits, Option.getD_some]

/-- An integer of any length is read as a signed word with the residue of the integer in two's
complement, and one without a sign as an unsigned word with its residue.  It does not matter whether
it is a number or stands in a string. -/
theorem integers_wrap (negative : Bool) :
    Holds (integerText negative digits) (Bytes.quoted (integerText negative digits)) ∧
      ∀ json, Holds (integerText negative digits) json →
        (parse json).signed.toInt = (integerOf negative digits).bmod (2 ^ 64) ∧
          (negative = false → (parse json).unsigned.toNat = Bytes.toNat digits % 2 ^ 64) := by
  obtain ⟨hvalue, htext⟩ := parse_quoted_integerText hdigits negative
  refine ⟨.string hvalue htext, fun json hjson => ⟨?_, ?_⟩⟩
  · rw [hjson.signed hdigits, Int64.toInt_ofInt]
    rfl
  · rintro rfl
    rw [hjson.unsigned hdigits, UInt64.toNat_ofNat']

end Integers

/-- One more than the number of words, with zeros in front. -/
theorem integers_wrap_pastWords :
    Number.isDigits (Bytes.ofString "00018446744073709551617") = true ∧
      (parse (Bytes.ofString "-00018446744073709551617")).signed.toInt = -1 ∧
      (parse (Bytes.ofString "\"00018446744073709551617\"")).unsigned.toNat = 1 := by
  have hdigits : Number.isDigits (Bytes.ofString "00018446744073709551617") = true := by decide
  obtain ⟨-, hnegative⟩ := integers_wrap hdigits true
  obtain ⟨hquoted, hpositive⟩ := integers_wrap hdigits false
  exact ⟨hdigits, (hnegative _ .itself).1, (hpositive _ hquoted).2 rfl⟩

end JsonQuery
