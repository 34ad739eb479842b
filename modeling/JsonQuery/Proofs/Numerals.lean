import JsonQuery.Document.Tree
import JsonQuery.Proofs.Grammar
import JsonQuery.Proofs.Rounding

/-!
# What numbers stand for

A number of the grammar stands for a rational: its digits with the point where it is written, times
the power of ten of its exponent.  Reading its text gives the double nearest to that rational.  One
that is written without a point and without an exponent is also read as an integer, as long as a
word of 64 bits holds it, signed or not.

## Layers

- **Values**: the rational of a number, and the integer of one that is written with digits alone.
- **Readings**: the readers of texts on the text of a number, part by part.
-/

namespace JsonQuery.Grammar

open Ascii

/-! ## Values -/

/-- Digits in front of others count that many powers of ten more. -/
theorem toNat_append (a b : Bytes) :
    Bytes.toNat (a ++ b) = Bytes.toNat a * 10 ^ b.length + Bytes.toNat b := by
  have hfold : ∀ (b : Bytes) (n : Nat), b.foldl (fun n c => n * 10 + digitValue c) n =
      n * 10 ^ b.length + Bytes.toNat b := by
    intro b
    induction b with
    | nil => intro n; simp [Bytes.toNat]
    | cons c b ih =>
      intro n
      rw [Bytes.toNat, List.foldl_cons, List.foldl_cons, ih, ih, List.length_cons]
      ring
  rw [Bytes.toNat, List.foldl_append, hfold]
  rfl

namespace Numeral

/-- The digits behind the point of a number. -/
def part (n : Numeral) : Bytes :=
  n.fraction.drop 1

/-- The power of ten of a number with the given digits and sign behind its letter. -/
def powerOf : Bytes → Int
  | [] => 0
  | c :: digits =>
    if c = minus then -Bytes.toNat digits
    else if c = plus then Bytes.toNat digits
    else Bytes.toNat (c :: digits)

/-- The power of ten that the exponent of a number stands for. -/
def power (n : Numeral) : Int :=
  powerOf (n.exponent.drop 1)

/-- The rational that a number stands for, without its sign. -/
def magnitude (n : Numeral) : ℚ :=
  (Bytes.toNat n.whole + Bytes.toNat n.part / 10 ^ n.part.length) * 10 ^ n.power

/-- The integer that the digits in front of the point stand for, with the sign. -/
def integer (n : Numeral) : Int :=
  if n.negative then -Bytes.toNat n.whole else Bytes.toNat n.whole

/-- A number without a point and without an exponent that 64 bits hold, signed or not. -/
def IsWord (n : Numeral) : Prop :=
  n.fraction = [] ∧ n.exponent = [] ∧ -2 ^ 63 ≤ n.integer ∧ n.integer < 2 ^ 64

instance (n : Numeral) : Decidable n.IsWord :=
  inferInstanceAs (Decidable (_ ∧ _ ∧ _ ∧ _))

/-- The digits on both sides of the point as one whole number, scaled by a power of ten. -/
theorem magnitude_eq (n : Numeral) :
    n.magnitude = Bytes.toNat (n.whole ++ n.part) * 10 ^ (n.power - n.part.length) := by
  have hten : (10 : ℚ) ^ n.part.length ≠ 0 := pow_ne_zero _ (by norm_num)
  rw [magnitude, toNat_append, Nat.cast_add, Nat.cast_mul, Nat.cast_pow, Nat.cast_ofNat,
    zpow_sub₀ (by norm_num), zpow_natCast, ← mul_div_assoc, mul_div_right_comm, add_div,
    mul_div_cancel_right₀ _ hten]

end Numeral

/-! ## Readings -/

section Readings

theorem IsWhole.isDigits {text : Bytes} (h : IsWhole text) : Number.isDigits text = true := by
  rcases h with rfl | ⟨hdigits, -⟩
  · rfl
  · exact hdigits

theorem all_isDigit {digits : Bytes} (h : Number.isDigits digits = true) :
    ∀ c ∈ digits, isDigit c = true := by
  rw [Number.isDigits, Bool.and_eq_true] at h
  exact List.all_eq_true.1 h.2

/-- A text does not start with a sign. -/
def Unsigned (text : Bytes) : Prop :=
  ∀ c ∈ text.head?, c ≠ minus ∧ c ≠ plus

theorem unsigned_of_isDigits {digits : Bytes} (h : Number.isDigits digits = true) (behind : Bytes) :
    Unsigned (digits ++ behind) := by
  cases digits with
  | nil => cases h
  | cons c digits =>
    intro d hd
    obtain rfl : c = d := Option.some.inj hd
    have hc := all_isDigit h c List.mem_cons_self
    refine ⟨?_, ?_⟩ <;> rintro rfl <;> exact absurd hc (by decide)

/-- A sign that is left out, a plus or a minus. -/
def IsSign (sign : Bytes) : Prop :=
  sign = [] ∨ sign = [plus] ∨ sign = [minus]

section Signs

variable {sign text : Bytes} (hsign : IsSign sign) (htext : Unsigned text)

include hsign htext

theorem dropSign_append :
    Number.dropSign (fun c => c == minus || c == plus) (sign ++ text) = text := by
  rcases hsign with rfl | rfl | rfl
  · cases text with
    | nil => rfl
    | cons c text =>
      obtain ⟨hminus, hplus⟩ := htext c rfl
      simp [Number.dropSign, hminus, hplus]
  · rfl
  · rfl

theorem startsWith_append :
    Number.startsWith minus (sign ++ text) = decide (sign = [minus]) := by
  rcases hsign with rfl | rfl | rfl
  · cases text with
    | nil => rfl
    | cons c text =>
      obtain ⟨hminus, -⟩ := htext c rfl
      simp [Number.startsWith, hminus]
  · rfl
  · rfl

theorem powerOf_append :
    Numeral.powerOf (sign ++ text) =
      if sign = [minus] then -(Bytes.toNat text : Int) else Bytes.toNat text := by
  rcases hsign with rfl | rfl | rfl
  · cases text with
    | nil => rfl
    | cons c text =>
      obtain ⟨hminus, hplus⟩ := htext c rfl
      simp [Numeral.powerOf, hminus, hplus]
  · rfl
  · rfl

end Signs

/-- Digits end in front of the first byte that is none. -/
theorem span_isDigit {digits behind : Bytes} (h : ∀ c ∈ digits, isDigit c = true)
    (hbehind : ∀ c ∈ behind.head?, isDigit c = false) :
    (digits ++ behind).span isDigit = (digits, behind) := by
  rw [List.span_eq_takeWhile_dropWhile, List.takeWhile_append_of_pos h,
    List.dropWhile_append_of_pos h]
  cases behind with
  | nil => simp
  | cons c behind => simp [hbehind c rfl]

variable (n : Numeral)

theorem head?_exponent : ∀ c ∈ n.exponent.head?, isDigit c = false ∧ c ≠ dot := by
  intro c hc
  rcases n.isExponent with hnil | ⟨mark, sign, digits, hmark, -, -, htext⟩
  · rw [hnil] at hc
    cases hc
  · rw [htext] at hc
    obtain rfl : mark = c := Option.some.inj hc
    rcases hmark with rfl | rfl <;> exact ⟨by decide, by decide⟩

/-- The digits behind the point are read up to the exponent. -/
theorem fraction_text : Number.fraction (n.fraction ++ n.exponent) = (n.part, n.exponent) := by
  have hhead := head?_exponent n
  rcases n.isFraction with hnil | ⟨digits, hdigits, htext⟩
  · rw [Numeral.part, hnil]
    cases hexponent : n.exponent with
    | nil => rfl
    | cons c rest =>
      rw [hexponent] at hhead
      rw [List.nil_append, Number.fraction, if_neg (hhead c rfl).2]
      rfl
  · rw [Numeral.part, htext, List.cons_append, Number.fraction, if_pos rfl,
      span_isDigit (all_isDigit hdigits) fun c hc => (hhead c hc).1]
    rfl

/-- The exponent is read with its sign. -/
theorem exponent?_text : Number.exponent? n.exponent = some n.power := by
  rw [Numeral.power]
  rcases n.isExponent with hnil | ⟨mark, sign, digits, hmark, hsign, hdigits, htext⟩
  · rw [hnil]
    rfl
  · have hunsigned : Unsigned digits := by simpa using unsigned_of_isDigits hdigits []
    have hletter : (decide (mark = lowerE) || decide (mark = upperE)) = true := by simpa using hmark
    rw [htext, Number.exponent?, if_pos hletter, dropSign_append hsign hunsigned,
      startsWith_append hsign hunsigned]
    dsimp only
    rw [if_pos hdigits, List.drop_one, List.tail_cons, powerOf_append hsign hunsigned]
    simp only [decide_eq_true_eq]

/-- The digits in front of the point end where the fraction or the exponent starts. -/
theorem head?_behind : ∀ c ∈ (n.fraction ++ n.exponent).head?, isDigit c = false := by
  intro c hc
  rcases n.isFraction with hnil | ⟨digits, -, htext⟩
  · rw [hnil, List.nil_append] at hc
    exact (head?_exponent n c hc).1
  · rw [htext] at hc
    obtain rfl : dot = c := Option.some.inj hc
    decide

/-- The parts of a number are read as they are written. -/
theorem parts?_text : Number.parts? (n.whole ++ (n.fraction ++ n.exponent)) =
    some ⟨n.whole, n.part, n.power⟩ := by
  have hdigits := n.isWhole.isDigits
  have hwhole : n.whole.isEmpty = false := by
    rw [Number.isDigits, Bool.and_eq_true] at hdigits
    simpa using hdigits.1
  rw [Number.parts?, span_isDigit (all_isDigit hdigits) (head?_behind n)]
  dsimp only
  rw [fraction_text, hwhole, exponent?_text]
  rfl

/-- The sign of a number as it is written. -/
def Numeral.sign (n : Numeral) : Bytes :=
  if n.negative then [minus] else []

theorem isSign_sign : IsSign n.sign := by
  rw [Numeral.sign]
  split
  · exact .inr (.inr rfl)
  · exact .inl rfl

theorem unsigned_body : Unsigned (n.whole ++ (n.fraction ++ n.exponent)) :=
  unsigned_of_isDigits n.isWhole.isDigits _

theorem startsWith_text : Number.startsWith minus n.text = n.negative := by
  have hstarts := startsWith_append (isSign_sign n) (unsigned_body n)
  rw [Numeral.text, ← Numeral.sign, hstarts, Numeral.sign]
  cases n.negative <;> rfl

theorem dropSign_text :
    Number.dropSign (fun c => c == minus || c == plus) n.text =
      n.whole ++ (n.fraction ++ n.exponent) := by
  rw [Numeral.text, ← Numeral.sign]
  exact dropSign_append (isSign_sign n) (unsigned_body n)

omit n in
/-- What starts with a digit behind its sign is none of the words that are numbers, so it is read as
a decimal. -/
theorem double?_of_digit {sign text : Bytes} (hsign : IsSign sign) {c : UInt8}
    (hhead : text.head? = some c) (hc : isDigit c = true) :
    Number.double? (sign ++ text) =
      (Number.parts? text).map (Number.Parts.nearest (decide (sign = [minus]))) := by
  obtain ⟨rest, rfl⟩ := List.head?_eq_some_iff.1 hhead
  have hunsigned : Unsigned (c :: rest) := by
    intro d hd
    obtain rfl : c = d := Option.some.inj hd
    refine ⟨?_, ?_⟩ <;> rintro rfl <;> exact absurd hc (by decide)
  have hword : ∀ word : Bytes, isDigit (word.headD minus) = false →
      Bytes.toLower (c :: rest) ≠ word := by
    rintro word hhead rfl
    have hlower : Ascii.toLower c = c := by
      have hupper : isUpper c = false := by grind [isDigit, isUpper]
      rw [Ascii.toLower, hupper]
      rfl
    have hfirst : isDigit (Ascii.toLower c) = false := hhead
    rw [hlower, hc] at hfirst
    cases hfirst
  have hinfinity : Number.infinityWords.contains (Bytes.toLower (c :: rest)) = false := by
    have hinf := hword (Bytes.ofString "inf") rfl
    have hinfinity := hword (Bytes.ofString "infinity") rfl
    simp [Number.infinityWords, hinf, hinfinity]
  rw [Number.double?, startsWith_append hsign hunsigned, dropSign_append hsign hunsigned]
  rw [hinfinity, if_neg Bool.false_ne_true, if_neg (hword _ rfl)]

/-- The text of a number is read as the double nearest to it. -/
theorem roundsTo_double : Double.RoundsTo n.negative n.magnitude (Number.double n.text) := by
  obtain ⟨c, rest, hwhole, hc⟩ := n.isWhole.cons
  have hhead : (n.whole ++ (n.fraction ++ n.exponent)).head? = some c := by
    rw [hwhole]
    rfl
  have hsign : decide (n.sign = [minus]) = n.negative := by
    rw [Numeral.sign]
    cases n.negative <;> rfl
  rw [Number.double, Numeral.text, ← Numeral.sign, double?_of_digit (isSign_sign n) hhead hc, hsign,
    parts?_text, Option.map_some, Option.getD_some, Number.Parts.nearest, n.magnitude_eq]
  exact Double.roundsTo_ofDecimal _ _ _

/-- What stands behind the sign is digits alone only if there is no point and no exponent. -/
theorem isDigits_body_iff : Number.isDigits (n.whole ++ (n.fraction ++ n.exponent)) = true ↔
    n.fraction = [] ∧ n.exponent = [] := by
  have hbehind := head?_behind n
  rw [← List.append_eq_nil_iff]
  cases htext : n.fraction ++ n.exponent with
  | nil => simp [n.isWhole.isDigits]
  | cons c rest =>
    rw [htext] at hbehind
    simp [Number.isDigits, hbehind c rfl]

/-- A number with a minus is no run of digits, and any other one is what stands behind its sign. -/
theorem position?_text : Number.unsignedExact? n.text =
    if n.negative then none else Number.position? (n.whole ++ (n.fraction ++ n.exponent)) := by
  rw [Number.unsignedExact?, Numeral.text]
  cases n.negative with
  | true => rfl
  | false =>
    obtain ⟨c, rest, hwhole, hc⟩ := n.isWhole.cons
    have hplus : (c == plus) = false := by
      rw [beq_eq_false_iff_ne]
      rintro rfl
      exact absurd hc (by decide)
    simp [hwhole, Number.dropSign, hplus]

/-- The text of a number is read as an integer exactly if it is written as one and 64 bits hold
it. -/
theorem integer?_text : Tree.integer? n.text = if n.IsWord then some n.integer else none := by
  rw [Tree.integer?, Number.signedExact?, position?_text, Number.position?, dropSign_text,
    startsWith_text]
  by_cases hplain : n.fraction = [] ∧ n.exponent = []
  · have hlimit : (2 : Int) ^ 64 = Number.wordLimit := by
      rw [Number.wordLimit, Nat.pow_eq, Nat.cast_pow, Nat.cast_ofNat]
    have hhalf : (2 : Int) ^ 63 = (Nat.pow 2 63 : Nat) := by
      rw [Nat.pow_eq, Nat.cast_pow, Nat.cast_ofNat]
    have hword : Number.wordLimit = 2 * Nat.pow 2 63 := by
      rw [Number.wordLimit, Nat.pow_eq, Nat.pow_eq, Nat.pow_succ']
    have hpositive : 0 < Nat.pow 2 63 := by
      rw [Nat.pow_eq]
      positivity
    rw [if_pos ((isDigits_body_iff n).2 hplain), if_pos ((isDigits_body_iff n).2 hplain)]
    simp only [Numeral.IsWord, Numeral.integer, hplain.1, hplain.2, List.append_nil, true_and,
      hlimit, hhalf]
    generalize Bytes.toNat n.whole = whole
    -- The bounds as variables, since only their ratio counts
    clear hlimit hhalf
    generalize Nat.pow 2 63 = half at *
    generalize Number.wordLimit = limit at *
    cases n.negative with
    | true =>
      -- Below zero there are signed words only
      simp only [if_true, Option.map_none, Bool.and_eq_true, decide_eq_true_eq]
      by_cases hlow : -(half : Int) ≤ -whole
      · rw [if_pos ⟨hlow, by omega⟩, if_pos ⟨hlow, by omega⟩]
      · rw [if_neg fun h => hlow h.1, if_neg fun h => hlow h.1]
    | false =>
      -- From zero on a word without a sign holds what a signed one does
      simp only [Bool.false_eq_true, if_false, Bool.and_eq_true, decide_eq_true_eq]
      by_cases hsigned : (whole : Int) < half
      · rw [if_pos ⟨by omega, hsigned⟩]
        exact (if_pos ⟨by omega, by omega⟩).symm
      · rw [if_neg fun h => hsigned h.2]
        by_cases hlow : whole < limit
        · rw [if_pos hlow, if_pos ⟨by omega, by omega⟩]
          rfl
        · rw [if_neg hlow, if_neg fun h => hlow (by omega)]
          rfl
  · have hno : ¬n.IsWord := fun h => hplain ⟨h.1, h.2.1⟩
    have hdigits := mt (isDigits_body_iff n).1 hplain
    rw [if_neg hdigits, if_neg hdigits, if_neg hno, ite_self]
    rfl

end Readings

end JsonQuery.Grammar
