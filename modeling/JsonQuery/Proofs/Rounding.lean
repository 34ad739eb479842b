import JsonQuery.Number.Double
import Mathlib.Data.Rat.Cast.Order
import Mathlib.Tactic.Linarith
import Mathlib.Tactic.NormNum
import Mathlib.Tactic.Positivity
import Mathlib.Tactic.Ring

/-!
# Decimals are rounded to the nearest double

Rounding keeps the 53 highest bits of a fraction of units.  The result is compared here with all
magnitudes of 53 significant bits, however large: none is nearer to the fraction, and if another one
is as near, the last bit of the result is zero.  This says which magnitude it is, so a double is
infinite exactly if the magnitude nearest to it is past the finite ones.

## Layers

- **Magnitudes**: significands and exponents, the nearest magnitude, and that there is only one.
- **Whole numbers**: rounding a fraction to a whole number.
- **Units**: rounding a fraction to a magnitude.
- **Decimals**: rounding a decimal, whatever its exponent is.
-/

namespace JsonQuery.Double

/-! ## Magnitudes -/

/-- A significand of 53 bits with zeros behind it. -/
def IsMagnitude (units : Nat) : Prop :=
  ∃ significand exponent, significand < 2 ^ precision ∧ units = significand * 2 ^ exponent

/-- A significand of 53 bits, the last of which is zero, with zeros behind it. -/
def IsEven (units : Nat) : Prop :=
  ∃ half exponent, 2 * half < 2 ^ precision ∧ units = half * 2 ^ (exponent + 1)

/-- No magnitude is nearer to a number, and if another one is as near, this one is even. -/
structure IsNearest (x : ℚ) (units : Nat) : Prop where
  isMagnitude : IsMagnitude units
  nearest : ∀ other, IsMagnitude other → |x - units| ≤ |x - other|
  even : ∀ other, IsMagnitude other → other ≠ units → |x - other| = |x - units| → IsEven units

section Magnitudes

/-- Between two even numbers of steps there are the one behind the first and the one in front of the
second. -/
theorem lt_of_steps {i j step : Nat} (h : 2 * i * step < 2 * j * step) :
    (2 * i * step < (2 * i + 1) * step ∧ (2 * i + 1) * step < 2 * j * step) ∧
      2 * i * step < (2 * j - 1) * step ∧ (2 * j - 1) * step < 2 * j * step := by
  have hij := Nat.lt_of_mul_lt_mul_right h
  have hpos : 0 < step := Nat.pos_of_ne_zero fun hzero => by simp [hzero] at h
  exact ⟨⟨Nat.mul_lt_mul_of_pos_right (by omega) hpos, Nat.mul_lt_mul_of_pos_right (by omega) hpos⟩,
    Nat.mul_lt_mul_of_pos_right (by omega) hpos, Nat.mul_lt_mul_of_pos_right (by omega) hpos⟩

/-- Between two even magnitudes there is another magnitude. -/
theorem exists_between {a b : Nat} (ha : IsEven a) (hb : IsEven b) (hlt : a < b) :
    ∃ c, IsMagnitude c ∧ a < c ∧ c < b := by
  obtain ⟨h, e, hh, rfl⟩ := ha
  obtain ⟨k, f, hk, rfl⟩ := hb
  -- Half a step of the finer one from the one that it belongs to
  rcases Nat.le_total e f with hle | hle
  · obtain ⟨g, rfl⟩ := Nat.exists_eq_add_of_le hle
    have ha : h * 2 ^ (e + 1) = 2 * h * 2 ^ e := by ring
    have hb : k * 2 ^ (e + g + 1) = 2 * (k * 2 ^ g) * 2 ^ e := by ring
    rw [ha, hb] at hlt ⊢
    exact ⟨(2 * h + 1) * 2 ^ e, ⟨_, e, by rw [precision] at hh ⊢; omega, rfl⟩,
      (lt_of_steps hlt).1⟩
  · obtain ⟨g, rfl⟩ := Nat.exists_eq_add_of_le hle
    have ha : h * 2 ^ (f + g + 1) = 2 * (h * 2 ^ g) * 2 ^ f := by ring
    have hb : k * 2 ^ (f + 1) = 2 * k * 2 ^ f := by ring
    rw [ha, hb] at hlt ⊢
    exact ⟨(2 * k - 1) * 2 ^ f, ⟨_, f, by omega, rfl⟩, (lt_of_steps hlt).2⟩

/-- What lies between two numbers that are equally far from a third one is nearer to it. -/
theorem abs_sub_lt_of_between {x a b c : ℚ} (hac : a < c) (hcb : c < b)
    (hsame : |x - a| = |x - b|) :
    |x - c| < |x - a| := by
  have hmid : x = (a + b) / 2 := by
    rcases abs_eq_abs.1 hsame with h | h <;> linarith
  rw [hmid, abs_lt, abs_of_pos (by linarith)]
  constructor <;> linarith

/-- There is one nearest magnitude. -/
theorem IsNearest.unique {x : ℚ} {a b : Nat} (ha : IsNearest x a) (hb : IsNearest x b) : a = b := by
  have hsame : |x - a| = |x - b| :=
    le_antisymm (ha.nearest b hb.isMagnitude) (hb.nearest a ha.isMagnitude)
  by_contra hne
  have haeven : IsEven a := ha.even b hb.isMagnitude (Ne.symm hne) hsame.symm
  have hbeven : IsEven b := hb.even a ha.isMagnitude hne hsame
  -- A magnitude between both would be nearer than either
  rcases Nat.lt_or_gt_of_ne hne with hlt | hlt
  · obtain ⟨c, hc, hac, hcb⟩ := exists_between haeven hbeven hlt
    exact absurd (ha.nearest c hc) (not_le.2 (abs_sub_lt_of_between (by exact_mod_cast hac)
      (by exact_mod_cast hcb) hsame))
  · obtain ⟨c, hc, hbc, hca⟩ := exists_between hbeven haeven hlt
    exact absurd (hb.nearest c hc) (not_le.2 (abs_sub_lt_of_between (by exact_mod_cast hbc)
      (by exact_mod_cast hca) hsame.symm))

end Magnitudes

/-! ## Whole numbers -/

section Whole

/-- A fraction is rounded by at most a half, and by a half only to an even number. -/
theorem abs_sub_nearestEven (numerator : Nat) {denominator : Nat} (hpos : 0 < denominator) :
    |(numerator / denominator : ℚ) - nearestEven numerator denominator| ≤ 1 / 2 ∧
      (|(numerator / denominator : ℚ) - nearestEven numerator denominator| = 1 / 2 →
        nearestEven numerator denominator % 2 = 0) := by
  generalize hwhole : numerator / denominator = whole
  generalize hrest : numerator % denominator = rest
  have hlt : rest < denominator := hrest ▸ Nat.mod_lt _ hpos
  have hnumerator : numerator = denominator * whole + rest := by
    rw [← hwhole, ← hrest, Nat.div_add_mod]
  have hdenominator : (0 : ℚ) < denominator := by exact_mod_cast hpos
  -- A whole number and a fraction that is less than one
  have hsplit : (numerator / denominator : ℚ) = whole + rest / denominator := by
    rw [hnumerator, Nat.cast_add, Nat.cast_mul, add_div, mul_div_cancel_left₀ _ hdenominator.ne']
  have hdouble : (rest / denominator : ℚ) * denominator = rest :=
    div_mul_cancel₀ _ hdenominator.ne'
  rw [nearestEven, hwhole, hrest, hsplit]
  generalize (rest / denominator : ℚ) = fraction at hdouble
  split
  · rename_i hup
    simp only [Bool.or_eq_true, decide_eq_true_eq, Bool.and_eq_true] at hup
    have hhalf : (denominator : ℚ) ≤ 2 * rest := by
      rcases hup with h | ⟨h, -⟩ <;> exact_mod_cast by omega
    have hone : (rest : ℚ) ≤ denominator := by exact_mod_cast hlt.le
    have hlow : 1 / 2 ≤ fraction := by nlinarith
    have hhigh : fraction ≤ 1 := by nlinarith
    have hdiff : (whole : ℚ) + fraction - ((whole + 1 : Nat) : ℚ) = -(1 - fraction) := by
      push_cast
      ring
    rw [hdiff, abs_neg, abs_of_nonneg (by linarith)]
    refine ⟨by linarith, fun htie => ?_⟩
    -- Up to an even number only from an odd one, at a half
    have htwice : 2 * rest = denominator := by
      have hfraction : fraction = 1 / 2 := by linarith
      rw [hfraction] at hdouble
      have : (2 * rest : ℚ) = denominator := by linarith
      exact_mod_cast this
    omega
  · rename_i hdown
    simp only [Bool.or_eq_true, decide_eq_true_eq, Bool.and_eq_true, not_or, not_and] at hdown
    have hhalf : (2 * rest : ℚ) ≤ denominator := by
      exact_mod_cast (by omega : 2 * rest ≤ denominator)
    have hzero : (0 : ℚ) ≤ rest := by positivity
    have hlow : 0 ≤ fraction := by nlinarith
    have hhigh : fraction ≤ 1 / 2 := by nlinarith
    rw [add_sub_cancel_left, abs_of_nonneg hlow]
    refine ⟨hhigh, fun htie => ?_⟩
    have htwice : 2 * rest = denominator := by
      rw [htie] at hdouble
      have : (2 * rest : ℚ) = denominator := by linarith
      exact_mod_cast this
    omega

/-- Another whole number is at least as far from what is rounded, and as far only at a half. -/
theorem abs_sub_of_ne {y : ℚ} {k j : Nat} (h : |y - k| ≤ 1 / 2) (hne : j ≠ k) :
    |y - k| ≤ |y - j| ∧ (|y - j| = |y - k| → |y - k| = 1 / 2) := by
  -- Two whole numbers are at least one apart
  have hone : (1 : ℚ) ≤ |(k : ℚ) - j| := by
    have hcast : (1 : ℤ) ≤ |(k : ℤ) - j| := Int.one_le_abs (by omega)
    exact_mod_cast hcast
  have htriangle : |(k : ℚ) - j| ≤ |y - k| + |y - j| := by
    have hsplit : (k : ℚ) - j = -(y - k) + (y - j) := by ring
    calc |(k : ℚ) - j| = |-(y - k) + (y - j)| := by rw [hsplit]
      _ ≤ |-(y - k)| + |y - j| := abs_add_le _ _
      _ = |y - k| + |y - j| := by rw [abs_neg]
  exact ⟨by linarith, fun hsame => by linarith⟩

end Whole

/-! ## Units -/

section Units

variable {numerator denominator : Nat}

theorem isMagnitude_of_le {k low : Nat} (h : k ≤ 2 ^ precision) : IsMagnitude (k * 2 ^ low) := by
  rcases Nat.lt_or_eq_of_le h with h | rfl
  · exact ⟨k, low, h, rfl⟩
  · exact ⟨1, precision + low, by decide, by rw [one_mul, pow_add]⟩

theorem isEven_of_le {k low : Nat} (h : k ≤ 2 ^ precision) (heven : k % 2 = 0) :
    IsEven (k * 2 ^ low) := by
  rcases Nat.lt_or_eq_of_le h with h | rfl
  · refine ⟨k / 2, low, by omega, ?_⟩
    rw [pow_succ, mul_comm _ 2, ← mul_assoc, Nat.div_mul_cancel (Nat.dvd_of_mod_eq_zero heven)]
  · exact ⟨1, 52 + low, by decide, by rw [precision]; ring⟩

/-- The significand of a magnitude takes at most 53 bits, and exactly so many if bits are left
out. -/
theorem bounds_lowBits (numerator : Nat) (hpos : 0 < denominator) :
    (numerator / denominator : ℚ) < 2 ^ precision * 2 ^ lowBits (numerator / denominator) ∧
      (lowBits (numerator / denominator) ≠ 0 →
        2 ^ 52 * 2 ^ lowBits (numerator / denominator) ≤ (numerator / denominator : ℚ)) := by
  have hdenominator : (0 : ℚ) < denominator := by exact_mod_cast hpos
  have hlow : lowBits (numerator / denominator) =
      (numerator / denominator).log2 + 1 - precision := rfl
  rw [precision] at hlow ⊢
  constructor
  · rw [div_lt_iff₀ hdenominator, ← pow_add]
    have hlt : numerator < 2 ^ (53 + lowBits (numerator / denominator)) * denominator := by
      rw [← Nat.div_lt_iff_lt_mul hpos]
      exact Nat.lt_of_lt_of_le Nat.lt_log2_self (Nat.pow_le_pow_right (by decide) (by omega))
    exact_mod_cast hlt
  · intro hne
    rw [le_div_iff₀ hdenominator, ← pow_add]
    have hwhole : numerator / denominator ≠ 0 := by
      intro hzero
      rw [hzero] at hlow hne
      exact hne (hlow.trans (by decide))
    have hle : 2 ^ (52 + lowBits (numerator / denominator)) * denominator ≤ numerator := by
      rw [← Nat.le_div_iff_mul_le hpos]
      exact Nat.le_trans (Nat.pow_le_pow_right (by decide) (by omega)) (Nat.log2_self_le hwhole)
    exact_mod_cast hle

/-- A magnitude is a number of steps, unless it is less than all that take 53 bits in steps. -/
theorem IsMagnitude.onGrid {units : Nat} (h : IsMagnitude units) (low : Nat) :
    (∃ j, units = j * 2 ^ low) ∨ units < 2 ^ 52 * 2 ^ low := by
  obtain ⟨s, e, hs, rfl⟩ := h
  rcases Nat.lt_or_ge e low with hlt | hge
  · right
    calc s * 2 ^ e < 2 ^ precision * 2 ^ e := Nat.mul_lt_mul_of_pos_right hs (by positivity)
      _ = 2 ^ 52 * 2 ^ (e + 1) := by rw [precision]; ring
      _ ≤ 2 ^ 52 * 2 ^ low := Nat.mul_le_mul_left _ (Nat.pow_le_pow_right (by decide) hlt)
  · refine .inl ⟨s * 2 ^ (e - low), ?_⟩
    rw [mul_assoc, ← pow_add, Nat.sub_add_cancel hge]

/-- A number of steps that is rounded to a whole one is rounded to the nearest magnitude, if its
significand has 53 bits or no bit is left out. -/
theorem isNearest_of_steps {y : ℚ} {k low : Nat} (hhalf : |y - k| ≤ 1 / 2)
    (heven : |y - k| = 1 / 2 → k % 2 = 0) (hhigh : y < 2 ^ precision)
    (hlow : low ≠ 0 → 2 ^ 52 ≤ y) : IsNearest (y * 2 ^ low) (k * 2 ^ low) := by
  have hstep : (0 : ℚ) < 2 ^ low := by positivity
  have hgrid : ∀ j : Nat, |y * 2 ^ low - (j * 2 ^ low : Nat)| = |y - j| * 2 ^ low := by
    intro j
    push_cast
    rw [← sub_mul, abs_mul, abs_of_pos hstep]
  have hk : k ≤ 2 ^ precision := by
    have hlt : (k : ℚ) < 2 ^ precision + 1 := by
      have hfar := (abs_le.1 hhalf).1
      linarith
    exact Nat.lt_succ_iff.1 (by exact_mod_cast hlt)
  have hnear : ∀ j : Nat, |y * 2 ^ low - (k * 2 ^ low : Nat)| ≤
      |y * 2 ^ low - (j * 2 ^ low : Nat)| := by
    intro j
    rw [hgrid, hgrid]
    refine mul_le_mul_of_nonneg_right ?_ hstep.le
    by_cases hjk : j = k
    · rw [hjk]
    · exact (abs_sub_of_ne hhalf hjk).1
  -- What lies below the grid is farther away than the lowest number of 53 bits
  have hbelow : ∀ other : Nat, other < 2 ^ 52 * 2 ^ low →
      (∃ j, other = j * 2 ^ low) ∨
        |y * 2 ^ low - (k * 2 ^ low : Nat)| < |y * 2 ^ low - other| := by
    intro other hother
    by_cases hzero : low = 0
    · exact .inl ⟨other, by rw [hzero, pow_zero, mul_one]⟩
    · refine .inr (lt_of_le_of_lt (hnear (2 ^ 52)) ?_)
      have hother : (other : ℚ) < (2 ^ 52 * 2 ^ low : Nat) := by exact_mod_cast hother
      have hleast : ((2 ^ 52 * 2 ^ low : Nat) : ℚ) ≤ y * 2 ^ low := by
        push_cast
        exact mul_le_mul_of_nonneg_right (hlow hzero) hstep.le
      rw [abs_of_nonneg (by linarith), abs_of_nonneg (by linarith)]
      linarith
  have hcases : ∀ other, IsMagnitude other → (∃ j, other = j * 2 ^ low) ∨
      |y * 2 ^ low - (k * 2 ^ low : Nat)| < |y * 2 ^ low - other| :=
    fun other h => (h.onGrid low).elim .inl (hbelow other)
  refine ⟨isMagnitude_of_le hk, fun other h => ?_, fun other h hne hsame => ?_⟩
  · rcases hcases other h with ⟨j, rfl⟩ | hlt
    · exact hnear j
    · exact hlt.le
  · rcases hcases other h with ⟨j, rfl⟩ | hlt
    · have hjk : j ≠ k := fun heq => hne (by rw [heq])
      rw [hgrid, hgrid] at hsame
      have hsame := mul_right_cancel₀ hstep.ne' hsame
      exact isEven_of_le hk (heven ((abs_sub_of_ne hhalf hjk).2 hsame))
    · exact absurd hsame hlt.ne'

/-- A fraction of units is rounded to the nearest magnitude. -/
theorem isNearest_roundUnits (hpos : 0 < denominator) :
    IsNearest (numerator / denominator) (roundUnits numerator denominator) := by
  obtain ⟨hhigh, hlow⟩ := bounds_lowBits numerator hpos
  rw [roundUnits]
  generalize lowBits (numerator / denominator) = low at hhigh hlow
  obtain ⟨hhalf, heven⟩ :=
    abs_sub_nearestEven numerator (Nat.mul_pos hpos (Nat.two_pow_pos low))
  have hstep : (0 : ℚ) < 2 ^ low := by positivity
  have hscale : (numerator / denominator : ℚ) =
      numerator / (denominator * 2 ^ low : Nat) * 2 ^ low := by
    push_cast
    rw [← div_div, div_mul_cancel₀ _ hstep.ne']
  rw [hscale] at hhigh hlow ⊢
  exact isNearest_of_steps hhalf heven (lt_of_mul_lt_mul_right hhigh hstep.le)
    fun hne => le_of_mul_le_mul_right (hlow hne) hstep

end Units

/-! ## Decimals -/

section Decimals

/-- A double is the nearest one to a number with a sign: its magnitude is the nearest one, and it is
infinite exactly if that is past all finite doubles. -/
def RoundsTo (negative : Bool) (x : ℚ) (d : Double) : Prop :=
  ∃ units, IsNearest (x * unitsPerOne) units ∧ d = ofUnits negative units

theorem RoundsTo.unique {negative : Bool} {x : ℚ} {a b : Double} (ha : RoundsTo negative x a)
    (hb : RoundsTo negative x b) : a = b := by
  obtain ⟨units, hunits, ha⟩ := ha
  obtain ⟨units', hunits', hb⟩ := hb
  rw [ha, hb, hunits.unique hunits']

/-- Every number has a nearest double. -/
theorem RoundsTo.ne_nan {negative : Bool} {x : ℚ} {d : Double} (h : RoundsTo negative x d) :
    d ≠ .nan := by
  obtain ⟨units, -, hd⟩ := h
  rw [hd, ofUnits]
  generalize limit = bound
  split <;> exact Double.noConfusion

theorem roundsTo_ofRatio (negative : Bool) (numerator : Nat) {denominator : Nat}
    (hpos : 0 < denominator) :
    RoundsTo negative (numerator / denominator) (ofRatio negative numerator denominator) := by
  refine ⟨roundUnits (numerator * unitsPerOne) denominator, ?_, by rw [ofRatio]⟩
  have hscale : (numerator / denominator * unitsPerOne : ℚ) =
      (numerator * unitsPerOne : Nat) / denominator := by
    push_cast
    ring
  rw [hscale]
  exact isNearest_roundUnits hpos

theorem exists_limit_eq : ∃ exponent, limit = 2 ^ exponent := by
  delta limit
  generalize 2098 = exponent
  exact ⟨exponent, rfl⟩

theorem limit_eq : limit = 2 ^ 1024 * unitsPerOne := by
  have hsum : 2098 = 1024 + 1074 := rfl
  delta limit unitsPerOne
  rw [hsum]
  generalize 1024 = a, 1074 = b
  exact pow_add 2 a b

/-- From the first power of two past all finite doubles on, numbers are rounded to infinity. -/
theorem roundsTo_infinite (negative : Bool) {numerator denominator : Nat} (hpos : 0 < denominator)
    (h : (2 ^ 1024 : ℚ) ≤ numerator / denominator) :
    RoundsTo negative (numerator / denominator) (.infinite negative) := by
  obtain ⟨units, hunits, -⟩ := roundsTo_ofRatio negative numerator hpos
  have hlimit : IsMagnitude limit := by
    obtain ⟨exponent, hexponent⟩ := exists_limit_eq
    exact ⟨1, exponent, by decide, by rw [hexponent, one_mul]⟩
  have hnear := hunits.nearest limit hlimit
  have hpast : (limit : ℚ) ≤ numerator / denominator * unitsPerOne := by
    rw [limit_eq, Nat.cast_mul, Nat.cast_pow, Nat.cast_ofNat]
    exact mul_le_mul_of_nonneg_right h (Nat.cast_nonneg _)
  -- What is nearer to a number past the limit than the limit is no less than it
  have hle : limit ≤ units := by
    by_contra hlt
    have hlt : (units : ℚ) < limit := by exact_mod_cast not_le.1 hlt
    rw [abs_of_nonneg (by linarith), abs_of_nonneg (by linarith)] at hnear
    linarith
  exact ⟨units, hunits, by rw [ofUnits, if_neg (not_lt.2 hle)]⟩

/-- A number of less than half a unit is rounded to zero. -/
theorem roundsTo_zero (negative : Bool) {x : ℚ} (hzero : 0 ≤ x) (h : x * unitsPerOne < 1 / 2) :
    RoundsTo negative x (.finite negative 0) := by
  have hunits : 0 ≤ x * unitsPerOne := mul_nonneg hzero (by positivity)
  have hfar : ∀ other : Nat, other ≠ 0 →
      |x * unitsPerOne - (0 : Nat)| < |x * unitsPerOne - other| := by
    intro other hne
    have hone : (1 : ℚ) ≤ other := by exact_mod_cast Nat.one_le_iff_ne_zero.2 hne
    rw [Nat.cast_zero, sub_zero, abs_of_nonneg hunits, abs_of_neg (by linarith)]
    linarith
  refine ⟨0, ⟨⟨0, 0, by decide, by decide⟩, fun other _ => ?_, fun other _ hne hsame => ?_⟩, ?_⟩
  · by_cases hother : other = 0
    · rw [hother]
    · exact (hfar other hother).le
  · exact absurd hsame (hfar other hne).ne'
  · obtain ⟨exponent, hexponent⟩ := exists_limit_eq
    rw [ofUnits, if_pos (by rw [hexponent]; positivity)]

/-- Three bits are less than a digit. -/
theorem two_pow_le_ten_pow {a b : Nat} (h : a ≤ 3 * b) : 2 ^ a ≤ 10 ^ b :=
  calc 2 ^ a ≤ 2 ^ (3 * b) := Nat.pow_le_pow_right (by decide) h
    _ = 8 ^ b := pow_mul 2 3 b
    _ ≤ 10 ^ b := Nat.pow_le_pow_left (by decide) b

theorem twice_unitsPerOne_le : 2 * unitsPerOne ≤ 10 ^ hugeExponent := by
  have htwice : ∀ a, a + 1 ≤ 3 * hugeExponent → 2 * Nat.pow 2 a ≤ 10 ^ hugeExponent := by
    intro a ha
    rw [Nat.pow_eq, ← pow_succ']
    exact two_pow_le_ten_pow ha
  delta unitsPerOne
  generalize hbits : 1074 = bits
  exact htwice bits (hbits ▸ by decide)

/-- A decimal with a huge exponent is past all finite doubles. -/
theorem le_of_hugeExponent_lt {digits up : Nat} (hdigits : digits ≠ 0) (hup : hugeExponent < up) :
    2 ^ 1024 ≤ digits * 10 ^ up :=
  calc 2 ^ 1024 ≤ 10 ^ up := two_pow_le_ten_pow (by rw [hugeExponent] at hup; omega)
    _ ≤ digits * 10 ^ up := Nat.le_mul_of_pos_left _ (Nat.pos_of_ne_zero hdigits)

/-- A decimal with as many digits behind the point is less than half a unit. -/
theorem lt_of_hugeExponent_lt {digits down : Nat}
    (hdown : digits.log2 / 3 + 2 + hugeExponent < down) :
    2 * (digits * unitsPerOne) < 10 ^ (down + 1) := by
  have hdigits : digits < 10 ^ (digits.log2 / 3 + 1) :=
    Nat.lt_of_lt_of_le Nat.lt_log2_self (two_pow_le_ten_pow (by omega))
  calc 2 * (digits * unitsPerOne) = digits * (2 * unitsPerOne) := by ring
    _ ≤ digits * 10 ^ hugeExponent := Nat.mul_le_mul_left _ twice_unitsPerOne_le
    _ < 10 ^ (digits.log2 / 3 + 1) * 10 ^ hugeExponent :=
      Nat.mul_lt_mul_of_pos_right hdigits (by positivity)
    _ = 10 ^ (digits.log2 / 3 + 1 + hugeExponent) := (pow_add 10 _ _).symm
    _ ≤ 10 ^ (down + 1) := Nat.pow_le_pow_right (by decide) (by omega)

/-- A decimal is read as the nearest double. -/
theorem roundsTo_ofDecimal (negative : Bool) (digits : Nat) (exponent : Int) :
    RoundsTo negative (digits * 10 ^ exponent) (ofDecimal negative digits exponent) := by
  unfold ofDecimal
  split
  · rename_i hdigits
    rw [hdigits, Nat.cast_zero, zero_mul]
    exact roundsTo_zero negative le_rfl (by rw [zero_mul]; norm_num)
  · rename_i hdigits
    cases exponent with
    | ofNat up =>
      have hvalue : (digits * 10 ^ Int.ofNat up : ℚ) =
          (digits * Nat.pow 10 up : Nat) / (1 : Nat) := by
        rw [Int.ofNat_eq_natCast, zpow_natCast, Nat.pow_eq, Nat.cast_mul, Nat.cast_pow,
          Nat.cast_one, div_one, Nat.cast_ofNat]
      rw [hvalue]
      dsimp only
      split
      · rename_i hhuge
        apply roundsTo_infinite negative Nat.one_pos
        rw [Nat.cast_one, div_one]
        exact_mod_cast le_of_hugeExponent_lt hdigits hhuge
      · exact roundsTo_ofRatio negative _ Nat.one_pos
    | negSucc down =>
      have hvalue : (digits * 10 ^ Int.negSucc down : ℚ) =
          digits / (Nat.pow 10 (down + 1) : Nat) := by
        rw [zpow_negSucc, Nat.pow_eq, Nat.cast_pow, Nat.cast_ofNat, div_eq_mul_inv]
      rw [hvalue]
      dsimp only
      split
      · rename_i hhuge
        have hten : (0 : ℚ) < (10 ^ (down + 1) : Nat) := by positivity
        have hsmall : ((2 * (digits * unitsPerOne) : Nat) : ℚ) < (10 ^ (down + 1) : Nat) :=
          Nat.cast_lt.2 (lt_of_hugeExponent_lt hhuge)
        rw [Nat.cast_mul, Nat.cast_mul, Nat.cast_ofNat] at hsmall
        refine roundsTo_zero negative (by positivity) ?_
        rw [Nat.pow_eq, div_mul_eq_mul_div, div_lt_iff₀ hten]
        linarith
      · exact roundsTo_ofRatio negative _ (Nat.pow_pos (by decide))

end Decimals

end JsonQuery.Double
