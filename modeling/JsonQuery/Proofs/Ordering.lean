import JsonQuery.Result.Order
import JsonQuery.Result.Reading

/-!
# The order of results

Results are ordered by their kinds, and within a kind by keys: texts in lexical order, numbers by
their doubles.  So the order is irreflexive and transitive because the orders of keys are.

Results that are tied, neither of them being less than the other, ought to be equal as far as the
order can see.  They are, with one exception: a NaN is tied with every number, so the numbers on
both of its sides need not be tied with each other.

## Layers

- **Texts** and **Doubles**: the two orders that all others are made of.
- **Keys**: what a result is compared by within its kind.
- **Results**: the order by kinds and keys, and what ties hand on.
-/

namespace JsonQuery

/-! ## Texts -/

section Texts

variable {s t u : Bytes}

theorem Bytes.less_iff : s.less t = true ↔ s < t :=
  decide_eq_true_iff

theorem Bytes.less_self (s : Bytes) : s.less s = false :=
  decide_eq_false (List.lt_irrefl s)

theorem Bytes.less_trans (hst : s.less t = true) (htu : t.less u = true) : s.less u = true :=
  less_iff.2 (List.lt_trans (less_iff.1 hst) (less_iff.1 htu))

/-- Different texts come one after the other. -/
theorem Bytes.eq_of_less_eq_false (hst : s.less t = false) (hts : t.less s = false) : s = t :=
  List.le_antisymm (List.not_lt.1 (of_decide_eq_false hts))
    (List.not_lt.1 (of_decide_eq_false hst))

end Texts

/-! ## Doubles -/

section Doubles

variable {x y z : Double}

theorem Double.rank_eq_none_iff : x.rank = none ↔ x = .nan := by
  cases x <;> simp only [Double.rank, reduceCtorEq]

theorem Double.less_iff :
    x.less y = true ↔ ∃ m n, x.rank = some m ∧ y.rank = some n ∧ m < n := by
  unfold Double.less
  split
  · simp_all
  · rename_i hnone
    simp only [Bool.false_eq_true, false_iff, not_exists, not_and]
    exact fun m n hx hy => absurd hy (hnone m n hx)

theorem Double.less_self (x : Double) : x.less x = false := by
  rw [Bool.eq_false_iff, ne_eq, less_iff]
  rintro ⟨m, n, hm, hn, hlt⟩
  obtain rfl : m = n := Option.some.inj (hm.symm.trans hn)
  exact Int.lt_irrefl m hlt

theorem Double.less_trans (hxy : x.less y = true) (hyz : y.less z = true) : x.less z = true := by
  obtain ⟨m, n, hm, hn, hmn⟩ := less_iff.1 hxy
  obtain ⟨n', k, hn', hk, hnk⟩ := less_iff.1 hyz
  obtain rfl : n = n' := Option.some.inj (hn.symm.trans hn')
  exact less_iff.2 ⟨m, k, hm, hk, Int.lt_trans hmn hnk⟩

/-- Numbers that are not NaNs stand at the same place or one after the other. -/
theorem Double.tied_iff :
    (x.less y = false ∧ y.less x = false) ↔ x.rank = none ∨ y.rank = none ∨ x.rank = y.rank := by
  simp only [Bool.eq_false_iff, ne_eq, less_iff]
  cases x.rank with
  | none => simp
  | some m =>
    cases y.rank with
    | none => simp
    | some n =>
      simp only [Option.some.injEq, reduceCtorEq, false_or]
      constructor
      · rintro ⟨hmn, hnm⟩
        have hle : ¬m < n := fun hlt => hmn ⟨m, n, rfl, rfl, hlt⟩
        have hge : ¬n < m := fun hlt => hnm ⟨n, m, rfl, rfl, hlt⟩
        omega
      · rintro rfl
        constructor
        all_goals
          rintro ⟨_, _, rfl, rfl, hlt⟩
          exact Int.lt_irrefl _ hlt

end Doubles

/-! ## Keys -/

/-- What a result is compared by within its kind. -/
inductive SortKey where
  | text (text : Bytes)
  | number (value : Double)

namespace SortKey

/-- The order of keys; no kind has keys of both sorts. -/
def less : SortKey → SortKey → Bool
  | text s, text t => s.less t
  | number x, number y => x.less y
  | text _, number _ => true
  | number _, text _ => false

/-- Neither of two keys is less than the other. -/
def Tied (k l : SortKey) : Prop :=
  k.less l = false ∧ l.less k = false

variable {k l m : SortKey}

theorem less_self (k : SortKey) : k.less k = false := by
  cases k with
  | text s => exact Bytes.less_self s
  | number x => exact Double.less_self x

theorem less_trans (hkl : k.less l = true) (hlm : l.less m = true) : k.less m = true := by
  cases k <;> cases l <;> cases m
  case text.text.text => exact Bytes.less_trans hkl hlm
  case number.number.number => exact Double.less_trans hkl hlm
  all_goals simp_all [less]

/-- Ties hand on unless a NaN stands in the middle. -/
theorem Tied.trans (hkl : k.Tied l) (hlm : l.Tied m) (hl : l ≠ number .nan) : k.Tied m := by
  obtain ⟨hkl, hlk⟩ := hkl
  obtain ⟨hlm, hml⟩ := hlm
  cases l with
  | text t =>
    cases k <;> cases m
    case text.text s u =>
      obtain rfl := Bytes.eq_of_less_eq_false hkl hlk
      exact ⟨hlm, hml⟩
    all_goals simp_all [less]
  | number y =>
    cases k <;> cases m
    case number.number x z =>
      have hy : y.rank ≠ none := fun h => hl (congrArg number (Double.rank_eq_none_iff.1 h))
      have hxy := (Double.tied_iff.1 ⟨hkl, hlk⟩)
      have hyz := (Double.tied_iff.1 ⟨hlm, hml⟩)
      refine Double.tied_iff.2 ?_
      rcases hxy with hx | hnone | hxy
      · exact .inl hx
      · exact absurd hnone hy
      · rw [hxy]
        exact hyz
    all_goals simp_all [less]

/-- A NaN is tied with every number. -/
theorem tied_nan (x : Double) : (number x).Tied (number .nan) :=
  Double.tied_iff.2 (.inr (.inl rfl))

end SortKey

/-! ## Results -/

namespace Result

variable {folded : Bool} {a b c : Result}

/-- What a result is compared by; with `folded` the case of letters in strings does not count. -/
def sortKey (folded : Bool) (r : Result) : SortKey :=
  match r.value with
  | .string raw =>
    .text (if folded then (Value.stringText raw).toLower else Value.stringText raw)
  | .number raw => .number (Number.double raw)
  | value => .text value.raw

/-- A number that is a NaN. -/
def IsNan (r : Result) : Prop :=
  ∃ raw, r.value = .number raw ∧ Number.double raw = .nan

/-- Neither of two results is less than the other. -/
def Tied (folded : Bool) (a b : Result) : Prop :=
  less folded a b = false ∧ less folded b a = false
deriving Decidable

theorem Tied.symm (h : a.Tied folded b) : b.Tied folded a :=
  ⟨h.2, h.1⟩

theorem isNan_iff : a.IsNan ↔ a.sortKey folded = .number .nan := by
  unfold IsNan sortKey
  cases a.value <;> simp

/-- Within a kind results are compared by their keys. -/
theorem lessWithin_eq (h : a.kind = b.kind) :
    lessWithin folded a b = (a.sortKey folded).less (b.sortKey folded) := by
  obtain ⟨u, _, _⟩ := a
  obtain ⟨v, _, _⟩ := b
  -- Only strings and numbers have keys of their own, and values of two sorts are not of one kind
  cases u <;> cases v
  case string.string => cases folded <;> rfl
  case boolean.number b _ | boolean.string b _ => cases b <;> cases h
  case number.boolean b | string.boolean b => cases b <;> cases h
  all_goals first | rfl | cases h

theorem less_iff :
    less folded a b = true ↔ a.kind.rank < b.kind.rank ∨
      a.kind = b.kind ∧ (a.sortKey folded).less (b.sortKey folded) = true := by
  by_cases h : a.kind = b.kind
  · rw [less, if_pos h, lessWithin_eq h, h]
    simp
  · rw [less, if_neg h]
    simp [h]

theorem rank_inj {k l : Kind} (h : k.rank = l.rank) : k = l := by
  cases k <;> cases l <;> first | rfl | cases h

/-- Results are tied within a kind only, and there by their keys. -/
theorem tied_iff :
    a.Tied folded b ↔ a.kind = b.kind ∧ (a.sortKey folded).Tied (b.sortKey folded) := by
  unfold Tied SortKey.Tied
  simp only [Bool.eq_false_iff, ne_eq, less_iff, not_or, not_and]
  constructor
  · rintro ⟨⟨hab, hkey⟩, hba, hkey'⟩
    have hkind : a.kind = b.kind := rank_inj (by omega)
    exact ⟨hkind, hkey hkind, hkey' hkind.symm⟩
  · rintro ⟨hkind, hkey, hkey'⟩
    rw [hkind]
    exact ⟨⟨Nat.lt_irrefl _, fun _ => hkey⟩, Nat.lt_irrefl _, fun _ => hkey'⟩

theorem less_self (folded : Bool) (a : Result) : less folded a a = false := by
  rw [Bool.eq_false_iff, ne_eq, less_iff]
  rintro (hlt | ⟨-, hless⟩)
  · exact Nat.lt_irrefl _ hlt
  · rw [SortKey.less_self] at hless
    cases hless

theorem less_trans (hab : less folded a b = true) (hbc : less folded b c = true) :
    less folded a c = true := by
  rw [less_iff] at hab hbc ⊢
  -- The first step up in kind decides; without one the keys do
  rcases hab with hab | ⟨hab, hkeys⟩ <;> rcases hbc with hbc | ⟨hbc, hkeys'⟩
  · exact .inl (Nat.lt_trans hab hbc)
  · exact .inl (hbc ▸ hab)
  · exact .inl (hab ▸ hbc)
  · exact .inr ⟨hab.trans hbc, SortKey.less_trans hkeys hkeys'⟩

theorem Tied.trans (hab : a.Tied folded b) (hbc : b.Tied folded c) (hb : ¬b.IsNan) :
    a.Tied folded c := by
  rw [tied_iff] at hab hbc ⊢
  exact ⟨hab.1.trans hbc.1, hab.2.trans hbc.2 (mt isNan_iff.2 hb)⟩

/-- A number is tied with a NaN. -/
theorem tied_of_isNan {raw : Bytes} (ha : a.value = .number raw) (hb : b.IsNan) :
    a.Tied folded b := by
  obtain ⟨_, hvalue, -⟩ := id hb
  refine tied_iff.2 ⟨?_, ?_⟩
  · rw [kind, kind, ha, hvalue]
    rfl
  · rw [isNan_iff.1 hb, sortKey, ha]
    exact SortKey.tied_nan _

/-- **The order of results.**  No value is less than itself, and what is less than something less is
less.  Ties hand on through the value of a text, whatever texts the two others are read from, if and
only if that value is not a NaN. -/
theorem less_order (folded : Bool) :
    (∀ a, less folded a a = false) ∧
      (∀ a b c, less folded a b = true → less folded b c = true → less folded a c = true) ∧
      ∀ text : Bytes,
        (∀ before after : Bytes, (parse before).Tied folded (parse text) →
          (parse text).Tied folded (parse after) → (parse before).Tied folded (parse after)) ↔
        ¬(parse text).IsNan := by
  refine ⟨less_self folded, fun a b c => less_trans, fun text => ⟨fun h hnan => ?_, ?_⟩⟩
  · -- One is less than two, and both are tied with a NaN
    have hone : (parse (Bytes.ofString "1")).value = .number (Bytes.ofString "1") := by decide
    have htwo : (parse (Bytes.ofString "2")).value = .number (Bytes.ofString "2") := by decide
    have hless : less folded (parse (Bytes.ofString "1")) (parse (Bytes.ofString "2")) = true := by
      cases folded <;> decide +kernel
    have htied := h _ _ (tied_of_isNan hone hnan) (tied_of_isNan htwo hnan).symm
    rw [htied.1] at hless
    cases hless
  · exact fun hnan before after hbefore hafter => hbefore.trans hafter hnan

/-- One number in three spellings, and the NaN that is tied with all numbers. -/
theorem less_order_samples :
    (parse (Bytes.ofString "1")).Tied false (parse (Bytes.ofString "1e0")) ∧
      (parse (Bytes.ofString "nan")).IsNan ∧
      ¬∀ before after : Bytes, (parse before).Tied false (parse (Bytes.ofString "nan")) →
        (parse (Bytes.ofString "nan")).Tied false (parse after) →
          (parse before).Tied false (parse after) := by
  obtain ⟨-, -, hties⟩ := less_order false
  have hnan : (parse (Bytes.ofString "nan")).IsNan :=
    ⟨Bytes.ofString "nan", by decide, by decide⟩
  have hnumber : ¬(parse (Bytes.ofString "1.0")).IsNan := by
    rintro ⟨raw, hvalue, hraw⟩
    have hone : (parse (Bytes.ofString "1.0")).value = .number (Bytes.ofString "1.0") := by decide
    obtain rfl : Bytes.ofString "1.0" = raw := Value.number.inj (hone.symm.trans hvalue)
    revert hraw
    decide +kernel
  refine ⟨(hties (Bytes.ofString "1.0")).2 hnumber _ _ ?_ ?_, hnan, fun h => ?_⟩
  · decide +kernel
  · decide +kernel
  · exact (hties _).1 h hnan

end Result

end JsonQuery
