import JsonQuery.Proofs.Filters
import JsonQuery.Proofs.Integers
import JsonQuery.Proofs.Location

/-!
# Filters on integers

A filter compares numbers by their doubles, also those that are written as integers.  So what it
asks of an integer is not to be equal to its operand but to have the same nearest double, which is
the same question below `2 ^ 53` and another one from there on.

## Layers

- **Doubles**: when two integers have the same nearest double.
- **Operands**: a number as the operand of a filter.
- **Elements**: the integer that an element holds, and how it is judged.
- **Queries**: what a filter on integers finds in a document.
-/

namespace JsonQuery

open Ascii

/-! ## Doubles -/

namespace Double

section SameNearest

variable {m n : Int}

/-- A double is the nearest one to an integer. -/
def IsNearestTo (n : Int) (d : Double) : Prop :=
  RoundsTo (decide (n < 0)) n.natAbs d

/-- Two integers have the same nearest double, a tie going to the even neighbour. -/
def SameNearest (m n : Int) : Prop :=
  ∃ x y, IsNearestTo m x ∧ IsNearestTo n y ∧ x.equal y = true

/-- The double nearest to an integer. -/
def nearest (n : Int) : Double :=
  ofDecimal (decide (n < 0)) n.natAbs 0

theorem isNearestTo_nearest (n : Int) : IsNearestTo n (nearest n) := by
  have hvalue := roundsTo_ofDecimal (decide (n < 0)) n.natAbs 0
  rwa [zpow_zero, mul_one] at hvalue

theorem equal_iff {x y : Double} : x.equal y = true ↔ ∃ r, x.rank = some r ∧ y.rank = some r := by
  unfold equal
  cases x.rank with
  | none => simp
  | some r =>
    cases y.rank with
    | none => simp
    | some s =>
      simp only [beq_iff_eq, Option.some.injEq]
      exact ⟨fun h => ⟨s, h, rfl⟩, fun ⟨t, hr, hs⟩ => hr.trans hs.symm⟩

theorem sameNearest_iff_of {x y : Double} (hx : IsNearestTo m x) (hy : IsNearestTo n y) :
    SameNearest m n ↔ x.equal y = true := by
  constructor
  · rintro ⟨x', y', hx', hy', hequal⟩
    rwa [hx.unique hx', hy.unique hy']
  · exact fun hequal => ⟨x, y, hx, hy, hequal⟩

instance (m n : Int) : Decidable (SameNearest m n) :=
  decidable_of_iff _ (sameNearest_iff_of (isNearestTo_nearest m) (isNearestTo_nearest n)).symm

/-- As long as doubles hold all whole numbers, an integer stands at its own place in their order. -/
theorem IsNearestTo.rank_of_le {x : Double} (h : IsNearestTo n x) (hsafe : n.natAbs ≤ maxSafe) :
    x.rank = some (n * unitsPerOne) := by
  rw [RoundsTo.eq_of_le h hsafe, rank]
  generalize unitsPerOne = one
  rcases Int.lt_or_le n 0 with hneg | hpos
  · have hnat : (n.natAbs : Int) = -n := by omega
    simp [hneg, hnat]
  · have hnat : (n.natAbs : Int) = n := by omega
    have hneg : ¬n < 0 := by omega
    simp [hneg, hnat]

theorem natAbs_rank_ofUnits {negative : Bool} {units : Nat} {r : Int}
    (h : (ofUnits negative units).rank = some r) : r.natAbs = min units limit := by
  have hsign : ∀ k : Nat, (if negative then -(k : Int) else k).natAbs = k := by
    cases negative <;> simp
  rw [ofUnits] at h
  split at h
  · rename_i hlt
    rw [← Option.some.inj h, hsign, Nat.min_eq_left (Nat.le_of_lt hlt)]
  · rename_i hge
    rw [← Option.some.inj h, hsign, Nat.min_eq_right (Nat.not_lt.1 hge)]

/-- All other integers stand past that range. -/
theorem IsNearestTo.lt_of_rank {x : Double} (h : IsNearestTo n x) (hbeyond : maxSafe < n.natAbs)
    {r : Int} (hr : x.rank = some r) : maxSafe * unitsPerOne < r.natAbs := by
  obtain ⟨units, hpast, hx⟩ := RoundsTo.exists_of_lt h hbeyond
  rw [hx] at hr
  rw [natAbs_rank_ofUnits hr]
  exact lt_min hpast maxSafe_mul_lt_limit

/-- Below `2 ^ 53` an integer shares its nearest double with no other integer. -/
theorem sameNearest_iff_eq (hsafe : n.natAbs ≤ maxSafe) : SameNearest m n ↔ m = n := by
  have hn := isNearestTo_nearest n
  have hm := isNearestTo_nearest m
  rw [sameNearest_iff_of hm hn, equal_iff, hn.rank_of_le hsafe]
  have hone := unitsPerOne_pos
  constructor
  · rintro ⟨r, hr, hsame⟩
    obtain rfl := Option.some.inj hsame
    rcases Nat.lt_or_ge maxSafe m.natAbs with hbeyond | hsafe'
    · -- One of them is out of the range and the other one is not
      have hpast := hm.lt_of_rank hbeyond hr
      rw [Int.natAbs_mul, Int.natAbs_natCast] at hpast
      exact absurd (Nat.mul_le_mul_right unitsPerOne hsafe) (Nat.not_le.2 hpast)
    · have hplace := Option.some.inj ((hm.rank_of_le hsafe').symm.trans hr)
      exact Int.eq_of_mul_eq_mul_right (by omega) hplace
  · rintro rfl
    exact ⟨_, hn.rank_of_le hsafe, rfl⟩

/-- Whatever sign it is written with, the double of a whole number stands where the one nearest to
the integer does; only the sign of a zero makes two doubles of one integer. -/
theorem rank_eq_of_roundsTo {negative : Bool} {k : Nat} {x y : Double} (hx : RoundsTo negative k x)
    (hy : IsNearestTo (if negative then -k else k) y) : x.rank = y.rank := by
  rcases Nat.eq_zero_or_pos k with rfl | hpos
  · have hzero : (if negative then -((0 : Nat) : Int) else (0 : Nat)) = 0 := by
      cases negative <;> rfl
    rw [hzero] at hy
    rw [RoundsTo.eq_of_le hx (Nat.zero_le _), hy.rank_of_le (Nat.zero_le _), Nat.zero_mul,
      Int.zero_mul, rank]
    cases negative <;> rfl
  · have hsign : decide ((if negative then -(k : Int) else k) < 0) = negative := by
      cases negative <;> simp [hpos]
    have hnat : (if negative then -(k : Int) else k).natAbs = k := by
      cases negative <;> simp
    rw [IsNearestTo, hsign, hnat] at hy
    rw [hx.unique hy]

theorem equal_congr {x x' : Double} (h : x.rank = x'.rank) (y : Double) :
    x.equal y = x'.equal y := by
  rw [equal, equal, h]

end SameNearest

end Double

/-! ## Operands -/

namespace Number

/-- An integer in decimal. -/
def decimal (n : Int) : Bytes :=
  integerText (decide (n < 0)) (Bytes.ofNat n.natAbs)

theorem isNearestTo_decimal (n : Int) : Double.IsNearestTo n (Number.double (decimal n)) := by
  have hvalue := roundsTo_integerText (Grammar.isDigits_ofNat n.natAbs) (decide (n < 0))
  rwa [Grammar.toNat_ofNat] at hvalue

theorem all_isNumberByte_decimal (n : Int) : (decimal n).all Grammar.isNumberByte = true :=
  isNumberByte_integerText (Grammar.isDigits_ofNat n.natAbs) _

theorem decimal_ne_nil (n : Int) : decimal n ≠ [] := by
  obtain ⟨c, rest, hdigits, -⟩ := exists_digit_cons (Grammar.isDigits_ofNat n.natAbs)
  rw [decimal, integerText, hdigits]
  simp

end Number

namespace Filter

open Grammar (isNumberByte)

/-- The search passes over a number. -/
theorem insideFrom_number {text : Bytes} (h : ∀ c ∈ text, isNumberByte c = true)
    (inside : Inside) (rest : Bytes) :
    insideFrom false 0 inside (text ++ rest) =
      insideFrom false 0 (inside.moreQuoted text) rest := by
  induction text generalizing inside with
  | nil => simp [Inside.moreQuoted, Inside.more]
  | cons c text ih =>
    obtain ⟨hc, htext⟩ := List.forall_mem_cons.1 h
    obtain ⟨hordinary, hop⟩ := ordinary_of_any_marks (p := isNumberByte) rfl hc
    have hslash : backslash ≠ c := by
      rintro rfl
      cases hc
    have hone : inside.moreQuoted [c] = inside.more 1 := by
      simp [Inside.moreQuoted, Inside.more, hslash]
    rw [List.cons_append,
      insideFrom_ordinary hordinary fun hc => absurd (hop.symm.trans hc) Bool.false_ne_true,
      ih htext, ← hone, ← Inside.moreQuoted_append, List.singleton_append]

/-- A number is an operand without quotes. -/
theorem writes_number {text : Bytes} (hne : text ≠ []) (h : text.all isNumberByte = true) :
    Writes text text where
  passes := insideFrom_number (List.all_eq_true.1 h)
  first := fun c hc => by
    have hc := List.all_eq_true.1 h c (List.mem_of_mem_head? hc)
    grind [isNumberByte, isSpace, isDigit]
  last := by
    refine ⟨text.getLast hne, List.getLast?_eq_some_getLast hne, ?_⟩
    have hc := List.all_eq_true.1 h _ (List.getLast_mem hne)
    grind [isNumberByte, isSpace, isDigit]
  unquoted := by
    have hquote : text.head? ≠ some quote := fun hhead => by
      have hc := List.all_eq_true.1 h _ (List.mem_of_mem_head? hhead)
      cases hc
    rw [unquote, if_neg (by simp [hquote])]

end Filter

namespace Grammar

open JsonQuery.Filter (Operator judging)

/-! ## Elements -/

section Elements

variable {name : Bytes}

/-- The integer that the first member of a name is, if it is a number without a point and without an
exponent. -/
def Node.integer? (name : Bytes) (n : Node) : Option Int :=
  match n.member? name with
  | some (.number num) =>
    if num.fraction = [] ∧ num.exponent = [] then some num.integer else none
  | _ => none

theorem exists_of_integer? {n : Node} {m : Int} (h : n.integer? name = some m) :
    ∃ num : Numeral, n.member? name = some (.number num) ∧ num.fraction = [] ∧
      num.exponent = [] ∧ num.integer = m := by
  unfold Node.integer? at h
  split at h
  · rename_i num hnum
    rw [Option.ite_none_right_eq_some] at h
    exact ⟨num, hnum, h.1.1, h.1.2, Option.some.inj h.2⟩
  · cases h

theorem lead_of_member? {n v : Node} (h : n.member? name = some v) : n.lead = .object := by
  cases n with
  | object gap members => rfl
  | _ => cases h

/-- An integer compares as equal with another one if both have the same nearest double. -/
theorem acceptsValue_integer {n : Node} {m : Int} (h : n.integer? name = some m) (k : Int) :
    Filter.acceptsValue .equal (Number.decimal k)
        (((n.member? name).map Node.value).getD .missing) = decide (Double.SameNearest m k) := by
  obtain ⟨num, hmember, hfraction, hexponent, rfl⟩ := exists_of_integer? h
  have hmagnitude : num.magnitude = Bytes.toNat num.whole := by
    simp [Numeral.magnitude, Numeral.part, Numeral.power, Numeral.powerOf, hfraction, hexponent,
      Bytes.toNat]
  have hvalue := roundsTo_double num
  rw [hmagnitude] at hvalue
  have hnearest := Double.isNearestTo_nearest num.integer
  have hrank := Double.rank_eq_of_roundsTo hvalue hnearest
  have hsame := Double.sameNearest_iff_of hnearest (Number.isNearestTo_decimal k)
  rw [hmember]
  show (Number.double num.text).equal (Number.double (Number.decimal k)) = _
  rw [Double.equal_congr hrank, Bool.eq_iff_iff, decide_eq_true_iff]
  exact hsame.symm

end Elements

/-! ## Queries -/

section Queries

/-- A filter that compares a member finds the elements in which the member compares with the
operand, however that is written. -/
theorem value_get_judging (engine : Engine) (hdepth : 2 ≤ engine.config.maxDepth) (d : Document)
    (hvalid : Utf8.isValid d.text = true) (harray : d.root.lead = .array)
    (hobjects : ∀ b ∈ d.spot.branches, b.node.lead = .object) {name written operand : Bytes}
    (hfirst : ∀ c ∈ name.head?, isSpace c = false)
    (hlast : ∀ c ∈ name.getLast?, isSpace c = false) (hwritten : Filter.Writes written operand)
    (htilde : operand.head? ≠ some tilde) (op : Operator) :
    (engine.get d.text (judging name op written)).value =
      gathered ((d.spot.branches.map Branch.toSpot).filter fun s =>
        Filter.acceptsValue op.comparison operand
          (((s.node.member? name).map Node.value).getD .missing)) := by
  obtain ⟨depth, hmax⟩ : ∃ depth, engine.config.maxDepth = depth + 1 + 1 :=
    ⟨engine.config.maxDepth - 2, by omega⟩
  obtain ⟨counts, hstart⟩ := start_filter ⟨engine.dialect, engine.resolve (126 + 1)⟩ d hvalid
    harray rfl (Filter.elementComponent_judging engine.dialect op hfirst hlast hwritten) rfl
    (fun s => Filter.acceptsValue op.comparison operand
      (((s.node.member? name).map Node.value).getD .missing)) (depth + 1)
    fun b hb => value_judge_member engine 126 depth (d.standsIn_spot.branch hb) hvalid
      (hobjects b hb) htilde op.comparison
  exact value_get_of_link engine hmax (link_of_startsFilter _ _ _ _ _ rfl) hstart

/-- A letter or an underscore, and more of them or digits behind it. -/
def isIdentifier : Bytes → Bool
  | [] => false
  | c :: rest =>
    (isLower c || isUpper c || c == underscore) &&
      rest.all fun d => isAlphanumeric d || d == underscore

theorem isSafe_of_isIdentifier {name : Bytes} (h : isIdentifier name = true) :
    ∀ c ∈ name, Path.isSafe c = true ∧ isSpace c = false := by
  have hbyte : ∀ c, (isAlphanumeric c || c == underscore) = true →
      Path.isSafe c = true ∧ isSpace c = false := by
    intro c hc
    refine ⟨?_, ?_⟩
    · rw [Path.isSafe, hc]
      rfl
    · grind [isAlphanumeric, isDigit, isLower, isUpper, isSpace]
  cases name with
  | nil => cases h
  | cons c rest =>
    rw [isIdentifier, Bool.and_eq_true, List.all_eq_true] at h
    refine List.forall_mem_cons.2 ⟨hbyte c ?_, fun d hd => hbyte d (h.2 d hd)⟩
    rw [isAlphanumeric, Bool.or_assoc (isDigit c), Bool.or_assoc (isDigit c), h.1, Bool.or_true]

/-- The filter that collects the elements in which the member of a name is an integer, as it is
written. -/
def equalling (name : Bytes) (n : Int) : Bytes :=
  Bytes.ofString "#(" ++ (name ++ (Bytes.ofString "==" ++
    (Number.decimal n ++ Bytes.ofString ")#")))

/-- An identifier needs no escapes. -/
theorem equalling_eq {name : Bytes} (h : isIdentifier name = true) (n : Int) :
    equalling name n = judging name .doubleEqual (Number.decimal n) := by
  have hescape := escape_of_isSafe fun c hc => (isSafe_of_isIdentifier h c hc).1
  rw [judging, hescape]
  rfl

/-- **Filters tell integers apart as far as doubles do.**  In a UTF-8 document that is an array of
objects, each with an integer as the first member of a name, the filter for an integer collects
exactly those elements, in the order of the document, in which the integer of the element has the
same nearest double.  If the integer asked for is less than `2 ^ 53` in magnitude, these are the
elements with that integer and no others. -/
theorem get_equalling (engine : Engine) (hdepth : 2 ≤ engine.config.maxDepth) (d : Document)
    (hvalid : isWellFormedUtf8 d.text = true) (harray : d.root.lead = .array) {name : Bytes}
    (hname : isIdentifier name = true)
    (hintegers : ∀ b ∈ d.spot.branches, (b.node.integer? name).isSome = true) (n : Int) :
    (engine.get d.text (equalling name n)).value =
        gathered ((d.spot.branches.map Branch.toSpot).filter fun s =>
          (s.node.integer? name).any fun m => decide (Double.SameNearest m n)) ∧
      (n.natAbs < 2 ^ 53 → (engine.get d.text (equalling name n)).value =
        gathered ((d.spot.branches.map Branch.toSpot).filter fun s =>
          s.node.integer? name == some n)) := by
  rw [isWellFormedUtf8, Bool.and_eq_true] at hvalid
  have hinteger : ∀ s ∈ d.spot.branches.map Branch.toSpot, ∃ m, s.node.integer? name = some m :=
    List.forall_mem_map.2 fun b hb => Option.isSome_iff_exists.1 (hintegers b hb)
  have hobjects : ∀ b ∈ d.spot.branches, b.node.lead = .object := by
    intro b hb
    obtain ⟨m, hm⟩ := hinteger _ (List.mem_map_of_mem hb)
    obtain ⟨num, hmember, -⟩ := exists_of_integer? hm
    exact lead_of_member? hmember
  have hname' := isSafe_of_isIdentifier hname
  have hbytes := List.all_eq_true.1 (Number.all_isNumberByte_decimal n)
  have htilde : (Number.decimal n).head? ≠ some tilde := by
    intro hhead
    cases hbytes _ (List.mem_of_mem_head? hhead)
  have hget := value_get_judging engine hdepth d hvalid.1 harray hobjects
    (fun c hc => (hname' c (List.mem_of_mem_head? hc)).2)
    (fun c hc => (hname' c (List.mem_of_mem_getLast? hc)).2)
    (Filter.writes_number (Number.decimal_ne_nil n) (Number.all_isNumberByte_decimal n)) htilde
    .doubleEqual
  rw [← equalling_eq hname] at hget
  -- What the filter compares, and what that says of small integers
  have hsame : ∀ s ∈ d.spot.branches.map Branch.toSpot,
      Filter.acceptsValue Operator.doubleEqual.comparison (Number.decimal n)
          (((s.node.member? name).map Node.value).getD .missing) =
        (s.node.integer? name).any fun m => decide (Double.SameNearest m n) := by
    intro s hs
    obtain ⟨m, hm⟩ := hinteger s hs
    rw [hm, Option.any_some]
    exact acceptsValue_integer hm n
  have hequal : n.natAbs < 2 ^ 53 → ∀ s ∈ d.spot.branches.map Branch.toSpot,
      ((s.node.integer? name).any fun m => decide (Double.SameNearest m n)) =
        (s.node.integer? name == some n) := by
    intro hsmall s hs
    obtain ⟨m, hm⟩ := hinteger s hs
    have hiff := Double.sameNearest_iff_eq (m := m) (Nat.le_of_lt_succ hsmall)
    rw [hm, Option.any_some, Bool.eq_iff_iff, decide_eq_true_iff, hiff]
    simp
  rw [List.filter_congr hsame] at hget
  exact ⟨hget, fun hsmall => by rw [hget, List.filter_congr (hequal hsmall)]⟩

/-- The document `[{"k":9007199254740992},{"k":9007199254740993},{"k":-0}]`. -/
def Document.counts : Document :=
  let key : Body := ⟨[0x6B], .plain (by decide) (by decide) (by decide) .nil⟩
  let holding (negative : Bool) (whole : Bytes) (h : IsWhole whole) : Entry Gap Node :=
    ⟨.none, .object .none [⟨⟨.none, key, .none, .none⟩,
      .number ⟨negative, whole, [], [], h, isFraction_nil, isExponent_nil⟩, .none⟩], .none⟩
  ⟨.none, .array .none
    [holding false (Bytes.ofString "9007199254740992") (.inr (by decide)),
      holding false (Bytes.ofString "9007199254740993") (.inr (by decide)),
      holding true [zero] isWhole_zero], .none⟩

theorem Document.text_counts :
    Document.counts.text = Bytes.ofString
      "[\x7b\"k\":9007199254740992\x7d,\x7b\"k\":9007199254740993\x7d,\x7b\"k\":-0\x7d]" := by
  simp only [Document.text, Document.counts, Node.text_object, Node.text_array, inside_cons,
    inside_nil, separator, Gap.none, Node.text]
  rfl

theorem isWellFormedUtf8_counts : isWellFormedUtf8 Document.counts.text = true := by
  rw [Document.text_counts]
  decide +kernel

theorem get_equalling_samples :
    (Engine.standard.get Document.counts.text (equalling [0x6B] 9007199254740993)).value =
        ⟨.json (Bytes.ofString
          "[\x7b\"k\":9007199254740992\x7d,\x7b\"k\":9007199254740993\x7d]"),
            none, some [1, 24]⟩ ∧
      (Engine.standard.get Document.counts.text (equalling [0x6B] 0)).value =
        ⟨.json (Bytes.ofString "[\x7b\"k\":-0\x7d]"), none, some [47]⟩ := by
  have hintegers : ∀ b ∈ Document.counts.spot.branches,
      (b.node.integer? [0x6B]).isSome = true := by decide
  have h := get_equalling Engine.standard (by decide) .counts isWellFormedUtf8_counts rfl
    (show isIdentifier [0x6B] = true by decide) hintegers
  let spots := Document.counts.spot.branches.map Branch.toSpot
  have hkept : ∀ q : Option Int → Bool, q (some 9007199254740992) = true →
      q (some 9007199254740993) = true → ¬q (some 0) = true →
      spots.filter (fun s => q (s.node.integer? [0x6B])) = spots.take 2 := by
    intro q hfirst hsecond hthird
    show List.filter _ (_ :: _ :: _ :: []) = _ :: _ :: []
    rw [List.filter_cons_of_pos (by exact hfirst), List.filter_cons_of_pos (by exact hsecond),
      List.filter_cons_of_neg (by exact hthird), List.filter_nil]
  -- The first two have one double between them, and the third one is zero
  have hsame := hkept (fun o => o.any fun m => decide (Double.SameNearest m 9007199254740993))
    (by decide +kernel) (by decide +kernel) (by decide +kernel)
  have hzero : spots.filter (fun s => s.node.integer? [0x6B] == some 0) = spots.drop 2 := rfl
  refine ⟨((h 9007199254740993).1.trans (congrArg gathered hsame)).trans ?_,
    (((h 0).2 (by decide)).trans (congrArg gathered hzero)).trans ?_⟩
  all_goals
    simp only [spots, Document.spot, Document.counts, Spot.branches, branchesFrom, List.map_cons,
      List.map_nil, List.take_succ_cons, List.take_zero, List.drop_succ_cons, List.drop_zero,
      gathered, Node.text_object, inside_cons, inside_nil, separator, Gap.none, Node.text]
    rfl

/-- Past `2 ^ 53` a filter for an integer collects elements with another one, too. -/
theorem get_equalling_inexact :
    isWellFormedUtf8 Document.counts.text = true ∧
      Document.counts.spot.branches.map (fun b => b.node.integer? [0x6B]) =
        [some 9007199254740992, some 9007199254740993, some 0] ∧
      (Engine.standard.get Document.counts.text (equalling [0x6B] 9007199254740993)).value ≠
        gathered ((Document.counts.spot.branches.map Branch.toSpot).filter fun s =>
          s.node.integer? [0x6B] == some 9007199254740993) := by
  refine ⟨isWellFormedUtf8_counts, rfl, fun h => ?_⟩
  have hcollected : (Engine.standard.get Document.counts.text
      (equalling [0x6B] 9007199254740993)).value.indexes.map List.length = some 2 := by
    rw [Document.text_counts]
    decide +kernel
  rw [h] at hcollected
  revert hcollected
  decide +kernel

end Queries

end Grammar

end JsonQuery
