import JsonQuery.Proofs.Backward
import JsonQuery.Proofs.Children
import JsonQuery.Proofs.Search
import JsonQuery.Result.Location

/-!
# Paths lead back

The scan that finds the path of a value runs to the left over the document.  At each value it takes
the step from the container to the value, and goes on in front of the container as if it had started
there, so the steps that it takes are the labels on the way from the root.

## Layers

- **Elements**: a scan counts the elements that stand before the value in its array.
- **Members**: a scan reads the key in front of the value, and leaves the object.
- **Steps**: the components that the steps are written with.
- **Paths**: all steps, by induction over the way from the root.
-/

namespace JsonQuery.Grammar

open Ascii Extent Step

/-! ## Elements -/

section Elements

variable {text before : Bytes}

theorem scanBack_gap (gap : Gap) (found : List Step) (before : Bytes) :
    scanBack none found (gap.text.reverse ++ before) = scanBack none found before := by
  have hspace : ∀ c ∈ gap.text.reverse, isSpace c = true := by
    intro c hc
    exact isSpace_of_mem_gapBytes (gap.isGap c (List.mem_reverse.1 hc))
  -- Reversed or not, all bytes are space, so the induction is on any such text
  generalize gap.text.reverse = text at hspace
  induction text with
  | nil => rfl
  | cons c text ih =>
    rw [List.forall_mem_cons] at hspace
    rw [List.cons_append, scanBack]
    simp only [hspace.1, if_true]
    exact ih hspace.2

/-- A byte that a scan over elements takes no notice of. -/
def isPassed (c : UInt8) : Bool :=
  c != colon && c != comma && c != openBracket && !endsValue c

theorem scanBack_passed (h : ∀ c ∈ text, isPassed c = true) (counted : Nat) (found : List Step)
    (before : Bytes) :
    scanBack (some counted) found (text.reverse ++ before) =
      scanBack (some counted) found before := by
  have hreverse : ∀ c ∈ text.reverse, isPassed c = true := by
    intro c hc
    exact h c (List.mem_reverse.1 hc)
  generalize text.reverse = text at hreverse
  induction text with
  | nil => rfl
  | cons c text ih =>
    rw [List.forall_mem_cons] at hreverse
    obtain ⟨hc, htext⟩ := hreverse
    simp only [isPassed, Bool.and_eq_true, bne_iff_ne, Bool.not_eq_true'] at hc
    rw [List.cons_append, scanBack]
    simp only [hc, if_false, Bool.false_eq_true]
    exact ih htext

/-- A value that ends with a quote or a bracket is passed over in one go. -/
theorem scanBack_closed {c : UInt8} (hclosed : endsValue c = true)
    (hextent : ofReversed ((text ++ [c]).reverse ++ before) = (text ++ [c]).length)
    (counted : Nat) (found : List Step) :
    scanBack (some counted) found ((text ++ [c]).reverse ++ before) =
      scanBack (some counted) found before := by
  have hne : c ≠ colon ∧ c ≠ comma ∧ c ≠ openBracket := by
    refine ⟨?_, ?_, ?_⟩ <;> rintro rfl <;> exact absurd hclosed (by decide)
  have hdrop : (text.reverse ++ before).drop ((text ++ [c]).length - 1) = before := by
    rw [List.length_append, List.length_singleton, Nat.add_sub_cancel, ← List.length_reverse]
    exact List.drop_left
  -- The extent of the value is dropped at once
  rw [List.reverse_concat, List.cons_append] at hextent ⊢
  rw [scanBack]
  simp only [hne, hclosed, if_false, if_true, hextent]
  rw [hdrop]

theorem isPassed_of_mem_gapBytes {c : UInt8} (h : c ∈ gapBytes) : isPassed c = true := by
  have hall : gapBytes.all isPassed = true := rfl
  exact List.all_eq_true.1 hall c h

theorem isPassed_of_isNumberByte {c : UInt8} (h : isNumberByte c = true) :
    isPassed c = true := by
  cases hdigit : isDigit c with
  | true => grind [isPassed, isDigit, endsValue]
  | false =>
    simp only [isNumberByte, hdigit, Bool.false_or, Bool.or_eq_true, beq_iff_eq] at h
    rcases h with (((rfl | rfl) | rfl) | rfl) | rfl <;> rfl

/-- An element before the place is passed over. -/
theorem scanBack_node (n : Node) (hbefore : Unescaped before) (counted : Nat)
    (found : List Step) :
    scanBack (some counted) found (n.text.reverse ++ before) =
      scanBack (some counted) found before := by
  -- Words and numbers are passed byte by byte, the other values as a whole
  cases n with
  | word w =>
    have hall : w.text.all isPassed = true := by
      rcases w with _ | _ | _ <;> rfl
    rw [Node.text]
    exact scanBack_passed (List.all_eq_true.1 hall) counted found before
  | number n =>
    rw [Node.text]
    apply scanBack_passed
    intro c hc
    exact isPassed_of_isNumberByte (List.all_eq_true.1 n.all_isNumberByte c hc)
  | string body =>
    rw [Node.text]
    exact scanBack_closed rfl (ofReversed_quoted body.isBody hbefore) counted found
  | array gap items =>
    have hinside := gap.balanced.append (balanced_inside Gap.balanced items fun e _ =>
      e.value.balanced)
    rw [Node.text_array, ← List.append_assoc, ← List.cons_append]
    exact scanBack_closed rfl (ofReversed_bracketed rfl rfl hinside) counted found
  | object gap members =>
    have hinside := gap.balanced.append (balanced_inside Tag.balanced members fun e _ =>
      e.value.balanced)
    rw [Node.text_object, ← List.append_assoc, ← List.cons_append]
    exact scanBack_closed rfl (ofReversed_bracketed rfl rfl hinside) counted found

/-- The text ends where the element of some position starts: a scan that comes to it takes the step
to that element, and goes on in front of the array. -/
structure Counts (outer : Bytes) (position : Nat) (before : Bytes) : Prop where
  unescaped : Unescaped before.reverse
  /-- The place is that element. -/
  here : ∀ found, scanBack none found before.reverse =
    scanBack none (.position position :: found) outer.reverse
  /-- The place is so many elements further on. -/
  further : ∀ counted found, scanBack (some counted) found before.reverse =
    scanBack none (.position (counted + position) :: found) outer.reverse

theorem counts_open (outer : Bytes) (gap : Gap) :
    Counts outer 0 (outer ++ openBracket :: gap.text) := by
  have hreverse : (outer ++ openBracket :: gap.text).reverse =
      gap.text.reverse ++ openBracket :: outer.reverse := by
    simp
  refine ⟨?_, ?_, ?_⟩
  · rw [hreverse]
    exact .balanced gap.balanced (.cons (by decide))
  · intro found
    rw [hreverse, scanBack_gap, scanBack]
    rfl
  · intro counted found
    rw [hreverse, scanBack_passed fun c hc => isPassed_of_mem_gapBytes (gap.isGap c hc), scanBack]
    rfl

theorem Counts.next {outer : Bytes} {position : Nat} (h : Counts outer position before)
    (front : Gap) (n : Node) (gap : Gap) :
    Counts outer (position + 1)
      (before ++ (front.text ++ (n.text ++ (gap.text ++ [comma])))) := by
  have hreverse : (before ++ (front.text ++ (n.text ++ (gap.text ++ [comma])))).reverse =
      comma :: (gap.text.reverse ++
        (n.text.reverse ++ (front.text.reverse ++ before.reverse))) := by
    simp
  -- Gap, value and gap are passed, which leaves the count as it is
  have hfurther : ∀ counted found, scanBack (some counted) found
      (gap.text.reverse ++ (n.text.reverse ++ (front.text.reverse ++ before.reverse))) =
        scanBack none (.position (counted + position) :: found) outer.reverse := by
    intro counted found
    rw [scanBack_passed fun c hc => isPassed_of_mem_gapBytes (gap.isGap c hc),
      scanBack_node n (.balanced front.balanced h.unescaped),
      scanBack_passed fun c hc => isPassed_of_mem_gapBytes (front.isGap c hc), h.further]
  refine ⟨?_, ?_, ?_⟩
  · rw [hreverse]
    exact .cons (by decide)
  · intro found
    rw [hreverse, scanBack, Nat.add_comm position 1, ← hfurther 1 found]
    rfl
  · intro counted found
    rw [hreverse, scanBack, Nat.add_comm position 1, ← Nat.add_assoc,
      ← hfurther (counted + 1) found]
    rfl

/-- From an element of an array, a scan takes the step to it and goes on in front of the array. -/
theorem scanBack_elements {outer : Bytes} (items : List (Entry Gap Node)) {position : Nat}
    (h : Counts outer position before) (after : Bytes) {b : Branch}
    (hb : b ∈ branchesFrom Gap.text (fun n _ => .position n) before.length position items) :
    ∃ n, b.label = .position n ∧ ∀ found,
      scanBack none found ((before ++ (inside Gap.text items ++ after)).take b.offset).reverse =
        scanBack none (.position n :: found) outer.reverse := by
  induction items generalizing before position with
  | nil => cases hb
  | cons e rest ih =>
    rw [branchesFrom, List.mem_cons] at hb
    rcases hb with rfl | hb
    · refine ⟨position, rfl, fun found => ?_⟩
      have htake : (before ++ (inside Gap.text (e :: rest) ++ after)).take
          (before.length + e.front.text.length) = before ++ e.front.text := by
        rw [append_inside_cons, ← List.append_assoc, ← List.length_append]
        exact List.take_left
      rw [htake, List.reverse_append, scanBack_gap, h.here]
    · -- There is a comma behind the element, since another one follows
      have hnext : Counts outer (position + 1)
          (before ++ (e.front.text ++ (e.value.text ++ separator e rest))) := by
        cases rest with
        | nil => cases hb
        | cons e' rest => exact h.next e.front e.value e.gap
      obtain ⟨n, hlabel, hscan⟩ := ih hnext (by
        simp only [List.length_append, ← Nat.add_assoc]
        exact hb)
      refine ⟨n, hlabel, fun found => ?_⟩
      rw [← hscan found, append_inside_cons]
      simp only [List.append_assoc]

end Elements

/-! ## Members -/

section Members

variable {text outer : Bytes}

/-- No string and no container ends here. -/
def EndsOpen (text : Bytes) : Prop :=
  ∀ c ∈ text.getLast?, c ≠ quote ∧ isCloser c = false

theorem EndsOpen.gap (gap : Gap) (h : EndsOpen text) : EndsOpen (text ++ gap.text) := by
  intro c hc
  rw [List.getLast?_append] at hc
  cases hlast : gap.text.getLast? with
  | none =>
    rw [hlast] at hc
    exact h c hc
  | some b =>
    rw [hlast] at hc
    obtain rfl : b = c := by simpa using hc
    have hmem := gap.isGap b (List.mem_of_getLast? hlast)
    simp only [gapBytes, List.mem_cons, List.not_mem_nil, or_false] at hmem
    rcases hmem with rfl | rfl | rfl | rfl <;> exact ⟨by decide, rfl⟩

theorem EndsOpen.comma (text : Bytes) : EndsOpen (text ++ [Ascii.comma]) := by
  intro c hc
  rw [List.getLast?_concat] at hc
  exact Option.some.inj hc ▸ ⟨by decide, rfl⟩

theorem dropWhile_gap (gap : Gap) (before : Bytes) :
    (gap.text.reverse ++ quote :: before).dropWhile (· != quote) = quote :: before := by
  rw [List.dropWhile_append_of_pos]
  · rfl
  · intro c hc
    have hall : gapBytes.all (· != quote) = true := rfl
    exact List.all_eq_true.1 hall c (gap.isGap c (List.mem_reverse.1 hc))

/-- At a colon, a scan reads the key in front and leaves the object. -/
theorem scanBack_colon (gap : Gap) {body inside : Bytes} (hbody : IsBody body)
    (hunescaped : Unescaped (inside ++ outer)) (hne : inside ≠ [])
    (hinside : ofReversed (inside ++ outer) = inside.length) (found : List Step) :
    scanBack none found
        (colon :: (gap.text.reverse ++ ((Bytes.quoted body).reverse ++ (inside ++ outer)))) =
      scanBack none (.key (Bytes.quoted body) :: found) outer := by
  have hquoted : (Bytes.quoted body).reverse ++ (inside ++ outer) =
      quote :: (body.reverse ++ (quote :: (inside ++ outer))) := by
    simp [Bytes.quoted]
  have hkey := ofReversed_quoted hbody hunescaped
  have hlength : (Bytes.quoted body).length = (Bytes.quoted body).reverse.length :=
    List.length_reverse.symm
  have hopen : (inside ++ outer).isEmpty = false := by simpa using fun h => absurd h hne
  -- The key is cut out of the text, then the scan looks for the brace
  rw [scanBack, if_neg (by decide), if_pos rfl, hquoted, dropWhile_gap, ← hquoted]
  dsimp only
  rw [hkey, hlength, List.drop_left, List.take_left, List.reverse_reverse, hopen, hinside,
    List.drop_left]
  rfl

/-- From the value of a member, a scan takes the step to it and goes on in front of the object. -/
theorem scanBack_tag (tag : Tag) (hbalanced : Balanced text) (hends : EndsOpen text)
    (outer : Bytes) (found : List Step) :
    scanBack none found (tag.text.reverse ++ (text.reverse ++ openBrace :: outer)) =
      scanBack none (.key (Bytes.quoted tag.key.text) :: found) outer := by
  have hinside := hbalanced.append tag.before.balanced
  have htext : tag.text.reverse ++ (text.reverse ++ openBrace :: outer) =
      tag.after.text.reverse ++ (colon :: (tag.between.text.reverse ++
        ((Bytes.quoted tag.key.text).reverse ++
          (((text ++ tag.before.text).reverse ++ [openBrace]) ++ outer)))) := by
    simp [Tag.text]
  rw [htext, scanBack_gap]
  apply scanBack_colon tag.between tag.key.isBody
  · rw [List.append_assoc, List.singleton_append]
    exact .balanced hinside (.cons (by decide))
  · simp
  · rw [List.append_assoc, List.singleton_append, ofReversed_inside rfl hinside
      (hends.gap tag.before)]
    simp only [List.length_append, List.length_reverse, List.length_singleton]

/-- From a member of an object, a scan takes the step to it and goes on in front of the object. -/
theorem scanBack_members (outer : Bytes) (members : List (Entry Tag Node)) (position : Nat)
    (hbalanced : Balanced text) (hends : EndsOpen text) (after : Bytes) {b : Branch}
    (hb : b ∈ branchesFrom Tag.text (fun _ tag => .key tag.key.name)
      (outer ++ openBrace :: text).length position members) :
    ∃ tag : Tag, b.label = .key tag.key.name ∧
      Bytes.quoted tag.key.text <:+:
        (outer ++ openBrace :: text) ++ (inside Tag.text members ++ after) ∧
      ∀ found, scanBack none found
          (((outer ++ openBrace :: text) ++ (inside Tag.text members ++ after)).take
            b.offset).reverse =
        scanBack none (.key (Bytes.quoted tag.key.text) :: found) outer.reverse := by
  induction members generalizing text position with
  | nil => cases hb
  | cons e rest ih =>
    rw [append_inside_cons]
    rw [branchesFrom, List.mem_cons] at hb
    rcases hb with rfl | hb
    · refine ⟨e.front, rfl, ?_, fun found => ?_⟩
      · refine ⟨(outer ++ openBrace :: text) ++ e.front.before.text,
          e.front.between.text ++ colon :: e.front.after.text ++
            (e.value.text ++ (separator e rest ++ (inside Tag.text rest ++ after))), ?_⟩
        simp [Tag.text]
      · have hreverse : ((outer ++ openBrace :: text) ++ e.front.text).reverse =
            e.front.text.reverse ++ (text.reverse ++ openBrace :: outer.reverse) := by
          simp
        rw [← List.append_assoc _ e.front.text, ← List.length_append, List.take_left, hreverse,
          scanBack_tag e.front hbalanced hends]
    · -- There is a comma behind the member, since another one follows
      have hnext : EndsOpen (text ++ (e.front.text ++ (e.value.text ++ separator e rest))) := by
        cases rest with
        | nil => cases hb
        | cons e' rest =>
          have hcomma := EndsOpen.comma
            (text ++ (e.front.text ++ (e.value.text ++ e.gap.text)))
          simpa [separator] using hcomma
      have hpassed := hbalanced.append (e.front.balanced.append
        (e.value.balanced.append (balanced_separator e rest)))
      have hrest := ih (position + 1) hpassed hnext (by
        simpa only [List.length_append, List.length_cons, Nat.add_assoc, Nat.add_comm,
          Nat.add_left_comm] using hb)
      simpa only [List.append_assoc, List.cons_append] using hrest

end Members

/-! ## Steps -/

/-- The component that is written for a label. -/
def Component.ofLabel : Label → Component
  | .key name => ofName name
  | .position n => ofName (Bytes.ofNat n)

section Steps

theorem toNat_of_isDigit {c : Char} (h : c.isDigit = true) :
    (UInt8.ofNat c.toNat).toNat = c.toNat ∧ 0x30 ≤ c.toNat ∧ c.toNat ≤ 0x39 := by
  simp only [Char.isDigit, Bool.and_eq_true, decide_eq_true_eq] at h
  have hlow : 0x30 ≤ c.toNat := h.1
  have hhigh : c.toNat ≤ 0x39 := h.2
  rw [UInt8.toNat_ofNat']
  omega

theorem isDigit_of_mem_toDigits {n : Nat} {c : Char} (h : c ∈ Nat.toDigits 10 n) :
    c.isDigit = true :=
  Nat.isDigit_of_mem_toDigits (by decide) (by decide) h

theorem isDigit_of_mem_ofNat {n : Nat} {c : UInt8} (h : c ∈ Bytes.ofNat n) :
    isDigit c = true := by
  obtain ⟨d, hd, rfl⟩ := List.mem_map.1 h
  have hdigit := toNat_of_isDigit (isDigit_of_mem_toDigits hd)
  simp only [isDigit, Bool.and_eq_true, decide_eq_true_eq, UInt8.le_iff_toNat_le, hdigit.1]
  exact hdigit.2

/-- Digits read back as the number that they are written for. -/
theorem toNat_ofNat (n : Nat) : Bytes.toNat (Bytes.ofNat n) = n := by
  -- The two folds agree digit by digit, whatever was read before
  have hfold : ∀ (digits : List Char) (value : Nat), (∀ c ∈ digits, c.isDigit = true) →
      (digits.map fun c => UInt8.ofNat c.toNat).foldl (fun n c => n * 10 + digitValue c) value =
        Nat.ofDigitChars 10 digits value := by
    intro digits
    induction digits with
    | nil => exact fun _ _ => rfl
    | cons c digits ih =>
      intro value hdigits
      rw [List.forall_mem_cons] at hdigits
      have hc : digitValue (UInt8.ofNat c.toNat) = c.toNat - '0'.toNat := by
        rw [digitValue, (toNat_of_isDigit hdigits.1).1]
        rfl
      rw [List.map_cons, List.foldl_cons, ih _ hdigits.2, Nat.ofDigitChars_cons, hc, Nat.mul_comm]
  rw [Bytes.toNat, Bytes.ofNat, hfold _ _ fun c hc => isDigit_of_mem_toDigits hc]
  exact Nat.ofDigitChars_ten_toDigits

/-- The position of an element reads back as long as a word holds it. -/
theorem isDigits_ofNat (n : Nat) : Number.isDigits (Bytes.ofNat n) = true := by
  have hne : (Bytes.ofNat n).isEmpty = false := by
    simp [Bytes.ofNat, Nat.toDigits_ne_nil]
  have hall : (Bytes.ofNat n).all isDigit = true :=
    List.all_eq_true.2 fun c hc => isDigit_of_mem_ofNat hc
  simp [Number.isDigits, hne, hall]

theorem position?_ofNat {n : Nat} (h : n < Number.wordLimit) :
    Number.position? (Bytes.ofNat n) = some n := by
  simp [Number.position?, isDigits_ofNat, toNat_ofNat, h]

theorem escape_of_isSafe {text : Bytes} (h : ∀ c ∈ text, Path.isSafe c = true) :
    Path.escape text = text := by
  induction text with
  | nil => rfl
  | cons c text ih =>
    rw [List.forall_mem_cons] at h
    have hrest := ih h.2
    rw [Path.escape] at hrest ⊢
    simp [h.1, hrest]

/-- Digits need no escape. -/
theorem escape_ofNat (n : Nat) : Path.escape (Bytes.ofNat n) = Bytes.ofNat n := by
  apply escape_of_isSafe
  intro c hc
  simp [Path.isSafe, isAlphanumeric, isDigit_of_mem_ofNat hc]

theorem component?_position (n : Nat) :
    (Step.position n).component? = some (Component.ofLabel (.position n)).text := by
  rw [Step.component?, Component.ofLabel, Component.text_ofName, escape_ofNat]

/-- A key is written as the name that it stands for. -/
theorem component?_key (body : Body) (hvalid : Utf8.isValid (Bytes.quoted body.text) = true) :
    (Step.key (Bytes.quoted body.text)).component? =
      some (Component.ofLabel (.key body.name)).text := by
  have hparse := parse_scalar ⟨.none, .string body, .none⟩ rfl
  have htext : (Document.mk .none (.string body) .none).text = Bytes.quoted body.text := by
    simp [Document.text, Gap.none, Node.text]
  have hreading : (Document.mk .none (.string body) .none).spot.reading =
      .located (.string (Bytes.quoted body.text)) 0 := by
    simp [Spot.reading, Document.spot, Node.lead, Node.text, Value.ofSpan, Utf8.lossy, hvalid,
      Gap.none]
  rw [htext, hreading] at hparse
  rw [Step.component?, hparse, Component.ofLabel, Component.text_ofName]
  rfl

end Steps

/-! ## Paths -/

section Paths

variable {text : Bytes} {t : Spot}

/-- From a branch, a scan takes the step to it and goes on in front of the container. -/
theorem Spot.StandsIn.scanBack_branch (hvalid : Utf8.isValid text = true) (h : t.StandsIn text)
    {b : Branch} (hb : b ∈ t.branches) :
    ∃ step : Step, step.component? = some (Component.ofLabel b.label).text ∧ ∀ found,
      scanBack none found (text.take b.offset).reverse =
        scanBack none (step :: found) (text.take t.offset).reverse := by
  obtain ⟨offset, node⟩ := t
  obtain ⟨before, after, rfl, rfl⟩ := h
  rw [List.take_left]
  -- The kind of the container tells which steps lead to its branches
  cases node with
  | word w => cases hb
  | number n => cases hb
  | string body => cases hb
  | array gap items =>
    have htext : before ++ ((Node.array gap items).text ++ after) =
        (before ++ openBracket :: gap.text) ++
          (inside Gap.text items ++ closeBracket :: after) := by
      simp [Node.text_array]
    obtain ⟨n, hlabel, hscan⟩ := scanBack_elements items (counts_open before gap)
      (closeBracket :: after) (b := b) (by
        simpa [Spot.branches, Nat.add_assoc, Nat.add_comm, Nat.add_left_comm] using hb)
    rw [htext, hlabel]
    exact ⟨_, component?_position n, hscan⟩
  | object gap members =>
    have hends : EndsOpen gap.text := by
      have hnil : EndsOpen ([] : Bytes) := by simp [EndsOpen]
      simpa using hnil.gap gap
    have htext : before ++ ((Node.object gap members).text ++ after) =
        (before ++ openBrace :: gap.text) ++ (inside Tag.text members ++ closeBrace :: after) := by
      simp [Node.text_object]
    obtain ⟨tag, hlabel, hinfix, hscan⟩ := scanBack_members before members 0
      gap.balanced hends (closeBrace :: after) (b := b) (by
        simpa [Spot.branches, Nat.add_assoc, Nat.add_comm, Nat.add_left_comm] using hb)
    rw [htext] at hvalid ⊢
    rw [hlabel]
    refine ⟨_, component?_key tag.key ?_, hscan⟩
    obtain ⟨front, back, hinfix⟩ := hinfix
    have hkey : (Spot.mk front.length (.string tag.key)).StandsIn
        (before ++ openBrace :: gap.text ++ (inside Tag.text members ++ closeBrace :: after)) := by
      refine ⟨front, back, ?_, rfl⟩
      rw [← hinfix, Node.text, List.append_assoc]
    have hquoted := hkey.isValid hvalid
    rwa [Node.text] at hquoted

/-- The steps to a place are the labels on the way from the root. -/
theorem ofOffset?_leads {d : Document} (hvalid : Utf8.isValid d.text = true) {labels : List Label}
    {s : Spot} (h : Leads d.spot labels s) :
    ∃ steps, Step.ofOffset? d.text s.offset = some steps ∧
      steps.mapM Step.component? = some (labels.map fun l => (Component.ofLabel l).text) := by
  -- With any steps found before, which is what the induction needs
  suffices hscan : ∃ steps, (∀ found, scanBack none found (d.text.take s.offset).reverse =
      some (steps ++ found)) ∧
        steps.mapM Step.component? = some (labels.map fun l => (Component.ofLabel l).text) by
    obtain ⟨steps, hsteps, hcomponents⟩ := hscan
    refine ⟨steps, ?_, hcomponents⟩
    rw [Step.ofOffset?, hsteps, List.append_nil]
  induction h with
  | here =>
    refine ⟨[], fun found => ?_, rfl⟩
    have hscan := scanBack_gap d.before found []
    rw [List.append_nil] at hscan
    rw [Document.text, Document.spot, List.take_left, hscan, scanBack]
    rfl
  | branch hleads hb ih =>
    obtain ⟨steps, hsteps, hcomponents⟩ := ih
    obtain ⟨step, hcomponent, hscan⟩ :=
      (hleads.standsIn d.standsIn_spot).scanBack_branch hvalid hb
    refine ⟨steps ++ [step], fun found => ?_, ?_⟩
    · rw [hscan, hsteps, List.append_assoc, List.singleton_append]
    · simp [hcomponents, hcomponent]

/-- The component that stands for a label in a path: a name with its escapes, or the digits of a
position. -/
def Label.written : Label → Bytes
  | .key name => Path.escape name
  | .position n => Bytes.ofNat n

theorem Component.text_ofLabel (l : Label) : (Component.ofLabel l).text = l.written := by
  cases l with
  | key name => rw [Component.ofLabel, text_ofName, Label.written]
  | position n => rw [Component.ofLabel, text_ofName, escape_ofNat, Label.written]

/-- The path of a way: the components of its labels, or a name of its own for the root. -/
def wayPath (labels : List Label) : Bytes :=
  if labels.isEmpty then Bytes.ofString "@this" else Path.ofComponents (labels.map Label.written)

/-- A value that stands at its place is found there by its text, and the path is read off the
way. -/
theorem pathOfSpan?_leads {d : Document} (hvalid : Utf8.isValid d.text = true)
    {labels : List Label} {s : Spot} (h : Leads d.spot labels s) :
    Result.pathOfSpan? d.text s.offset s.node.text = some (wayPath labels) := by
  obtain ⟨steps, hsteps, hcomponents⟩ := ofOffset?_leads hvalid h
  have hprefix : s.node.text.isPrefixOf (d.text.drop s.offset) = true :=
    List.isPrefixOf_iff_prefix.2 (h.standsIn d.standsIn_spot).prefix_drop
  have htext : s.node.text.isEmpty = false := by
    obtain ⟨c, text, htext, -⟩ := s.node.text_cons
    rw [htext]
    rfl
  rw [Result.pathOfSpan?, htext, hprefix, hsteps]
  -- There are as many steps as labels, so none at the root only
  cases steps with
  | nil =>
    cases labels with
    | nil => rfl
    | cons l labels => cases hcomponents
  | cons step steps =>
    cases labels with
    | nil =>
      rw [List.mapM_cons] at hcomponents
      obtain ⟨_, -, hrest⟩ := Option.bind_eq_some_iff.1 hcomponents
      obtain ⟨_, -, hnil⟩ := Option.bind_eq_some_iff.1 hrest
      cases hnil
    | cons l labels =>
      simp [hcomponents, wayPath, Component.text_ofLabel]

/-- The path of a value below the root is written with the labels on the way to it. -/
theorem path_result {d : Document} (hvalid : Utf8.isValid d.text = true) {labels : List Label}
    {s : Spot} (h : Leads d.spot labels s) (hne : labels ≠ []) :
    s.result.path d.text = pathOf (labels.map Component.ofLabel) := by
  have hraw : s.result.raw = s.node.text := s.node.raw_value
  have hempty : labels.isEmpty = false := by simpa using hne
  rw [Result.path, hraw]
  show (Result.pathOfSpan? d.text s.offset s.node.text).getD [] = _
  rw [pathOfSpan?_leads hvalid h, Option.getD_some, wayPath, hempty, pathOf, List.map_map]
  simp only [Bool.false_eq_true, if_false, Function.comp_def, Component.text_ofLabel]

/-- **Paths are read off the way.**  Take any value of a UTF-8 document, whatever names repeat
around it, and any result that claims its offset and has its source text.  The path of that result
is `@this` at the root.  Below, it is the components of the way from the root with dots between
them: the escaped name of each member, and the digits of the position of each element. -/
theorem path_of_place (d : Document) (hvalid : isWellFormedUtf8 d.text = true)
    {labels : List Label} {s : Spot} (h : Leads d.spot labels s) {r : Result}
    (hindex : r.index = some s.offset) (hraw : r.raw = s.node.text) :
    r.path d.text =
      if labels.isEmpty then Bytes.ofString "@this"
      else Path.ofComponents (labels.map fun
        | .key name => Path.escape name
        | .position n => Bytes.ofNat n) := by
  rw [isWellFormedUtf8, Bool.and_eq_true] at hvalid
  rw [Result.path, hindex, hraw, Option.getD_some, pathOfSpan?_leads hvalid.1 h, Option.getD_some]
  rfl

/-- The object `{"a.b":{},"a.b":true}`, with two members of one name. -/
def Node.repeated : Node :=
  let name : Body := ⟨Bytes.ofString "a.b", .plain (by decide) (by decide) (by decide)
    (.plain (by decide) (by decide) (by decide) (.plain (by decide) (by decide) (by decide) .nil))⟩
  let member (n : Node) : Entry Tag Node := ⟨⟨.none, name, .none, .none⟩, n, .none⟩
  .object .none [member (.object .none []), member (.word (.boolean true))]

/-- The document `["],\"",{"a.b":{},"a.b":true}]`, with a string that looks like the end of an array
and of itself. -/
def Document.disguised : Document :=
  let text : Body := ⟨Bytes.ofString "],\\\"", .plain (by decide) (by decide) (by decide)
    (.plain (by decide) (by decide) (by decide) (.short (by decide) .nil))⟩
  ⟨.none, .array .none [⟨.none, .string text, .none⟩, ⟨.none, .repeated, .none⟩], .none⟩

theorem Document.text_disguised : Document.disguised.text =
    Bytes.ofString "[\"],\\\"\",\x7b\"a.b\":\x7b\x7d,\"a.b\":true\x7d]" := by
  simp only [Document.text, Document.disguised, Node.repeated, Node.text_object, Node.text_array,
    inside_cons, inside_nil, separator, Gap.none, Node.text]
  rfl

theorem path_of_place_sample :
    (Result.located (.json Document.disguised.text) 0).path Document.disguised.text =
        Bytes.ofString "@this" ∧
      (Result.located (.boolean true) 24).path Document.disguised.text =
        Bytes.ofString "1.a\\.b" := by
  have hvalid : isWellFormedUtf8 Document.disguised.text = true := by
    rw [Document.text_disguised]
    rfl
  have hroot : Document.disguised.root.text = Document.disguised.text := by
    simp [Document.text, Document.disguised, Gap.none]
  have hobject : Leads Document.disguised.spot [.position 1] ⟨8, .repeated⟩ := by
    refine .branch (b := ⟨⟨8, .repeated⟩, .position 1⟩) (.here _) ?_
    simp only [Spot.branches, Document.spot, Document.disguised, branchesFrom, Node.text]
    exact List.mem_cons_of_mem _ List.mem_cons_self
  have hlast : Leads Document.disguised.spot [.position 1, .key (Bytes.ofString "a.b")]
      ⟨24, .word (.boolean true)⟩ := by
    refine .branch (b := ⟨⟨24, _⟩, .key (Bytes.ofString "a.b")⟩) hobject ?_
    simp only [Spot.branches, Node.repeated, branchesFrom, Node.text_object, inside_nil]
    exact List.mem_cons_of_mem _ List.mem_cons_self
  exact ⟨path_of_place .disguised hvalid (.here _) rfl hroot.symm,
    path_of_place .disguised hvalid hlast rfl (Node.raw_value (.word (.boolean true)))⟩

end Paths

end JsonQuery.Grammar
