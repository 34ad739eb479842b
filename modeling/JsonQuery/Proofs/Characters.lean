import JsonQuery.Proofs.Places

/-!
# Characters of UTF-8 texts

The machine of `Utf8` reads one byte at a time.  Here a UTF-8 text is cut into the bytes of its
characters instead, so that reading the characters and writing them again gives the text.

## Layers

- **Joins**: texts that are put together from UTF-8 texts, and how they come apart again.
- **Sequences**: `Sequence` is the bytes of one character, with the character that they are read as.
- **Characters**: a text is written by its characters, and each one-byte character is among them.
- **Written characters**: what any characters are written as is UTF-8 and is read as them.
- **Counting**: of each character one byte counts.
-/

namespace JsonQuery.Utf8

/-! ## Joins -/

section Joins

variable {a b text : Bytes} {c : UInt8}

theorem isValid_iff_after : isValid text = true ↔ State.lead.after text = some .lead :=
  accepts_iff_after .lead text

/-- Behind a UTF-8 text the machine stands as in front of it. -/
theorem isValid_append_iff (ha : isValid a = true) :
    isValid (a ++ b) = true ↔ isValid b = true := by
  rw [isValid_iff_after, isValid_iff_after, State.after_append, isValid_iff_after.1 ha,
    Option.bind_some]

theorem isValid_append (ha : isValid a = true) (hb : isValid b = true) :
    isValid (a ++ b) = true :=
  (isValid_append_iff ha).2 hb

theorem isValid_of_ascii (h : ∀ c ∈ text, c ≤ 0x7F) : isValid text = true := by
  induction text with
  | nil => rfl
  | cons c text ih =>
    rw [List.forall_mem_cons] at h
    have hc : State.lead.next c = some .lead := if_pos h.1
    rw [isValid_iff_after, State.after_cons, hc]
    exact isValid_iff_after.1 (ih h.2)

theorem isValid_cons_iff (hc : c ≤ 0x7F) : isValid (c :: text) = true ↔ isValid text = true := by
  have hone : isValid [c] = true := isValid_of_ascii (by simpa using hc)
  exact isValid_append_iff hone

/-- A UTF-8 text ends in front of a one-byte character. -/
theorem isValid_append_cons_iff (hc : c ≤ 0x7F) :
    isValid (a ++ c :: b) = true ↔ isValid a = true ∧ isValid b = true := by
  constructor
  · intro h
    obtain ⟨ha, hb⟩ := isValid_of_append_ascii hc h
    exact ⟨ha, (isValid_cons_iff hc).1 hb⟩
  · rintro ⟨ha, hb⟩
    exact isValid_append ha ((isValid_cons_iff hc).2 hb)

theorem isValid_quoted_iff : isValid (Bytes.quoted text) = true ↔ isValid text = true := by
  have hquote : Ascii.quote ≤ 0x7F := by decide
  rw [Bytes.quoted, List.cons_append, isValid_cons_iff hquote, isValid_append_cons_iff hquote]
  exact and_iff_left rfl

theorem isValid_commaJoin {texts : List Bytes} (h : ∀ t ∈ texts, isValid t = true) :
    isValid (Bytes.commaJoin texts) = true := by
  induction texts with
  | nil => rfl
  | cons t texts ih =>
    rw [List.forall_mem_cons] at h
    cases texts with
    | nil =>
      rw [Bytes.commaJoin_singleton]
      exact h.1
    | cons u texts =>
      rw [Bytes.commaJoin_cons_cons, isValid_append_cons_iff (by decide)]
      exact ⟨h.1, ih h.2⟩

end Joins

/-! ## Sequences -/

section Sequences

/-- The bytes of a character as the machine reads them, with the code point that they stand for. -/
inductive Sequence : Bytes → Nat → Prop where
  | one {a : UInt8} (ha : State.afterLead a = some .lead) : Sequence [a] a.toNat
  | two {a b : UInt8} (ha : State.afterLead a = some .tail1)
      (hb : State.next .tail1 b = some .lead) :
      Sequence [a, b] (leadBits a * 0x40 + b.toNat % 0x40)
  | three {a b c : UInt8} {t : State} (ht : t ≠ .lead) (ha : State.afterLead a = some t)
      (hb : t.next b = some .tail1) (hc : State.next .tail1 c = some .lead) :
      Sequence [a, b, c] ((leadBits a * 0x40 + b.toNat % 0x40) * 0x40 + c.toNat % 0x40)
  | four {a b c d : UInt8} {t : State} (ht : t ≠ .lead) (ha : State.afterLead a = some t)
      (hb : t.next b = some .tail2) (hc : State.next .tail2 c = some .tail1)
      (hd : State.next .tail1 d = some .lead) :
      Sequence [a, b, c, d]
        (((leadBits a * 0x40 + b.toNat % 0x40) * 0x40 + c.toNat % 0x40) * 0x40 + d.toNat % 0x40)

theorem Sequence.length_pos {s : Bytes} {n : Nat} (h : Sequence s n) : 0 < s.length := by
  cases h <;> exact Nat.succ_pos _

/-- A one-byte character is all that it is found in. -/
theorem Sequence.eq_of_mem {s : Bytes} {n : Nat} (h : Sequence s n) {c : UInt8} (hc : c ≤ 0x7F)
    (hmem : c ∈ s) : s = [c] ∧ n = c.toNat := by
  -- Such a byte is read between two characters only, and leads back there
  have hfirst : ∀ t, State.afterLead c = some t → t = .lead := fun t h =>
    (next_of_ascii (s := .lead) hc h).2
  have hbehind : ∀ s t, State.next s c = some t → s = .lead := fun s t h =>
    (next_of_ascii hc h).1
  cases h with
  | one ha =>
    obtain rfl : c = _ := List.mem_singleton.1 hmem
    exact ⟨rfl, rfl⟩
  | two ha hb =>
    simp only [List.mem_cons, List.not_mem_nil, or_false] at hmem
    rcases hmem with rfl | rfl
    · cases hfirst _ ha
    · cases hbehind _ _ hb
  | three ht ha hb hc =>
    simp only [List.mem_cons, List.not_mem_nil, or_false] at hmem
    rcases hmem with rfl | rfl | rfl
    · exact absurd (hfirst _ ha) ht
    · exact absurd (hbehind _ _ hb) ht
    · cases hbehind _ _ hc
  | four ht ha hb hc hd =>
    simp only [List.mem_cons, List.not_mem_nil, or_false] at hmem
    rcases hmem with rfl | rfl | rfl | rfl
    · exact absurd (hfirst _ ha) ht
    · exact absurd (hbehind _ _ hb) ht
    · cases hbehind _ _ hc
    · cases hbehind _ _ hd

theorem accepts_of_ne_lead {s : State} {text : Bytes} (hs : s ≠ .lead)
    (h : s.accepts text = true) :
    ∃ b rest t, text = b :: rest ∧ s.next b = some t ∧ t.accepts rest = true := by
  cases text with
  | nil => exact absurd (beq_iff_eq.1 h) hs
  | cons b rest =>
    cases hnext : s.next b with
    | none => simp [State.accepts, hnext] at h
    | some t => exact ⟨b, rest, t, rfl, hnext, by simpa [State.accepts, hnext] using h⟩

theorem eq_of_within {low high b : UInt8} {after t : State}
    (h : State.within low high b after = some t) : t = after := by
  rw [State.within] at h
  split at h
  · exact (Option.some.inj h).symm
  · cases h

/-- A UTF-8 text that is not empty starts with a character. -/
theorem exists_sequence {a : UInt8} {rest : Bytes} (h : isValid (a :: rest) = true) :
    ∃ s n tail, Sequence s n ∧ a :: rest = s ++ tail ∧ isValid tail = true := by
  have hlead : ∃ t, State.afterLead a = some t ∧ t.accepts rest = true := by
    cases hnext : State.afterLead a with
    | none => simp [isValid, State.accepts, State.next, hnext] at h
    | some t => exact ⟨t, rfl, by simpa [isValid, State.accepts, State.next, hnext] using h⟩
  obtain ⟨t, ha, h⟩ := hlead
  -- The state behind the first byte tells how many bytes follow
  have hone : t = .lead ∨ t = .tail1 ∨
      (t ≠ .lead ∧ ∀ b u, t.next b = some u → u = .tail1) ∨
      (t ≠ .lead ∧ ∀ b u, t.next b = some u → u = .tail2) := by
    cases t with
    | lead => exact .inl rfl
    | tail1 => exact .inr (.inl rfl)
    | tail2 | afterE0 | afterED => exact .inr (.inr (.inl ⟨by decide, fun _ _ => eq_of_within⟩))
    | tail3 | afterF0 | afterF4 => exact .inr (.inr (.inr ⟨by decide, fun _ _ => eq_of_within⟩))
  rcases hone with rfl | rfl | ⟨ht, hnext⟩ | ⟨ht, hnext⟩
  · exact ⟨_, _, rest, .one ha, rfl, h⟩
  · obtain ⟨b, rest, u, rfl, hb, h⟩ := accepts_of_ne_lead (by decide) h
    obtain rfl := eq_of_within hb
    exact ⟨_, _, rest, .two ha hb, rfl, h⟩
  · obtain ⟨b, rest, u, rfl, hb, h⟩ := accepts_of_ne_lead ht h
    obtain rfl := hnext b u hb
    obtain ⟨c, rest, u, rfl, hc, h⟩ := accepts_of_ne_lead (by decide) h
    obtain rfl := eq_of_within hc
    exact ⟨_, _, rest, .three ht ha hb hc, rfl, h⟩
  · obtain ⟨b, rest, u, rfl, hb, h⟩ := accepts_of_ne_lead ht h
    obtain rfl := hnext b u hb
    obtain ⟨c, rest, u, rfl, hc, h⟩ := accepts_of_ne_lead (by decide) h
    obtain rfl := eq_of_within hc
    obtain ⟨d, rest, u, rfl, hd, h⟩ := accepts_of_ne_lead (by decide) h
    obtain rfl := eq_of_within hd
    exact ⟨_, _, rest, .four ht ha hb hc hd, rfl, h⟩

/-! ## Reading and writing one character -/

theorem feed_lead {a : UInt8} {t : State} (ht : t ≠ .lead) (ha : State.afterLead a = some t)
    (found : List (Option Char)) :
    Decoder.feed ⟨found, .lead, 0⟩ a = ⟨found, t, leadBits a⟩ := by
  cases t <;> simp_all [Decoder.feed, Decoder.begin]

theorem feed_more {b : UInt8} {s t : State} (hs : s ≠ .lead) (ht : t ≠ .lead)
    (hb : s.next b = some t) (found : List (Option Char)) (code : Nat) :
    Decoder.feed ⟨found, s, code⟩ b = ⟨found, t, code * 0x40 + b.toNat % 0x40⟩ := by
  cases s <;> cases t <;> simp_all [Decoder.feed]

theorem feed_last {b : UInt8} {s : State} (hs : s ≠ .lead) (hb : s.next b = some .lead)
    (found : List (Option Char)) (code : Nat) :
    Decoder.feed ⟨found, s, code⟩ b =
      ⟨some (Char.ofNat (code * 0x40 + b.toNat % 0x40)) :: found, .lead, 0⟩ := by
  cases s <;> simp_all [Decoder.feed]

/-- The bytes of a character are read as it. -/
theorem Sequence.feed {s : Bytes} {n : Nat} (h : Sequence s n) (found : List (Option Char)) :
    s.foldl Decoder.feed ⟨found, .lead, 0⟩ = ⟨some (Char.ofNat n) :: found, .lead, 0⟩ := by
  have htail1 : State.tail1 ≠ .lead := by decide
  have htail2 : State.tail2 ≠ .lead := by decide
  cases h with
  | one ha => simp [Decoder.feed, Decoder.begin, ha]
  | two ha hb =>
    simp only [List.foldl_cons, List.foldl_nil]
    rw [feed_lead htail1 ha, feed_last htail1 hb]
  | three ht ha hb hc =>
    simp only [List.foldl_cons, List.foldl_nil]
    rw [feed_lead ht ha, feed_more ht htail1 hb, feed_last htail1 hc]
  | four ht ha hb hc hd =>
    simp only [List.foldl_cons, List.foldl_nil]
    rw [feed_lead ht ha, feed_more ht htail2 hb, feed_more htail2 htail1 hc, feed_last htail1 hd]

theorem toNat_ofNat_of_lt {n : Nat} (h : n < 0xD800 ∨ 0xDFFF < n ∧ n < 0x110000) :
    (Char.ofNat n).val.toNat = n := by
  have hvalid : n.isValidChar := h
  rw [Char.ofNat, dif_pos hvalid]
  rfl

theorem ofNat_eq {n : Nat} {a : UInt8} (h : n = a.toNat) : UInt8.ofNat n = a := by
  rw [h, UInt8.ofNat_toNat]

theorem bounds_of_within {low high b : UInt8} {after t : State}
    (h : State.within low high b after = some t) : low.toNat ≤ b.toNat ∧ b.toNat ≤ high.toNat := by
  simp only [State.within, Option.ite_none_right_eq_some, Bool.and_eq_true, decide_eq_true_eq,
    UInt8.le_iff_toNat_le] at h
  exact h.1

/-- Which first bytes lead to which states. -/
theorem bounds_afterLead {a : UInt8} {t : State} (h : State.afterLead a = some t) :
    match t with
    | .lead => a.toNat ≤ 0x7F
    | .tail1 => 0xC2 ≤ a.toNat ∧ a.toNat ≤ 0xDF
    | .tail2 => 0xE0 < a.toNat ∧ a.toNat ≤ 0xEF ∧ a.toNat ≠ 0xED
    | .tail3 => 0xF0 < a.toNat ∧ a.toNat < 0xF4
    | .afterE0 => a.toNat = 0xE0
    | .afterED => a.toNat = 0xED
    | .afterF0 => a.toNat = 0xF0
    | .afterF4 => a.toNat = 0xF4 := by
  simp only [State.afterLead, UInt8.le_iff_toNat_le, UInt8.lt_iff_toNat_lt, ← UInt8.toNat_inj,
    UInt8.reduceToNat] at h
  -- One range after the other, as the machine asks for them
  repeat' split at h
  all_goals cases h
  all_goals dsimp only
  all_goals omega

theorem leadBits_eq (a : UInt8) :
    (0x80 ≤ a.toNat → a.toNat < 0xE0 → leadBits a = a.toNat % 0x20) ∧
    (0xE0 ≤ a.toNat → a.toNat < 0xF0 → leadBits a = a.toNat % 0x10) ∧
    (0xF0 ≤ a.toNat → leadBits a = a.toNat % 0x08) := by
  simp only [leadBits, UInt8.lt_iff_toNat_lt, UInt8.reduceToNat]
  refine ⟨fun hlow hhigh => ?_, fun hlow hhigh => ?_, fun hlow => ?_⟩
  · rw [if_neg (by omega), if_pos hhigh]
  · rw [if_neg (by omega), if_neg (by omega), if_pos hhigh]
  · rw [if_neg (by omega), if_neg (by omega), if_neg (by omega)]

/-- Three bytes: no overlong form and no surrogate. -/
theorem bounds_three {a b : UInt8} {t : State} (ht : t ≠ .lead) (ha : State.afterLead a = some t)
    (hb : t.next b = some .tail1) :
    0xE0 ≤ a.toNat ∧ a.toNat ≤ 0xEF ∧ 0x80 ≤ b.toNat ∧ b.toNat ≤ 0xBF ∧
      (a.toNat = 0xE0 → 0xA0 ≤ b.toNat) ∧ (a.toNat = 0xED → b.toNat ≤ 0x9F) := by
  have ha := bounds_afterLead ha
  cases t with
  | lead => exact absurd rfl ht
  | tail2 | afterE0 | afterED =>
    have hb := bounds_of_within hb
    simp only [UInt8.reduceToNat] at ha hb
    omega
  | tail1 | tail3 | afterF0 | afterF4 => cases eq_of_within hb

/-- Four bytes: no overlong form and nothing past the last code point. -/
theorem bounds_four {a b : UInt8} {t : State} (ht : t ≠ .lead) (ha : State.afterLead a = some t)
    (hb : t.next b = some .tail2) :
    0xF0 ≤ a.toNat ∧ a.toNat ≤ 0xF4 ∧ 0x80 ≤ b.toNat ∧ b.toNat ≤ 0xBF ∧
      (a.toNat = 0xF0 → 0x90 ≤ b.toNat) ∧ (a.toNat = 0xF4 → b.toNat ≤ 0x8F) := by
  have ha := bounds_afterLead ha
  cases t with
  | lead => exact absurd rfl ht
  | tail3 | afterF0 | afterF4 =>
    have hb := bounds_of_within hb
    simp only [UInt8.reduceToNat] at ha hb
    omega
  | tail1 | tail2 | afterE0 | afterED => cases eq_of_within hb

/-- The bytes of a character are the ones that it is written with. -/
theorem Sequence.encode {s : Bytes} {n : Nat} (h : Sequence s n) :
    String.utf8EncodeChar (Char.ofNat n) = s := by
  -- The size of the code point tells the number of bytes; then byte by byte
  cases h with
  | @one a ha =>
    have ha : a.toNat ≤ 0x7F := bounds_afterLead ha
    rw [String.utf8EncodeChar, toNat_ofNat_of_lt (by omega)]
    simp [ha]
  | @two a b ha hb =>
    obtain ⟨hlow, hhigh⟩ := bounds_afterLead ha
    obtain ⟨hb1, hb2⟩ : 0x80 ≤ b.toNat ∧ b.toNat ≤ 0xBF := bounds_of_within hb
    rw [(leadBits_eq a).1 (by omega) (by omega), String.utf8EncodeChar,
      toNat_ofNat_of_lt (by omega), if_neg (by omega), if_pos (by omega),
      ofNat_eq (a := a) (by omega), ofNat_eq (a := b) (by omega)]
  | @three a b c t ht ha hb hc =>
    obtain ⟨hlow, hhigh, hb1, hb2, hlong, hsurrogate⟩ := bounds_three ht ha hb
    obtain ⟨hc1, hc2⟩ : 0x80 ≤ c.toNat ∧ c.toNat ≤ 0xBF := bounds_of_within hc
    rw [(leadBits_eq a).2.1 hlow (by omega), String.utf8EncodeChar, toNat_ofNat_of_lt (by omega),
      if_neg (by omega), if_neg (by omega), if_pos (by omega), ofNat_eq (a := a) (by omega),
      ofNat_eq (a := b) (by omega), ofNat_eq (a := c) (by omega)]
  | @four a b c d t ht ha hb hc hd =>
    obtain ⟨hlow, hhigh, hb1, hb2, hlong, hlast⟩ := bounds_four ht ha hb
    obtain ⟨hc1, hc2⟩ : 0x80 ≤ c.toNat ∧ c.toNat ≤ 0xBF := bounds_of_within hc
    obtain ⟨hd1, hd2⟩ : 0x80 ≤ d.toNat ∧ d.toNat ≤ 0xBF := bounds_of_within hd
    rw [(leadBits_eq a).2.2 hlow, String.utf8EncodeChar, toNat_ofNat_of_lt (by omega),
      if_neg (by omega), if_neg (by omega), if_neg (by omega), ofNat_eq (a := a) (by omega),
      ofNat_eq (a := b) (by omega), ofNat_eq (a := c) (by omega), ofNat_eq (a := d) (by omega)]

end Sequences

/-! ## Characters -/

section Characters

variable {text : Bytes}

/-- Reading a UTF-8 text finds characters that are written as it, whatever was found before. -/
theorem exists_chars (text : Bytes) (h : isValid text = true) :
    ∃ cs : List Char, encode cs = text ∧ ∀ found,
      text.foldl Decoder.feed ⟨found, .lead, 0⟩ = ⟨(cs.map some).reverse ++ found, .lead, 0⟩ := by
  cases text with
  | nil => exact ⟨[], rfl, fun _ => rfl⟩
  | cons a rest =>
    obtain ⟨s, n, tail, hs, htext, htail⟩ := exists_sequence h
    have hlt : tail.length < (a :: rest).length := by
      have hpos := hs.length_pos
      rw [htext, List.length_append]
      omega
    obtain ⟨cs, hcs, hfeed⟩ := exists_chars tail htail
    refine ⟨Char.ofNat n :: cs, ?_, fun found => ?_⟩
    · rw [encode, List.flatMap_cons, hs.encode, htext]
      exact congrArg (s ++ ·) hcs
    · rw [htext, List.foldl_append, hs.feed, hfeed]
      simp
termination_by text.length

/-- The characters of a text are what reading it finds. -/
theorem chars_of_feed {cs : List Char}
    (h : text.foldl Decoder.feed Decoder.start = ⟨(cs.map some).reverse, .lead, 0⟩) :
    chars text = cs := by
  rw [chars, decode, h]
  simp [Decoder.finish, Function.comp_def]

/-- A UTF-8 text is written by its characters. -/
theorem encode_chars (h : isValid text = true) : encode (chars text) = text := by
  obtain ⟨cs, hcs, hfeed⟩ := exists_chars text h
  rw [chars_of_feed ((hfeed []).trans (by rw [List.append_nil])), hcs]

theorem chars_append {a b : Bytes} (ha : isValid a = true) (hb : isValid b = true) :
    chars (a ++ b) = chars a ++ chars b := by
  obtain ⟨cs, -, hcs⟩ := exists_chars a ha
  obtain ⟨ds, -, hds⟩ := exists_chars b hb
  rw [chars_of_feed ((hcs []).trans (by rw [List.append_nil])),
    chars_of_feed ((hds []).trans (by rw [List.append_nil]))]
  apply chars_of_feed
  rw [List.foldl_append, Decoder.start, hcs, hds]
  simp

theorem chars_singleton {c : UInt8} (hc : c ≤ 0x7F) : chars [c] = [Char.ofNat c.toNat] := by
  have hlead : State.afterLead c = some .lead := if_pos hc
  apply chars_of_feed
  simp [Decoder.start, Decoder.feed, Decoder.begin, hlead]

/-- A one-byte character in front of a text is its first character. -/
theorem chars_cons {c : UInt8} (hc : c ≤ 0x7F) (h : isValid (c :: text) = true) :
    chars (c :: text) = Char.ofNat c.toNat :: chars text := by
  have hone : isValid [c] = true := isValid_of_ascii (by simpa using hc)
  rw [← List.singleton_append, chars_append hone ((isValid_cons_iff hc).1 h), chars_singleton hc,
    List.singleton_append]

/-- A one-byte character behind a text is its last character. -/
theorem chars_concat {c : UInt8} (hc : c ≤ 0x7F) (h : isValid (text ++ [c]) = true) :
    chars (text ++ [c]) = chars text ++ [Char.ofNat c.toNat] := by
  have hone : isValid [c] = true := isValid_of_ascii (by simpa using hc)
  rw [chars_append ((isValid_append_cons_iff hc).1 h).1 hone, chars_singleton hc]

theorem subset_found_begin (found : List (Option Char)) (b : UInt8) :
    found ⊆ (Decoder.begin found b).found := by
  unfold Decoder.begin
  split
  · exact List.subset_cons_self _ _
  · exact List.subset_cons_self _ _
  · exact List.Subset.refl _

/-- What was found before stays found. -/
theorem subset_found_feed (d : Decoder) (b : UInt8) : d.found ⊆ (d.feed b).found := by
  unfold Decoder.feed
  split
  · exact subset_found_begin d.found b
  · dsimp only
    split
    · exact List.subset_cons_self _ _
    · exact List.Subset.refl _
    · exact List.Subset.trans (List.subset_cons_self _ _) (subset_found_begin _ b)

theorem subset_finish (d : Decoder) : d.found ⊆ d.finish := by
  intro x hx
  unfold Decoder.finish
  split
  · exact List.mem_reverse.2 hx
  · exact List.mem_reverse.2 (List.mem_cons_of_mem _ hx)

theorem subset_foldl_feed (text : Bytes) (d : Decoder) :
    d.found ⊆ (text.foldl Decoder.feed d).finish := by
  induction text generalizing d with
  | nil => exact subset_finish d
  | cons b text ih => exact List.Subset.trans (subset_found_feed d b) (ih (d.feed b))

/-- A one-byte character is read in every state, since no other character goes on with it. -/
theorem mem_found_feed {c : UInt8} (hc : c ≤ 0x7F) (d : Decoder) :
    some (Char.ofNat c.toNat) ∈ (d.feed c).found := by
  have hlead : State.afterLead c = some .lead := if_pos hc
  have hbegin : ∀ found, some (Char.ofNat c.toNat) ∈ (Decoder.begin found c).found := by
    intro found
    simp [Decoder.begin, hlead]
  have hnone : d.state ≠ .lead → d.state.next c = none := by
    intro hne
    cases hnext : d.state.next c with
    | none => rfl
    | some t => exact absurd (next_of_ascii hc hnext).1 hne
  unfold Decoder.feed
  split
  · exact hbegin _
  · rename_i hne
    rw [hnone hne]
    exact hbegin _

/-- A one-byte character is read wherever it stands. -/
theorem mem_chars_of_mem {c : UInt8} (h : c ∈ text) (hc : c ≤ 0x7F) :
    Char.ofNat c.toNat ∈ chars text := by
  obtain ⟨before, after, rfl⟩ := List.append_of_mem h
  have hdecode : some (Char.ofNat c.toNat) ∈ decode (before ++ c :: after) := by
    rw [decode, List.foldl_append, List.foldl_cons]
    exact subset_foldl_feed after _ (mem_found_feed hc _)
  exact List.mem_map.2 ⟨_, hdecode, rfl⟩

end Characters

/-! ## Written characters -/

section Written

variable {a b : UInt8}

theorem within_of_bounds (low high : UInt8) (hlow : low.toNat ≤ b.toNat)
    (hhigh : b.toNat ≤ high.toNat) (after : State) :
    State.within low high b after = some after := by
  rw [State.within, if_pos]
  simp [UInt8.le_iff_toNat_le, hlow, hhigh]

theorem afterLead_eq_tail1 (hlow : 0xC2 ≤ a.toNat) (hhigh : a.toNat ≤ 0xDF) :
    State.afterLead a = some .tail1 := by
  simp only [State.afterLead, UInt8.le_iff_toNat_le, UInt8.lt_iff_toNat_lt, UInt8.reduceToNat]
  rw [if_neg (by omega), if_neg (by omega), if_pos hhigh]

/-- The bounds on the first two of three bytes are all that the machine asks of them. -/
theorem exists_tail1_of_bounds (hlow : 0xE0 ≤ a.toNat) (hhigh : a.toNat ≤ 0xEF)
    (hb1 : 0x80 ≤ b.toNat) (hb2 : b.toNat ≤ 0xBF) (hlong : a.toNat = 0xE0 → 0xA0 ≤ b.toNat)
    (hsurrogate : a.toNat = 0xED → b.toNat ≤ 0x9F) :
    ∃ t, t ≠ State.lead ∧ State.afterLead a = some t ∧ t.next b = some .tail1 := by
  by_cases h0 : a.toNat = 0xE0
  · obtain rfl : a = 0xE0 := UInt8.toNat_inj.1 h0
    exact ⟨.afterE0, by decide, rfl, within_of_bounds 0xA0 0xBF (hlong h0) hb2 _⟩
  · by_cases hd : a.toNat = 0xED
    · obtain rfl : a = 0xED := UInt8.toNat_inj.1 hd
      exact ⟨.afterED, by decide, rfl, within_of_bounds 0x80 0x9F hb1 (hsurrogate hd) _⟩
    · refine ⟨.tail2, by decide, ?_, within_of_bounds 0x80 0xBF hb1 hb2 _⟩
      simp only [State.afterLead, UInt8.le_iff_toNat_le, UInt8.lt_iff_toNat_lt,
        ← UInt8.toNat_inj, UInt8.reduceToNat]
      rw [if_neg (by omega), if_neg (by omega), if_neg (by omega), if_neg h0, if_neg hd,
        if_pos hhigh]

/-- The bounds on the first two of four bytes are all that the machine asks of them. -/
theorem exists_tail2_of_bounds (hlow : 0xF0 ≤ a.toNat) (hhigh : a.toNat ≤ 0xF4)
    (hb1 : 0x80 ≤ b.toNat) (hb2 : b.toNat ≤ 0xBF) (hlong : a.toNat = 0xF0 → 0x90 ≤ b.toNat)
    (hlast : a.toNat = 0xF4 → b.toNat ≤ 0x8F) :
    ∃ t, t ≠ State.lead ∧ State.afterLead a = some t ∧ t.next b = some .tail2 := by
  by_cases h0 : a.toNat = 0xF0
  · obtain rfl : a = 0xF0 := UInt8.toNat_inj.1 h0
    exact ⟨.afterF0, by decide, rfl, within_of_bounds 0x90 0xBF (hlong h0) hb2 _⟩
  · by_cases h4 : a.toNat = 0xF4
    · obtain rfl : a = 0xF4 := UInt8.toNat_inj.1 h4
      exact ⟨.afterF4, by decide, rfl, within_of_bounds 0x80 0x8F hb1 (hlast h4) _⟩
    · refine ⟨.tail3, by decide, ?_, within_of_bounds 0x80 0xBF hb1 hb2 _⟩
      simp only [State.afterLead, UInt8.le_iff_toNat_le, UInt8.lt_iff_toNat_lt,
        ← UInt8.toNat_inj, UInt8.reduceToNat]
      rw [if_neg (by omega), if_neg (by omega), if_neg (by omega), if_neg (by omega),
        if_neg (by omega), if_neg (by omega), if_neg h0, if_pos (by omega)]

theorem exists_byte {m : Nat} (hm : m < 256) : ∃ a : UInt8, UInt8.ofNat m = a ∧ a.toNat = m :=
  ⟨_, rfl, UInt8.toNat_ofNat_of_lt hm⟩

/-- A continuation byte holds any six bits. -/
theorem exists_continuation (m : Nat) : ∃ b : UInt8, UInt8.ofNat (m % 64 + 128) = b ∧
    b.toNat = m % 64 + 128 ∧ ∀ after, State.within 0x80 0xBF b after = some after := by
  have hm : m % 64 < 64 := Nat.mod_lt m (by decide)
  obtain ⟨b, hbyte, hb⟩ := exists_byte (show m % 64 + 128 < 256 by omega)
  have hbounds : 0x80 ≤ b.toNat ∧ b.toNat ≤ 0xBF := by omega
  exact ⟨b, hbyte, hb, within_of_bounds 0x80 0xBF hbounds.1 hbounds.2⟩

/-- The bytes that a character is written with are read as it. -/
theorem sequence_utf8EncodeChar (c : Char) :
    Sequence (String.utf8EncodeChar c) c.val.toNat := by
  have hvalid : c.val.toNat < 0xD800 ∨ 0xDFFF < c.val.toNat ∧ c.val.toNat < 0x110000 := c.valid
  rw [String.utf8EncodeChar.eq_1]
  generalize c.val.toNat = n at hvalid
  obtain ⟨b₁, hlow₁, hb₁, hlast⟩ := exists_continuation n
  obtain ⟨b₂, hlow₂, hb₂, hmiddle⟩ := exists_continuation (n / 64)
  obtain ⟨b₃, hlow₃, hb₃, -⟩ := exists_continuation (n / 4096)
  rw [hlow₁, hlow₂, hlow₃]
  -- The more bytes, the fewer bits are left for the first one
  split
  · rename_i hone
    obtain ⟨a, hfirst, ha⟩ := exists_byte (show n < 256 by omega)
    rw [hfirst, ← ha]
    exact .one (if_pos (UInt8.le_iff_toNat_le.2 (ha ▸ hone)))
  · split
    · obtain ⟨a, hfirst, ha⟩ := exists_byte (show n / 64 % 32 + 192 < 256 by omega)
      have hvalue : n = leadBits a * 0x40 + b₁.toNat % 0x40 := by
        rw [(leadBits_eq a).1 (by omega) (by omega)]
        omega
      rw [hfirst, hvalue]
      exact .two (afterLead_eq_tail1 (by omega) (by omega)) (hlast _)
    · split
      · obtain ⟨a, hfirst, ha⟩ := exists_byte (show n / 4096 % 16 + 224 < 256 by omega)
        have hvalue : n = (leadBits a * 0x40 + b₂.toNat % 0x40) * 0x40 + b₁.toNat % 0x40 := by
          rw [(leadBits_eq a).2.1 (by omega) (by omega)]
          omega
        obtain ⟨t, ht, hlead, hnext⟩ := exists_tail1_of_bounds (show 0xE0 ≤ a.toNat by omega)
          (by omega) (show 0x80 ≤ b₂.toNat by omega) (by omega) (by omega) (by omega)
        rw [hfirst, hvalue]
        exact .three ht hlead hnext (hlast _)
      · obtain ⟨a, hfirst, ha⟩ := exists_byte (show n / 262144 % 8 + 240 < 256 by omega)
        have hvalue : n = ((leadBits a * 0x40 + b₃.toNat % 0x40) * 0x40 + b₂.toNat % 0x40) * 0x40 +
            b₁.toNat % 0x40 := by
          rw [(leadBits_eq a).2.2 (by omega)]
          omega
        obtain ⟨t, ht, hlead, hnext⟩ := exists_tail2_of_bounds (show 0xF0 ≤ a.toNat by omega)
          (by omega) (show 0x80 ≤ b₃.toNat by omega) (by omega) (by omega) (by omega)
        rw [hfirst, hvalue]
        exact .four ht hlead hnext (hmiddle _) (hlast _)

theorem accepts_cons {s t : State} (h : s.next b = some t) (rest : Bytes) :
    s.accepts (b :: rest) = t.accepts rest := by
  rw [State.accepts, h]

theorem isValid_cons {t : State} (h : State.afterLead a = some t) (rest : Bytes) :
    isValid (a :: rest) = t.accepts rest :=
  accepts_cons (show State.lead.next a = some t from h) rest

theorem Sequence.isValid {s : Bytes} {n : Nat} (h : Sequence s n) : Utf8.isValid s = true := by
  -- Behind each byte the machine stands in the state that the next one is read in
  cases h with
  | one ha => exact isValid_cons ha []
  | two ha hb => exact (isValid_cons ha _).trans (accepts_cons hb [])
  | three _ ha hb hc =>
    exact (isValid_cons ha _).trans ((accepts_cons hb _).trans (accepts_cons hc []))
  | four _ ha hb hc hd =>
    exact (isValid_cons ha _).trans ((accepts_cons hb _).trans
      ((accepts_cons hc _).trans (accepts_cons hd [])))

theorem encode_cons (c : Char) (cs : List Char) :
    encode (c :: cs) = String.utf8EncodeChar c ++ encode cs :=
  List.flatMap_cons

theorem encode_singleton (c : Char) : encode [c] = String.utf8EncodeChar c := by
  rw [encode, List.flatMap_singleton]

theorem encode_singleton_of_ascii {c : Char} (h : c.toNat ≤ 0x7F) :
    encode [c] = [UInt8.ofNat c.toNat] := by
  have hval : c.val.toNat ≤ 0x7F := h
  rw [encode_singleton, String.utf8EncodeChar, if_pos hval]
  rfl

/-- What characters are written as is UTF-8. -/
theorem isValid_encode (cs : List Char) : isValid (encode cs) = true := by
  induction cs with
  | nil => rfl
  | cons c cs ih =>
    rw [encode_cons]
    exact isValid_append (sequence_utf8EncodeChar c).isValid ih

/-- What characters are written as is read as these characters. -/
theorem chars_encode (cs : List Char) : chars (encode cs) = cs := by
  apply chars_of_feed
  suffices h : ∀ found, (encode cs).foldl Decoder.feed ⟨found, .lead, 0⟩ =
      ⟨(cs.map some).reverse ++ found, .lead, 0⟩ by
    rw [Decoder.start, h, List.append_nil]
  induction cs with
  | nil => exact fun _ => rfl
  | cons c cs ih =>
    intro found
    have hchar : Char.ofNat c.val.toNat = c := Char.ofNat_toNat c
    rw [encode_cons, List.foldl_append, (sequence_utf8EncodeChar c).feed, ih, hchar]
    simp

end Written

/-! ## Counting -/

section Counting

theorem length_append (a b : Bytes) : length (a ++ b) = length a + length b :=
  List.countP_append

/-- Of the bytes of a character the first one counts. -/
theorem Sequence.length_eq_one {s : Bytes} {n : Nat} (h : Sequence s n) : length s = 1 := by
  have hfirst : ∀ {a t}, State.afterLead a = some t → isContinuation a = false := by
    intro a t ha
    grind [State.afterLead, isContinuation]
  have hbehind : ∀ {s t : State} {b}, s ≠ .lead → s.next b = some t → isContinuation b = true := by
    intro s t b hs hb
    cases s <;> grind [State.next, State.within, isContinuation]
  cases h with
  | one ha => simp [length, hfirst ha]
  | two ha hb => simp [length, hfirst ha, hbehind (by decide) hb]
  | three ht ha hb hc => simp [length, hfirst ha, hbehind ht hb, hbehind (by decide) hc]
  | four ht ha hb hc hd =>
    simp [length, hfirst ha, hbehind ht hb, hbehind (by decide) hc, hbehind (by decide) hd]

theorem length_encode (cs : List Char) : length (encode cs) = cs.length := by
  induction cs with
  | nil => rfl
  | cons c cs ih =>
    rw [encode_cons, length_append, (sequence_utf8EncodeChar c).length_eq_one, ih,
      List.length_cons, Nat.add_comm]

/-- The characters of a text that is UTF-8 are as many as are counted. -/
theorem length_chars {text : Bytes} (h : isValid text = true) :
    (chars text).length = length text := by
  rw [← length_encode, encode_chars h]

end Counting

end JsonQuery.Utf8
