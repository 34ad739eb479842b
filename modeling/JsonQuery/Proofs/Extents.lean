import JsonQuery.Proofs.Brackets
import JsonQuery.Proofs.Grammar
import JsonQuery.Result.Children

/-!
# Values extend as far as they are written

The scans of `Extent` are lenient: they count brackets of any kind and stop at the first byte that
ends a number.  At the front of a text that goes on behind a value of the grammar, they stop exactly
where the value ends.

## Layers

- **Balanced texts**: texts that close what they open; every value is one, by induction over the
  tree.
- **Scans**: to a scan over the inside of a container a balanced text is a matched one.
- **Extents**: the length that is found is the length of the value.
- **Cursors**: reading a value and passing over it lead behind it.
-/

namespace JsonQuery.Grammar

open Ascii Extent

/-! ## Bytes of tokens -/

section Tokens

variable {c : UInt8} {text : Bytes}

theorem isSpace_of_mem_gapBytes (h : c ∈ gapBytes) : isSpace c = true := by
  have hall : gapBytes.all isSpace = true := rfl
  exact List.all_eq_true.1 hall c h

theorem ne_of_isHexDigit (h : isHexDigit c = true) : c ≠ quote ∧ c ≠ backslash := by
  grind [isHexDigit, isDigit]

/-- A byte that numbers are written with. -/
def isNumberByte (c : UInt8) : Bool :=
  isDigit c || c == dot || c == lowerE || c == upperE || c == plus || c == minus

theorem all_isNumberByte_of_isDigits (h : Number.isDigits text = true) :
    text.all isNumberByte = true := by
  simp only [Number.isDigits, Bool.and_eq_true, List.all_eq_true] at h ⊢
  intro c hc
  simp [isNumberByte, h.2 c hc]

theorem IsWhole.all_isNumberByte (h : IsWhole text) : text.all isNumberByte = true := by
  rcases h with rfl | ⟨hdigits, -⟩
  · rfl
  · exact all_isNumberByte_of_isDigits hdigits

theorem IsFraction.all_isNumberByte (h : IsFraction text) : text.all isNumberByte = true := by
  rcases h with rfl | ⟨digits, hdigits, rfl⟩
  · rfl
  · rw [List.all_cons, all_isNumberByte_of_isDigits hdigits]
    rfl

theorem IsExponent.all_isNumberByte (h : IsExponent text) : text.all isNumberByte = true := by
  rcases h with rfl | ⟨mark, sign, digits, hmark, hsign, hdigits, rfl⟩
  · rfl
  · rw [List.all_cons, List.all_append, all_isNumberByte_of_isDigits hdigits]
    rcases hmark with rfl | rfl <;> rcases hsign with rfl | rfl | rfl <;> rfl

theorem Numeral.all_isNumberByte (n : Numeral) : n.text.all isNumberByte = true := by
  have hsign : (if n.negative then [minus] else []).all isNumberByte = true := by
    cases n.negative <;> rfl
  -- Sign, whole part, fraction and exponent one by one
  simp only [text, List.all_append, hsign, n.isWhole.all_isNumberByte,
    n.isFraction.all_isNumberByte, n.isExponent.all_isNumberByte, Bool.and_self]

end Tokens

/-! ## Balanced texts -/

/-- A byte that no scan takes notice of, whichever way it runs. -/
def isPlain (c : UInt8) : Bool :=
  c != quote && c != backslash && !isOpener c && !isCloser c

/-- Texts that close all strings and brackets that they open. -/
inductive Balanced : Bytes → Prop where
  | nil : Balanced []
  | append {a b : Bytes} (ha : Balanced a) (hb : Balanced b) : Balanced (a ++ b)
  | plain {c : UInt8} (hc : isPlain c = true) : Balanced [c]
  | quoted {body : Bytes} (hbody : IsBody body) : Balanced (Bytes.quoted body)
  | bracketed {opener closer : UInt8} {text : Bytes} (hopener : isOpener opener = true)
      (hcloser : isCloser closer = true) (h : Balanced text) :
      Balanced (opener :: (text ++ [closer]))

section Balanced

variable {text : Bytes}

theorem Balanced.of_all (h : ∀ c ∈ text, isPlain c = true) : Balanced text := by
  induction text with
  | nil => exact .nil
  | cons c text ih =>
    rw [List.forall_mem_cons] at h
    exact .append (.plain h.1) (ih h.2)

theorem Gap.balanced (gap : Gap) : Balanced gap.text := by
  apply Balanced.of_all
  intro c hc
  have hall : gapBytes.all isPlain = true := rfl
  exact List.all_eq_true.1 hall c (gap.isGap c hc)

theorem Tag.balanced (tag : Tag) : Balanced tag.text := by
  have hcolon : Balanced (colon :: tag.after.text) :=
    .append (.plain rfl) tag.after.balanced
  -- A key is balanced as a string, so the colon and the gaps around it are all that is left
  exact tag.before.balanced.append
    ((Balanced.quoted tag.key.isBody).append (tag.between.balanced.append hcolon))

theorem Word.balanced (w : Word) : Balanced w.text := by
  apply Balanced.of_all
  have hall : w.text.all isPlain = true := by
    rcases w with _ | _ | _ <;> rfl
  exact List.all_eq_true.1 hall

theorem isPlain_of_isNumberByte {c : UInt8} (h : isNumberByte c = true) : isPlain c = true := by
  -- Digits by their range, the other bytes one by one
  cases hdigit : isDigit c with
  | true => grind [isPlain, isDigit, isOpener, isCloser]
  | false =>
    simp only [isNumberByte, hdigit, Bool.false_or, Bool.or_eq_true, beq_iff_eq] at h
    rcases h with (((rfl | rfl) | rfl) | rfl) | rfl <;> rfl

theorem Numeral.balanced (n : Numeral) : Balanced n.text := by
  apply Balanced.of_all
  intro c hc
  exact isPlain_of_isNumberByte (List.all_eq_true.1 n.all_isNumberByte c hc)

theorem balanced_separator {Front : Type} (e : Entry Front Node)
    (rest : List (Entry Front Node)) : Balanced (separator e rest) := by
  apply e.gap.balanced.append
  split
  · exact .nil
  · exact .plain rfl

theorem balanced_inside {Front : Type} {front : Front → Bytes}
    (hfront : ∀ f, Balanced (front f)) (entries : List (Entry Front Node))
    (hvalue : ∀ e ∈ entries, Balanced e.value.text) : Balanced (inside front entries) := by
  induction entries with
  | nil => exact .nil
  | cons e rest ih =>
    rw [List.forall_mem_cons] at hvalue
    rw [inside_cons]
    exact (hfront e.front).append
      (hvalue.1.append ((balanced_separator e rest).append (ih hvalue.2)))

/-- Every value closes what it opens. -/
theorem Node.balanced (n : Node) : Balanced n.text := by
  induction n with
  | word w => simpa only [Node.text] using w.balanced
  | number n => simpa only [Node.text] using n.balanced
  | string body => simpa only [Node.text] using Balanced.quoted body.isBody
  | array gap items ih =>
    rw [text_array, ← List.append_assoc]
    exact .bracketed rfl rfl (gap.balanced.append (balanced_inside Gap.balanced items ih))
  | object gap members ih =>
    rw [text_object, ← List.append_assoc]
    exact .bracketed rfl rfl (gap.balanced.append (balanced_inside Tag.balanced members ih))

end Balanced

/-! ## Scans over balanced texts -/

section Scans

variable {text : Bytes}

theorem IsBody.isLoose (h : IsBody text) : IsLoose text := by
  induction h with
  | nil => exact .nil
  | plain hquote hslash hspace _ ih => exact .plain hquote hslash ih
  | short hc _ ih => exact .pair ih
  | unit h₁ h₂ h₃ h₄ _ ih =>
    -- The digits of an escape are like any other bytes to a scan
    have hdigit : ∀ {c : UInt8} {rest : Bytes}, isHexDigit c = true → IsLoose rest →
        IsLoose (c :: rest) := fun hc => .plain (ne_of_isHexDigit hc).1 (ne_of_isHexDigit hc).2
    exact .pair (hdigit h₁ (hdigit h₂ (hdigit h₃ (hdigit h₄ ih))))

theorem Balanced.matched (h : Balanced text) : Matched text := by
  induction h with
  | nil => exact .nil
  | append _ _ iha ihb => exact iha.append ihb
  | plain hc =>
    simp only [isPlain, Bool.and_eq_true, bne_iff_ne, Bool.not_eq_true'] at hc
    exact .plain (by simp [isMark, hc]) .nil
  | quoted hbody => exact .quoted hbody.isLoose .nil
  | bracketed hopener hcloser _ ih => exact .bracketed hopener hcloser ih .nil

end Scans

/-! ## Extents -/

/-- What may stand behind a value: nothing, or a byte that ends numbers. -/
def Follows (rest : Bytes) : Prop :=
  ∀ c ∈ rest.head?, endsNumber c = true

section Extents

variable {text rest : Bytes}

theorem Follows.nil : Follows [] := by
  simp [Follows]

theorem Follows.cons {c : UInt8} (hc : endsNumber c = true) : Follows (c :: rest) := by
  simpa [Follows] using hc

theorem endsNumber_of_mem_gapBytes {c : UInt8} (h : c ∈ gapBytes) : endsNumber c = true := by
  simp [endsNumber, isSpace_of_mem_gapBytes h]

theorem Follows.gap (gap : Gap) (h : Follows rest) : Follows (gap.text ++ rest) := by
  obtain ⟨text, hgap⟩ := gap
  cases text with
  | nil => exact h
  | cons c text => exact .cons (endsNumber_of_mem_gapBytes (hgap c List.mem_cons_self))

/-- A run of bytes that pass a test ends in front of a byte that does not. -/
theorem takeWhile_append_of_head {p : UInt8 → Bool} (htext : ∀ c ∈ text, p c = true)
    (hrest : ∀ c ∈ rest.head?, p c = false) : (text ++ rest).takeWhile p = text := by
  rw [List.takeWhile_append_of_pos htext]
  cases rest with
  | nil => simp
  | cons c rest =>
    have hc : p c = false := by simpa using hrest
    simp [hc]

theorem close?_quote (length : Nat) (escaped : Bool) (rest : Bytes) :
    Quoted.closeFrom length escaped (quote :: rest) = some ⟨length, escaped⟩ := by
  cases rest <;> simp [Quoted.closeFrom]

theorem close?_plain {c : UInt8} (hquote : c ≠ quote) (hslash : c ≠ backslash) (length : Nat)
    (escaped : Bool) (rest : Bytes) :
    Quoted.closeFrom length escaped (c :: rest) =
      Quoted.closeFrom (length + 1) escaped rest := by
  cases rest <;> simp [Quoted.closeFrom, hquote, hslash]

theorem close?_slash (c : UInt8) (length : Nat) (escaped : Bool) (rest : Bytes) :
    Quoted.closeFrom length escaped (backslash :: c :: rest) =
      Quoted.closeFrom (length + 2) true rest := by
  simp [Quoted.closeFrom, show ¬backslash = quote by decide]

/-- The search for the quote behind a body finds it, and tells whether the body holds a
backslash. -/
theorem close?_loose (h : IsLoose text) (length : Nat) (escaped : Bool) (rest : Bytes) :
    Quoted.closeFrom length escaped (text ++ quote :: rest) =
      some ⟨length + text.length, escaped || text.contains backslash⟩ := by
  -- Only a backslash that takes a byte along sets the mark
  induction h generalizing length escaped with
  | nil => simp [close?_quote]
  | @plain c text hquote hslash _ ih =>
    have hne : (backslash == c) = false := by simpa using Ne.symm hslash
    rw [List.cons_append, close?_plain hquote hslash, ih, List.length_cons, List.contains_cons,
      hne, Bool.false_or]
    congr 2
    omega
  | @pair c text _ ih =>
    rw [List.cons_append, List.cons_append, close?_slash, ih]
    simp only [List.length_cons, List.contains_cons, BEq.rfl, Bool.true_or, Bool.or_true]
    congr 2
    omega

theorem ofString?_quoted (body : Body) (rest : Bytes) :
    ofString? (Bytes.quoted body.text ++ rest) = some (Bytes.quoted body.text).length := by
  have htext : Bytes.quoted body.text ++ rest = quote :: (body.text ++ quote :: rest) := by
    simp [Bytes.quoted]
  rw [htext, ofString?, Quoted.close?, close?_loose body.isBody.isLoose]
  simp [Bytes.quoted]

theorem ofContainer?_bracketed {opener closer : UInt8} (hcloser : isCloser closer = true)
    (h : Balanced text) (rest : Bytes) :
    ofContainer? (opener :: (text ++ [closer]) ++ rest) =
      some (opener :: (text ++ [closer])).length := by
  rw [List.cons_append, List.append_assoc, ofContainer?_eq_some_iff]
  exact ⟨text, closer, rest, rfl, h.matched, hcloser, by simp⟩

/-- A text of bytes that numbers are written with is taken whole, whether or not it is a number. -/
theorem ofNumber_append (hne : text ≠ []) (h : text.all isNumberByte = true)
    (hrest : Follows rest) : ofNumber (text ++ rest) = text.length := by
  obtain ⟨c, text, rfl⟩ := List.exists_cons_of_ne_nil hne
  rw [List.all_cons, Bool.and_eq_true, List.all_eq_true] at h
  -- The scan takes the first byte as it is and the others as long as they do not end a number
  rw [List.cons_append, ofNumber, takeWhile_append_of_head, List.length_cons]
  · intro d hd
    have hd := h.2 d hd
    grind [isNumberByte, endsNumber, isDigit, isSpace]
  · intro d hd
    simp [hrest d hd]

theorem ofNumber_numeral (n : Numeral) (hrest : Follows rest) :
    ofNumber (n.text ++ rest) = n.text.length := by
  obtain ⟨c, text, htext, -⟩ := n.text_cons
  exact ofNumber_append (htext ▸ List.cons_ne_nil c text) n.all_isNumberByte hrest

theorem ofWord_word (w : Word) (hrest : Follows rest) :
    ofWord (w.text ++ rest) = w.text.length := by
  -- A byte that ends numbers is not a letter of a word
  have hlower : ∀ c ∈ rest.head?, isLower c = false := by
    intro c hc
    have hc := hrest c hc
    grind [isLower, endsNumber, isSpace]
  obtain ⟨c, text, htext, hletters⟩ : ∃ c text, w.text = c :: text ∧
      text.all isLower = true := by
    rcases w with _ | _ | _
    · exact ⟨_, _, rfl, rfl⟩
    · exact ⟨_, _, rfl, rfl⟩
    · exact ⟨_, _, rfl, rfl⟩
  rw [htext, List.cons_append, ofWord,
    takeWhile_append_of_head (List.all_eq_true.1 hletters) hlower, List.length_cons]

theorem of?_word (w : Word) (rest : Bytes) : Lead.of? (w.text ++ rest) = some .word := by
  rcases w with _ | _ | _ <;> rfl

/-- A digit or a minus starts a number, whatever stands behind it. -/
theorem of?_digit {c : UInt8} (hc : c = minus ∨ isDigit c = true) (rest : Bytes) :
    Lead.of? (c :: rest) = some .number := by
  have hne : c ≠ openBrace ∧ c ≠ openBracket ∧ c ≠ quote ∧ c ≠ lowerN ∧ c ≠ lowerT ∧
      c ≠ lowerF ∧ startsNumber c = true := by
    grind [startsNumber, isDigit]
  simp [Lead.of?, hne]

theorem of?_numeral (n : Numeral) (rest : Bytes) :
    Lead.of? (n.text ++ rest) = some .number := by
  obtain ⟨c, text, htext, hc⟩ := n.text_cons
  rw [htext]
  exact of?_digit hc (text ++ rest)

/-- The first bytes of a value tell its kind. -/
theorem of?_node (n : Node) (rest : Bytes) : Lead.of? (n.text ++ rest) = some n.lead := by
  cases n with
  | word w =>
    rw [Node.text]
    exact of?_word w rest
  | number n =>
    rw [Node.text]
    exact of?_numeral n rest
  | string body =>
    rw [Node.text]
    rfl
  | array gap items =>
    rw [Node.text_array]
    rfl
  | object gap members =>
    rw [Node.text_object]
    rfl

/-- A value of the grammar extends to where it ends. -/
theorem ofLead?_node (n : Node) (hrest : Follows rest) :
    ofLead? n.lead (n.text ++ rest) = some n.text.length := by
  -- Words and numbers end by what stands behind them, the other values by their last byte
  cases n with
  | word w =>
    rw [Node.text]
    exact congrArg some (ofWord_word w hrest)
  | number n =>
    rw [Node.text]
    exact congrArg some (ofNumber_numeral n hrest)
  | string body =>
    rw [Node.text]
    exact ofString?_quoted body rest
  | array gap items =>
    rw [Node.text_array, ← List.append_assoc]
    exact ofContainer?_bracketed rfl (gap.balanced.append (balanced_inside Gap.balanced items
      fun e _ => e.value.balanced)) rest
  | object gap members =>
    rw [Node.text_object, ← List.append_assoc]
    exact ofContainer?_bracketed rfl (gap.balanced.append (balanced_inside Tag.balanced members
      fun e _ => e.value.balanced)) rest

end Extents

/-! ## Cursors -/

/-- A value as it is read at its place: its text, repaired where it is not UTF-8. -/
def Spot.reading (s : Spot) : Result :=
  .located (.ofSpan s.node.lead s.node.text) s.offset

/-- The place behind a value. -/
def Spot.after (s : Spot) : Nat :=
  s.offset + s.node.text.length

section Cursors

variable {rest : Bytes}

/-- Reading a value leads behind it. -/
theorem readHere?_spot (s : Spot) (hrest : Follows rest) :
    (Cursor.mk s.offset (s.node.text ++ rest)).readHere? =
      some ⟨s.reading, ⟨s.after, rest⟩⟩ := by
  simp [Cursor.readHere?, of?_node, ofLead?_node s.node hrest, Cursor.advance, Spot.reading,
    Spot.after]

/-- A search passes over a text that does not hold what is looked for. -/
theorem find_append {p : UInt8 → Bool} {text : Bytes} (h : ∀ c ∈ text, p c = false)
    (offset : Nat) (rest : Bytes) :
    (Cursor.mk offset (text ++ rest)).find p = (Cursor.mk (offset + text.length) rest).find p := by
  -- One byte at a time, as the cursor moves
  induction text generalizing offset with
  | nil => rfl
  | cons c text ih =>
    rw [List.forall_mem_cons] at h
    have hstep : (Cursor.mk offset (c :: (text ++ rest))).find p =
        (Cursor.mk (offset + 1) (text ++ rest)).find p := by
      simp [Cursor.find, Cursor.findFrom, h.1]
    rw [List.cons_append, hstep, ih h.2, List.length_cons]
    congr 2
    omega

theorem find_cons {p : UInt8 → Bool} {c : UInt8} (h : p c = true) (offset : Nat) (rest : Bytes) :
    (Cursor.mk offset (c :: rest)).find p = ⟨offset, c :: rest⟩ := by
  simp [Cursor.find, Cursor.findFrom, h]

/-- A key is read with what stands behind it. -/
theorem keyHere?_quoted (body : Body) (offset : Nat) (rest : Bytes) :
    (Cursor.mk offset (Bytes.quoted body.text ++ rest)).keyHere? =
      some ⟨offset, Bytes.quoted body.text, body.text.contains backslash,
        ⟨offset + (Bytes.quoted body.text).length, rest⟩⟩ := by
  have hclose : Quoted.close? (body.text ++ quote :: rest) =
      some ⟨body.text.length, body.text.contains backslash⟩ := by
    rw [Quoted.close?, close?_loose body.isBody.isLoose]
    simp
  simp [Cursor.keyHere?, Bytes.quoted, hclose, Cursor.advance, List.take_append,
    List.take_of_length_le]

/-- No key starts with another byte than a quote. -/
theorem keyHere?_of_peek? {c : Cursor} (h : c.peek? ≠ some quote) : c.keyHere? = none := by
  obtain ⟨offset, text⟩ := c
  cases text with
  | nil => rfl
  | cons b text =>
    have hb : b ≠ quote := by simpa [Cursor.peek?] using h
    simp [Cursor.keyHere?, hb]

theorem body_quoted (body : Body) (offset : Nat) (next : Cursor) :
    Key.body ⟨offset, Bytes.quoted body.text, body.text.contains backslash, next⟩ = body.text := by
  simp [Key.body, Bytes.quoted]

end Cursors

end JsonQuery.Grammar
