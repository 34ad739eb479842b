import JsonQuery.Engine.Walk
import JsonQuery.Proofs.Places
import Mathlib.Data.List.Infix

/-!
# Values that stand in a text

A value stands at an offset of a text if the text holds it there.  Numbers, strings and containers
stand in the text byte by byte.  A word is told by its first byte alone, so only that is known to
stand there.

Nothing is asked of a text but that it is UTF-8.  Then whatever is read at a place of it stands
there, well-formed or not, and what stands in a value that stands in the text stands in the text.

## Layers

- **Standing**: values that stand in a text, and values found inside of those.
- **Spans**: what is read at a place of a text stands there.
- **Cursors**: keys, values, elements and children from a cursor on.
-/

namespace JsonQuery

open Ascii Grammar

/-! ## Standing -/

/-- The text of a value that is no word: its first byte tells it from the three words. -/
def OwnLead (raw : Bytes) : Prop :=
  ∃ c rest, raw = c :: rest ∧ startsValue c = true ∧ c ≠ lowerT ∧ c ≠ lowerF ∧
    (c = lowerN → rest.head? ≠ some lowerU)

/-- A value stands at an offset of a text. -/
def Value.StandsAt (text : Bytes) (i : Nat) : Value → Prop
  | .missing => False
  | .null => text[i]? = some lowerN
  | .boolean b => text[i]? = some (if b then lowerT else lowerF)
  | .number raw | .string raw | .json raw =>
    raw <+: text.drop i ∧ Utf8.isValid raw = true ∧ OwnLead raw

/-- A result stands in a text where it says it does, if it says so. -/
def Result.StandsIn (text : Bytes) (r : Result) : Prop :=
  ∀ i, r.index = some i → r.value.StandsAt text i

section Standing

variable {text : Bytes}

theorem Result.standsIn_of_index_eq_none {r : Result} (h : r.index = none) : r.StandsIn text := by
  intro i hi
  rw [h] at hi
  cases hi

theorem Result.standsIn_missing : missing.StandsIn text :=
  standsIn_of_index_eq_none rfl

/-- What stands in a piece of a text stands in the text. -/
theorem Value.StandsAt.of_prefix {piece : Bytes} {i j : Nat} {value : Value}
    (hpiece : piece <+: text.drop i) (h : value.StandsAt piece j) :
    value.StandsAt text (i + j) := by
  have hdrop : piece.drop j <+: text.drop (i + j) := by
    rw [← List.drop_drop]
    exact hpiece.drop j
  have hbyte : ∀ c, piece[j]? = some c → text[i + j]? = some c := by
    obtain ⟨behind, hbehind⟩ := hpiece
    intro c hc
    rw [← List.getElem?_drop, ← hbehind, List.getElem?_append_left, hc]
    exact (List.getElem?_eq_some_iff.1 hc).1
  cases value with
  | missing => cases h
  | null => exact hbyte _ h
  | boolean b => exact hbyte _ h
  | number raw => exact ⟨h.1.trans hdrop, h.2⟩
  | string raw => exact ⟨h.1.trans hdrop, h.2⟩
  | json raw => exact ⟨h.1.trans hdrop, h.2⟩

/-- The spelling of a word, byte by byte. -/
theorem Grammar.Word.text_eq (w : Word) :
    w.text = match w with
      | .boolean true => [lowerT, lowerR, lowerU, lowerE]
      | .boolean false => [lowerF, 0x61, 0x6C, 0x73, lowerE]
      | .null => [lowerN, lowerU, 0x6C, 0x6C] := by
  rcases w with _ | _ | _ <;> rfl

theorem Grammar.Word.isValid_text (w : Word) : Utf8.isValid w.text = true := by
  rw [text_eq]
  rcases w with _ | _ | _ <;> decide

theorem Value.StandsAt.isValid_raw {i : Nat} {value : Value} (h : value.StandsAt text i) :
    Utf8.isValid value.raw = true := by
  cases value with
  | missing => cases h
  | null => exact Word.null.isValid_text
  | boolean b => exact (Word.boolean b).isValid_text
  | number raw => exact h.2.1
  | string raw => exact h.2.1
  | json raw => exact h.2.1

/-- Only the first byte of a word starts a value. -/
theorem Grammar.Word.eq_zero_of_startsValue (w : Word) {j : Nat} {c : UInt8}
    (hc : w.text[j]? = some c) (hstarts : startsValue c = true) : j = 0 := by
  have hall : ∀ j, (h : j < w.text.length) → startsValue w.text[j] = true → j = 0 := by
    rcases w with _ | _ | _ <;> decide
  obtain ⟨hlt, rfl⟩ := List.getElem?_eq_some_iff.1 hc
  exact hall j hlt hstarts

/-- In the spelling of a word stands no other value than a lone `n`. -/
theorem Grammar.Word.eq_of_ownLead (w : Word) {raw : Bytes} {j : Nat} (hlead : OwnLead raw)
    (hraw : raw <+: w.text.drop j) : j = 0 ∧ w = .null ∧ raw = [lowerN] := by
  obtain ⟨c, rest, rfl, hstarts, ht, hf, hn⟩ := hlead
  obtain ⟨behind, hbehind⟩ := hraw
  have hc : w.text[j]? = some c := by
    rw [← List.head?_drop, ← hbehind]
    rfl
  obtain rfl := w.eq_zero_of_startsValue hc hstarts
  rw [List.drop_zero, text_eq, List.cons_append] at hbehind
  -- The first byte of `true` and `false` starts no other value
  rcases w with _ | _ | _
  · obtain ⟨rfl, hrest⟩ := List.cons.inj hbehind
    cases rest with
    | nil => exact ⟨rfl, rfl, rfl⟩
    | cons d rest =>
      obtain ⟨rfl, -⟩ := List.cons.inj hrest
      exact absurd rfl (hn rfl)
  · exact absurd (List.cons.inj hbehind).1 hf
  · exact absurd (List.cons.inj hbehind).1 ht

/-- What stands in the spelling of a word stands in a text that holds no more than the first byte of
the word. -/
theorem Value.StandsAt.of_word {w : Word} {i j : Nat} {value : Value}
    (hword : w.value.StandsAt text i) (h : value.StandsAt w.text j) :
    value.StandsAt text (i + j) := by
  have hhead : text[i]? = w.text.head? := by
    rw [w.text_eq]
    rcases w with _ | _ | _ <;> simpa [Word.value, Value.StandsAt] using hword
  have hbyte : ∀ c, startsValue c = true → w.text[j]? = some c → text[i + j]? = some c := by
    intro c hstarts hc
    obtain rfl := w.eq_zero_of_startsValue hc hstarts
    rw [Nat.add_zero, hhead, ← hc, List.head?_eq_getElem?]
  have hraw : ∀ raw : Bytes, raw <+: w.text.drop j → OwnLead raw → raw <+: text.drop (i + j) := by
    intro raw hraw hlead
    obtain ⟨rfl, rfl, rfl⟩ := w.eq_of_ownLead hlead hraw
    rw [Word.text_eq, List.head?_cons, ← List.head?_drop] at hhead
    obtain ⟨rest, hrest⟩ := List.head?_eq_some_iff.1 hhead
    exact ⟨rest, hrest.symm⟩
  cases value with
  | missing => cases h
  | null => exact hbyte _ rfl h
  | boolean b => cases b <;> exact hbyte _ rfl h
  | number raw => exact ⟨hraw raw h.1 h.2.2, h.2⟩
  | string raw => exact ⟨hraw raw h.1 h.2.2, h.2⟩
  | json raw => exact ⟨hraw raw h.1 h.2.2, h.2⟩

/-- What stands in a value that stands in a text stands in the text. -/
theorem Result.StandsIn.rebase {r inner : Result} (h : r.StandsIn text)
    (hinner : Utf8.isValid r.raw = true → inner.StandsIn r.raw) :
    (inner.rebase r.index).StandsIn text := by
  cases hbase : r.index with
  | none => exact standsIn_of_index_eq_none rfl
  | some i =>
    have hstands := h i hbase
    have hinner := hinner hstands.isValid_raw
    intro k hk
    rw [Result.rebase] at hk ⊢
    obtain ⟨j, hj, rfl⟩ := Option.map_eq_some_iff.1 hk
    have hj := hinner j hj
    rw [Nat.add_comm j i]
    unfold Result.raw at hj
    -- A word stands in the text with its first byte only, everything else byte by byte
    cases hvalue : r.value with
    | missing =>
      rw [hvalue] at hstands
      cases hstands
    | null =>
      rw [hvalue] at hstands hj
      exact Value.StandsAt.of_word (w := .null) hstands hj
    | boolean b =>
      rw [hvalue] at hstands hj
      exact Value.StandsAt.of_word (w := .boolean b) hstands hj
    | number raw =>
      rw [hvalue] at hstands hj
      exact hj.of_prefix hstands.1
    | string raw =>
      rw [hvalue] at hstands hj
      exact hj.of_prefix hstands.1
    | json raw =>
      rw [hvalue] at hstands hj
      exact hj.of_prefix hstands.1

end Standing

/-! ## Spans -/

namespace Extent

/-- A container ends with a bracket that closes. -/
theorem exists_closer {place : Place} {depth length n : Nat} {text : Bytes}
    (h : closeFrom place depth length text = some n) :
    ∃ before c after, text = before ++ c :: after ∧ isCloser c = true ∧
      n = length + before.length + 1 := by
  induction text generalizing place depth length with
  | nil => cases h
  | cons c rest ih =>
    -- Every byte but the last one only moves the scan on
    have hmoves : ∀ {place : Place} {depth : Nat},
        closeFrom place depth (length + 1) rest = some n →
        ∃ before d after, c :: rest = before ++ d :: after ∧ isCloser d = true ∧
          n = length + before.length + 1 := by
      intro place depth h
      obtain ⟨before, d, after, rfl, hd, rfl⟩ := ih h
      refine ⟨c :: before, d, after, rfl, hd, ?_⟩
      rw [List.length_cons]
      omega
    unfold closeFrom at h
    split at h
    · exact hmoves h
    · repeat' split at h
      all_goals exact hmoves h
    · split at h
      · exact hmoves h
      · split at h
        · exact hmoves h
        · split at h
          · rename_i hcloser
            split at h
            · exact ⟨[], c, rest, rfl, hcloser, (Option.some.inj h).symm⟩
            · exact hmoves h
          · exact hmoves h

end Extent

/-- A string ends with a quote. -/
theorem Quoted.exists_quote {length : Nat} {escaped : Bool} {text : Bytes} {body : Quoted.Body}
    (h : Quoted.closeFrom length escaped text = some body) :
    ∃ before after, text = before ++ quote :: after ∧ body.length = length + before.length := by
  fun_induction Quoted.closeFrom length escaped text with
  | case1 => cases h
  | case2 length escaped rest =>
    cases h
    exact ⟨[], rest, rfl, rfl⟩
  | case3 => cases h
  | case4 length escaped d rest hquote ih =>
    obtain ⟨before, after, rfl, hlength⟩ := ih h
    refine ⟨backslash :: d :: before, after, rfl, ?_⟩
    rw [hlength, List.length_cons, List.length_cons]
    omega
  | case5 length escaped c rest hquote hslash ih =>
    obtain ⟨before, after, rfl, hlength⟩ := ih h
    refine ⟨c :: before, after, rfl, ?_⟩
    rw [hlength, List.length_cons]
    omega

section Spans

variable {text : Bytes} {i : Nat} {lead : Lead}

/-- What the first byte of a value says about it. -/
theorem Lead.of?_cons {c : UInt8} {rest : Bytes} (h : Lead.of? (c :: rest) = some lead) :
    startsValue c = true ∧
      (lead = .word → c = lowerN ∨ c = lowerT ∨ c = lowerF) ∧
      (lead ≠ .word → c ≠ lowerT ∧ c ≠ lowerF ∧ (c = lowerN → rest.head? ≠ some lowerU)) := by
  by_cases hn : c = lowerN
  · -- Behind an `n` the next byte decides
    subst hn
    have hlead : Lead.afterN rest = lead := Option.some.inj h
    refine ⟨rfl, fun _ => .inl rfl, fun hne => ⟨by decide, by decide, fun _ hhead => hne ?_⟩⟩
    cases rest with
    | nil => cases hhead
    | cons d rest => rw [← hlead, Lead.afterN, if_pos (Option.some.inj hhead)]
  · grind [Lead.of?, startsValue, opensContainer, startsNumber, isDigit]

/-- A text from a one-byte character on is UTF-8. -/
theorem Utf8.isValid_drop (hvalid : isValid text = true) {c : UInt8} {rest : Bytes}
    (hdrop : text.drop i = c :: rest) (hc : c ≤ 0x7F) : isValid (c :: rest) = true := by
  rw [← List.take_append_drop i text, hdrop] at hvalid
  exact (isValid_of_append_ascii hc hvalid).2

/-- A text up to a one-byte character is UTF-8. -/
theorem Utf8.isValid_take_last {before after : Bytes} {c d : UInt8}
    (hvalid : isValid (c :: (before ++ d :: after)) = true) (hd : d ≤ 0x7F) {n : Nat}
    (hn : n = before.length + 2) : isValid ((c :: (before ++ d :: after)).take n) = true := by
  have htext : c :: (before ++ d :: after) = (c :: before) ++ [d] ++ after := by simp
  have hlength : n = ((c :: before) ++ [d]).length := by simp [hn]
  rw [htext] at hvalid ⊢
  rw [hlength, List.take_left]
  exact (isValid_of_ascii_append hd hvalid).1

theorem ascii_of_endsNumber {c : UInt8} (h : Extent.endsNumber c = true) : c ≤ 0x7F := by
  grind [Extent.endsNumber, isSpace]

theorem ascii_of_isCloser {c : UInt8} (h : isCloser c = true) : c ≤ 0x7F := by
  grind [isCloser]

/-- A number ends in front of a one-byte character, or with the text. -/
theorem Extent.isValid_take_number {c : UInt8} {rest : Bytes}
    (hvalid : Utf8.isValid (c :: rest) = true) :
    Utf8.isValid ((c :: rest).take (ofNumber (c :: rest))) = true := by
  have hsplit : c :: rest = (c :: rest.takeWhile (!endsNumber ·)) ++
      rest.dropWhile (!endsNumber ·) := by
    rw [List.cons_append, List.takeWhile_append_dropWhile]
  have htake : (c :: rest).take (ofNumber (c :: rest)) = c :: rest.takeWhile (!endsNumber ·) := by
    rw [hsplit]
    exact List.take_left' (by rw [← hsplit]; rfl)
  rw [htake]
  rw [hsplit] at hvalid
  cases hrest : rest.dropWhile (!endsNumber ·) with
  | nil => rwa [hrest, List.append_nil] at hvalid
  | cons d after =>
    have hd := List.head?_dropWhile_not (!endsNumber ·) rest
    rw [hrest] at hvalid hd
    have hd : endsNumber d = true := by simpa using hd
    exact (Utf8.isValid_of_append_ascii (ascii_of_endsNumber hd) hvalid).1

/-- Values end where characters do. -/
theorem Extent.isValid_take {c : UInt8} {rest : Bytes} (hvalid : Utf8.isValid (c :: rest) = true)
    {n : Nat} (hn : ofLead? lead (c :: rest) = some n) (hword : lead ≠ .word) :
    Utf8.isValid ((c :: rest).take n) = true := by
  have hcontainer : ofContainer? (c :: rest) = some n →
      Utf8.isValid ((c :: rest).take n) = true := by
    intro hn
    obtain ⟨before, closer, after, rfl, hcloser, hlength⟩ := exists_closer hn
    exact Utf8.isValid_take_last hvalid (ascii_of_isCloser hcloser) (by omega)
  cases lead with
  | object => exact hcontainer hn
  | array => exact hcontainer hn
  | string =>
    obtain ⟨body, hbody, rfl⟩ := Option.map_eq_some_iff.1 hn
    obtain ⟨before, after, rfl, hlength⟩ := Quoted.exists_quote hbody
    exact Utf8.isValid_take_last hvalid (by decide) (by omega)
  | number =>
    obtain rfl := Option.some.inj hn
    exact isValid_take_number hvalid
  | word => exact absurd rfl hword

/-- What is read at a place of a UTF-8 text stands there. -/
theorem Value.standsAt_ofSpan {c : UInt8} {rest span : Bytes} (hdrop : text.drop i = c :: rest)
    (hlead : Lead.of? (c :: rest) = some lead) (hspan : c :: span <+: c :: rest)
    (hvalid : lead ≠ .word → Utf8.isValid (c :: span) = true) :
    (Value.ofSpan lead (c :: span)).StandsAt text i := by
  obtain ⟨hstarts, hword, hother⟩ := Lead.of?_cons hlead
  have hbyte : text[i]? = some c := by
    rw [← List.head?_drop, hdrop]
    rfl
  have hown : lead ≠ .word →
      Utf8.lossy (c :: span) <+: text.drop i ∧ Utf8.isValid (Utf8.lossy (c :: span)) = true ∧
        OwnLead (Utf8.lossy (c :: span)) := by
    intro hne
    obtain ⟨ht, hf, hn⟩ := hother hne
    rw [Utf8.lossy, if_pos (hvalid hne), hdrop]
    refine ⟨hspan, hvalid hne, c, span, rfl, hstarts, ht, hf, fun hc hhead => hn hc ?_⟩
    obtain ⟨behind, hbehind⟩ := hspan
    rw [List.cons_append] at hbehind
    rw [← (List.cons.inj hbehind).2, List.head?_append, hhead]
    rfl
  cases lead with
  | object => exact hown Lead.noConfusion
  | array => exact hown Lead.noConfusion
  | string => exact hown Lead.noConfusion
  | number => exact hown Lead.noConfusion
  | word =>
    have hread : Value.ofSpan .word (c :: span) =
        if c = lowerT then .boolean true else if c = lowerF then .boolean false else .null := by
      simp only [Value.ofSpan, Value.ofWord, List.head?_cons, Option.some.injEq]
    rw [hread]
    split
    · rename_i ht
      exact hbyte.trans (congrArg some ht)
    · rename_i ht
      split
      · rename_i hf
        exact hbyte.trans (congrArg some hf)
      · rename_i hf
        have hn : c = lowerN := ((hword rfl).resolve_right (not_or.2 ⟨ht, hf⟩))
        exact hbyte.trans (congrArg some hn)

/-- A value that extends as far as its kind says stands where it starts. -/
theorem Value.standsAt_take (hvalid : Utf8.isValid text = true) {c : UInt8} {rest : Bytes}
    (hdrop : text.drop i = c :: rest) (hlead : Lead.of? (c :: rest) = some lead) {n : Nat}
    (hn : Extent.ofLead? lead (c :: rest) = some n) :
    (Value.ofSpan lead ((c :: rest).take n)).StandsAt text i := by
  have hutf8 := Utf8.isValid_drop hvalid hdrop (ascii_of_startsValue (Lead.of?_cons hlead).1)
  have htake : (c :: rest).take n = c :: rest.take (n - 1) := by
    cases n with
    | zero => exact absurd (Extent.pos_of_ofLead? hlead hn) (Nat.lt_irrefl 0)
    | succ n => rfl
  have hfront := List.take_prefix n (c :: rest)
  have hspan := fun hword => Extent.isValid_take hutf8 hn hword
  rw [htake] at hfront hspan ⊢
  exact standsAt_ofSpan hdrop hlead hfront hspan

/-- The first value of a text stands in it. -/
theorem standsIn_parse (hvalid : Utf8.isValid text = true) : (parse text).StandsIn text := by
  unfold parse
  dsimp only
  cases hrest : text.drop (Extent.ofSpace text) with
  | nil => exact Result.standsIn_missing
  | cons c rest =>
    cases hlead : Lead.of? (c :: rest) with
    | none => exact Result.standsIn_missing
    | some lead =>
      have hutf8 := Utf8.isValid_drop hvalid hrest (ascii_of_startsValue (Lead.of?_cons hlead).1)
      dsimp only
      split
      · -- An object or an array takes the rest of the text
        intro i hi
        obtain rfl := Option.some.inj hi
        exact Value.standsAt_ofSpan hrest hlead List.prefix_rfl fun _ => hutf8
      · split
        · rename_i n hn
          intro i hi
          obtain rfl := Option.some.inj hi
          exact Value.standsAt_take hvalid hrest hlead hn
        · exact Result.standsIn_missing

end Spans

/-! ## Cursors -/

/-- A cursor is a place of a text. -/
def Cursor.IsIn (text : Bytes) (c : Cursor) : Prop :=
  c.rest = text.drop c.offset

section Cursors

variable {text : Bytes} {c : Cursor}

namespace Cursor

theorem isIn_start (text : Bytes) : (start text).IsIn text :=
  rfl

theorem IsIn.advance (h : c.IsIn text) (n : Nat) : (c.advance n).IsIn text := by
  rw [IsIn, Cursor.advance, h, List.drop_drop]

theorem IsIn.toEnd (h : c.IsIn text) : c.toEnd.IsIn text := by
  rw [IsIn, Cursor.toEnd, h, List.length_drop, eq_comm, List.drop_eq_nil_iff]
  dsimp only
  omega

theorem IsIn.find (h : c.IsIn text) (p : UInt8 → Bool) : (c.find p).IsIn text := by
  have hfind : ∀ rest offset, rest = text.drop offset → (findFrom p offset rest).IsIn text := by
    intro rest
    induction rest with
    | nil => exact fun _ => id
    | cons b rest ih =>
      intro offset h
      rw [findFrom]
      split
      · exact h
      · apply ih
        rw [← List.drop_drop, ← h, List.drop_one, List.tail_cons]
  exact hfind c.rest c.offset h

variable (hvalid : Utf8.isValid text = true)

include hvalid

/-- A value that is read at a place of a text stands there. -/
theorem IsIn.readHere? (h : c.IsIn text) {reading : Reading} (hread : c.readHere? = some reading) :
    reading.value.StandsIn text ∧ reading.next.IsIn text := by
  obtain ⟨lead, hlead, hread⟩ := Option.bind_eq_some_iff.1 hread
  obtain ⟨n, hn, rfl⟩ := Option.map_eq_some_iff.1 hread
  refine ⟨fun i hi => ?_, h.advance n⟩
  obtain rfl := Option.some.inj hi
  unfold IsIn at h
  cases hrest : c.rest with
  | nil =>
    rw [hrest] at hlead
    cases hlead
  | cons b rest =>
    rw [hrest] at hlead hn h
    exact Value.standsAt_take hvalid h.symm hlead hn

theorem IsIn.read? (h : c.IsIn text) {reading : Reading} (hread : c.read? = some reading) :
    reading.value.StandsIn text ∧ reading.next.IsIn text :=
  (h.find startsValue).readHere? hvalid hread

omit hvalid in
theorem IsIn.skipHere? (h : c.IsIn text) {next : Cursor} (hskip : c.skipHere? = some next) :
    next.IsIn text := by
  rw [skipHere?_eq] at hskip
  obtain ⟨reading, hread, rfl⟩ := Option.map_eq_some_iff.1 hskip
  obtain ⟨lead, hlead, hread⟩ := Option.bind_eq_some_iff.1 hread
  obtain ⟨n, hn, rfl⟩ := Option.map_eq_some_iff.1 hread
  exact h.advance n

omit hvalid in
/-- A key is the string that is read where it starts. -/
theorem readHere?_of_keyHere? {key : Key} (hkey : c.keyHere? = some key) :
    c.readHere? = some ⟨key.result, key.next⟩ := by
  unfold keyHere? at hkey
  split at hkey
  · cases hkey
  · rename_i lead rest hrest
    split at hkey
    · rename_i hquote
      obtain ⟨body, hbody, rfl⟩ := Option.map_eq_some_iff.1 hkey
      have hlead : Lead.of? c.rest = some .string := by
        rw [hrest, hquote]
        rfl
      have hlength : Extent.ofLead? .string c.rest = some (body.length + 2) := by
        rw [hrest, Extent.ofLead?, Extent.ofString?, hbody]
        rfl
      rw [Cursor.readHere?, hlead, Option.bind_some, hlength]
      rfl
    · cases hkey

theorem IsIn.keyHere? (h : c.IsIn text) {key : Key} (hkey : c.keyHere? = some key) :
    key.result.StandsIn text ∧ key.next.IsIn text :=
  h.readHere? hvalid (readHere?_of_keyHere? hkey)

/-- The elements from a place of a text on stand in the text. -/
theorem IsIn.elementsFrom (h : c.IsIn text) {found : List Result}
    (hfound : ∀ r ∈ found, r.StandsIn text) :
    (∀ r ∈ (c.elementsFrom found).items, r.StandsIn text) ∧
      (c.elementsFrom found).next.IsIn text := by
  fun_induction Cursor.elementsFrom found c with
  | case1 found c value hcloser =>
    exact ⟨fun r hr => hfound r (List.mem_reverse.1 hr), (h.find _).advance 1⟩
  | case2 found c value hcloser reading hread ih =>
    obtain ⟨hvalue, hnext⟩ := (h.find _).readHere? hvalid hread
    exact ih hnext (List.forall_mem_cons.2 ⟨hvalue, hfound⟩)
  | case3 found c value hcloser hread =>
    exact ⟨fun r hr => hfound r (List.mem_reverse.1 hr), (h.find _).toEnd⟩

theorem IsIn.label? (h : c.IsIn text) {object : Bool} {position : Nat} {label : Result}
    {next : Cursor} (hlabel : c.label? object position = some (label, next)) :
    label.StandsIn text ∧ next.IsIn text := by
  unfold Cursor.label? at hlabel
  split at hlabel
  · obtain ⟨key, hkey, hpair⟩ := Option.map_eq_some_iff.1 hlabel
    cases hpair
    exact (h.find _).keyHere? hvalid hkey
  · cases hlabel
    -- A position is no part of the text
    exact ⟨Result.standsIn_of_index_eq_none rfl, h⟩

theorem IsIn.child? (h : c.IsIn text) {object : Bool} {position : Nat} {child : Child}
    {next : Cursor} (hchild : c.child? object position = some (child, next)) :
    (child.key.StandsIn text ∧ child.value.StandsIn text) ∧ next.IsIn text := by
  unfold Cursor.child? at hchild
  split at hchild
  · cases hchild
  · rename_i label start hlabel
    obtain ⟨hkey, hstart⟩ := h.label? hvalid hlabel
    dsimp only at hchild
    split at hchild
    · cases hchild
    · obtain ⟨reading, hread, hpair⟩ := Option.map_eq_some_iff.1 hchild
      cases hpair
      obtain ⟨hvalue, hnext⟩ := (hstart.find _).read? hvalid hread
      exact ⟨⟨hkey, hvalue⟩, hnext⟩

/-- The children from a place of a text on stand in the text, and so do their keys. -/
theorem IsIn.childrenFrom (h : c.IsIn text) (object : Bool) {found : List Child} (position : Nat)
    (hfound : ∀ child ∈ found, child.key.StandsIn text ∧ child.value.StandsIn text) :
    ∀ child ∈ c.childrenFrom object found position,
      child.key.StandsIn text ∧ child.value.StandsIn text := by
  fun_induction Cursor.childrenFrom object found position c with
  | case1 found position c hchild => exact fun child hmem => hfound child (List.mem_reverse.1 hmem)
  | case2 found position c child next hchild ih =>
    obtain ⟨hstands, hnext⟩ := h.child? hvalid hchild
    exact ih hnext (List.forall_mem_cons.2 ⟨hstands, hfound⟩)

end Cursor

/-- The children in a text stand in it. -/
theorem Result.standsIn_childrenOf (hvalid : Utf8.isValid text = true) :
    ∀ child ∈ childrenOf text, child.key.StandsIn text ∧ child.value.StandsIn text := by
  unfold childrenOf
  have hstart := ((Cursor.isIn_start text).find (!isSpace ·)).advance 1
  dsimp only
  split
  · exact hstart.childrenFrom hvalid true 0 (List.forall_mem_nil _)
  · split
    · exact hstart.childrenFrom hvalid false 0 (List.forall_mem_nil _)
    · exact List.forall_mem_nil _

end Cursors

end JsonQuery
