import JsonQuery.Proofs.Chaining
import JsonQuery.Proofs.Offsets

/-!
# Nothing behind a value is looked at

A walk reads a text from its start on, and over the value that it finds it reads one byte at most,
the one that ends a number or a word.  So every text that is the same up to there leads to the same
value at the same place, whatever follows, and however malformed either text is.

## Layers

- **Places**: cursors at the same place of two texts that are the same up to an offset.
- **Readers**: what the bytes in front of the offset tell, they tell in both texts.
- **Values and keys**: a value or a key that ends in front of the offset is read alike.
- **Events**: a scan makes the same step in both texts, if the step ends in front of the offset.
- **Walks**: a walk that finds a value in front of the offset, by induction over its events.
- **Queries**: the text up to the byte behind a value decides that the value is found.
-/

namespace JsonQuery

open Ascii Grammar

/-! ## Places -/

namespace Cursor

/-- Places of two texts that are the same up to an offset.  From the offset on nothing is asked. -/
def Alike (n : Nat) (c c' : Cursor) : Prop :=
  c'.cut n = c.cut n

variable {n : Nat} {c c' : Cursor}

theorem offset_le_find (p : UInt8 → Bool) (c : Cursor) : c.offset ≤ (c.find p).offset :=
  offset_le_findFrom p c.offset c.rest

theorem offset_le_advance (m : Nat) (c : Cursor) : c.offset ≤ (c.advance m).offset :=
  Nat.le_add_right _ _

theorem offset_le_toEnd (c : Cursor) : c.offset ≤ c.toEnd.offset :=
  Nat.le_add_right _ _

theorem alike_start {text text' : Bytes} (h : text'.take n = text.take n) :
    Alike n (start text) (start text') := by
  rw [Alike, ← start_take, ← start_take, h]

namespace Alike

theorem find (h : Alike n c c') (p : UInt8 → Bool) : Alike n (c.find p) (c'.find p) := by
  rw [Alike, ← find_cut, ← find_cut, h]

/-- In front of the offset the places are the same. -/
theorem offset_eq (h : Alike n c c') (hlt : c.offset < n) : c'.offset = c.offset := by
  have hoffset : min c'.offset n = min c.offset n := congrArg Cursor.offset h
  omega

/-- In front of the offset the bytes ahead are the same. -/
theorem take_eq (h : Alike n c c') (hlt : c.offset < n) :
    c'.rest.take (n - c.offset) = c.rest.take (n - c.offset) := by
  have hrest : c'.rest.take (n - c'.offset) = c.rest.take (n - c.offset) :=
    congrArg Cursor.rest h
  rwa [h.offset_eq hlt] at hrest

theorem take_length_eq (h : Alike n c c') (length : Nat) (hlt : c.offset < n)
    (hle : c.offset + length ≤ n) : c'.rest.take length = c.rest.take length := by
  have hlength : length ≤ n - c.offset := by omega
  rw [← Nat.min_eq_left hlength, ← List.take_take, h.take_eq hlt, List.take_take]

theorem peek?_eq (h : Alike n c c') (hlt : c.offset < n) : c'.peek? = c.peek? := by
  have hlt' : c'.offset < n := h.offset_eq hlt ▸ hlt
  rw [← peek?_cut hlt', ← peek?_cut hlt, h]

theorem advance (h : Alike n c c') (m : Nat) : Alike n (c.advance m) (c'.advance m) := by
  rcases Nat.lt_or_ge c.offset n with hlt | hle
  · have hleft : n - (c.offset + m) = n - c.offset - m := by omega
    simp only [Alike, cut, Cursor.advance, h.offset_eq hlt, hleft, ← List.drop_take, h.take_eq hlt]
  · -- Neither place comes back in front of the offset
    have hoffset : min c'.offset n = min c.offset n := congrArg Cursor.offset h
    have hle' : n ≤ c'.offset := by omega
    rw [Alike, cut_of_le (Nat.le_trans hle (offset_le_advance m c)),
      cut_of_le (Nat.le_trans hle' (offset_le_advance m c'))]

/-- A text that ends in front of the offset is the other text. -/
theorem eq_of_toEnd (h : Alike n c c') (hlt : c.toEnd.offset < n) : c' = c := by
  have hlt : c.offset + c.rest.length < n := hlt
  have hoffset := h.offset_eq (by omega)
  have hwhole : c'.rest.take (n - c.offset) = c.rest :=
    (h.take_eq (by omega)).trans (List.take_of_length_le (by omega))
  have hlength := congrArg List.length hwhole
  rw [List.length_take] at hlength
  have hrest : c'.rest = c.rest := (List.take_of_length_le (by omega)).symm.trans hwhole
  obtain ⟨offset, rest⟩ := c
  obtain ⟨offset', rest'⟩ := c'
  exact (Cursor.mk.injEq ..).mpr ⟨hoffset, hrest⟩

end Alike

end Cursor

/-! ## Readers -/

section Readers

variable {m : Nat} {text text' : Bytes}

/-- The first two bytes of a value tell its kind. -/
theorem Lead.of?_congr (h : text'.take m = text.take m) (hm : 2 ≤ m) :
    Lead.of? text' = Lead.of? text := by
  have htwo : text'.take 2 = text.take 2 := by
    rw [← Nat.min_eq_left hm, ← List.take_take, h, List.take_take]
  match text, text' with
  | [], [] => rfl
  | [], _ :: _ => simp at htwo
  | _ :: _, [] => simp at htwo
  | [a], [a'] =>
    obtain rfl : a' = a := by simpa using htwo
    rfl
  | [_], _ :: _ :: _ => simp at htwo
  | _ :: _ :: _, [_] => simp at htwo
  | a :: b :: _, a' :: b' :: _ =>
    obtain ⟨rfl, rfl⟩ : a' = a ∧ b' = b := by simpa using htwo
    rfl

/-- Whether a container starts is told by its first byte. -/
theorem Scan.atContainer_eq (c : Cursor) :
    atContainer c = (c.peek?.map opensContainer).getD false := by
  obtain ⟨offset, rest⟩ := c
  cases rest with
  | nil => rfl
  | cons b rest =>
    cases hrest : rest <;>
      grind [atContainer, Cursor.peek?, Lead.of?, Lead.afterN, Lead.isContainer, opensContainer,
        startsNumber]

/-- A value extends no further than its text. -/
theorem Extent.length_le_of_ofLead? {lead : Lead} {length : Nat}
    (h : ofLead? lead text = some length) : length ≤ text.length := by
  have htake := ofLead?_take lead text.length text
  rw [List.take_length, h, Option.bind_some] at htake
  split at htake
  · assumption
  · split at htake
    · cases htake
    · exact Nat.le_of_eq (Option.some.inj htake)

/-- How far a value extends is told by its bytes and the one behind. -/
theorem Extent.ofLead?_congr {lead : Lead} {length : Nat} (h : text'.take m = text.take m)
    (hlength : ofLead? lead text = some length) (hlt : length < m) :
    ofLead? lead text' = some length := by
  have htake := ofLead?_take lead m text
  have htake' := ofLead?_take lead m text'
  rw [hlength, Option.bind_some, if_pos (Nat.le_of_lt hlt)] at htake
  rw [h, htake] at htake'
  cases hlength' : ofLead? lead text' with
  | none =>
    rw [hlength'] at htake'
    cases htake'
  | some length' =>
    rw [hlength', Option.bind_some] at htake'
    split at htake'
    · exact htake'.symm
    · split at htake'
      · cases htake'
      · exact absurd (Option.some.inj htake') (Nat.ne_of_lt hlt)

/-- Where a string closes is told by its bytes. -/
theorem Quoted.close?_congr {body : Quoted.Body} (h : text'.take m = text.take m)
    (hbody : close? text = some body) (hlt : body.length < m) : close? text' = some body := by
  have htake := close?_take m 0 false text
  have htake' := close?_take m 0 false text'
  rw [h, htake, ← close?, hbody] at htake'
  rw [Nat.zero_add, Option.filter_some, if_pos (decide_eq_true hlt), ← close?] at htake'
  exact Option.eq_some_of_filter_eq_some htake'.symm

end Readers

/-! ## Values and keys -/

/-- A word is told by its first byte. -/
theorem Value.ofWord_take {text : Bytes} {length : Nat} (hpos : 0 < length) :
    ofWord (text.take length) = ofWord text := by
  simp only [ofWord, List.head?_take, if_neg (Nat.ne_of_gt hpos)]

/-- Whatever a value is but a word, its source text is the span that was read. -/
theorem Value.raw_ofSpan {lead : Lead} {span : Bytes} (hword : lead ≠ .word)
    (hvalid : Utf8.isValid span = true) : (ofSpan lead span).raw = span := by
  have hlossy : Utf8.lossy span = span := if_pos hvalid
  cases lead with
  | word => exact absurd rfl hword
  | _ => exact hlossy

theorem Value.raw_ofWord_ne_nil (span : Bytes) : (ofWord span).raw ≠ [] := by
  unfold ofWord
  split
  · decide
  · split
    · decide
    · decide

/-- A result stands in front of an offset, and so does the byte behind it. -/
def Result.EndsBefore (n : Nat) (r : Result) : Prop :=
  ∃ i, r.index = some i ∧ i + r.raw.length < n

namespace Cursor

/-- The source text of a value in a UTF-8 text is as long as its span, if it is no word. -/
theorem IsIn.length_raw_ofSpan {c : Cursor} {text : Bytes} (hin : c.IsIn text)
    (hvalid : Utf8.isValid text = true) {lead : Lead} (hlead : Lead.of? c.rest = some lead)
    {length : Nat} (hlength : Extent.ofLead? lead c.rest = some length) (hword : lead ≠ .word) :
    (Value.ofSpan lead (c.rest.take length)).raw.length = length := by
  have hspan : Utf8.isValid (c.rest.take length) = true := by
    unfold Cursor.IsIn at hin
    cases hrest : c.rest with
    | nil =>
      rw [hrest] at hlead
      cases hlead
    | cons b rest =>
      rw [hrest] at hlead hlength hin
      have hb := ascii_of_startsValue (Lead.of?_cons hlead).1
      exact Extent.isValid_take (Utf8.isValid_drop hvalid hin.symm hb) hlength hword
  rw [Value.raw_ofSpan hword hspan, List.length_take,
    Nat.min_eq_left (Extent.length_le_of_ofLead? hlength)]

variable {n : Nat} {c c' : Cursor} (h : Alike n c c')

include h

/-- Passing over a value leads to the same place, if that is in front of the offset. -/
theorem Alike.skipHere? {next : Cursor} (hskip : c.skipHere? = some next)
    (hlt : next.offset < n) : ∃ next', c'.skipHere? = some next' ∧ Alike n next next' := by
  obtain ⟨length, hvalue, rfl⟩ := Option.map_eq_some_iff.1 hskip
  obtain ⟨lead, hlead, hlength⟩ := Option.bind_eq_some_iff.1 hvalue
  have hpos := Extent.pos_of_ofLead? hlead hlength
  have hoffset : c.offset + length < n := hlt
  have htake := h.take_eq (by omega)
  refine ⟨c'.advance length, ?_, h.advance length⟩
  have hvalue' : Extent.ofValue? c'.rest = some length := by
    rw [Extent.ofValue?, Lead.of?_congr htake (by omega), hlead, Option.bind_some,
      Extent.ofLead?_congr htake hlength (by omega)]
  rw [Cursor.skipHere?, hvalue', Option.map_some]

/-- A word is read alike if its first two bytes stand in front of the offset, wherever it ends. -/
theorem Alike.readWord? (hlead : Lead.of? c.rest = some .word) (hlt : c.offset + 1 < n) :
    ∃ next, c'.readHere? = some ⟨.located (.ofWord c.rest) c.offset, next⟩ := by
  have hlead' : Lead.of? c'.rest = some .word := by
    rw [Lead.of?_congr (h.take_eq (by omega)) (by omega), hlead]
  have hlength' : Extent.ofLead? .word c'.rest = some (Extent.ofWord c'.rest) := rfl
  have hhead : c'.rest.head? = c.rest.head? := h.peek?_eq (by omega)
  have hvalue : Value.ofWord c'.rest = Value.ofWord c.rest := by
    simp only [Value.ofWord, hhead]
  refine ⟨c'.advance (Extent.ofWord c'.rest), ?_⟩
  simp only [Cursor.readHere?, hlead', hlength', Option.bind_some, Option.map_some, Value.ofSpan,
    Value.ofWord_take (Extent.pos_of_ofLead? hlead' hlength'), hvalue, h.offset_eq (by omega)]

/-- Any value whose span ends in front of the offset is read alike. -/
theorem Alike.readSpan? {lead : Lead} {length : Nat} (hlead : Lead.of? c.rest = some lead)
    (hlength : Extent.ofLead? lead c.rest = some length) (hlt : c.offset + length < n) :
    ∃ next, c'.readHere? =
      some ⟨.located (.ofSpan lead (c.rest.take length)) c.offset, next⟩ := by
  have hpos := Extent.pos_of_ofLead? hlead hlength
  have htake := h.take_eq (by omega)
  have hspan := h.take_length_eq length (by omega) (Nat.le_of_lt hlt)
  refine ⟨c'.advance length, ?_⟩
  rw [Cursor.readHere?, Lead.of?_congr htake (by omega), hlead, Option.bind_some,
    Extent.ofLead?_congr htake hlength (by omega), Option.map_some, hspan, h.offset_eq (by omega)]

/-- A value that ends in front of the offset is read alike.  The source text of a word does not
depend on the span that is read, so a word is told apart. -/
theorem Alike.readHere? {text : Bytes} (hvalid : Utf8.isValid text = true) (hin : c.IsIn text)
    {reading : Reading} (hread : c.readHere? = some reading)
    (hends : reading.value.EndsBefore n) :
    ∃ next, c'.readHere? = some ⟨reading.value, next⟩ := by
  obtain ⟨lead, hlead, hread⟩ := Option.bind_eq_some_iff.1 hread
  obtain ⟨length, hlength, rfl⟩ := Option.map_eq_some_iff.1 hread
  obtain ⟨i, hi, hlt⟩ := hends
  obtain rfl : c.offset = i := Option.some.inj hi
  have hlt : c.offset + (Value.ofSpan lead (c.rest.take length)).raw.length < n := hlt
  by_cases hword : lead = .word
  · subst hword
    have hvalue : Value.ofSpan .word (c.rest.take length) = .ofWord c.rest :=
      Value.ofWord_take (Extent.pos_of_ofLead? hlead hlength)
    have hraw := List.length_pos_of_ne_nil (Value.raw_ofWord_ne_nil c.rest)
    rw [hvalue] at hlt ⊢
    exact h.readWord? hlead (by omega)
  · rw [hin.length_raw_ofSpan hvalid hlead hlength hword] at hlt
    exact h.readSpan? hlead hlength hlt

/-- A key that ends in front of the offset is read alike. -/
theorem Alike.keyHere? {key : Key} (hkey : c.keyHere? = some key) (hlt : key.next.offset < n) :
    ∃ key', c'.keyHere? = some key' ∧ key'.body = key.body ∧ key'.escaped = key.escaped ∧
      Alike n key.next key'.next := by
  unfold Cursor.keyHere? at hkey
  split at hkey
  · cases hkey
  · rename_i lead rest hrest
    split at hkey
    · rename_i hquote
      obtain ⟨body, hbody, rfl⟩ := Option.map_eq_some_iff.1 hkey
      have hoffset : c.offset + (body.length + 2) < n := hlt
      have hspan := h.take_length_eq (body.length + 2) (by omega) (by omega)
      have hbehind := (h.advance 1).take_length_eq (body.length + 1)
        (Nat.lt_of_le_of_lt (Nat.add_le_add_left (by omega) _) hlt)
        (Nat.le_of_lt (by simp only [Cursor.advance]; omega))
      -- The other text goes on with the same quote and the same body
      have hpeek := h.peek?_eq (by omega)
      rw [Cursor.peek?, Cursor.peek?, hrest, List.head?_cons] at hpeek
      obtain ⟨rest', hrest'⟩ := List.head?_eq_some_iff.1 hpeek
      simp only [Cursor.advance, hrest, hrest', List.drop_one, List.tail_cons] at hbehind
      have hbody' := Quoted.close?_congr hbehind hbody (Nat.lt_succ_self _)
      refine ⟨⟨c'.offset, c'.rest.take (body.length + 2), body.escaped,
        c'.advance (body.length + 2)⟩, ?_, ?_, rfl, h.advance _⟩
      · simp only [Cursor.keyHere?, hrest', hquote, if_true, hbody', Option.map_some]
      · rw [Key.body, Key.body, hspan]
    · cases hkey

end Cursor

/-! ## Events -/

/-- What happens at one place happens from there on. -/
def Event.Behind (c : Cursor) : Event → Prop
  | .skip _ next | .enter _ next _ | .close next => c.offset ≤ next.offset
  | .found value => ∃ i, value.index = some i ∧ c.offset ≤ i

/-- An event leads to a place in front of an offset. -/
def Event.Before (n : Nat) : Event → Prop
  | .skip _ next | .enter _ next _ | .close next => next.offset < n
  | .found value => value.EndsBefore n

/-- Events that lead to the same place of two texts that are the same up to an offset. -/
inductive Event.Alike (n : Nat) : Event → Event → Prop where
  | skip (scan : Scan) {next next' : Cursor} (h : next.Alike n next') :
      Alike n (.skip scan next) (.skip scan next')
  | enter (scan : Scan) {bracket bracket' : Cursor} (h : bracket.Alike n bracket')
      (path : Bytes) : Alike n (.enter scan bracket path) (.enter scan bracket' path)
  | found (value : Result) : Alike n (.found value) (.found value)
  | close {next next' : Cursor} (h : next.Alike n next') : Alike n (.close next) (.close next')

theorem Event.alike_refl (n : Nat) (event : Event) : event.Alike n event := by
  cases event with
  | skip scan next => exact .skip scan rfl
  | enter scan bracket path => exact .enter scan rfl path
  | found value => exact .found value
  | close next => exact .close rfl

theorem Event.Behind.mono {c d : Cursor} (hle : c.offset ≤ d.offset) {event : Event}
    (h : event.Behind d) : event.Behind c := by
  cases event with
  | skip scan next => exact Nat.le_trans hle h
  | enter scan bracket path => exact Nat.le_trans hle h
  | found value =>
    obtain ⟨i, hi, hbehind⟩ := h
    exact ⟨i, hi, Nat.le_trans hle hbehind⟩
  | close next => exact Nat.le_trans hle h

/-- What leads to a place in front of the offset happens in front of it. -/
theorem Event.Behind.offset_lt {n : Nat} {c : Cursor} {event : Event} (h : event.Behind c)
    (hbefore : event.Before n) : c.offset < n := by
  cases event with
  | skip scan next => exact Nat.lt_of_le_of_lt h hbefore
  | enter scan bracket path => exact Nat.lt_of_le_of_lt h hbefore
  | found value =>
    obtain ⟨i, hi, hle⟩ := h
    obtain ⟨j, hj, hlt⟩ := hbefore
    obtain rfl : i = j := Option.some.inj (hi.symm.trans hj)
    omega
  | close next => exact Nat.lt_of_le_of_lt h hbefore

namespace Scan

theorem behind_pass (scan : Scan) (c : Cursor) : (scan.pass c).Behind c := by
  unfold pass
  split
  · rename_i next hskip
    obtain ⟨length, -, rfl⟩ := Option.map_eq_some_iff.1 hskip
    exact c.offset_le_advance length
  · exact c.offset_le_toEnd

theorem behind_take (c : Cursor) : (take c).Behind c := by
  unfold take
  split
  · rename_i reading hread
    obtain ⟨lead, -, hread⟩ := Option.bind_eq_some_iff.1 hread
    obtain ⟨length, -, rfl⟩ := Option.map_eq_some_iff.1 hread
    exact ⟨c.offset, rfl, Nat.le_refl _⟩
  · exact c.offset_le_toEnd

theorem behind_select (scan : Scan) (tail : Tail) (c : Cursor) :
    (scan.select tail c).Behind c := by
  unfold select
  split
  · split
    · exact Nat.le_refl _
    · exact behind_pass scan c
  · exact behind_take c

theorem offset_le_of_keyHere? {c : Cursor} {key : Key} (h : c.keyHere? = some key) :
    c.offset ≤ key.next.offset := by
  unfold Cursor.keyHere? at h
  split at h
  · cases h
  · split at h
    · obtain ⟨body, -, rfl⟩ := Option.map_eq_some_iff.1 h
      exact c.offset_le_advance _
    · cases h

/-- What a scan does about a value, or about the bracket that ends the container in its place. -/
def visit (closer : UInt8) (selected : Bool) (scan : Scan) (tail : Tail) (value : Cursor) : Event :=
  if value.peek? = some closer then .close (value.advance 1)
  else if selected then scan.select tail value
  else scan.pass value

theorem stepElement_eq_visit (target : Option Nat) (tail : Tail) (passed : Nat) (c : Cursor) :
    stepElement target tail passed c =
      visit closeBracket (target = some passed) (.elements target tail (passed + 1)) tail
        (c.toValue closeBracket) := by
  simp only [stepElement, visit, decide_eq_true_eq]

/-- Behind the key of a member a scan visits its value. -/
theorem stepMember_of_key {component : KeyComponent} {c : Cursor} {key : Key}
    (hkey : c.toKey.keyHere? = some key) :
    stepMember component c =
      visit closeBrace (component.selects key.body key.escaped) (.members component) component.tail
        (key.next.toValue closeBrace) := by
  simp only [stepMember, visit, hkey]

/-- Without a further key an object ends at its brace, or with the text. -/
theorem stepMember_of_none {component : KeyComponent} {c : Cursor}
    (hkey : c.toKey.keyHere? = none) :
    stepMember component c =
      .close (if c.toKey.peek? = some closeBrace then c.toKey.advance 1 else c.toKey.toEnd) := by
  simp only [stepMember, hkey]

theorem behind_visit (closer : UInt8) (selected : Bool) (scan : Scan) (tail : Tail)
    (value : Cursor) : (visit closer selected scan tail value).Behind value := by
  unfold visit
  split
  · exact value.offset_le_advance 1
  · split
    · exact behind_select scan tail value
    · exact behind_pass scan value

theorem behind_stepMember (component : KeyComponent) (c : Cursor) :
    (stepMember component c).Behind c := by
  have hstart : c.offset ≤ c.toKey.offset := c.offset_le_find _
  cases hkey : c.toKey.keyHere? with
  | some key =>
    rw [stepMember_of_key hkey]
    apply (behind_visit _ _ _ _ _).mono
    calc c.offset ≤ c.toKey.offset := hstart
      _ ≤ key.next.offset := offset_le_of_keyHere? hkey
      _ ≤ (key.next.toValue closeBrace).offset := Cursor.offset_le_find _ _
  | none =>
    rw [stepMember_of_none hkey]
    apply Nat.le_trans hstart
    split
    · exact Cursor.offset_le_advance 1 _
    · exact Cursor.offset_le_toEnd _

theorem behind_step (scan : Scan) (c : Cursor) : (scan.step c).Behind c := by
  cases scan with
  | members component => exact behind_stepMember component c
  | elements target tail passed =>
    rw [step, stepElement_eq_visit]
    exact (behind_visit _ _ _ _ _).mono (c.offset_le_find _)

section Alike

variable {n : Nat} {c c' : Cursor} (h : c.Alike n c')

include h

theorem alike_pass (scan : Scan) (hbefore : (scan.pass c).Before n) :
    (scan.pass c).Alike n (scan.pass c') := by
  cases hskip : c.skipHere? with
  | some next =>
    simp only [pass, hskip] at hbefore ⊢
    obtain ⟨next', hskip', hnext⟩ := h.skipHere? hskip hbefore
    rw [hskip']
    exact .skip scan hnext
  | none =>
    rw [pass, hskip] at hbefore
    rw [h.eq_of_toEnd hbefore]
    exact Event.alike_refl n _

variable {text : Bytes} (hvalid : Utf8.isValid text = true) (hin : c.IsIn text)

include hvalid hin

theorem alike_take (hbefore : (take c).Before n) : (take c).Alike n (take c') := by
  cases hread : c.readHere? with
  | some reading =>
    simp only [take, hread] at hbefore ⊢
    obtain ⟨next, hread'⟩ := h.readHere? hvalid hin hread hbefore
    rw [hread']
    exact .found reading.value
  | none =>
    rw [take, hread] at hbefore
    rw [h.eq_of_toEnd hbefore]
    exact Event.alike_refl n _

theorem alike_select (scan : Scan) (tail : Tail) (hbefore : (scan.select tail c).Before n) :
    (scan.select tail c).Alike n (scan.select tail c') := by
  have hlt := (behind_select scan tail c).offset_lt hbefore
  have hcontainer : atContainer c' = atContainer c := by
    rw [atContainer_eq, atContainer_eq, h.peek?_eq hlt]
  cases tail with
  | done => exact alike_take h hvalid hin hbefore
  | pipe path => exact alike_take h hvalid hin hbefore
  | deeper path =>
    rw [select] at hbefore ⊢
    rw [select, hcontainer]
    by_cases hopens : atContainer c = true
    · simp only [hopens, if_true]
      exact .enter scan h path
    · simp only [hopens, if_false, Bool.false_eq_true] at hbefore ⊢
      exact alike_pass h scan hbefore

theorem alike_visit (closer : UInt8) (selected : Bool) (scan : Scan) (tail : Tail)
    (hbefore : (visit closer selected scan tail c).Before n) :
    (visit closer selected scan tail c).Alike n (visit closer selected scan tail c') := by
  have hlt := (behind_visit closer selected scan tail c).offset_lt hbefore
  unfold visit at hbefore ⊢
  rw [h.peek?_eq hlt]
  by_cases hpeek : c.peek? = some closer
  · simp only [hpeek, if_true]
    exact .close (h.advance 1)
  · simp only [hpeek, if_false] at hbefore ⊢
    cases selected with
    | true => exact alike_select h hvalid hin scan tail hbefore
    | false => exact alike_pass h scan hbefore

theorem alike_stepMember (component : KeyComponent)
    (hbefore : (stepMember component c).Before n) :
    (stepMember component c).Alike n (stepMember component c') := by
  have hstart : c.toKey.Alike n c'.toKey := h.find _
  have hstartin : c.toKey.IsIn text := hin.find _
  cases hkey : c.toKey.keyHere? with
  | some key =>
    rw [stepMember_of_key hkey] at hbefore ⊢
    have hvaluein : (key.next.toValue closeBrace).IsIn text :=
      (hstartin.keyHere? hvalid hkey).2.find _
    have hle : key.next.offset ≤ (key.next.toValue closeBrace).offset :=
      Cursor.offset_le_find _ _
    have hlt := (behind_visit _ _ _ _ _).offset_lt hbefore
    obtain ⟨key', hkey', hbody, hescaped, hnext⟩ := hstart.keyHere? hkey (by omega)
    rw [stepMember_of_key hkey', hbody, hescaped]
    exact alike_visit (hnext.find _) hvalid hvaluein _ _ _ _ hbefore
  | none =>
    rw [stepMember_of_none hkey] at hbefore ⊢
    by_cases hpeek : c.toKey.peek? = some closeBrace
    · rw [if_pos hpeek] at hbefore ⊢
      have hpeek' : c'.toKey.peek? = some closeBrace :=
        (hstart.peek?_eq (Nat.lt_of_succ_lt hbefore)).trans hpeek
      rw [stepMember_of_none (keyHere?_of_peek? (by rw [hpeek']; decide)), if_pos hpeek']
      exact .close (hstart.advance 1)
    · rw [if_neg hpeek] at hbefore ⊢
      have hsame := hstart.eq_of_toEnd hbefore
      rw [stepMember_of_none (hsame ▸ hkey), hsame, if_neg hpeek]
      exact .close rfl

/-- A scan that leads to a place in front of the offset leads there in both texts. -/
theorem alike_step (scan : Scan) (hbefore : (scan.step c).Before n) :
    (scan.step c).Alike n (scan.step c') := by
  cases scan with
  | members component => exact alike_stepMember h hvalid hin component hbefore
  | elements target tail passed =>
    rw [step, stepElement_eq_visit] at hbefore ⊢
    rw [step, stepElement_eq_visit]
    exact alike_visit (h.find _) hvalid (hin.find _) _ _ _ _ hbefore

/-- The step in the other text, with what is alike in it. -/
theorem exists_alike_step {scan : Scan} {event : Event} (hstep : scan.step c = event)
    (hbefore : event.Before n) : ∃ event', scan.step c' = event' ∧ event.Alike n event' := by
  subst hstep
  exact ⟨_, rfl, alike_step h hvalid hin scan hbefore⟩

end Alike

end Scan

/-! ## Walks -/

namespace Walk

/-- What goes on from a place finds a value behind it, and goes on to the same from every place that
is alike up to the byte behind that value. -/
def Settles (go : Cursor → Walk) (c : Cursor) : Prop :=
  ∃ i, (go c).value.index = some i ∧ c.offset ≤ i ∧
    ∀ n c', (go c).value.EndsBefore n → c.Alike n c' → go c' = go c

/-- What goes on from a later place settles as that does, if alike places lead to alike ones. -/
theorem Settles.of_next {go onward : Cursor → Walk} {c next : Cursor} (h : Settles onward next)
    (hgo : go c = onward next) (hle : c.offset ≤ next.offset)
    (hnext : ∀ n c', next.offset < n → c.Alike n c' →
      ∃ next', next.Alike n next' ∧ go c' = onward next') : Settles go c := by
  obtain ⟨i, hi, hbehind, hsame⟩ := h
  rw [Settles, hgo]
  refine ⟨i, hi, Nat.le_trans hle hbehind, fun n c' hends halike => ?_⟩
  obtain ⟨j, hj, hlt⟩ := hends
  obtain rfl : i = j := Option.some.inj (hi.symm.trans hj)
  obtain ⟨next', hnext', hgo'⟩ := hnext n c' (by omega) halike
  rw [hgo', hsame n next' ⟨i, hi, hlt⟩ hnext']

section Walks

variable (env : Surroundings)

/-- Entering a container for components without a bar starts a scan for them, wherever it is. -/
theorem exists_scan_openAt (object : Bool) (c : Component) (components : List Component)
    (hbar : bar ∉ pathOf (c :: components)) {room : Nat} (hroom : room ≠ 0) :
    ∃ scan, scan.Plain ∧ ∀ start walk,
      openAt env object start (pathOf (c :: components)) room walk =
        (walk, .scan ⟨scan, room⟩) := by
  have hrest := bar_notMem_tail hbar
  cases object with
  | true =>
    refine ⟨.members ⟨c.text, c.isWild, tailOf components⟩, .members hrest, fun start walk => ?_⟩
    simp only [openAt, if_neg hroom, if_true, openObject, keyComponent_pathOf,
      keepPipe_of_ne_pipe (tailOf_ne_pipe components)]
  | false =>
    have hne := elementTail_ne_pipe components (bar_notMem_of_pathOf hbar c List.mem_cons_self)
    refine ⟨.elements (Number.position? c.text) (elementTail components c) 0, ?_,
      fun start walk => ?_⟩
    · cases hposition : Number.position? c.text with
      | none => exact .nowhere
      | some n =>
        rw [elementTail_of_position components (by rw [hposition]; rfl)]
        exact .position hrest
    · simp [openAt, hroom, openArray, elementComponent_eq, keepPipe_of_ne_pipe hne]

/-- What goes on inside of a container settles at its bracket, if it does inside. -/
theorem settles_entered {walk : Walk} (hmissing : walk.value.found = false) (bracket : Cursor)
    (c : Component) (components : List Component) (hbar : bar ∉ pathOf (c :: components))
    {room : Nat} {frames : List Frame}
    (hinside : ∀ inner : Frame, inner.scan.Plain →
      openAt env (bracket.peek? = some openBrace) (bracket.advance 1) (pathOf (c :: components))
        room walk = (walk, .scan inner) →
      (run env walk (bracket.advance 1) (inner :: frames)).value.found = true →
      Settles (run env walk · (inner :: frames)) (bracket.advance 1))
    (hfound : (entered env walk (bracket.peek? = some openBrace) (bracket.advance 1)
      (pathOf (c :: components)) room frames).value.found = true) :
    Settles (fun c' => entered env walk (c'.peek? = some openBrace) (c'.advance 1)
      (pathOf (c :: components)) room frames) bracket := by
  by_cases hroom : room = 0
  · -- Without room the walk is over with nothing found
    rw [entered, openAt, if_pos hroom] at hfound
    exact absurd (hmissing.symm.trans hfound) Bool.false_ne_true
  · obtain ⟨inner, hinner, hopen⟩ :=
      exists_scan_openAt env (bracket.peek? = some openBrace) c components hbar hroom
    rw [entered, hopen] at hfound
    have hsettles := hinside ⟨inner, room⟩ hinner (hopen _ walk) hfound
    refine hsettles.of_next (by rw [entered, hopen]) (bracket.offset_le_advance 1)
      fun n c' hlt halike => ⟨_, halike.advance 1, ?_⟩
    rw [halike.peek?_eq (Nat.lt_of_succ_lt hlt), entered, hopen]

/-- Enters the next container from a place on. -/
def enterNext (c : Cursor) (path : Bytes) (room : Nat) : Walk :=
  c.toContainer.peek?.elim {} fun b =>
    enter env (b == openBrace) (c.toContainer.advance 1) path room

/-- A text that is no sequence of lines is entered where its first container starts. -/
theorem start_eq_enterNext (text : Bytes) {path : Bytes} (room : Nat)
    (hlines : lines? path = none) :
    start env text path room = enterNext env (.start text) path room := by
  rw [start, hlines]
  cases hpeek : (Cursor.start text).toContainer.peek? <;>
    simp only [enterNext, hpeek, Option.elim]

variable {env} in
theorem enterNext_of_none {c : Cursor} (hpeek : c.toContainer.peek? = none) {path : Bytes}
    {room : Nat} : enterNext env c path room = {} := by
  rw [enterNext, hpeek, Option.elim_none]

variable {env} in
theorem enterNext_of_some {c : Cursor} {b : UInt8} (hpeek : c.toContainer.peek? = some b)
    {path : Bytes} {room : Nat} : enterNext env c path room =
      enter env (b == openBrace) (c.toContainer.advance 1) path room := by
  rw [enterNext, hpeek, Option.elim_some]

variable {text : Bytes} (hvalid : Utf8.isValid text = true)

include hvalid

/-- A walk that finds a value settles where it does. -/
theorem settles_run (walk : Walk) (c : Cursor) (frames : List Frame) (hin : c.IsIn text)
    (hplain : ∀ frame ∈ frames, frame.scan.Plain) (hmissing : walk.value.found = false)
    (hfound : (run env walk c frames).value.found = true) :
    Settles (run env walk · frames) c := by
  -- On the events of the walk, which all lead on to later places
  induction walk, c, frames using @run_induction env with
  | nil walk c =>
    rw [run_nil, hmissing] at hfound
    cases hfound
  | skip walk c frame frames scan next hstep ih =>
    obtain ⟨hframe, hframes⟩ := List.forall_mem_cons.1 hplain
    have hnextin := Scan.isIn_step hvalid frame.scan hin
    have hnextplain := hframe.step c
    have hbehind := Scan.behind_step frame.scan c
    rw [hstep] at hnextin hnextplain hbehind
    rw [run_cons, hstep] at hfound
    refine (ih hnextin (List.forall_mem_cons.2 ⟨hnextplain.1, hframes⟩) hmissing hfound).of_next
      (by rw [run_cons, hstep]; rfl) hbehind fun n c' hlt halike => ?_
    obtain ⟨_, hstep', hevent⟩ := Scan.exists_alike_step halike hvalid hin hstep hlt
    cases hevent with
    | skip _ hnext => exact ⟨_, hnext, by rw [run_cons, hstep']; rfl⟩
  | close walk c frame frames next hstep ih =>
    obtain ⟨hframe, hframes⟩ := List.forall_mem_cons.1 hplain
    have hnextin := Scan.isIn_step hvalid frame.scan hin
    have hbehind := Scan.behind_step frame.scan c
    rw [hstep] at hnextin hbehind
    rw [run_cons, hstep] at hfound
    refine (ih hnextin hframes hmissing hfound).of_next (by rw [run_cons, hstep]; rfl) hbehind
      fun n c' hlt halike => ?_
    obtain ⟨_, hstep', hevent⟩ := Scan.exists_alike_step halike hvalid hin hstep hlt
    cases hevent with
    | close hnext => exact ⟨_, hnext, by rw [run_cons, hstep']; rfl⟩
  | found walk c frame frames value hstep =>
    have hbehind := Scan.behind_step frame.scan c
    rw [hstep] at hbehind
    obtain ⟨i, hi, hle⟩ := hbehind
    have hrun : run env walk c (frame :: frames) = { walk with value } := by
      rw [run_cons, hstep]
      rfl
    rw [Settles, hrun]
    refine ⟨i, hi, hle, fun n c' hends halike => ?_⟩
    obtain ⟨_, hstep', hevent⟩ := Scan.exists_alike_step halike hvalid hin hstep hends
    cases hevent with
    | found => rw [run_cons, hstep']; rfl
  | enter walk c frame frames scan bracket path hstep ihscan ihpassed =>
    obtain ⟨hframe, hframes⟩ := List.forall_mem_cons.1 hplain
    have hbracketin := Scan.isIn_step hvalid frame.scan hin
    have hnextplain := hframe.step c
    have hbehind := Scan.behind_step frame.scan c
    rw [hstep] at hbracketin hnextplain hbehind
    obtain ⟨hscan, -, component, components, rfl, hbar⟩ := hnextplain
    rw [run_cons, hstep] at hfound
    have hentered := settles_entered env hmissing bracket component components hbar
      (fun inner hinner hopen => ihscan walk inner hopen (hbracketin.advance 1)
        (List.forall_mem_cons.2 ⟨hinner, List.forall_mem_cons.2 ⟨hscan, hframes⟩⟩) hmissing) hfound
    refine hentered.of_next (by rw [run_cons, hstep]; rfl) hbehind fun n c' hlt halike => ?_
    obtain ⟨_, hstep', hevent⟩ := Scan.exists_alike_step halike hvalid hin hstep hlt
    cases hevent with
    | enter _ hnext => exact ⟨_, hnext, by rw [run_cons, hstep']; rfl⟩

theorem settles_enter (object : Bool) (c : Cursor) (hin : c.IsIn text)
    (components : List Component) (hbar : bar ∉ pathOf components) (room : Nat)
    (hfound : (enter env object c (pathOf components) room).value.found = true) :
    Settles (enter env object · (pathOf components) room) c := by
  obtain ⟨component, rest, hpath⟩ := exists_pathOf_cons components
  rw [hpath] at hbar hfound ⊢
  by_cases hroom : room = 0
  · rw [enter, openAt, if_pos hroom] at hfound
    cases hfound
  · obtain ⟨scan, hscan, hopen⟩ := exists_scan_openAt env object component rest hbar hroom
    rw [enter, hopen] at hfound
    have hsettles := settles_run env hvalid {} c [⟨scan, room⟩] hin
      (List.forall_mem_singleton.2 hscan) rfl hfound
    refine hsettles.of_next (by rw [enter, hopen]) (Nat.le_refl _) fun n c' _ halike =>
      ⟨c', halike, by rw [enter, hopen]⟩

/-- A walk that enters the next container settles in front of it. -/
theorem settles_enterNext (c : Cursor) (hin : c.IsIn text) (components : List Component)
    (hbar : bar ∉ pathOf components) (room : Nat)
    (hfound : (enterNext env c (pathOf components) room).value.found = true) :
    Settles (enterNext env · (pathOf components) room) c := by
  cases hpeek : c.toContainer.peek? with
  | none =>
    rw [enterNext_of_none hpeek] at hfound
    cases hfound
  | some b =>
    rw [enterNext_of_some hpeek] at hfound
    have hbracketin : c.toContainer.IsIn text := hin.find _
    have hbehind : c.offset ≤ (c.toContainer.advance 1).offset :=
      Nat.le_trans (c.offset_le_find _) (Cursor.offset_le_advance 1 _)
    have hsettles := settles_enter env hvalid (b == openBrace) _ (hbracketin.advance 1)
      components hbar room hfound
    refine hsettles.of_next (enterNext_of_some hpeek) hbehind fun n c' hlt halike => ?_
    -- The bracket stands in front of all that is found in the container
    have hbracket : c.toContainer.Alike n c'.toContainer := halike.find _
    have hpeek' := (hbracket.peek?_eq (Nat.lt_of_succ_lt hlt)).trans hpeek
    exact ⟨_, hbracket.advance 1, enterNext_of_some hpeek'⟩

/-- A walk for components without a bar that finds a value settles at the start of its text. -/
theorem settles_start (components : List Component) (hbar : bar ∉ pathOf components) (room : Nat)
    (hfound : (start env text (pathOf components) room).value.found = true) :
    ∃ go, (∀ text', start env text' (pathOf components) room = go (Cursor.start text')) ∧
      Settles go (.start text) := by
  cases hlines : lines? (pathOf components) with
  | some rest =>
    have hdots : [dot, dot] <+: pathOf components := by
      refine Decidable.byContradiction fun h => ?_
      rw [(lines?_eq_none_iff _).2 h] at hlines
      cases hlines
    obtain ⟨a, b, c, tail, rfl, -, -, hrest⟩ := exists_behind_dots hdots
    obtain rfl : pathOf (c :: tail) = rest := Option.some.inj (hrest.symm.trans hlines)
    have hstart : ∀ text', start env text' (pathOf (a :: b :: c :: tail)) room =
        enter env false (.start text') (pathOf (c :: tail)) room := fun text' => by
      rw [start, hlines]
    rw [hstart] at hfound
    exact ⟨_, hstart, settles_enter env hvalid false _ (Cursor.isIn_start text) (c :: tail)
      (bar_notMem_tail (bar_notMem_tail hbar)) room hfound⟩
  | none =>
    have hstart := fun text' => start_eq_enterNext env text' room hlines
    rw [hstart] at hfound
    exact ⟨_, hstart, settles_enterNext env hvalid _ (Cursor.isIn_start text) components hbar room
      hfound⟩

end Walks

end Walk

/-! ## Queries -/

namespace Engine

/-- **A found value does not depend on what follows it.**  What a path of components without a bar
finds in a UTF-8 text has an offset, and every text that is the same up to the byte behind the value
leads to the same value at the same offset, and to the same counts.  Neither text has to be
well-formed, and the other one need not be UTF-8. -/
theorem get_lookahead (engine : Engine) {text : Bytes} (hvalid : Utf8.isValid text = true)
    (components : List Component) (hbar : bar ∉ pathOf components)
    (hfound : (engine.get text (pathOf components)).value.found = true) :
    let found := (engine.get text (pathOf components)).value
    ∃ i, found.index = some i ∧
      ∀ text', text'.take (i + found.raw.length + 1) = text.take (i + found.raw.length + 1) →
        engine.get text' (pathOf components) = engine.get text (pathOf components) := by
  cases hmax : engine.config.maxDepth with
  | zero =>
    -- Without any depth nothing is found
    rw [get, hmax] at hfound
    exact absurd hfound Bool.false_ne_true
  | succ depth =>
    obtain ⟨-, -, hnone, -⟩ := Walk.start_piped ⟨engine.dialect, engine.resolve 127⟩ [] text
      components hbar (depth + 1)
    have hvalue := get_of_startsPlain engine text (startsPlain_pathOf components) hmax
    dsimp only at hvalue
    rw [hnone] at hvalue
    have hvalue : (engine.get text (pathOf components)).value = (Walk.start
        ⟨engine.dialect, engine.resolve 127⟩ text (pathOf components) (depth + 1)).value := hvalue
    rw [hvalue] at hfound ⊢
    obtain ⟨go, hstart, i, hi, -, hsame⟩ := Walk.settles_start _ hvalid components hbar _ hfound
    rw [hstart] at hfound ⊢
    refine ⟨i, hi, fun text' htake => ?_⟩
    have hwalk := hsame _ (.start text') ⟨i, hi, Nat.lt_succ_self _⟩ (Cursor.alike_start htake)
    -- Behind the walk nothing asks for the text
    rw [get, get, hmax, resolve_pathNesting, resolve_pathNesting,
      chain_components _ _ _ _ _ (link_pathOf engine _ _ _ _ components),
      chain_components _ _ _ _ _ (link_pathOf engine _ _ _ _ components), hstart, hstart, hwalk]

/-- The comma behind the number is the last byte that counts.  Behind it one text breaks off inside
of a key, and the other one goes on with bytes that are not UTF-8. -/
theorem get_lookahead_sample :
    let path := pathOf [.ofName [0x30], .ofName [0x61]]
    let text := Bytes.ofString "[\x7b\"a\":7,\"b"
    let text' := Bytes.ofString "[\x7b\"a\":7," ++ [0xFF, closeBracket]
    (Engine.standard.get text path).value = .located (.number [0x37]) 6 ∧
      (Engine.standard.get text' path).value = .located (.number [0x37]) 6 := by
  have hvalue : (Engine.standard.get (Bytes.ofString "[\x7b\"a\":7,\"b")
      (pathOf [.ofName [0x30], .ofName [0x61]])).value = .located (.number [0x37]) 6 := by
    decide +kernel
  have hvalid : Utf8.isValid (Bytes.ofString "[\x7b\"a\":7,\"b") = true := by decide +kernel
  have hsettled := get_lookahead .standard hvalid [.ofName [0x30], .ofName [0x61]] (by decide)
    (by rw [hvalue]; rfl)
  rw [hvalue] at hsettled
  obtain ⟨i, hi, hsame⟩ := hsettled
  obtain rfl : 6 = i := Option.some.inj hi
  refine ⟨hvalue, ?_⟩
  rw [hsame (Bytes.ofString "[\x7b\"a\":7," ++ [0xFF, closeBracket]) (by decide +kernel), hvalue]

end Engine

end JsonQuery
