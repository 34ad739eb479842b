import JsonQuery.Proofs.Extents

/-!
# Places in a document

A spot stands in a document when the text of its value is what the document holds at its offset.
The branches of a spot stand where the spot does, so whatever is found by going down from the root
has the text and the offset that it claims to have.

## Layers

- **Standing**: `Spot.StandsIn` and its closure under branches.
- **UTF-8**: values start and end with bytes of one-byte characters, so those of a UTF-8 document
  are UTF-8, and they are read as they are written.
-/

namespace JsonQuery

open Ascii

/-! ## Cuts of UTF-8 texts -/

namespace Utf8

section Cuts

variable {s t : State} {a b : Bytes} {c : UInt8}

/-- The state behind a text, or nothing where no character goes on with it. -/
def State.after (s : State) (text : Bytes) : Option State :=
  text.foldlM State.next s

theorem accepts_iff_after (s : State) (text : Bytes) :
    s.accepts text = true ↔ s.after text = some .lead := by
  induction text generalizing s with
  | nil => simp [State.accepts, State.after]
  | cons c rest ih =>
    cases hnext : s.next c with
    | none => simp [State.accepts, State.after, hnext]
    | some t => simpa [State.accepts, State.after, hnext] using ih t

theorem State.after_append (s : State) (a b : Bytes) :
    s.after (a ++ b) = (s.after a).bind (State.after · b) := by
  -- A run on two texts is a run on the first and then on the second
  simp [State.after, List.foldlM_append]

theorem State.after_cons (s : State) (c : UInt8) (rest : Bytes) :
    s.after (c :: rest) = (s.next c).bind (State.after · rest) := by
  simp [State.after]

/-- A character of one byte stands between two others. -/
theorem next_of_ascii (hc : c ≤ 0x7F) (h : s.next c = some t) : s = .lead ∧ t = .lead := by
  -- Every state inside of a character asks for a byte above 0x7F
  cases s <;> grind [State.next, State.afterLead, State.within]

theorem isValid_of_append_ascii (hc : c ≤ 0x7F) (h : isValid (a ++ c :: b) = true) :
    isValid a = true ∧ isValid (c :: b) = true := by
  rw [isValid, accepts_iff_after, State.after_append] at h
  obtain ⟨t, ha, h⟩ := Option.bind_eq_some_iff.1 h
  have hb := h
  rw [State.after_cons] at hb
  obtain ⟨u, hnext, -⟩ := Option.bind_eq_some_iff.1 hb
  obtain ⟨rfl, -⟩ := next_of_ascii hc hnext
  exact ⟨(accepts_iff_after _ _).2 ha, (accepts_iff_after _ _).2 h⟩

theorem isValid_of_ascii_append (hc : c ≤ 0x7F) (h : isValid (a ++ [c] ++ b) = true) :
    isValid (a ++ [c]) = true ∧ isValid b = true := by
  rw [List.append_assoc, List.singleton_append] at h
  obtain ⟨ha, h⟩ := isValid_of_append_ascii hc h
  rw [isValid, accepts_iff_after, State.after_cons] at h
  obtain ⟨t, hnext, hb⟩ := Option.bind_eq_some_iff.1 h
  obtain ⟨-, rfl⟩ := next_of_ascii hc hnext
  refine ⟨?_, (accepts_iff_after _ _).2 hb⟩
  rw [isValid, accepts_iff_after, State.after_append, (accepts_iff_after _ _).1 ha]
  show State.after .lead [c] = some .lead
  rw [State.after_cons, hnext]
  rfl

/-- What stands between two one-byte characters, both included, is UTF-8 by itself. -/
theorem isValid_of_infix {text before after : Bytes} (hfirst : ∀ c ∈ text.head?, c ≤ 0x7F)
    (hlast : ∀ c ∈ text.getLast?, c ≤ 0x7F)
    (h : isValid (before ++ (text ++ after)) = true) : isValid text = true := by
  rcases List.eq_nil_or_concat text with rfl | ⟨init, d, rfl⟩
  · rfl
  · rw [List.concat_eq_append] at *
    -- Cut in front of the first character, then behind the last one
    have hd : d ≤ 0x7F := hlast d (by simp)
    cases htext : init ++ [d] with
    | nil => rfl
    | cons c rest =>
      have hc : c ≤ 0x7F := hfirst c (by simp [htext])
      rw [htext, List.cons_append] at h
      have hbehind := (isValid_of_append_ascii hc h).2
      rw [← List.cons_append, ← htext] at hbehind
      rw [← htext]
      exact (isValid_of_ascii_append hd hbehind).1

end Cuts

end Utf8

namespace Grammar

/-! ## Standing -/

/-- The document holds the text of a value at its offset. -/
def Spot.StandsIn (text : Bytes) (s : Spot) : Prop :=
  ∃ before after, text = before ++ (s.node.text ++ after) ∧ before.length = s.offset

section Standing

variable {text : Bytes} {s : Spot}

theorem Document.standsIn_spot (d : Document) : d.spot.StandsIn d.text :=
  ⟨d.before.text, d.after.text, rfl, rfl⟩

theorem Spot.StandsIn.after_le (h : s.StandsIn text) : s.after ≤ text.length := by
  obtain ⟨before, after, rfl, hoffset⟩ := h
  simp only [Spot.after, List.length_append]
  omega

/-- A spot that stands in a document is found by its offset and its text. -/
theorem Spot.StandsIn.prefix_drop (h : s.StandsIn text) :
    s.node.text <+: text.drop s.offset := by
  obtain ⟨before, after, rfl, hoffset⟩ := h
  rw [← hoffset, List.drop_left]
  exact List.prefix_append _ _

theorem standsIn_branchesFrom {Front : Type} (front : Front → Bytes) (label : Nat → Front → Label)
    (entries : List (Entry Front Node)) (before after : Bytes) (position : Nat) {b : Branch}
    (hb : b ∈ branchesFrom front label before.length position entries) :
    b.toSpot.StandsIn (before ++ (inside front entries ++ after)) := by
  -- Entry by entry, what was passed moves over to the text in front
  induction entries generalizing before position with
  | nil => simp [branchesFrom] at hb
  | cons e rest ih =>
    rw [branchesFrom, List.mem_cons] at hb
    rw [inside_cons]
    rcases hb with rfl | hb
    · refine ⟨before ++ front e.front, separator e rest ++ inside front rest ++ after, ?_, ?_⟩
      · simp only [List.append_assoc]
      · exact List.length_append
    · have hrest := ih (before ++ (front e.front ++ (e.value.text ++ separator e rest)))
        (position + 1) (by
          simp only [List.length_append, ← Nat.add_assoc]
          exact hb)
      simpa only [List.append_assoc] using hrest

/-- The branches of a value stand where the value does. -/
theorem Spot.StandsIn.branch (h : s.StandsIn text) {b : Branch} (hb : b ∈ s.branches) :
    b.toSpot.StandsIn text := by
  obtain ⟨offset, node⟩ := s
  obtain ⟨before, after, rfl, rfl⟩ := h
  -- Only containers have branches, behind their opener and a gap
  cases node with
  | word w => cases hb
  | number n => cases hb
  | string body => cases hb
  | array gap items =>
    have hspot := standsIn_branchesFrom Gap.text (fun n _ => .position n) items
      (before ++ (openBracket :: gap.text)) (closeBracket :: after) 0 (b := b) (by
        simpa [Spot.branches, Nat.add_assoc, Nat.add_comm, Nat.add_left_comm] using hb)
    simpa [Node.text_array] using hspot
  | object gap members =>
    have hspot := standsIn_branchesFrom Tag.text (fun _ tag => .key tag.key.name) members
      (before ++ (openBrace :: gap.text)) (closeBrace :: after) 0 (b := b) (by
        simpa [Spot.branches, Nat.add_assoc, Nat.add_comm, Nat.add_left_comm] using hb)
    simpa [Node.text_object] using hspot

end Standing

/-! ## Values of UTF-8 documents -/

section Utf8

theorem ascii_of_startsNumber {c : UInt8} (h : startsNumber c = true) : c ≤ 0x7F := by
  grind [startsNumber, isDigit]

theorem ascii_of_startsValue {c : UInt8} (h : startsValue c = true) : c ≤ 0x7F := by
  grind [startsValue, opensContainer, ascii_of_startsNumber]

theorem Node.ascii_head (n : Node) : ∀ c ∈ n.text.head?, c ≤ 0x7F := by
  obtain ⟨c, rest, htext, hc⟩ := n.text_cons
  intro d hd
  have hd : c = d := by simpa [htext] using hd
  exact hd ▸ ascii_of_startsValue hc

/-- A byte that a value may end with: one of a word or a number, a quote, or a bracket. -/
def isLastByte (c : UInt8) : Bool :=
  isLower c || isNumberByte c || c == quote || c == closeBracket || c == closeBrace

theorem Node.isLastByte (n : Node) : ∀ c ∈ n.text.getLast?, isLastByte c = true := by
  intro c hc
  -- By how each kind of value ends
  cases n with
  | word w =>
    rw [text] at hc
    rcases w with _ | _ | _ <;> cases hc <;> rfl
  | number n =>
    rw [text] at hc
    have hbyte := List.all_eq_true.1 n.all_isNumberByte c (List.mem_of_getLast? hc)
    simp [Grammar.isLastByte, hbyte]
  | string body =>
    rw [text, Bytes.quoted, List.getLast?_concat] at hc
    exact Option.some.inj hc ▸ rfl
  | array gap items =>
    rw [text_array, ← List.append_assoc, ← List.cons_append, List.getLast?_concat] at hc
    exact Option.some.inj hc ▸ rfl
  | object gap members =>
    rw [text_object, ← List.append_assoc, ← List.cons_append, List.getLast?_concat] at hc
    exact Option.some.inj hc ▸ rfl

theorem Node.ascii_last (n : Node) : ∀ c ∈ n.text.getLast?, c ≤ 0x7F := by
  intro c hc
  have hlast := n.isLastByte c hc
  grind [Grammar.isLastByte, isLower, isNumberByte, isDigit]

theorem Spot.StandsIn.isValid {text : Bytes} {s : Spot} (h : s.StandsIn text)
    (hutf8 : Utf8.isValid text = true) : Utf8.isValid s.node.text = true := by
  obtain ⟨before, after, rfl, -⟩ := h
  exact Utf8.isValid_of_infix s.node.ascii_head s.node.ascii_last hutf8

/-- A string that a UTF-8 text holds is UTF-8. -/
theorem isValid_quoted_of_infix {text : Bytes} (hvalid : Utf8.isValid text = true) {body : Body}
    (h : Bytes.quoted body.text <:+: text) : Utf8.isValid (Bytes.quoted body.text) = true := by
  obtain ⟨before, after, rfl⟩ := h
  have hstands : (Spot.mk before.length (.string body)).StandsIn
      (before ++ Bytes.quoted body.text ++ after) :=
    ⟨before, after, by rw [Node.text, List.append_assoc], rfl⟩
  have hquoted := hstands.isValid hvalid
  rwa [Node.text] at hquoted

/-- A value whose text is UTF-8 is read as it is written. -/
theorem Node.ofSpan_eq_value (n : Node) (h : Utf8.isValid n.text = true) :
    Value.ofSpan n.lead n.text = n.value := by
  have hlossy : Utf8.lossy n.text = n.text := by simp [Utf8.lossy, h]
  cases n with
  | word w => rcases w with _ | _ | _ <;> simp [lead, value, Word.value, text, Word.text] <;> rfl
  | number n => simpa [Value.ofSpan, lead, value, text] using hlossy
  | string body => simpa [Value.ofSpan, lead, value, text] using hlossy
  | array gap items => simpa [Value.ofSpan, lead, value] using hlossy
  | object gap members => simpa [Value.ofSpan, lead, value] using hlossy

/-- In a UTF-8 document a value is read as it is written. -/
theorem Spot.StandsIn.reading_eq_result {text : Bytes} {s : Spot} (h : s.StandsIn text)
    (hutf8 : Utf8.isValid text = true) : s.reading = s.result := by
  rw [reading, result, s.node.ofSpan_eq_value (h.isValid hutf8)]

end Utf8

end Grammar

end JsonQuery
