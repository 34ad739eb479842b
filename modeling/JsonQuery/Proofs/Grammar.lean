import JsonQuery.Result.Conversion
import JsonQuery.WellFormed

/-!
# Documents as they are written

The grammar of documents as data: a value together with the spaces, the spellings and the escapes
that it is written with.  The tokens carry their own well-formedness, so each tree stands for
exactly one text, and that text follows the grammar.

## Layers

- **Tokens**: `Gap`, `Word`, `Numeral` and `Body` are the leaves of the grammar.
- **Trees**: `Node` is a value, `Document` a value between two gaps, and `Node.text` what is
  written.
- **Places**: `Spot.branches` lists the children of a container with their labels and offsets.
-/

namespace JsonQuery.Grammar

open Ascii

/-! ## Tokens -/

/-- The bytes that may stand between two tokens. -/
def gapBytes : Bytes :=
  [space, tab, lineFeed, carriageReturn]

/-- The space between two tokens. -/
structure Gap where
  text : Bytes
  isGap : ∀ c ∈ text, c ∈ gapBytes

/-- One of the three words. -/
inductive Word where
  | null
  | boolean (b : Bool)

/-- The value that a word stands for. -/
def Word.value : Word → Value
  | null => .null
  | boolean b => .boolean b

/-- The spelling of a word. -/
def Word.text (w : Word) : Bytes :=
  w.value.raw

/-- The digits in front of a point: a lone zero, or digits that do not start with one. -/
def IsWhole (text : Bytes) : Prop :=
  text = [zero] ∨ Number.isDigits text = true ∧ text.head? ≠ some zero

theorem isWhole_zero : IsWhole [zero] :=
  .inl rfl

/-- Nothing, or a point and digits. -/
def IsFraction (text : Bytes) : Prop :=
  text = [] ∨ ∃ digits, Number.isDigits digits = true ∧ text = dot :: digits

theorem isFraction_nil : IsFraction [] :=
  .inl rfl

/-- Nothing, or the letter `e` of either case, an optional sign and digits. -/
def IsExponent (text : Bytes) : Prop :=
  text = [] ∨ ∃ mark sign digits, (mark = lowerE ∨ mark = upperE) ∧
    (sign = [] ∨ sign = [plus] ∨ sign = [minus]) ∧ Number.isDigits digits = true ∧
    text = mark :: (sign ++ digits)

theorem isExponent_nil : IsExponent [] :=
  .inl rfl

/-- A number, part by part. -/
structure Numeral where
  negative : Bool
  whole : Bytes
  fraction : Bytes
  exponent : Bytes
  isWhole : IsWhole whole
  isFraction : IsFraction fraction
  isExponent : IsExponent exponent

/-- The text of a number. -/
def Numeral.text (n : Numeral) : Bytes :=
  (if n.negative then [minus] else []) ++ (n.whole ++ (n.fraction ++ n.exponent))

/-- The bytes that make an escape with the backslash in front of them. -/
def shortEscapes : Bytes :=
  [quote, backslash, slash, lowerB, lowerF, lowerN, lowerR, lowerT]

/-- A hexadecimal digit of either case. -/
def isHexDigit (c : UInt8) : Bool :=
  isDigit c || (0x61 ≤ c && c ≤ 0x66) || (0x41 ≤ c && c ≤ 0x46)

/-- The inside of a string: characters that need no escape, the eight short escapes, and code units
of four hexadecimal digits. -/
inductive IsBody : Bytes → Prop where
  | nil : IsBody []
  | plain {c : UInt8} {rest : Bytes} (hquote : c ≠ quote) (hslash : c ≠ backslash)
      (hspace : ¬c < space) (hrest : IsBody rest) : IsBody (c :: rest)
  | short {c : UInt8} {rest : Bytes} (hc : c ∈ shortEscapes) (hrest : IsBody rest) :
      IsBody (backslash :: c :: rest)
  | unit {c₁ c₂ c₃ c₄ : UInt8} {rest : Bytes} (h₁ : isHexDigit c₁ = true)
      (h₂ : isHexDigit c₂ = true) (h₃ : isHexDigit c₃ = true) (h₄ : isHexDigit c₄ = true)
      (hrest : IsBody rest) : IsBody (backslash :: lowerU :: c₁ :: c₂ :: c₃ :: c₄ :: rest)

/-- A string without its quotes. -/
structure Body where
  text : Bytes
  isBody : IsBody text

theorem mem_gapBytes {c : UInt8} : c ∈ gapBytes ↔ WellFormed.isGap c = true := by
  simp [gapBytes, WellFormed.isGap, or_assoc]

theorem mem_shortEscapes {c : UInt8} : c ∈ shortEscapes ↔ WellFormed.isShortEscape c = true := by
  simp [shortEscapes, WellFormed.isShortEscape, or_assoc]

theorem isHexDigit_eq (c : UInt8) : isHexDigit c = (hexValue? c).isSome := by
  unfold isHexDigit hexValue?
  split
  · simp [*]
  · split
    · simp_all
    · split <;> simp_all

/-- The text that a string stands for. -/
def Body.name (body : Body) : Bytes :=
  Value.stringText (Bytes.quoted body.text)

/-! ## Trees -/

/-- A value inside of a container: what stands in front of it, the value, and the gap behind. -/
structure Entry (Front Value : Type) where
  front : Front
  value : Value
  gap : Gap

/-- A key with its colon and the gaps around both. -/
structure Tag where
  before : Gap
  key : Body
  between : Gap
  after : Gap

/-- The text of a key with its colon. -/
def Tag.text (tag : Tag) : Bytes :=
  tag.before.text ++ (Bytes.quoted tag.key.text ++ (tag.between.text ++ colon :: tag.after.text))

/-- A value as it is written.  In front of the first entry of a container stands a gap more, which
is all that an empty container holds. -/
inductive Node where
  | word (w : Word)
  | number (n : Numeral)
  | string (body : Body)
  | array (gap : Gap) (items : List (Entry Gap Node))
  | object (gap : Gap) (members : List (Entry Tag Node))

theorem Entry.sizeOf_value_lt {Front : Type} [SizeOf Front] {entries : List (Entry Front Node)}
    {e : Entry Front Node} (h : e ∈ entries) : sizeOf e.value < sizeOf entries := by
  have hlt := List.sizeOf_lt_of_mem h
  cases e with
  | mk front value gap =>
    simp only [Entry.mk.sizeOf_spec] at hlt
    show sizeOf value < sizeOf entries
    omega

/-- The text of a value. -/
def Node.text : Node → Bytes
  | word w => w.text
  | number n => n.text
  | string body => Bytes.quoted body.text
  | array gap items =>
    openBracket :: (gap.text ++ (Bytes.commaJoin (items.map fun e =>
      e.front.text ++ (e.value.text ++ e.gap.text)) ++ [closeBracket]))
  | object gap members =>
    openBrace :: (gap.text ++ (Bytes.commaJoin (members.map fun e =>
      e.front.text ++ (e.value.text ++ e.gap.text)) ++ [closeBrace]))
-- Each value of a container is smaller than the list of its entries
termination_by n => n
decreasing_by
  all_goals
    have hlt := Entry.sizeOf_value_lt ‹_›
    simp only [array.sizeOf_spec, object.sizeOf_spec]
    omega

/-- Induction over trees: a property that the entries of a container hand on to it. -/
@[elab_as_elim, induction_eliminator]
theorem Node.induct {motive : Node → Prop} (word : ∀ w, motive (.word w))
    (number : ∀ n, motive (.number n)) (string : ∀ body, motive (.string body))
    (array : ∀ gap items, (∀ e ∈ items, motive e.value) → motive (.array gap items))
    (object : ∀ gap members, (∀ e ∈ members, motive e.value) → motive (.object gap members)) :
    ∀ n, motive n
  | .word w => word w
  | .number n => number n
  | .string body => string body
  | .array gap items =>
    array gap items fun e _ => induct word number string array object e.value
  | .object gap members =>
    object gap members fun e _ => induct word number string array object e.value
termination_by n => n
decreasing_by
  all_goals
    have hlt := Entry.sizeOf_value_lt ‹_›
    simp only [Node.array.sizeOf_spec, Node.object.sizeOf_spec]
    omega

/-- A document: a value between two gaps. -/
structure Document where
  before : Gap
  root : Node
  after : Gap

/-- The text of a document. -/
def Document.text (d : Document) : Bytes :=
  d.before.text ++ (d.root.text ++ d.after.text)

/-- No space. -/
def Gap.none : Gap :=
  ⟨[], by simp⟩

/-- The document `{"a":[null]}`. -/
def Document.sample : Document :=
  let key : Body := ⟨[0x61], .plain (by decide) (by decide) (by decide) .nil⟩
  let list : Node := .array .none [⟨.none, .word .null, .none⟩]
  ⟨.none, .object .none [⟨⟨.none, key, .none, .none⟩, list, .none⟩], .none⟩

/-! ## What a value is -/

namespace Node

/-- The kind that the first bytes of a value tell. -/
def lead : Node → Lead
  | word _ => .word
  | number _ => .number
  | string _ => .string
  | array _ _ => .array
  | object _ _ => .object

/-- Whether a value is an object or an array. -/
def isContainer (n : Node) : Bool :=
  n.lead.isContainer

/-- The value as an answer to a query. -/
def value : Node → Value
  | word w => w.value
  | number n => .number n.text
  | string body => .string (Bytes.quoted body.text)
  | array gap items => .json (array gap items).text
  | object gap members => .json (object gap members).text

/-- The source text of an answer is the text of the value. -/
theorem raw_value (n : Node) : n.value.raw = n.text := by
  cases n <;> simp [value, text, Value.raw, Word.text]

end Node

/-! ## The inside of a container -/

section Inside

variable {Front : Type} (front : Front → Bytes)

/-- The text of entries with the commas between them. -/
def inside (entries : List (Entry Front Node)) : Bytes :=
  -- The gap behind a value stands in front of its comma
  Bytes.commaJoin (entries.map fun e => front e.front ++ (e.value.text ++ e.gap.text))

/-- What stands between a value and whatever comes next in its container. -/
def separator (e : Entry Front Node) (rest : List (Entry Front Node)) : Bytes :=
  e.gap.text ++ (if rest.isEmpty then [] else [comma])

@[simp] theorem inside_nil : inside front [] = [] :=
  rfl

theorem inside_cons (e : Entry Front Node) (rest : List (Entry Front Node)) :
    inside front (e :: rest) =
      front e.front ++ (e.value.text ++ (separator e rest ++ inside front rest)) := by
  -- The comma is there only if another entry follows
  cases rest with
  | nil => simp [inside, separator, Bytes.commaJoin_singleton, Bytes.commaJoin_nil]
  | cons e' rest =>
    simp [inside, separator, Bytes.commaJoin_cons_cons]

/-- Entries behind a text that separates them from what is before. -/
theorem append_inside_cons (lead : Bytes) (e : Entry Front Node) (rest : List (Entry Front Node))
    (after : Bytes) :
    lead ++ (inside front (e :: rest) ++ after) =
      lead ++ (front e.front ++ (e.value.text ++
        (separator e rest ++ (inside front rest ++ after)))) := by
  rw [inside_cons]
  simp only [List.append_assoc]

theorem length_inside_cons (e : Entry Front Node) (rest : List (Entry Front Node)) :
    (inside front (e :: rest)).length =
      (front e.front).length + e.value.text.length + (separator e rest).length +
        (inside front rest).length := by
  rw [inside_cons]
  simp only [List.length_append, Nat.add_assoc]

end Inside

theorem Node.text_array (gap : Gap) (items : List (Entry Gap Node)) :
    (Node.array gap items).text =
      openBracket :: (gap.text ++ (inside Gap.text items ++ [closeBracket])) := by
  rw [Node.text, inside]

theorem Node.text_object (gap : Gap) (members : List (Entry Tag Node)) :
    (Node.object gap members).text =
      openBrace :: (gap.text ++ (inside Tag.text members ++ [closeBrace])) := by
  rw [Node.text, inside]

theorem Document.text_sample : Document.sample.text = Bytes.ofString "\x7b\"a\":[null]\x7d" := by
  simp only [Document.text, Document.sample, Node.text_object, Node.text_array, inside_cons,
    inside_nil, separator, Gap.none, Node.text]
  rfl

/-! ## The first byte of a value -/

theorem Word.text_cons (w : Word) : ∃ c rest, w.text = c :: rest ∧ startsValue c = true := by
  rcases w with _ | _ | _ <;> exact ⟨_, _, rfl, rfl⟩

theorem startsValue_of_isDigit {c : UInt8} (h : isDigit c = true) : startsValue c = true := by
  simp [startsValue, startsNumber, h]

theorem IsWhole.cons {text : Bytes} (h : IsWhole text) :
    ∃ c rest, text = c :: rest ∧ isDigit c = true := by
  rcases h with rfl | ⟨hdigits, -⟩
  · exact ⟨zero, [], rfl, rfl⟩
  · cases text with
    | nil => simp [Number.isDigits] at hdigits
    | cons c rest =>
      simp only [Number.isDigits, List.all_cons, Bool.and_eq_true] at hdigits
      exact ⟨c, rest, rfl, hdigits.2.1⟩

theorem Numeral.text_cons (n : Numeral) :
    ∃ c rest, n.text = c :: rest ∧ (c = minus ∨ isDigit c = true) := by
  obtain ⟨negative, whole, fraction, exponent, hwhole, -, -⟩ := n
  -- The sign is optional, but the whole part is never empty
  obtain ⟨c, rest, rfl, hc⟩ := hwhole.cons
  cases negative with
  | false => exact ⟨c, _, rfl, .inr hc⟩
  | true => exact ⟨minus, _, rfl, .inl rfl⟩

/-- A value starts with a byte that only values start with. -/
theorem Node.text_cons (n : Node) : ∃ c rest, n.text = c :: rest ∧ startsValue c = true := by
  cases n with
  | word w => simpa only [Node.text] using w.text_cons
  | number n =>
    obtain ⟨c, rest, htext, hc⟩ := n.text_cons
    refine ⟨c, rest, by rw [Node.text, htext], ?_⟩
    rcases hc with rfl | hc
    · rfl
    · exact startsValue_of_isDigit hc
  | string body => exact ⟨quote, _, by rw [Node.text]; rfl, rfl⟩
  | array gap items => exact ⟨openBracket, _, text_array gap items, rfl⟩
  | object gap members => exact ⟨openBrace, _, text_object gap members, rfl⟩

/-! ## Places -/

/-- What a child is called by its container: a key with its escapes read, or a position. -/
inductive Label where
  | key (name : Bytes)
  | position (n : Nat)
  deriving DecidableEq

/-- A value and its offset in a document. -/
structure Spot where
  offset : Nat
  node : Node

/-- A child of a container. -/
structure Branch extends Spot where
  label : Label

/-- The children that entries hold, of which the first starts at an offset, fronts included. -/
def branchesFrom {Front : Type} (front : Front → Bytes) (label : Nat → Front → Label)
    (offset position : Nat) : List (Entry Front Node) → List Branch
  | [] => []
  | e :: rest =>
    -- The value stands behind its front, the next entry behind the separator
    let start := offset + (front e.front).length
    let next := start + e.value.text.length + (separator e rest).length
    ⟨⟨start, e.value⟩, label position e.front⟩
      :: branchesFrom front label next (position + 1) rest

namespace Spot

/-- The children of a value in document order. -/
def branches (s : Spot) : List Branch :=
  match s.node with
  | .array gap items =>
    branchesFrom Gap.text (fun n _ => .position n) (s.offset + 1 + gap.text.length) 0 items
  | .object gap members =>
    branchesFrom Tag.text (fun _ tag => .key tag.key.name) (s.offset + 1 + gap.text.length) 0
      members
  | _ => []

/-- The value as the answer to a query. -/
def result (s : Spot) : Result :=
  .located s.node.value s.offset

end Spot

/-- The value of a document and its offset. -/
def Document.spot (d : Document) : Spot :=
  ⟨d.before.text.length, d.root⟩

end JsonQuery.Grammar
