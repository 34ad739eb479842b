import JsonQuery.Modifier.Layout
import JsonQuery.Proofs.Characters

/-!
# Documents without space

A document without the space between its tokens is the text of its tree with every gap taken out.
What the tokens are is not touched, so texts that differ only in their gaps become the same.

## Layers

- **Compaction**: `compact` byte by byte; doing it twice is doing it once.
- **Bare trees**: `Node.bare` takes the gaps out of a tree, and `compact` writes the bare tree.
- **UTF-8**: the text of a tree is UTF-8 if its strings are, whatever gaps it has.
-/

namespace JsonQuery

open Ascii

/-! ## Compaction -/

section Compaction

variable {c : UInt8} {text : Bytes}

/-- What was kept before stands in front. -/
theorem compactFrom_eq (place : Extent.Place) (kept text : Bytes) :
    compactFrom place kept text = kept.reverse ++ compactFrom place [] text := by
  induction text generalizing place kept with
  | nil => simp [compactFrom]
  | cons c text ih =>
    -- A byte is kept or passed over alike, whatever was kept before
    have hkeep : ∀ place, compactFrom place (c :: kept) text =
        kept.reverse ++ compactFrom place [c] text := by
      intro place
      rw [ih place (c :: kept), ih place [c]]
      simp
    cases place with
    | escaped => exact hkeep .quoted
    | quoted =>
      simp only [compactFrom]
      split
      · exact hkeep .escaped
      · split
        · exact hkeep .plain
        · exact hkeep .quoted
    | plain =>
      simp only [compactFrom]
      split
      · exact ih .plain kept
      · split
        · exact hkeep .quoted
        · exact hkeep .plain

theorem compactFrom_keep (place : Extent.Place) (c : UInt8) (text : Bytes) :
    compactFrom place [c] text = c :: compactFrom place [] text := by
  rw [compactFrom_eq]
  rfl

theorem compactFrom_space (hc : isSpace c = true) :
    compactFrom .plain [] (c :: text) = compactFrom .plain [] text := by
  simp [compactFrom, hc]

theorem compactFrom_open :
    compactFrom .plain [] (quote :: text) = quote :: compactFrom .quoted [] text := by
  rw [compactFrom, if_neg (by decide), if_pos rfl, compactFrom_keep]

theorem compactFrom_plain (hspace : isSpace c = false) (hquote : c ≠ quote) :
    compactFrom .plain [] (c :: text) = c :: compactFrom .plain [] text := by
  rw [compactFrom, hspace, if_neg Bool.false_ne_true, if_neg hquote, compactFrom_keep]

theorem compactFrom_slash :
    compactFrom .quoted [] (backslash :: c :: text) =
      backslash :: c :: compactFrom .quoted [] text := by
  rw [compactFrom, if_pos rfl, compactFrom, compactFrom_eq]
  rfl

theorem compactFrom_close :
    compactFrom .quoted [] (quote :: text) = quote :: compactFrom .plain [] text := by
  rw [compactFrom, if_neg (by decide), if_pos rfl, compactFrom_keep]

theorem compactFrom_inside (hslash : c ≠ backslash) (hquote : c ≠ quote) :
    compactFrom .quoted [] (c :: text) = c :: compactFrom .quoted [] text := by
  rw [compactFrom, if_neg hslash, if_neg hquote, compactFrom_keep]

theorem compactFrom_compactFrom (place : Extent.Place) (text : Bytes) :
    compactFrom place [] (compactFrom place [] text) = compactFrom place [] text := by
  -- Every byte that is kept leads to the same place when it is read again
  induction text generalizing place with
  | nil => cases place <;> rfl
  | cons c text ih =>
    cases place with
    | escaped =>
      rw [compactFrom, compactFrom_keep, compactFrom, compactFrom_keep, ih]
    | quoted =>
      rw [compactFrom]
      split
      · rename_i hc
        rw [compactFrom_keep, compactFrom, if_pos hc, compactFrom_keep, ih]
      · rename_i hslash
        split
        · rename_i hc
          rw [compactFrom_keep, compactFrom, if_neg hslash, if_pos hc, compactFrom_keep, ih]
        · rename_i hquote
          rw [compactFrom_keep, compactFrom_inside hslash hquote, ih]
    | plain =>
      rw [compactFrom]
      split
      · exact ih .plain
      · rename_i hspace
        split
        · rename_i hc
          rw [compactFrom_keep, compactFrom, if_neg hspace, if_pos hc, compactFrom_keep, ih]
        · rename_i hquote
          rw [compactFrom_keep, compactFrom_plain (Bool.eq_false_iff.2 hspace) hquote, ih]

theorem compact_plain (hspace : isSpace c = false) (hquote : c ≠ quote) :
    compact (c :: text) = c :: compact text :=
  compactFrom_plain hspace hquote

/-- Without space there is none to take away, in any text. -/
theorem compact_compact (text : Bytes) : compact (compact text) = compact text :=
  compactFrom_compactFrom .plain text

end Compaction

namespace Grammar

/-! ## Bare trees -/

/-- A key and its colon without any gap. -/
def Tag.bare (tag : Tag) : Tag :=
  ⟨.none, tag.key, .none, .none⟩

/-- A value without any gap in it. -/
def Node.bare : Node → Node
  | array _ items => .array .none (items.map fun e => ⟨.none, e.value.bare, .none⟩)
  | object _ members => .object .none (members.map fun e => ⟨e.front.bare, e.value.bare, .none⟩)
  | word w => .word w
  | number n => .number n
  | string body => .string body
termination_by n => n
decreasing_by
  all_goals
    have hlt := Entry.sizeOf_value_lt ‹_›
    simp only [array.sizeOf_spec, object.sizeOf_spec]
    omega

/-- A document without any gap. -/
def Document.bare (d : Document) : Document :=
  ⟨.none, d.root.bare, .none⟩

section Bare

@[simp] theorem Node.bare_word (w : Word) : (Node.word w).bare = .word w := by
  rw [bare]

@[simp] theorem Node.bare_number (n : Numeral) : (Node.number n).bare = .number n := by
  rw [bare]

@[simp] theorem Node.bare_string (body : Body) : (Node.string body).bare = .string body := by
  rw [bare]

@[simp] theorem Node.bare_array (gap : Gap) (items : List (Entry Gap Node)) :
    (Node.array gap items).bare =
      .array .none (items.map fun e => ⟨.none, e.value.bare, .none⟩) := by
  rw [bare]

@[simp] theorem Node.bare_object (gap : Gap) (members : List (Entry Tag Node)) :
    (Node.object gap members).bare =
      .object .none (members.map fun e => ⟨e.front.bare, e.value.bare, .none⟩) := by
  rw [bare]

theorem Node.bare_bare (n : Node) : n.bare.bare = n.bare := by
  induction n with
  | word w => simp
  | number n => simp
  | string body => simp
  | array gap items ih => simpa using ih
  | object gap members ih => simpa [Tag.bare] using ih

variable {text rest : Bytes}

theorem compact_gap (gap : Gap) (rest : Bytes) : compact (gap.text ++ rest) = compact rest := by
  obtain ⟨text, hgap⟩ := gap
  induction text with
  | nil => rfl
  | cons c text ih =>
    rw [List.forall_mem_cons] at hgap
    exact (compactFrom_space (isSpace_of_mem_gapBytes hgap.1)).trans (ih hgap.2)

/-- Tokens that are no strings hold no space. -/
theorem compact_of_all (h : ∀ c ∈ text, isSpace c = false ∧ c ≠ quote) (rest : Bytes) :
    compact (text ++ rest) = text ++ compact rest := by
  induction text with
  | nil => rfl
  | cons c text ih =>
    rw [List.forall_mem_cons] at h
    exact (compactFrom_plain h.1.1 h.1.2).trans (congrArg (c :: ·) (ih h.2))

theorem compactFrom_body (h : IsBody text) (rest : Bytes) :
    compactFrom .quoted [] (text ++ rest) = text ++ compactFrom .quoted [] rest := by
  -- One case for each way to write a character
  induction h with
  | nil => rfl
  | plain hquote hslash _ _ ih =>
    rw [List.cons_append, compactFrom_inside hslash hquote, ih, List.cons_append]
  | short _ _ ih =>
    simp only [List.cons_append]
    rw [compactFrom_slash, ih]
  | unit h₁ h₂ h₃ h₄ _ ih =>
    have hdigit : ∀ c : UInt8, isHexDigit c = true → ∀ text,
        compactFrom .quoted [] (c :: text) = c :: compactFrom .quoted [] text := by
      intro c hc text
      exact compactFrom_inside (ne_of_isHexDigit hc).2 (ne_of_isHexDigit hc).1
    simp only [List.cons_append]
    rw [compactFrom_slash, hdigit _ h₁, hdigit _ h₂, hdigit _ h₃, hdigit _ h₄, ih]

/-- Strings are kept with all that is in them. -/
theorem compact_quoted (body : Body) (rest : Bytes) :
    compact (Bytes.quoted body.text ++ rest) = Bytes.quoted body.text ++ compact rest := by
  have htext : ∀ rest, Bytes.quoted body.text ++ rest = quote :: (body.text ++ quote :: rest) := by
    intro rest
    simp [Bytes.quoted]
  rw [htext, htext, compact, compactFrom_open, compactFrom_body body.isBody, compactFrom_close]
  rfl

theorem Tag.text_bare (tag : Tag) : tag.bare.text = Bytes.quoted tag.key.text ++ [colon] :=
  rfl

theorem compact_tag (tag : Tag) (rest : Bytes) :
    compact (tag.text ++ rest) = tag.bare.text ++ compact rest := by
  rw [Tag.text, List.append_assoc, compact_gap, List.append_assoc, compact_quoted,
    List.append_assoc, compact_gap, List.cons_append, compact_plain (by decide) (by decide),
    compact_gap, Tag.text_bare]
  simp

theorem compact_separator {Front Front' : Type} (e : Entry Front Node)
    (entries : List (Entry Front Node)) (f : Front → Front') (rest : Bytes) :
    compact (separator e entries ++ rest) =
      separator ⟨f e.front, e.value.bare, .none⟩
        (entries.map fun e => ⟨f e.front, e.value.bare, .none⟩) ++ compact rest := by
  rw [separator, List.append_assoc, compact_gap, separator]
  cases entries with
  | nil => rfl
  | cons e' entries => exact compact_plain (by decide) (by decide)

theorem compact_inside {Front : Type} {front : Front → Bytes} {f : Front → Front}
    (hfront : ∀ x rest, compact (front x ++ rest) = front (f x) ++ compact rest)
    (entries : List (Entry Front Node))
    (hvalue : ∀ e ∈ entries, ∀ rest, compact (e.value.text ++ rest) =
      e.value.bare.text ++ compact rest) (rest : Bytes) :
    compact (inside front entries ++ rest) =
      inside front (entries.map fun e => ⟨f e.front, e.value.bare, .none⟩) ++ compact rest := by
  induction entries with
  | nil => rfl
  | cons e entries ih =>
    rw [List.forall_mem_cons] at hvalue
    rw [inside_cons, List.map_cons, inside_cons]
    simp only [List.append_assoc]
    rw [hfront, hvalue.1, compact_separator e entries f, ih hvalue.2]

/-- A value loses its gaps and nothing else. -/
theorem compact_node (n : Node) (rest : Bytes) :
    compact (n.text ++ rest) = n.bare.text ++ compact rest := by
  induction n generalizing rest with
  | word w =>
    rw [Node.bare_word, Node.text]
    apply compact_of_all
    have hall : w.text.all (fun c => !isSpace c && c != quote) = true := by
      rcases w with _ | _ | _ <;> rfl
    simpa using hall
  | number n =>
    rw [Node.bare_number, Node.text]
    apply compact_of_all
    intro c hc
    have hbyte := List.all_eq_true.1 n.all_isNumberByte c hc
    grind [isNumberByte, isDigit, isSpace]
  | string body =>
    rw [Node.bare_string, Node.text]
    exact compact_quoted body rest
  | array gap items ih =>
    rw [Node.bare_array, Node.text_array, Node.text_array]
    simp only [List.cons_append, List.append_assoc]
    rw [compact_plain (by decide) (by decide), compact_gap,
      compact_inside (f := fun _ => Gap.none) (fun gap rest => compact_gap gap rest) items ih,
      List.nil_append, compact_plain (by decide) (by decide)]
    rfl
  | object gap members ih =>
    rw [Node.bare_object, Node.text_object, Node.text_object]
    simp only [List.cons_append, List.append_assoc]
    rw [compact_plain (by decide) (by decide), compact_gap,
      compact_inside (f := Tag.bare) compact_tag members ih, List.nil_append,
      compact_plain (by decide) (by decide)]
    rfl

/-- Without space a document is the text of its bare tree. -/
theorem compact_document (d : Document) : compact d.text = d.root.bare.text := by
  have hafter : compact d.after.text = [] := by
    rw [← List.append_nil d.after.text, compact_gap]
    rfl
  rw [Document.text, compact_gap, compact_node, hafter, List.append_nil]

theorem text_bare (d : Document) : d.bare.text = d.root.bare.text :=
  List.append_nil _

end Bare

/-! ## UTF-8 -/

section Utf8

open Utf8

variable {rest : Bytes}

theorem Gap.isValid_append_iff (gap : Gap) (rest : Bytes) :
    isValid (gap.text ++ rest) = true ↔ isValid rest = true := by
  refine Utf8.isValid_append_iff (isValid_of_ascii fun c hc => ?_)
  have hall : gapBytes.all (· ≤ 0x7F) = true := rfl
  simpa using List.all_eq_true.1 hall c (gap.isGap c hc)

/-- A value ends with a one-byte character. -/
theorem Node.isValid_append_iff (n : Node) (rest : Bytes) :
    isValid (n.text ++ rest) = true ↔ isValid n.text = true ∧ isValid rest = true := by
  obtain ⟨init, c, htext⟩ : ∃ init c, n.text = init ++ [c] := by
    obtain ⟨c, text, htext, -⟩ := n.text_cons
    rcases List.eq_nil_or_concat n.text with hnil | ⟨init, c, hconcat⟩
    · rw [hnil] at htext
      cases htext
    · exact ⟨init, c, by rw [hconcat, List.concat_eq_append]⟩
  have hc : c ≤ 0x7F := n.ascii_last c (by simp [htext])
  rw [htext, List.append_assoc, List.singleton_append, isValid_append_cons_iff hc,
    isValid_append_cons_iff hc]
  simp [isValid, State.accepts]

theorem Tag.isValid_append_iff (tag : Tag) (rest : Bytes) :
    isValid (tag.text ++ rest) = true ↔ isValid tag.key.text = true ∧ isValid rest = true := by
  have hkey := (Node.string tag.key).isValid_append_iff
    (tag.between.text ++ (colon :: (tag.after.text ++ rest)))
  rw [Node.text, isValid_quoted_iff, tag.between.isValid_append_iff,
    isValid_cons_iff (by decide), tag.after.isValid_append_iff] at hkey
  rw [Tag.text, List.append_assoc, tag.before.isValid_append_iff]
  simpa using hkey

theorem isValid_inside_iff {Front : Type} {front : Front → Bytes} {p : Front → Prop}
    (hfront : ∀ f rest, isValid (front f ++ rest) = true ↔ p f ∧ isValid rest = true)
    (entries : List (Entry Front Node)) (rest : Bytes) :
    isValid (inside front entries ++ rest) = true ↔
      (∀ e ∈ entries, p e.front ∧ isValid e.value.text = true) ∧ isValid rest = true := by
  induction entries with
  | nil => simp
  | cons e entries ih =>
    -- The separator is a gap and a comma at most
    have hseparator : ∀ rest, isValid (separator e entries ++ rest) = true ↔
        isValid rest = true := by
      intro rest
      rw [separator, List.append_assoc, e.gap.isValid_append_iff]
      split
      · rfl
      · exact isValid_cons_iff (by decide)
    rw [inside_cons]
    simp only [List.append_assoc]
    rw [hfront, e.value.isValid_append_iff, hseparator, ih, List.forall_mem_cons]
    simp only [and_assoc]

/-- An array is UTF-8 if its elements are. -/
theorem isValid_array_iff (gap : Gap) (items : List (Entry Gap Node)) :
    isValid (Node.array gap items).text = true ↔
      ∀ e ∈ items, isValid e.value.text = true := by
  rw [Node.text_array, isValid_cons_iff (by decide), gap.isValid_append_iff,
    isValid_inside_iff (p := fun _ => True) fun gap rest => by
      rw [gap.isValid_append_iff, true_and]]
  simp only [true_and]
  exact and_iff_left (by decide)

/-- An object is UTF-8 if its keys and values are. -/
theorem isValid_object_iff (gap : Gap) (members : List (Entry Tag Node)) :
    isValid (Node.object gap members).text = true ↔
      ∀ e ∈ members, isValid e.front.key.text = true ∧ isValid e.value.text = true := by
  rw [Node.text_object, isValid_cons_iff (by decide), gap.isValid_append_iff,
    isValid_inside_iff Tag.isValid_append_iff]
  exact and_iff_left (by decide)

theorem isValid_bare_iff (n : Node) : isValid n.bare.text = true ↔ isValid n.text = true := by
  induction n with
  | word w => rw [Node.bare_word]
  | number n => rw [Node.bare_number]
  | string body => rw [Node.bare_string]
  | array gap items ih =>
    rw [Node.bare_array, isValid_array_iff, isValid_array_iff, List.forall_mem_map]
    exact forall₂_congr ih
  | object gap members ih =>
    rw [Node.bare_object, isValid_object_iff, isValid_object_iff, List.forall_mem_map]
    exact forall₂_congr fun e he => and_congr_right fun _ => ih e he

/-- A document is UTF-8 if its value is. -/
theorem Document.isValid_iff (d : Document) :
    isValid d.text = true ↔ isValid d.root.text = true := by
  have hafter : isValid d.after.text = true := by
    rw [← List.append_nil d.after.text, d.after.isValid_append_iff]
    rfl
  rw [Document.text, d.before.isValid_append_iff, d.root.isValid_append_iff]
  exact and_iff_left hafter

end Utf8

end Grammar

end JsonQuery
