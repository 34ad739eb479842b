import JsonQuery.Proofs.HandedOn

/-!
# Values in paths

A value with a bang in front stands for itself: the path behind it is applied to the value, and the
text that the query begins with does not matter.

Each kind of value ends by a rule of its own.  Strings and containers end with the byte that closes
them, words with the next dot or bar, and numbers with the next bar, since they may hold dots.  So a
value of the grammar is found whole wherever nothing or a pipe follows it.

## Layers

- **Extents**: how far each kind of value is read.
- **Values**: well-formed texts without white space around them.
- **Queries**: the literal as the first link of a chain.
-/

namespace JsonQuery

open Ascii

namespace Grammar

/-! ## Extents -/

section Extents

variable {text rest : Bytes}

/-- The end of a path or a pipe. -/
def EndsOrPipes (rest : Bytes) : Prop :=
  rest = [] ∨ ∃ next, rest = bar :: next

/-- What is behind a literal that ends with its closing byte does not matter. -/
theorem parse?_closed {opener closer : UInt8} (hcloser : Literal.closer? opener = some closer)
    (hlast : (opener :: text).getLast? = some closer) (hlength : 2 ≤ (opener :: text).length)
    (hextent : Extent.ofArgument (opener :: text ++ rest) = (opener :: text).length) :
    Literal.parse? (bang :: (opener :: text ++ rest)) = some (opener :: text, rest) := by
  have hclosed : Literal.closed? closer (opener :: text ++ rest) =
      some (opener :: text).length := by
    rw [Literal.closed?, hextent, List.take_left, hlast]
    exact if_pos (by simpa using hlength)
  rw [List.cons_append] at hclosed ⊢
  simp only [Literal.parse?, List.drop_one, List.tail_cons, hcloser, hclosed, Option.map_some]
  rw [← List.cons_append, List.take_left, List.drop_left]

/-- An argument that starts with a quote is read as a string. -/
theorem ofArgument_quoted (body : Body) (rest : Bytes) :
    Extent.ofArgument (Bytes.quoted body.text ++ rest) = (Bytes.quoted body.text).length := by
  have hextent := ofString?_quoted body rest
  rw [Bytes.quoted, List.cons_append, List.cons_append] at hextent ⊢
  rw [Extent.ofArgument, if_pos rfl, hextent]
  rfl

/-- An argument that opens with a bracket is read as a container. -/
theorem ofArgument_bracketed {opener closer : UInt8} (hopener : isOpener opener = true)
    (hcloser : isCloser closer = true) (h : Balanced text) (rest : Bytes) :
    Extent.ofArgument (opener :: (text ++ [closer]) ++ rest) =
      (opener :: (text ++ [closer])).length := by
  have hextent : Extent.ofContainer? (opener :: (text ++ [closer]) ++ rest) =
      some (opener :: (text ++ [closer])).length := ofContainer?_bracketed hcloser h rest
  rw [List.cons_append] at hextent ⊢
  rw [Extent.ofArgument, if_neg (ne_of_isOpener hopener).1, if_pos hopener, hextent]
  rfl

theorem parse?_string (body : Body) (rest : Bytes) :
    Literal.parse? (bang :: (Bytes.quoted body.text ++ rest)) =
      some (Bytes.quoted body.text, rest) := by
  have hquoted : Bytes.quoted body.text = quote :: (body.text ++ [quote]) := rfl
  have hextent := ofArgument_quoted body rest
  rw [hquoted] at hextent ⊢
  exact parse?_closed rfl (List.getLast?_concat (l := quote :: body.text)) (by simp) hextent

theorem parse?_bracketed {opener closer : UInt8} (hopener : isOpener opener = true)
    (hcloser : isCloser closer = true) (hpair : Literal.closer? opener = some closer)
    (h : Balanced text) (rest : Bytes) :
    Literal.parse? (bang :: (opener :: (text ++ [closer]) ++ rest)) =
      some (opener :: (text ++ [closer]), rest) :=
  parse?_closed hpair (List.getLast?_concat (l := opener :: text)) (by simp)
    (ofArgument_bracketed hopener hcloser h rest)

/-- A number holds no bar, so it is taken whole whether or not there is one behind it. -/
theorem parse?_number (n : Numeral) (hrest : EndsOrPipes rest) :
    Literal.parse? (bang :: (n.text ++ rest)) = some (n.text, rest) := by
  obtain ⟨c, text, htext, hc⟩ := n.text_cons
  have hcloser : Literal.closer? c = none := by grind [Literal.closer?, isDigit]
  have hstarts : (c = plus || c = minus || isDigit c) = true := by
    rcases hc with rfl | hc
    · rfl
    · simp [hc]
  have hbytes : ∀ b ∈ n.text, (b != bar) = true := by
    intro b hb
    have hb := List.all_eq_true.1 n.all_isNumberByte b hb
    grind [isNumberByte, isDigit]
  have hlength : (if (n.text ++ rest).contains bar then
      ((n.text ++ rest).takeWhile (· != bar)).length else Extent.ofNumber (n.text ++ rest)) =
        n.text.length := by
    rcases hrest with rfl | ⟨next, rfl⟩
    · have hbar : (n.text ++ []).contains bar = false := by
        simpa using fun hmem => absurd (hbytes bar hmem) (by decide)
      rw [hbar, if_neg Bool.false_ne_true]
      exact ofNumber_numeral n Follows.nil
    · rw [if_pos (by simp), takeWhile_append_of_head hbytes (by simp)]
  rw [htext] at hlength ⊢
  rw [List.cons_append] at hlength ⊢
  simp only [Literal.parse?, List.drop_one, List.tail_cons, hcloser, hstarts, if_true, hlength]
  rw [← List.cons_append, List.take_left, List.drop_left]

/-- The words of the grammar are written in small letters already. -/
theorem parse?_word (w : Word) (hrest : EndsOrPipes rest) :
    Literal.parse? (bang :: (w.text ++ rest)) = some (w.text, rest) := by
  rcases hrest with rfl | ⟨next, rfl⟩
  · rcases w with _ | _ | _ <;> rfl
  · rcases w with _ | _ | _ <;> rfl

/-- A value behind a bang is taken as it is written, up to the end of the path or a pipe. -/
theorem parse?_node (n : Node) (hrest : EndsOrPipes rest) :
    Literal.parse? (bang :: (n.text ++ rest)) = some (n.text, rest) := by
  cases n with
  | word w =>
    rw [Node.text]
    exact parse?_word w hrest
  | number n =>
    rw [Node.text]
    exact parse?_number n hrest
  | string body =>
    rw [Node.text]
    exact parse?_string body rest
  | array gap items =>
    rw [Node.text_array, ← List.append_assoc]
    exact parse?_bracketed rfl rfl rfl (gap.balanced.append (balanced_inside Gap.balanced items
      fun e _ => e.value.balanced)) rest
  | object gap members =>
    rw [Node.text_object, ← List.append_assoc]
    exact parse?_bracketed rfl rfl rfl (gap.balanced.append (balanced_inside Tag.balanced members
      fun e _ => e.value.balanced)) rest

end Extents

/-! ## Values -/

section Values

variable {text : Bytes}

/-- A text neither starts nor ends with white space. -/
def IsTrimmed (text : Bytes) : Prop :=
  (∀ c ∈ text.head?, c ∉ gapBytes) ∧ ∀ c ∈ text.getLast?, c ∉ gapBytes

instance (text : Bytes) : Decidable (IsTrimmed text) :=
  inferInstanceAs (Decidable (_ ∧ _))

/-- A well-formed text without white space around it is a value. -/
theorem exists_node (hwell : isWellFormed text = true) (htrimmed : IsTrimmed text) :
    ∃ n : Node, n.text = text := by
  obtain ⟨⟨before, root, after⟩, rfl⟩ := WellFormed.isWellFormed_iff_document.1 hwell
  obtain ⟨hhead, hlast⟩ := htrimmed
  have hbefore : before.text = [] := by
    cases htext : before.text with
    | nil => rfl
    | cons c rest =>
      exact absurd (before.isGap c (by simp [htext])) (hhead c (by simp [Document.text, htext]))
  have hafter : after.text = [] := by
    rcases List.eq_nil_or_concat after.text with hnil | ⟨front, c, htext⟩
    · exact hnil
    · rw [List.concat_eq_append] at htext
      exact absurd (after.isGap c (by simp [htext])) (hlast c (by simp [Document.text, htext]))
  exact ⟨root, by rw [Document.text, hbefore, hafter, List.nil_append, List.append_nil]⟩

end Values

/-! ## Queries -/

section Queries

/-- A value behind a bang is the first link of its path. -/
theorem link_literal (engine : Engine) (n : Node) {rest : Bytes} (hrest : EndsOrPipes rest)
    (nested : Engine.Nested) (room depth : Nat) (document : Bytes) :
    engine.link nested room depth document (bang :: (n.text ++ rest)) =
      .output ⟨n.text, rest, .zero⟩ := by
  have hparse := parse?_node n hrest
  obtain ⟨c, text, htext, -⟩ := n.text_cons
  rw [htext, List.cons_append] at hparse ⊢
  have hsign : (decide (bang = atSign) && engine.config.modifiers) = false := rfl
  rw [Engine.link, hsign, if_neg Bool.false_ne_true, if_pos rfl, hparse]

/-- **A literal stands for itself.**  The query of a value behind a bang answers with the value, and
a path behind its pipe finds in any text what it finds in the value, but without a place. -/
theorem get_literal {engine : Engine} (hdepth : engine.config.maxDepth ≠ 0) {value : Bytes}
    (hwell : isWellFormed value = true) (htrimmed : IsTrimmed value) (document next : Bytes) :
    (engine.get document (bang :: value)).value = (parse value).detached ∧
      ((engine.get document (piped (bang :: value) next)).counts.depthHits = 0 →
        (engine.get document (piped (bang :: value) next)).value =
          (engine.get value next).value.detached) := by
  obtain ⟨n, rfl⟩ := exists_node hwell htrimmed
  obtain ⟨depth, hmax⟩ := Nat.exists_eq_succ_of_ne_zero hdepth
  constructor
  · have hlink := link_literal engine n (.inl rfl) (engine.resolve 127) 127 depth document
    rw [List.append_nil] at hlink
    rw [Engine.get, hmax, Engine.resolve_pathNesting, Engine.chain_output _ _ _ _ _ hlink]
    rfl
  · have hlink := link_literal engine n (.inr ⟨next, rfl⟩) (engine.resolve 127) 127 depth document
    have hpath : bang :: (n.text ++ bar :: next) = piped (bang :: n.text) next := rfl
    rw [hpath] at hlink
    intro hhits
    rw [Engine.get, hmax, Engine.resolve_pathNesting, Engine.chain_output _ _ _ _ _ hlink]
      at hhits ⊢
    dsimp only [continuation?_bar] at hhits ⊢
    -- The chain goes on as the query of the value does, only without a place to begin at
    rw [Engine.chain_eq_rebase] at hhits ⊢
    have hnone := (Nat.add_eq_zero_iff.1 (Nat.add_eq_zero_iff.1 hhits).2).2
    exact congrArg Result.detached (engine.value_chain_of_no_hit hmax hnone)

end Queries

/-- An array with a string that holds a pipe, an escaped quote and a bracket. -/
theorem get_literal_sample :
    let value := Bytes.ofString "[\"|\\\"]\",7]"
    isWellFormed value = true ∧ IsTrimmed value ∧
      (Engine.standard.get [openBrace] (bang :: value)).value = ⟨.json value, none, none⟩ ∧
      (Engine.standard.get [openBrace] (piped (bang :: value) [0x31])).value =
        ⟨.number [0x37], none, none⟩ ∧
      (Engine.standard.get value [0x31]).value = .located (.number [0x37]) 8 := by
  intro value
  have hwell : isWellFormed value = true := by decide +kernel
  have htrimmed : IsTrimmed value := by decide +kernel
  have hfound : (Engine.standard.get value [0x31]).value = .located (.number [0x37]) 8 := by
    decide +kernel
  obtain ⟨hself, hbehind⟩ := @get_literal .standard (by decide) _ hwell htrimmed [openBrace] [0x31]
  refine ⟨hwell, htrimmed, hself.trans ?_, (hbehind ?_).trans ?_, hfound⟩
  · decide +kernel
  · decide +kernel
  · rw [hfound]
    rfl

end Grammar

end JsonQuery
