import JsonQuery.Engine.Standard
import JsonQuery.Proofs.Characters
import JsonQuery.Proofs.Children
import JsonQuery.Proofs.Pipelines
import JsonQuery.Proofs.Quoting
import JsonQuery.Proofs.Recognition

/-!
# Texts as strings of documents

A text that is quoted is a string of the grammar, whatever the text is.  So it is a document by
itself, it is read as a string wherever it stands, and it stands for the text.

## Layers

- **Bodies**: the spelling of a byte is one character of a body, so a spelling is a body.
- **UTF-8**: the spelling of a byte moves the machine of `Utf8` as the byte itself does.
- **Strings**: the string that a text is encoded as, what it is read as, and the way back.
-/

namespace JsonQuery.Quoted

open Ascii Grammar

/-! ## Bodies -/

section Bodies

variable {c : UInt8} {text : Bytes}

theorem isBody_append {a b : Bytes} (ha : IsBody a) (hb : IsBody b) : IsBody (a ++ b) := by
  -- One case for each way to write a character
  induction ha with
  | nil => exact hb
  | plain hquote hslash hspace _ ih => exact .plain hquote hslash hspace ih
  | short hc _ ih => exact .short hc ih
  | unit h₁ h₂ h₃ h₄ _ ih => exact .unit h₁ h₂ h₃ h₄ ih

/-- What a one-letter escape is read by is the letter of one. -/
theorem mem_shortEscapes_of_short? {d : UInt8} (h : short? d = some c) : d ∈ shortEscapes := by
  rw [mem_shortEscapes]
  grind [short?, WellFormed.isShortEscape]

theorem isHexDigit_hexDigit {n : Nat} (h : n < 16) : isHexDigit (hexDigit n) = true := by
  rw [isHexDigit_eq, hexValue?_hexDigit h]
  rfl

/-- A byte is spelled by one character of a body. -/
theorem Spelling.isBody (h : Spelling c text) : IsBody text := by
  cases h with
  | plain hquote hslash hspace => exact .plain hquote hslash hspace .nil
  | short _ hshort => exact .short (mem_shortEscapes_of_short? hshort) .nil
  | unit hspace =>
    have hc := c.toNat_lt
    exact .unit rfl rfl (isHexDigit_hexDigit (by omega)) (isHexDigit_hexDigit (by omega)) .nil

theorem isBody_flatMap_spell (text : Bytes) : IsBody (text.flatMap spell) := by
  induction text with
  | nil => exact .nil
  | cons c text ih => exact isBody_append (spelling_spell c).isBody ih

end Bodies

/-! ## UTF-8 -/

section Utf8

variable {c : UInt8} {text : Bytes}

/-- One-byte characters lead from between two characters to between two characters. -/
theorem after_of_ascii (hne : text ≠ []) (h : ∀ c ∈ text, c ≤ 0x7F) (s : Utf8.State) :
    s.after text = if s = .lead then some .lead else none := by
  split
  · rename_i hs
    rw [hs]
    exact Utf8.isValid_iff_after.1 (Utf8.isValid_of_ascii h)
  · rename_i hs
    cases text with
    | nil => exact absurd rfl hne
    | cons c rest =>
      rw [Utf8.State.after_cons]
      cases hnext : s.next c with
      | none => rfl
      | some t => exact absurd (Utf8.next_of_ascii (h c List.mem_cons_self) hnext).1 hs

theorem ascii_hexDigit {n : Nat} (h : n < 16) : hexDigit n ≤ 0x7F := by
  have hall : ∀ n : Fin 16, hexDigit n ≤ 0x7F := by decide
  exact hall ⟨n, h⟩

/-- Bytes that are not spelled by themselves are one-byte characters, and so are their spellings. -/
theorem Spelling.ascii (h : Spelling c text) :
    text = [c] ∨ c ≤ 0x7F ∧ text ≠ [] ∧ ∀ b ∈ text, b ≤ 0x7F := by
  cases h with
  | plain => exact .inl rfl
  | @short d _ hshort =>
    obtain ⟨hd, hc⟩ : d ≤ 0x7F ∧ c ≤ 0x7F := by grind [short?]
    exact .inr ⟨hc, by simp, List.forall_mem_cons.2 ⟨by decide, by simpa using hd⟩⟩
  | unit hspace =>
    have hbyte := c.toNat_lt
    have hc : c ≤ 0x7F := UInt8.le_trans (UInt8.le_of_lt hspace) (by decide)
    have hfront : ∀ b ∈ [backslash, lowerU, zero, zero], b ≤ 0x7F := by
      simp [backslash, lowerU, zero]
    have hdigits : ∀ b ∈ [hexDigit (c.toNat / 16), hexDigit (c.toNat % 16)], b ≤ 0x7F := by
      simpa using And.intro (ascii_hexDigit (by omega)) (ascii_hexDigit (by omega))
    exact .inr ⟨hc, by simp, List.forall_mem_append.2 ⟨hfront, hdigits⟩⟩

/-- A byte and its spelling lead to the same state. -/
theorem Spelling.after (h : Spelling c text) (s : Utf8.State) : s.after text = s.after [c] := by
  rcases h.ascii with rfl | ⟨hc, hne, hascii⟩
  · rfl
  · rw [after_of_ascii hne hascii, after_of_ascii (by simp) (by simpa using hc)]

theorem after_flatMap_spell (text : Bytes) (s : Utf8.State) :
    s.after (text.flatMap spell) = s.after text := by
  induction text generalizing s with
  | nil => rfl
  | cons c text ih =>
    have hcons : s.after (c :: text) = (s.after [c]).bind (Utf8.State.after · text) :=
      s.after_append [c] text
    rw [List.flatMap_cons, Utf8.State.after_append, (spelling_spell c).after, hcons]
    simp only [ih]

/-- A text is encoded as UTF-8 exactly if it is UTF-8. -/
theorem isValid_encode_iff (text : Bytes) :
    Utf8.isValid (encode text) = true ↔ Utf8.isValid text = true := by
  rw [encode, Utf8.isValid_quoted_iff, Utf8.isValid_iff_after, after_flatMap_spell,
    ← Utf8.isValid_iff_after]

end Utf8

/-! ## Strings -/

section Strings

variable {text : Bytes}

/-- The body that a text is spelled as. -/
def bodyOf (text : Bytes) : Grammar.Body :=
  ⟨text.flatMap spell, isBody_flatMap_spell text⟩

/-- The document that holds a text as a string. -/
def documentOf (text : Bytes) : Document :=
  ⟨.none, .string (bodyOf text), .none⟩

theorem text_documentOf (text : Bytes) : (documentOf text).text = encode text := by
  rw [Document.text, documentOf, Node.text]
  exact List.append_nil _

/-- A text that is encoded is well-formed, even if it is not UTF-8. -/
theorem isWellFormed_encode (text : Bytes) : isWellFormed (encode text) = true :=
  WellFormed.isWellFormed_iff_document.2 ⟨documentOf text, text_documentOf text⟩

/-- A string is read up to its closing quote, with any text behind it. -/
theorem parse_quoted_append (body : Grammar.Body)
    (hvalid : Utf8.isValid (Bytes.quoted body.text) = true) (behind : Bytes) :
    parse (Bytes.quoted body.text ++ behind) =
      .located (.string (Bytes.quoted body.text)) 0 := by
  have hstring : (Node.string body).text = Bytes.quoted body.text := by
    rw [Node.text]
  have hlead : Lead.of? (Bytes.quoted body.text ++ behind) = some .string := by
    rw [← hstring]
    exact of?_node (.string body) behind
  have hlength : Extent.ofString? (Bytes.quoted body.text ++ behind) =
      some (Bytes.quoted body.text).length := ofString?_quoted body behind
  have hlossy : Utf8.lossy (Bytes.quoted body.text) = Bytes.quoted body.text := if_pos hvalid
  -- The string starts with its quote, so there is no space to pass over
  have hspace : Extent.ofSpace (Bytes.quoted body.text ++ behind) = 0 := rfl
  rw [parse, hspace, List.drop_zero, hlead]
  dsimp only
  rw [if_neg (by decide), Extent.ofLead?, hlength]
  dsimp only
  rw [List.take_left, Value.ofSpan, hlossy]

theorem parse_encode_append (hvalid : Utf8.isValid text = true) (behind : Bytes) :
    parse (encode text ++ behind) = .located (.string (encode text)) 0 :=
  parse_quoted_append (bodyOf text) ((isValid_encode_iff text).2 hvalid) behind

/-- The string of a text stands for the text. -/
theorem stringText_encode (hvalid : Utf8.isValid text = true) :
    Value.stringText (encode text) = text := by
  rw [encode, Value.stringText_quoted]
  split
  · exact decode_flatMap_spell hvalid
  · -- Without a backslash nothing was escaped
    rename_i hslash
    exact flatMap_spell_of_backslash_notMem (by simpa using hslash)

theorem fromString_encode (hvalid : Utf8.isValid text = true) :
    Modifier.fromString (encode text) = text := by
  have hparse := parse_encode_append hvalid []
  rw [List.append_nil] at hparse
  rw [Modifier.fromString, if_pos (isWellFormed_encode text), hparse]
  exact stringText_encode hvalid

/-- A query that writes a text as a string and reads the string answers as for the text. -/
theorem get_tostr_fromstr (hvalid : Utf8.isValid text = true) :
    get text (Bytes.ofString "@tostr|@fromstr") = (parse text).detached := by
  have hlossy : ∀ t : Bytes, Utf8.isValid t = true → Utf8.lossy t = t :=
    fun _ h => if_pos h
  -- The two links of the chain, whatever the text is
  have htostr : ∀ nested room depth, Engine.standard.link nested room depth text
      (Bytes.ofString "@tostr|@fromstr") =
        .output ⟨encode (Utf8.lossy text), Bytes.ofString "|@fromstr", .oneCall false⟩ :=
    fun _ _ _ => rfl
  have hfromstr : ∀ nested room depth, Engine.standard.link nested room depth (encode text)
      (Bytes.ofString "@fromstr") =
        .output ⟨Modifier.fromString (Utf8.lossy (encode text)), [], .oneCall false⟩ :=
    fun _ _ _ => rfl
  have hnext : Path.continuation? (Bytes.ofString "|@fromstr") =
      some (Bytes.ofString "@fromstr") := rfl
  have hdepth : Engine.standard.config.maxDepth = 1022 + 1 + 1 := rfl
  rw [hlossy text hvalid] at htostr
  rw [hlossy _ ((isValid_encode_iff text).2 hvalid), fromString_encode hvalid] at hfromstr
  rw [get, Engine.get, Engine.pathNesting, Engine.resolve, hdepth, Engine.chain, htostr]
  dsimp only
  rw [hnext]
  dsimp only
  rw [Engine.chain, hfromstr]
  rfl

/-- Decoding undoes encoding.  The string of a UTF-8 text is well-formed and UTF-8, it is read as a
string with that text and nothing else wherever it stands, and the modifiers that write and read
strings give the text back, in a pipeline and in a query. -/
theorem encode_reads_back (hvalid : Utf8.isValid text = true) :
    isWellFormedUtf8 (encode text) = true ∧
      (∀ behind, parse (encode text ++ behind) = .located (.string (encode text)) 0 ∧
        (parse (encode text ++ behind)).text = text) ∧
      Modifier.fromString (encode text) = text ∧
      (∀ room a b, Registry.builtins.outputs room text
        [⟨Bytes.ofString "tostr", a⟩, ⟨Bytes.ofString "fromstr", b⟩] = some [encode text, text]) ∧
      get text (Bytes.ofString "@tostr|@fromstr") = (parse text).detached := by
  have hfromstr := fromString_encode hvalid
  refine ⟨?_, fun behind => ⟨parse_encode_append hvalid behind, ?_⟩, hfromstr, fun room a b => ?_,
    get_tostr_fromstr hvalid⟩
  · rw [isWellFormedUtf8, (isValid_encode_iff text).2 hvalid, isWellFormed_encode]
    rfl
  · rw [parse_encode_append hvalid behind]
    exact stringText_encode hvalid
  · have hwrite : Registry.builtins.output? room text ⟨Bytes.ofString "tostr", a⟩ =
        some (encode text) := rfl
    have hread : Registry.builtins.output? room (encode text) ⟨Bytes.ofString "fromstr", b⟩ =
        some (Modifier.fromString (encode text)) := rfl
    rw [Registry.outputs_cons_of_some hwrite, Registry.outputs_cons_of_some hread, hfromstr]
    rfl

/-- A quote, a backslash, a line feed, another control byte and a character of two bytes, with more
text behind the closing quote. -/
theorem encode_reads_back_sample :
    let text : Bytes := [quote, backslash, lineFeed, 0x01, 0xC3, 0xA9]
    Utf8.isValid text = true ∧
      encode text = Bytes.ofString "\"\\\"\\\\\\n\\u0001é\"" ∧
      parse (encode text ++ [quote, comma]) = .located (.string (encode text)) 0 ∧
      (parse (encode text ++ [quote, comma])).text = text := by
  intro text
  have hvalid : Utf8.isValid text = true := rfl
  obtain ⟨-, hparse, -⟩ := encode_reads_back hvalid
  exact ⟨hvalid, by decide, hparse [quote, comma]⟩

end Strings

end JsonQuery.Quoted
