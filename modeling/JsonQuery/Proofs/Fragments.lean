import JsonQuery.Modifier.Builtins
import JsonQuery.Proofs.Bare
import JsonQuery.Proofs.Location
import JsonQuery.Proofs.Recognition
import Mathlib.Data.Set.List

/-!
# Fragments of documents

What a reading cuts out of a UTF-8 document is again a value or a key as it is written, and a
container that is put together from such fragments is one as well.

## Layers

- **Texts**: `IsText` and `IsKey` are the texts of values and of keys.
- **Containers**: arrays and objects of fragments.
- **Numbers and ends**: counts are numbers, and no value has space at its ends.
- **Readings**: `IsRead` is what the children of a result are known by, keys and values alike.
-/

namespace JsonQuery.Grammar

open Ascii

/-! ## Texts -/

/-- The text of a UTF-8 value with nothing around it. -/
def IsText (text : Bytes) : Prop :=
  ∃ n : Node, n.text = text ∧ Utf8.isValid text = true

/-- The text of a UTF-8 key with its quotes. -/
def IsKey (text : Bytes) : Prop :=
  ∃ body : Body, Bytes.quoted body.text = text ∧ Utf8.isValid text = true

section Texts

variable {text : Bytes}

theorem IsKey.isText (h : IsKey text) : IsText text := by
  obtain ⟨body, hbody, hvalid⟩ := h
  exact ⟨.string body, by rw [Node.text, hbody], hvalid⟩

/-- A well-formed UTF-8 text is the text of a document. -/
theorem isWellFormedUtf8_iff :
    isWellFormedUtf8 text = true ↔
      ∃ d : Document, d.text = text ∧ Utf8.isValid d.text = true := by
  rw [isWellFormedUtf8, Bool.and_eq_true, WellFormed.isWellFormed_iff_document]
  constructor
  · rintro ⟨hvalid, d, rfl⟩
    exact ⟨d, rfl, hvalid⟩
  · rintro ⟨d, rfl, hvalid⟩
    exact ⟨hvalid, d, rfl⟩

/-- A value is a document without any space around it. -/
theorem IsText.isWellFormedUtf8 (h : IsText text) : isWellFormedUtf8 text = true := by
  obtain ⟨n, rfl, hvalid⟩ := h
  have htext : (Document.mk .none n .none).text = n.text := List.append_nil _
  exact isWellFormedUtf8_iff.2 ⟨⟨.none, n, .none⟩, htext, htext ▸ hvalid⟩

theorem isText_null : IsText Value.nullText :=
  ⟨.word .null, by rw [Node.text]; rfl, rfl⟩

end Texts

/-! ## Containers -/

section Containers

/-- Texts between two brackets are UTF-8 if each of them is. -/
theorem isValid_bracketed {opener closer : UInt8} (hopener : opener ≤ 0x7F)
    (hcloser : closer ≤ 0x7F) {texts : List Bytes} (h : ∀ t ∈ texts, Utf8.isValid t = true) :
    Utf8.isValid (opener :: Bytes.commaJoin texts ++ [closer]) = true := by
  rw [List.cons_append, Utf8.isValid_cons_iff hopener, Utf8.isValid_append_cons_iff hcloser]
  exact ⟨Utf8.isValid_commaJoin h, rfl⟩

/-- An array of values is a value. -/
theorem isText_arrayOf {items : List Bytes} (h : ∀ t ∈ items, IsText t) :
    IsText (Modifier.arrayOf items) := by
  have hnodes : items ∈ Set.range (List.map Node.text) := by
    rw [Set.range_list_map]
    intro t ht
    obtain ⟨n, hn, -⟩ := h t ht
    exact ⟨n, hn⟩
  obtain ⟨nodes, rfl⟩ := hnodes
  refine ⟨.array .none (nodes.map fun n => ⟨.none, n, .none⟩), ?_, ?_⟩
  · simp [Node.text, Gap.none, Modifier.arrayOf, Function.comp_def]
  · exact isValid_bracketed (by decide) (by decide) fun t ht => (h t ht).choose_spec.2

/-- An object of members is a value. -/
theorem isText_objectOf {members : List Bytes}
    (h : ∀ m ∈ members, ∃ key value, IsKey key ∧ IsText value ∧ Modifier.member key value = m) :
    IsText (Modifier.objectOf members) := by
  have hentries : members ∈ Set.range (List.map fun e : Body × Node =>
      Modifier.member (Bytes.quoted e.1.text) e.2.text) := by
    rw [Set.range_list_map]
    intro m hm
    obtain ⟨key, value, ⟨body, rfl, -⟩, ⟨n, rfl, -⟩, rfl⟩ := h m hm
    exact ⟨(body, n), rfl⟩
  obtain ⟨entries, rfl⟩ := hentries
  refine ⟨.object .none (entries.map fun e => ⟨⟨.none, e.1, .none, .none⟩, e.2, .none⟩), ?_, ?_⟩
  · simp [Node.text, Tag.text, Gap.none, Modifier.objectOf, Modifier.member, Function.comp_def]
  · refine isValid_bracketed (by decide) (by decide) fun m hm => ?_
    obtain ⟨key, value, ⟨-, -, hkey⟩, ⟨-, -, hvalue⟩, rfl⟩ := h m hm
    exact (Utf8.isValid_append_cons_iff (by decide)).2 ⟨hkey, hvalue⟩

end Containers

/-! ## Numbers and ends -/

section Numbers

/-- A number other than zero is not written with a zero in front. -/
theorem head?_toDigits_ne {n : Nat} (hn : n ≠ 0) : (Nat.toDigits 10 n).head? ≠ some '0' := by
  -- All digits but the last one are those of a smaller number, which is not zero either
  induction n using Nat.strongRecOn with
  | ind n ih =>
    by_cases hlt : n < 10
    · rw [Nat.toDigits_of_lt_base hlt]
      have hall : ∀ m : Fin 10, m.val ≠ 0 → [Nat.digitChar m].head? ≠ some '0' := by decide
      exact hall ⟨n, hlt⟩ hn
    · have hfront := ih (n / 10) (by omega) (by omega)
      rw [Nat.toDigits_of_base_le (by decide) (by omega), List.head?_append]
      cases hhead : (Nat.toDigits 10 (n / 10)).head? with
      | none => exact absurd (List.head?_eq_none_iff.1 hhead) Nat.toDigits_ne_nil
      | some c => rwa [hhead] at hfront

/-- A count is written as a number. -/
theorem isWhole_ofNat (n : Nat) : IsWhole (Bytes.ofNat n) := by
  by_cases hn : n = 0
  · rw [hn]
    exact .inl rfl
  · refine .inr ⟨isDigits_ofNat n, ?_⟩
    rw [Bytes.ofNat, List.head?_map]
    intro hzero
    obtain ⟨c, hc, hzero⟩ := Option.map_eq_some_iff.1 hzero
    have hdigit := toNat_of_isDigit (isDigit_of_mem_toDigits (List.mem_of_head? hc))
    have hcode : c.toNat = '0'.toNat := by
      rw [← hdigit.1, hzero]
      rfl
    rw [Char.toNat_inj.1 hcode] at hc
    exact head?_toDigits_ne hn hc

theorem isText_ofNat (n : Nat) : IsText (Bytes.ofNat n) := by
  refine ⟨.number ⟨false, Bytes.ofNat n, [], [], isWhole_ofNat n, .inl rfl, .inl rfl⟩, ?_, ?_⟩
  · simp [Node.text, Numeral.text]
  · refine Utf8.isValid_of_ascii fun c hc => ?_
    have hdigit := isDigit_of_mem_ofNat hc
    grind [isDigit]

/-- A value ends with a byte that is no space. -/
theorem Node.isSpace_last (n : Node) : ∀ c ∈ n.text.getLast?, isSpace c = false := by
  intro c hc
  have hlast := n.isLastByte c hc
  grind [Grammar.isLastByte, isLower, isNumberByte, isDigit, isSpace]

/-- Among one-byte characters only space is blank. -/
theorem isBlank_of_ascii {c : UInt8} (hc : c ≤ 0x7F) (hspace : isSpace c = false) :
    Blank.isBlank (Char.ofNat c.toNat) = false := by
  have hall : ∀ n < 128, isSpace (UInt8.ofNat n) = false →
      Blank.isBlank (Char.ofNat n) = false := by decide
  simp only [UInt8.le_iff_toNat_le, UInt8.reduceToNat] at hc
  exact hall c.toNat (by omega) (by rwa [UInt8.ofNat_toNat])

theorem trim_of_not_blank {cs : List Char} (hfirst : ∀ c ∈ cs.head?, Blank.isBlank c = false)
    (hlast : ∀ c ∈ cs.getLast?, Blank.isBlank c = false) : Blank.trim cs = cs := by
  have hdrop : ∀ {cs : List Char}, (∀ c ∈ cs.head?, Blank.isBlank c = false) →
      cs.dropWhile Blank.isBlank = cs := by
    intro cs h
    cases cs with
    | nil => rfl
    | cons c cs => rw [List.dropWhile_cons, h c rfl, if_neg Bool.false_ne_true]
  rw [Blank.trim, hdrop hfirst, hdrop (by rwa [List.head?_reverse]), List.reverse_reverse]

/-- The text of a value has no space at its ends to be taken off. -/
theorem IsText.trimmed {text : Bytes} (h : IsText text) : Modifier.trimmed text = text := by
  obtain ⟨n, rfl, hvalid⟩ := h
  have hblank : Blank.trim (Utf8.chars n.text) = Utf8.chars n.text := by
    apply trim_of_not_blank
    · -- The first character is the first byte
      obtain ⟨c, rest, htext, hc⟩ := n.text_cons
      have hascii := ascii_of_startsValue hc
      rw [htext] at hvalid ⊢
      rw [Utf8.chars_cons hascii hvalid]
      simpa using isBlank_of_ascii hascii (isSpace_of_startsValue hc)
    · -- The last character is the last byte
      rcases List.eq_nil_or_concat n.text with hnil | ⟨init, c, hconcat⟩
      · rw [hnil]
        exact fun _ hd => nomatch hd
      · have hmem : c ∈ n.text.getLast? := by simp [hconcat]
        have hascii := n.ascii_last c hmem
        have hspace := n.isSpace_last c hmem
        rw [List.concat_eq_append] at hconcat
        rw [hconcat] at hvalid ⊢
        rw [Utf8.chars_concat hascii hvalid]
        simpa using isBlank_of_ascii hascii hspace
  rw [Modifier.trimmed, hblank, Utf8.encode_chars hvalid]

end Numbers

/-! ## Readings -/

/-- The result is a UTF-8 value as it is written. -/
def IsWritten (r : Result) : Prop :=
  ∃ n : Node, r.value = n.value ∧ Utf8.isValid n.text = true

/-- The result is a scalar as it is written, or a container with all that stands behind it. -/
inductive IsRead (r : Result) : Prop where
  | scalar {n : Node} (hn : n.isContainer = false) (hvalue : r.value = n.value)
      (hvalid : Utf8.isValid n.text = true)
  | container {n : Node} {rest : Bytes} (hn : n.isContainer = true)
      (hvalue : r.value = .json (n.text ++ rest)) (hvalid : Utf8.isValid (n.text ++ rest) = true)

section Readings

variable {r : Result}

theorem IsWritten.isText (h : IsWritten r) : IsText r.raw := by
  obtain ⟨n, hvalue, hvalid⟩ := h
  have hraw : r.raw = n.text := by rw [Result.raw, hvalue, n.raw_value]
  exact ⟨n, hraw.symm, hraw ▸ hvalid⟩

theorem IsWritten.isRead (h : IsWritten r) : IsRead r := by
  obtain ⟨n, hvalue, hvalid⟩ := h
  cases hn : n.isContainer with
  | false => exact .scalar hn hvalue hvalid
  | true =>
    refine @IsRead.container r n [] hn ?_ (by rwa [List.append_nil])
    rw [hvalue, List.append_nil]
    cases n with
    | array gap items => rfl
    | object gap members => rfl
    | _ => cases hn

/-- The root of a UTF-8 document is read like any other value. -/
theorem isRead_parse {d : Document} (hvalid : Utf8.isValid d.text = true) :
    IsRead (parse d.text) := by
  cases hroot : d.root.isContainer with
  | true =>
    exact .container hroot (by rw [parse_document d hvalid hroot]; rfl) (d.isValid_root hvalid)
  | false =>
    refine .scalar hroot ?_ (d.isValid_iff.1 hvalid)
    rw [parse_scalar d hroot, d.standsIn_spot.reading_eq_result hvalid]
    rfl

/-- The children of a container hold the values and the keys that are read in its text. -/
theorem exists_of_mem_children {raw : Bytes} (hvalue : r.value = .json raw) {c : Child}
    (hc : c ∈ r.children) :
    ∃ b ∈ Result.childrenOf raw, c.value.value = b.value.value ∧ c.key.value = b.key.value := by
  obtain ⟨value, index, indexes⟩ := r
  obtain rfl : value = .json raw := hvalue
  obtain ⟨i, hi, rfl⟩ := List.mem_mapIdx.1 hc
  refine ⟨_, List.getElem_mem hi, ?_, ?_⟩
  · rw [Result.placeChild]
    cases indexes with
    | none => cases index <;> rfl
    | some offsets => rfl
  · cases index <;> rfl

theorem children_scalar {n : Node} (hn : n.isContainer = false) (hvalue : r.value = n.value) :
    r.children = [⟨.missing, r⟩] := by
  obtain ⟨value, index, indexes⟩ := r
  obtain rfl : value = n.value := hvalue
  cases n with
  | word w => rcases w with _ | _ <;> rfl
  | number n => rfl
  | string body => rfl
  | array gap items => cases hn
  | object gap members => cases hn

/-- The values of a result are UTF-8 values as they are written. -/
theorem IsRead.isWritten (h : IsRead r) : ∀ v ∈ r.values, IsWritten v := by
  intro v hv
  obtain ⟨c, hc, rfl⟩ := List.mem_map.1 hv
  cases h with
  | @scalar n hn hvalue hvalid =>
    -- A scalar is its own and only value
    rw [children_scalar hn hvalue, List.mem_singleton] at hc
    exact ⟨n, by rw [hc, hvalue], hvalid⟩
  | @container n rest hn hvalue hvalid =>
    obtain ⟨b, hb, hsame, -⟩ := exists_of_mem_children hvalue hc
    have hreading : b.value ∈ (Spot.mk 0 n).branches.map fun b => b.toSpot.reading := by
      rw [← values_childrenOf n hn rest]
      exact List.mem_map_of_mem hb
    obtain ⟨branch, hbranch, hread⟩ := List.mem_map.1 hreading
    have hstands : branch.toSpot.StandsIn (n.text ++ rest) :=
      Spot.StandsIn.branch ⟨[], rest, rfl, rfl⟩ hbranch
    refine ⟨branch.node, ?_, hstands.isValid hvalid⟩
    rw [hsame, ← hread, hstands.reading_eq_result hvalid]
    rfl

/-- A string that a UTF-8 text holds is a key as it is written. -/
theorem isKey_of_infix {text : Bytes} (hvalid : Utf8.isValid text = true) {body : Body}
    (h : Bytes.quoted body.text <:+: text) {key : Result}
    (hkey : key.value = .ofSpan .string (Bytes.quoted body.text)) : IsKey key.raw := by
  have hquoted := isValid_quoted_of_infix hvalid h
  have hraw : key.raw = Bytes.quoted body.text := by
    rw [Result.raw, hkey, Value.ofSpan, Utf8.lossy, if_pos hquoted]
    rfl
  exact ⟨body, hraw.symm, hraw ▸ hquoted⟩

/-- Each of the first list is related to one of the second. -/
theorem exists_of_forall₂ {α β : Type} {R : α → β → Prop} {as : List α} {bs : List β}
    (h : List.Forall₂ R as bs) {a : α} (ha : a ∈ as) : ∃ b ∈ bs, R a b := by
  obtain ⟨i, hi, rfl⟩ := List.mem_iff_getElem.1 ha
  exact ⟨_, List.getElem_mem (h.length_eq ▸ hi), h.get hi (h.length_eq ▸ hi)⟩

/-- The keys of an object are keys as they are written. -/
theorem IsRead.isKey (h : IsRead r) (hobject : r.isObject = true) :
    ∀ c ∈ r.children, IsKey c.key.raw := by
  intro c hc
  cases h with
  | @scalar n hn hvalue hvalid =>
    rw [Result.isObject, Result.opensWith, hvalue] at hobject
    cases n with
    | word w => rcases w with _ | _ <;> cases hobject
    | number n => cases hobject
    | string body => cases hobject
    | array gap items => cases hn
    | object gap members => cases hn
  | @container n rest hn hvalue hvalid =>
    obtain ⟨b, hb, -, hkey⟩ := exists_of_mem_children hvalue hc
    rw [(opens_container hn hvalue).1] at hobject
    cases n with
    | object gap members =>
      obtain ⟨-, -, ⟨body, -, hbody, hb⟩, -⟩ :=
        exists_of_forall₂ (childrenOf_object gap members rest) hb
      exact isKey_of_infix hvalid hbody (hkey.trans hb)
    | _ => cases hobject

/-- What the children of a result are called is a value as it is written. -/
theorem IsRead.isText_key (h : IsRead r) :
    ∀ c ∈ r.children, c.key.found = true → IsText c.key.raw := by
  intro c hc hfound
  cases hobject : r.isObject with
  | true => exact (h.isKey hobject c hc).isText
  | false =>
    cases h with
    | @scalar n hn hvalue hvalid =>
      rw [children_scalar hn hvalue, List.mem_singleton] at hc
      rw [hc] at hfound
      cases hfound
    | @container n rest hn hvalue hvalid =>
      obtain ⟨b, hb, -, hkey⟩ := exists_of_mem_children hvalue hc
      rw [(opens_container hn hvalue).1] at hobject
      cases n with
      | object gap members => cases hobject
      | array gap items =>
        obtain ⟨-, -, ⟨n, -, hcount⟩, -⟩ := exists_of_forall₂ (childrenOf_array gap items rest) hb
        have hraw : c.key.raw = Bytes.ofNat n := by
          rw [Result.raw, hkey, hcount]
          rfl
        exact hraw ▸ isText_ofNat n
      | _ => cases hn

end Readings

end JsonQuery.Grammar
