import JsonQuery.Proofs.Accessors
import JsonQuery.Proofs.Fragments
import JsonQuery.Proofs.Lookahead
import JsonQuery.Proofs.Pipelines

/-!
# Reversed containers

Reversing writes the texts of the children of a container anew, the last one first.  The container
may be malformed, and its children are whatever the lenient scanner makes of it: loose numbers,
beginnings of words, brackets that do not match.  Each of them is read back as itself from its own
text once a comma or a bracket stands behind it, so the reversed container has exactly these
children.

## Layers

- **Reading back**: values and keys that are read from their own texts, and that all children are.
- **Rebuilding**: a container that is put together of such children has them again.
- **Reversing**: the modifier on texts that start with a container, called once, twice and thrice.
-/

namespace JsonQuery

open Ascii Grammar

/-! ## Reading back -/

/-- A value is read back where its source text stands in front of a byte that ends numbers. -/
structure Value.ReadsBack (v : Value) : Prop where
  isValid : Utf8.isValid v.raw = true
  reads : ∀ {c : UInt8} (rest : Bytes), Extent.endsNumber c = true →
    ∃ lead, Lead.of? (v.raw ++ c :: rest) = some lead ∧
      Extent.ofLead? lead (v.raw ++ c :: rest) = some v.raw.length ∧ ofSpan lead v.raw = v

/-- The source text of a string that closes with its last byte. -/
def Value.IsQuoted (v : Value) : Prop :=
  Utf8.isValid v.raw = true ∧ v = .string v.raw ∧
    ∃ rest body, v.raw = quote :: rest ∧ Quoted.close? rest = some body ∧
      rest.length = body.length + 1

section ReadingBack

variable {lead : Lead} {c : UInt8}

theorem Grammar.Word.readsBack (w : Word) : w.value.ReadsBack := by
  refine ⟨w.isValid_text, fun {c} rest hc => ⟨.word, of?_word w _, ?_, ?_⟩⟩
  · exact congrArg some (ofWord_word w (.cons hc))
  · rcases w with _ | _ | _ <;> rfl

/-- The kind of a value that is no word does not depend on what ends it. -/
theorem Lead.of?_of_ne_word {b d : UInt8} {tail rest : Bytes}
    (h : Lead.of? (b :: tail) = some lead) (hword : lead ≠ .word)
    (hd : b = lowerN → d ≠ lowerU) : Lead.of? (b :: d :: rest) = some lead := by
  by_cases hn : b = lowerN
  · -- Behind an `n` the next byte decides, and both are numbers
    subst hn
    have hlead : Lead.afterN tail = lead := Option.some.inj h
    have hnumber : lead = .number := by
      unfold Lead.afterN at hlead
      split at hlead
      · exact absurd hlead.symm hword
      · split at hlead
        · exact absurd hlead.symm hword
        · exact hlead.symm
    have hafter : Lead.afterN (d :: rest) = lead := by
      rw [Lead.afterN, if_neg (hd rfl), hnumber]
    exact congrArg some hafter
  · rw [← h]
    simp only [Lead.of?, if_neg hn]

/-- A value that is no word and takes a whole text takes no more in front of a byte that ends
numbers. -/
theorem Extent.ofLead?_append {b : UInt8} {tail : Bytes}
    (h : ofLead? lead (b :: tail) = some (b :: tail).length) (hword : lead ≠ .word)
    (hc : endsNumber c = true) (rest : Bytes) :
    ofLead? lead (b :: tail ++ c :: rest) = some (b :: tail).length := by
  have htake := ofLead?_take lead (b :: tail).length (b :: tail ++ c :: rest)
  rw [List.take_left, h] at htake
  by_cases hnumber : lead = .number
  · subst hnumber
    -- None of the bytes behind the first one ends the number
    have htail : (tail.takeWhile (!endsNumber ·)).length = tail.length :=
      Nat.succ.inj (Option.some.inj h)
    have hall : ∀ d ∈ tail, (!endsNumber d) = true := by
      rw [← List.all_eq_true, ← (List.takeWhile_prefix _).eq_of_length htail]
      exact List.all_takeWhile
    refine congrArg some ?_
    rw [List.cons_append, ofNumber, takeWhile_append_of_head hall (by simpa using hc),
      List.length_cons]
  · have hclosed : lead.isClosed = true := by
      cases lead <;> first | rfl | contradiction
    cases hlength : ofLead? lead (b :: tail ++ c :: rest) with
    | none =>
      rw [hlength] at htake
      cases htake
    | some length =>
      rw [hlength, Option.bind_some, hclosed] at htake
      split at htake
      · exact htake.symm
      · cases htake

/-- The kind of a value that is no word stays when the text is cut inside of it and ended. -/
theorem Lead.of?_take_append {b : UInt8} {tail : Bytes} (h : Lead.of? (b :: tail) = some lead)
    (hword : lead ≠ .word) (hc : Extent.endsNumber c = true) (n : Nat) (rest : Bytes) :
    Lead.of? (b :: tail.take n ++ c :: rest) = some lead := by
  have hu : b = lowerN → tail.head? ≠ some lowerU := ((Lead.of?_cons h).2.2 hword).2.2
  cases htake : tail.take n with
  | nil =>
    refine Lead.of?_of_ne_word h hword fun _ => ?_
    rintro rfl
    cases hc
  | cons d kept =>
    refine Lead.of?_of_ne_word h hword fun hb hd => hu hb ?_
    have hhead : (tail.take n).head? = some d := by
      rw [htake]
      rfl
    rw [List.head?_take] at hhead
    split at hhead
    · cases hhead
    · rw [hhead, hd]

/-- A word is told by its first byte. -/
theorem Value.exists_word_ofSpan {b : UInt8} {tail : Bytes}
    (h : Lead.of? (b :: tail) = some .word) (n : Nat) :
    ∃ w : Word, ofSpan .word ((b :: tail).take (n + 1)) = w.value := by
  rcases (Lead.of?_cons h).2.1 rfl with rfl | rfl | rfl
  · exact ⟨.null, rfl⟩
  · exact ⟨.boolean true, rfl⟩
  · exact ⟨.boolean false, rfl⟩

/-- A value that is read in a UTF-8 text is read back. -/
theorem Value.readsBack_ofSpan {b : UInt8} {tail : Bytes}
    (hvalid : Utf8.isValid (b :: tail) = true) (hlead : Lead.of? (b :: tail) = some lead) {n : Nat}
    (hn : Extent.ofLead? lead (b :: tail) = some n) :
    (ofSpan lead ((b :: tail).take n)).ReadsBack := by
  have hpos := Extent.pos_of_ofLead? hlead hn
  obtain ⟨n, rfl⟩ : ∃ m, n = m + 1 := ⟨n - 1, by omega⟩
  by_cases hword : lead = .word
  · subst hword
    obtain ⟨w, hw⟩ := exists_word_ofSpan hlead n
    rw [hw]
    exact w.readsBack
  · have hspan := Extent.isValid_take hvalid hn hword
    have hlength : (b :: tail.take n).length = n + 1 := by
      have hle := Extent.length_le_of_ofLead? hn
      simp only [List.length_cons, List.length_take] at hle ⊢
      omega
    rw [List.take_succ_cons] at hspan ⊢
    have hraw := Value.raw_ofSpan hword hspan
    have hwhole : Extent.ofLead? lead (b :: tail.take n) = some (b :: tail.take n).length := by
      rw [← List.take_succ_cons, ofLead?_take, hn, Option.bind_some, if_pos (Nat.le_refl _),
        List.take_succ_cons, hlength]
    refine ⟨hraw.symm ▸ hspan, fun {c} rest hc => ⟨lead, ?_, ?_, ?_⟩⟩
    · rw [hraw]
      exact Lead.of?_take_append hlead hword hc n rest
    · rw [hraw]
      exact Extent.ofLead?_append hwhole hword hc rest
    · rw [hraw]

/-- A key that is read in a UTF-8 text is a string with its quotes. -/
theorem Value.isQuoted_ofSpan {tail : Bytes} (hvalid : Utf8.isValid (quote :: tail) = true)
    {body : Quoted.Body} (hbody : Quoted.close? tail = some body) :
    (ofSpan .string ((quote :: tail).take (body.length + 2))).IsQuoted := by
  have hn : Extent.ofLead? .string (quote :: tail) = some (body.length + 2) := by
    rw [Extent.ofLead?, Extent.ofString?, hbody]
    rfl
  have hspan := Extent.isValid_take hvalid hn Lead.noConfusion
  have hlength : (tail.take (body.length + 1)).length = body.length + 1 := by
    have hle := Extent.length_le_of_ofLead? hn
    simp only [List.length_cons, List.length_take] at hle ⊢
    omega
  have hvalue : ofSpan .string ((quote :: tail).take (body.length + 2)) =
      .string ((quote :: tail).take (body.length + 2)) := by
    rw [ofSpan, Utf8.lossy, if_pos hspan]
  rw [hvalue]
  refine ⟨hspan, rfl, tail.take (body.length + 1), body, rfl, ?_, hlength⟩
  -- The bytes behind the closing quote are not looked at
  refine Quoted.close?_congr (m := body.length + 1) ?_ hbody (Nat.lt_succ_self _)
  rw [List.take_take, Nat.min_self]

end ReadingBack

/-! ## Children -/

/-- What a child of an object or array holds is read back, and its key is a string in an object. -/
def Restores (object : Bool) (payload : Value × Value) : Prop :=
  payload.2.ReadsBack ∧ (object = true → payload.1.IsQuoted)

/-- The payloads of children as they are called from a position on: elements by their positions. -/
def relabeled (object : Bool) : (position : Nat) → List (Value × Value) → List (Value × Value)
  | _, [] => []
  | position, payload :: payloads =>
    (if object then payload.1 else .number (Bytes.ofNat position), payload.2)
      :: relabeled object (position + 1) payloads

section Children

variable {object : Bool} {payloads : List (Value × Value)}

@[simp] theorem relabeled_object (position : Nat) (payloads : List (Value × Value)) :
    relabeled true position payloads = payloads := by
  induction payloads generalizing position with
  | nil => rfl
  | cons payload payloads ih => rw [relabeled, ih, if_pos rfl]

@[simp] theorem map_snd_relabeled (object : Bool) (position : Nat)
    (payloads : List (Value × Value)) :
    (relabeled object position payloads).map Prod.snd = payloads.map Prod.snd := by
  induction payloads generalizing position with
  | nil => rfl
  | cons payload payloads ih => rw [relabeled, List.map_cons, List.map_cons, ih]

variable {text : Bytes} {c : Cursor}

namespace Cursor

/-- A value that is read at a place of a UTF-8 text is read back. -/
theorem IsIn.readsBack (h : c.IsIn text) (hvalid : Utf8.isValid text = true) {reading : Reading}
    (hread : c.readHere? = some reading) : reading.value.value.ReadsBack := by
  obtain ⟨lead, hlead, hread⟩ := Option.bind_eq_some_iff.1 hread
  obtain ⟨n, hn, rfl⟩ := Option.map_eq_some_iff.1 hread
  unfold IsIn at h
  cases hrest : c.rest with
  | nil =>
    rw [hrest] at hlead
    cases hlead
  | cons b rest =>
    rw [hrest] at hlead hn h
    have hb := ascii_of_startsValue (Lead.of?_cons hlead).1
    exact Value.readsBack_ofSpan (Utf8.isValid_drop hvalid h.symm hb) hlead hn

theorem IsIn.isQuoted (h : c.IsIn text) (hvalid : Utf8.isValid text = true) {key : Key}
    (hkey : c.keyHere? = some key) : key.result.value.IsQuoted := by
  unfold Cursor.keyHere? at hkey
  split at hkey
  · cases hkey
  · rename_i lead rest hrest
    split at hkey
    · rename_i hquote
      subst hquote
      obtain ⟨body, hbody, rfl⟩ := Option.map_eq_some_iff.1 hkey
      unfold IsIn at h
      rw [hrest] at h
      have hutf8 := Utf8.isValid_drop hvalid h.symm (by decide)
      simp only [Key.result, hrest]
      exact Value.isQuoted_ofSpan hutf8 hbody
    · cases hkey

/-- A child that is read from a place of a UTF-8 text is read back. -/
theorem IsIn.restores (h : c.IsIn text) (hvalid : Utf8.isValid text = true) {position : Nat}
    {child : Child} {next : Cursor} (hchild : c.child? object position = some (child, next)) :
    Restores object child.payload ∧ next.IsIn text ∧
      (object = false → child.key.value = .number (Bytes.ofNat position)) := by
  have hnext := (h.child? hvalid hchild).2
  unfold Cursor.child? at hchild
  split at hchild
  · cases hchild
  · rename_i label start hlabel
    have hstart := (h.label? hvalid hlabel).2
    dsimp only at hchild
    split at hchild
    · cases hchild
    · obtain ⟨reading, hread, hpair⟩ := Option.map_eq_some_iff.1 hchild
      cases hpair
      have hvalue := ((hstart.find (!isSeparator ·)).find startsValue).readsBack hvalid hread
      unfold Cursor.label? at hlabel
      cases object with
      | true =>
        obtain ⟨key, hkey, hpair⟩ := Option.map_eq_some_iff.1 hlabel
        cases hpair
        exact ⟨⟨hvalue, fun _ => (h.find _).isQuoted hvalid hkey⟩, hnext, fun h => nomatch h⟩
      | false =>
        cases hlabel
        exact ⟨⟨hvalue, fun h => nomatch h⟩, hnext, fun _ => rfl⟩

/-- All children from a place of a UTF-8 text on are read back, and elements are called by their
positions. -/
theorem IsIn.restores_childrenFrom (h : c.IsIn text) (hvalid : Utf8.isValid text = true)
    (object : Bool) (found : List Child) (position : Nat) :
    ∃ children, c.childrenFrom object found position = found.reverse ++ children ∧
      (∀ child ∈ children, Restores object child.payload) ∧
      relabeled object position (children.map Child.payload) = children.map Child.payload := by
  fun_induction Cursor.childrenFrom object found position c with
  | case1 found position c hchild => exact ⟨[], (List.append_nil _).symm, by simp, rfl⟩
  | case2 found position c child next hchild ih =>
    obtain ⟨hrestores, hnext, hkey⟩ := h.restores hvalid hchild
    obtain ⟨children, hchildren, hall, hlabels⟩ := ih hnext
    refine ⟨child :: children, ?_, List.forall_mem_cons.2 ⟨hrestores, hall⟩, ?_⟩
    · rw [hchildren, List.reverse_cons, List.append_assoc, List.singleton_append]
    · rw [List.map_cons, relabeled, hlabels]
      cases object with
      | true => rfl
      | false => rw [← hkey rfl]; rfl

end Cursor

end Children

/-! ## Rebuilding -/

/-- The text of a child in a container that is put together. -/
def piece (object : Bool) (payload : Value × Value) : Bytes :=
  if object then Modifier.member payload.1.raw payload.2.raw else payload.2.raw

/-- A container that is put together of the texts of children. -/
def rebuilt (object : Bool) (payloads : List (Value × Value)) : Bytes :=
  Layout.opener object :: Bytes.commaJoin (payloads.map (piece object)) ++ [Layout.closing object]

section Rebuilding

variable {object : Bool} {payload : Value × Value} {payloads : List (Value × Value)}
  {lead : Bytes} {b : UInt8}

theorem commaJoin_cons (text : Bytes) (texts : List Bytes) :
    Bytes.commaJoin (text :: texts) =
      text ++ ((if texts.isEmpty then [] else [comma]) ++ Bytes.commaJoin texts) := by
  cases texts with
  | nil => simp [Bytes.commaJoin_singleton, Bytes.commaJoin_nil]
  | cons next texts => simp [Bytes.commaJoin_cons_cons]

/-- Behind a label and a separator a value is read from its text. -/
theorem child?_of_readsBack {v : Value} (hv : v.ReadsBack) {position offset : Nat} {c : Cursor}
    {label : Result} {between rest : Bytes} (hbetween : Separates between)
    (hlabel : c.label? object position =
      some (label, ⟨offset, between ++ (v.raw ++ b :: rest)⟩))
    (hb : Extent.endsNumber b = true) :
    c.child? object position = some (⟨label, .located v (offset + between.length)⟩,
      ⟨offset + between.length + v.raw.length, b :: rest⟩) := by
  obtain ⟨kind, hkind, hlength, hvalue⟩ := hv.reads rest hb
  obtain ⟨d, tail, htext⟩ : ∃ d tail, v.raw ++ b :: rest = d :: tail :=
    List.exists_cons_of_ne_nil (by simp)
  have hread : (Cursor.mk (offset + between.length) (v.raw ++ b :: rest)).readHere? =
      some ⟨.located v (offset + between.length),
        ⟨offset + between.length + v.raw.length, b :: rest⟩⟩ := by
    simp only [Cursor.readHere?, hkind, Option.bind_some, hlength, Option.map_some, List.take_left,
      hvalue, Cursor.advance, List.drop_left]
  rw [htext] at hkind hread
  have hstarts := (Lead.of?_cons hkind).1
  have hseparator : isSeparator d = false := by
    apply Bool.eq_false_iff.2
    intro hseparator
    rw [not_startsValue_of_isSeparator hseparator] at hstarts
    cases hstarts
  have hfind : (Cursor.mk (offset + between.length) (d :: tail)).find (!isSeparator ·) =
      ⟨offset + between.length, d :: tail⟩ :=
    find_cons (by simp [hseparator]) _ _
  have hpeek : (Cursor.mk (offset + between.length) (d :: tail)).peek? ≠ some closeBracket := by
    intro hpeek
    obtain rfl : d = closeBracket := Option.some.inj hpeek
    cases hstarts
  rw [Cursor.child?, hlabel]
  dsimp only
  rw [find_separates hbetween, htext, hfind, if_neg hpeek, Cursor.read?, find_cons hstarts, hread]
  rfl

/-- The text of a key is read as the key. -/
theorem keyHere?_of_isQuoted {v : Value} (hv : v.IsQuoted) (offset : Nat) (rest : Bytes) :
    ∃ escaped, (Cursor.mk offset (v.raw ++ rest)).keyHere? =
      some ⟨offset, v.raw, escaped, ⟨offset + v.raw.length, rest⟩⟩ := by
  obtain ⟨-, -, tail, body, hraw, hbody, hlength⟩ := hv
  have hclose : Quoted.close? (tail ++ rest) = some body :=
    Quoted.close?_congr (m := tail.length) (by simp) hbody (by omega)
  have hspan : v.raw.length = body.length + 2 := by
    rw [hraw, List.length_cons, hlength]
  refine ⟨body.escaped, ?_⟩
  have hkey : (Cursor.mk offset (quote :: (tail ++ rest))).keyHere? = some ⟨offset,
      (quote :: (tail ++ rest)).take (body.length + 2), body.escaped,
      (Cursor.mk offset (quote :: (tail ++ rest))).advance (body.length + 2)⟩ := by
    simp only [Cursor.keyHere?, if_true, hclose, Option.map_some]
  rw [← List.cons_append, ← hraw, ← hspan, List.take_left] at hkey
  rw [hkey, Cursor.advance, List.drop_left]

/-- Behind a separator a child is read from its text. -/
theorem child?_piece (h : Restores object payload) (hlead : Separates lead) (offset position : Nat)
    (hb : Extent.endsNumber b = true) (rest : Bytes) :
    ∃ child next, (Cursor.mk offset (lead ++ (piece object payload ++ b :: rest))).child? object
        position = some (child, ⟨next, b :: rest⟩) ∧ child.payload =
      (if object then payload.1 else .number (Bytes.ofNat position), payload.2) := by
  cases object with
  | false =>
    have hlabel : (Cursor.mk offset (lead ++ (payload.2.raw ++ b :: rest))).label? false position =
        some (.count position, ⟨offset, lead ++ (payload.2.raw ++ b :: rest)⟩) := rfl
    exact ⟨_, _, child?_of_readsBack h.1 hlead hlabel hb, rfl⟩
  | true =>
    have hquoted := h.2 rfl
    have hcolon : Separates [colon] := by
      intro c hc
      rw [List.mem_singleton.1 hc]
      rfl
    obtain ⟨escaped, hkey⟩ := keyHere?_of_isQuoted hquoted (offset + lead.length)
      ([colon] ++ (payload.2.raw ++ b :: rest))
    have htext : piece true payload ++ b :: rest =
        payload.1.raw ++ ([colon] ++ (payload.2.raw ++ b :: rest)) := by
      simp [piece, Modifier.member]
    have hstart : ∀ rest, (Cursor.mk (offset + lead.length) (payload.1.raw ++ rest)).toKey =
        ⟨offset + lead.length, payload.1.raw ++ rest⟩ := by
      obtain ⟨-, -, tail, -, hraw, -⟩ := hquoted
      intro rest
      rw [hraw, List.cons_append]
      exact find_cons rfl _ _
    have hlabel : (Cursor.mk offset (lead ++ (piece true payload ++ b :: rest))).label? true
        position = some (.located payload.1 (offset + lead.length),
          ⟨offset + lead.length + payload.1.raw.length,
            [colon] ++ (payload.2.raw ++ b :: rest)⟩) := by
      have hvalue : Value.ofSpan .string payload.1.raw = payload.1 := by
        rw [Value.ofSpan, Utf8.lossy, if_pos hquoted.1]
        exact hquoted.2.1.symm
      rw [Cursor.label?, if_pos rfl, Cursor.key?, toKey_separates hlead, htext, hstart, hkey,
        Option.map_some, Key.result, hvalue]
    exact ⟨_, _, child?_of_readsBack h.1 hcolon hlabel hb, rfl⟩

theorem separates_nil : Separates [] := by
  intro c hc
  cases hc

/-- Where a container closes there is no child. -/
theorem child?_closing (object : Bool) (hlead : Separates lead) (offset position : Nat)
    (rest : Bytes) :
    (Cursor.mk offset (lead ++ Layout.closing object :: rest)).child? object position = none := by
  cases object with
  | true => exact child?_closeBrace offset position rest hlead
  | false => exact child?_closeBracket offset position rest hlead

/-- The texts of children are read back as these children. -/
theorem payload_childrenFrom (hall : ∀ p ∈ payloads, Restores object p) (hlead : Separates lead)
    (offset position : Nat) (rest : Bytes) (found : List Child) :
    (Cursor.childrenFrom object found position ⟨offset, lead ++
      (Bytes.commaJoin (payloads.map (piece object)) ++ Layout.closing object :: rest)⟩).map
        Child.payload =
      found.reverse.map Child.payload ++ relabeled object position payloads := by
  -- Behind a child stands the comma in front of the next one, or the closing bracket
  induction payloads generalizing lead offset position found with
  | nil =>
    rw [List.map_nil, Bytes.commaJoin_nil, List.nil_append,
      childrenFrom_of_none (child?_closing object hlead offset position rest), relabeled,
      List.append_nil]
  | cons payload payloads ih =>
    rw [List.forall_mem_cons] at hall
    let separator : Bytes := if (payloads.map (piece object)).isEmpty then [] else [comma]
    have hseparator : Separates separator := by
      cases payloads with
      | nil => exact separates_nil
      | cons =>
        intro c hc
        rw [List.mem_singleton.1 hc]
        rfl
    have hbehind : ∃ b behind, separator ++ (Bytes.commaJoin (payloads.map (piece object)) ++
        Layout.closing object :: rest) = b :: behind ∧ Extent.endsNumber b = true := by
      cases payloads with
      | nil =>
        refine ⟨Layout.closing object, rest, rfl, ?_⟩
        cases object <;> rfl
      | cons => exact ⟨comma, _, rfl, rfl⟩
    obtain ⟨b, behind, hbehind, hb⟩ := hbehind
    obtain ⟨child, next, hchild, hpayload⟩ := child?_piece hall.1 hlead offset position hb behind
    rw [← hbehind] at hchild
    have htext : lead ++ (Bytes.commaJoin ((payload :: payloads).map (piece object)) ++
        Layout.closing object :: rest) = lead ++ (piece object payload ++ (separator ++
          (Bytes.commaJoin (payloads.map (piece object)) ++ Layout.closing object :: rest))) := by
      rw [List.map_cons, commaJoin_cons]
      simp only [separator, List.append_assoc]
    rw [htext, childrenFrom_of_some hchild, ih hall.2 hseparator, List.reverse_cons,
      List.map_append, List.append_assoc, relabeled, ← hpayload]
    rfl

/-- A container that is put together of children has these children. -/
theorem payload_childrenOf_rebuilt (hall : ∀ p ∈ payloads, Restores object p) :
    (Result.childrenOf (rebuilt object payloads)).map Child.payload =
      relabeled object 0 payloads := by
  have hchildren := payload_childrenFrom hall separates_nil 1 0 [] []
  rw [← List.nil_append (relabeled object 0 payloads), ← List.map_nil (f := Child.payload),
    ← List.reverse_nil, ← hchildren]
  cases object with
  | true => rfl
  | false => rfl

theorem isValid_rebuilt (hall : ∀ p ∈ payloads, Restores object p) :
    Utf8.isValid (rebuilt object payloads) = true := by
  have hpieces : ∀ t ∈ payloads.map (piece object), Utf8.isValid t = true := by
    rw [List.forall_mem_map]
    intro p hp
    obtain ⟨hvalue, hkey⟩ := hall p hp
    cases object with
    | true => exact (Utf8.isValid_append_cons_iff (by decide)).2 ⟨(hkey rfl).1, hvalue.isValid⟩
    | false => exact hvalue.isValid
  cases object with
  | true => exact isValid_bracketed (by decide) (by decide) hpieces
  | false => exact isValid_bracketed (by decide) (by decide) hpieces

/-- A container that is put together is read as a whole. -/
theorem parse_rebuilt (hall : ∀ p ∈ payloads, Restores object p) :
    parse (rebuilt object payloads) = .located (.json (rebuilt object payloads)) 0 := by
  have hlossy : Utf8.lossy (rebuilt object payloads) = rebuilt object payloads :=
    if_pos (isValid_rebuilt hall)
  have hvalue : ∀ kind : Lead, kind.isContainer = true →
      Value.ofSpan kind (rebuilt object payloads) = .json (rebuilt object payloads) := by
    intro kind hkind
    cases kind with
    | object => exact congrArg Value.json hlossy
    | array => exact congrArg Value.json hlossy
    | _ => cases hkind
  cases object with
  | true => exact congrArg (Result.located · 0) (hvalue .object rfl)
  | false => exact congrArg (Result.located · 0) (hvalue .array rfl)

end Rebuilding

/-! ## Reversing -/

/-- The payloads of the children in a text. -/
def payloadsOf (text : Bytes) : List (Value × Value) :=
  (parse text).children.map Child.payload

/-- The source texts of the keys and of the values that are visited in a text. -/
def visited (text : Bytes) : List (Bytes × Bytes) :=
  (parse text).children.map fun c => (c.key.raw, c.value.raw)

/-- A call of the modifier that reverses containers. -/
def Call.reverse (argument : Bytes) : Call :=
  ⟨Bytes.ofString "reverse", argument⟩

section Reversing

variable {object : Bool} {payloads : List (Value × Value)} {text : Bytes}

theorem visited_eq (text : Bytes) :
    visited text = (payloadsOf text).map fun p => (p.1.raw, p.2.raw) := by
  rw [visited, payloadsOf, List.map_map]
  rfl

/-- Only the values of elements are written. -/
theorem rebuilt_relabeled_reverse (object : Bool) (payloads : List (Value × Value)) :
    rebuilt object (relabeled object 0 payloads).reverse = rebuilt object payloads.reverse := by
  cases object with
  | true => rw [relabeled_object]
  | false =>
    have hpieces : ∀ ps : List (Value × Value),
        ps.map (piece false) = (ps.map Prod.snd).map Value.raw := by
      intro ps
      rw [List.map_map]
      rfl
    rw [rebuilt, rebuilt, hpieces, hpieces, List.map_reverse, map_snd_relabeled, ← List.map_reverse]

theorem payloadsOf_rebuilt (hall : ∀ p ∈ payloads, Restores object p) :
    payloadsOf (rebuilt object payloads) = relabeled object 0 payloads := by
  rw [payloadsOf, parse_rebuilt hall, Result.payload_children rfl,
    payload_childrenOf_rebuilt hall]

/-- The text of a result that opens with a bracket starts with it. -/
theorem exists_json_of_opensWith {r : Result} {b : UInt8} (h : r.opensWith b = true) :
    ∃ rest, r.value = .json (b :: rest) := by
  unfold Result.opensWith at h
  split at h
  · rename_i raw hraw
    obtain ⟨rest, rfl⟩ := List.head?_eq_some_iff.1 (beq_iff_eq.1 h)
    exact ⟨rest, hraw⟩
  · cases h

theorem not_isArray_of_isObject {r : Result} (h : r.isObject = true) : ¬r.isArray = true := by
  obtain ⟨rest, hvalue⟩ := exists_json_of_opensWith h
  rw [Result.isArray, Result.opensWith, hvalue]
  intro harray
  cases harray

theorem isValid_raw_parse (hvalid : Utf8.isValid text = true) :
    Utf8.isValid (parse text).raw = true := by
  cases hindex : (parse text).index with
  | some i => exact (standsIn_parse hvalid i hindex).isValid_raw
  | none =>
    -- Nothing but a missing value is without a place
    have hmissing : parse text = .missing := by
      unfold parse at hindex ⊢
      dsimp only at hindex ⊢
      split at hindex
      · rfl
      · split at hindex
        · cases hindex
        · rw [if_neg ‹_›]
          split at hindex
          · cases hindex
          · rfl
    rw [hmissing]
    rfl

/-- The children of a container that a UTF-8 text starts with are read back. -/
theorem restores_payloadsOf (hvalid : Utf8.isValid text = true)
    (h : (parse text).opensWith (Layout.opener object) = true) :
    (∀ p ∈ payloadsOf text, Restores object p) ∧
      relabeled object 0 (payloadsOf text) = payloadsOf text := by
  obtain ⟨rest, hvalue⟩ := exists_json_of_opensWith h
  have hutf8 : Utf8.isValid (Layout.opener object :: rest) = true := by
    have hraw := isValid_raw_parse hvalid
    rwa [Result.raw, hvalue] at hraw
  have hin := (Cursor.isIn_start (Layout.opener object :: rest)).advance 1
  obtain ⟨children, hchildren, hall, hlabels⟩ := hin.restores_childrenFrom hutf8 object [] 0
  have hpayloads : payloadsOf text = children.map Child.payload := by
    rw [payloadsOf, Result.payload_children hvalue]
    rw [List.reverse_nil, List.nil_append] at hchildren
    rw [← hchildren]
    cases object with
    | true => rfl
    | false => rfl
  rw [hpayloads]
  exact ⟨List.forall_mem_map.2 hall, hlabels⟩

/-- A container is reversed by writing its children anew. -/
theorem reverse_eq_rebuilt (h : (parse text).opensWith (Layout.opener object) = true) :
    Modifier.reverse text = rebuilt object (payloadsOf text).reverse := by
  cases object with
  | false =>
    have hreverse : Modifier.reverse text =
        Modifier.arrayOf ((parse text).values.map Result.raw).reverse := if_pos h
    rw [hreverse, rebuilt, List.map_reverse, payloadsOf, List.map_map, Result.values, List.map_map]
    rfl
  | true =>
    have hreverse : Modifier.reverse text = Modifier.objectOf ((parse text).children.map fun c =>
        Modifier.member c.key.raw c.value.raw).reverse :=
      (if_neg (not_isArray_of_isObject h)).trans (if_pos h)
    rw [hreverse, rebuilt, List.map_reverse, payloadsOf, List.map_map]
    rfl

theorem opensWith_rebuilt (hall : ∀ p ∈ payloads, Restores object p) :
    (parse (rebuilt object payloads)).opensWith (Layout.opener object) = true := by
  rw [parse_rebuilt hall]
  exact beq_self_eq_true _

/-- Reversing a container that is put together puts it together the other way round. -/
theorem reverse_rebuilt (hall : ∀ p ∈ payloads, Restores object p) :
    Modifier.reverse (rebuilt object payloads) = rebuilt object payloads.reverse := by
  rw [reverse_eq_rebuilt (opensWith_rebuilt hall), payloadsOf_rebuilt hall,
    rebuilt_relabeled_reverse]

theorem output?_reverse (room : Nat) (text argument : Bytes) :
    Registry.builtins.output? room text (.reverse argument) = some (Modifier.reverse text) := by
  have hfind : Registry.builtins.find? (Call.reverse argument).name =
      some (.plain Modifier.reverse) := rfl
  exact Registry.output?_of_find? hfind rfl

/-- Reversing a container keeps all of its children, the last one first, and doing so once more
brings them back. -/
theorem outputs_reverse (hvalid : Utf8.isValid text = true)
    (h : (parse text).opensWith (Layout.opener object) = true) (room : Nat) (argument : Bytes) :
    ∃ once twice, Registry.builtins.outputs room text
        [.reverse argument, .reverse argument, .reverse argument] = some [once, twice, once] ∧
      payloadsOf once = relabeled object 0 (payloadsOf text).reverse ∧
      payloadsOf twice = payloadsOf text := by
  obtain ⟨hall, hlabels⟩ := restores_payloadsOf hvalid h
  have hreversed : ∀ p ∈ (payloadsOf text).reverse, Restores object p :=
    fun p hp => hall p (List.mem_reverse.1 hp)
  have honce := reverse_eq_rebuilt h
  have htwice := reverse_rebuilt hreversed
  have hthrice := reverse_rebuilt hall
  rw [List.reverse_reverse] at htwice
  refine ⟨rebuilt object (payloadsOf text).reverse, rebuilt object (payloadsOf text), ?_,
    payloadsOf_rebuilt hreversed, (payloadsOf_rebuilt hall).trans hlabels⟩
  rw [Registry.outputs_cons_of_some (output?_reverse ..), honce,
    Registry.outputs_cons_of_some (output?_reverse ..), htwice,
    Registry.outputs_cons_of_some (output?_reverse ..), hthrice]
  rfl

/-- **Reversing turns the children around.**  Let a UTF-8 text, well-formed or not, start with an
array or an object.  Its reverse has the same values in reverse order, and for an object the same
keys with them.  Reversed twice, the text has the children that it had, and reversed three times it
is what it was when it was reversed once. -/
theorem reverse_reverses_children (hvalid : Utf8.isValid text = true)
    (hcontainer : (parse text).isArray = true ∨ (parse text).isObject = true) (room : Nat)
    (argument : Bytes) :
    ∃ once twice, Registry.builtins.outputs room text
        [.reverse argument, .reverse argument, .reverse argument] = some [once, twice, once] ∧
      ((parse text).isArray = true →
        (visited once).map Prod.snd = ((visited text).map Prod.snd).reverse) ∧
      ((parse text).isObject = true → visited once = (visited text).reverse) ∧
      visited twice = visited text := by
  have hvalues : ∀ text, (visited text).map Prod.snd =
      ((payloadsOf text).map Prod.snd).map Value.raw := by
    intro text
    rw [visited_eq, List.map_map, List.map_map]
    rfl
  rcases hcontainer with harray | hobject
  · have hopens : (parse text).opensWith (Layout.opener false) = true := harray
    obtain ⟨once, twice, houtputs, honce, htwice⟩ := outputs_reverse hvalid hopens room argument
    refine ⟨once, twice, houtputs, fun _ => ?_,
      fun hobject => absurd harray (not_isArray_of_isObject hobject), ?_⟩
    · rw [hvalues, hvalues, honce, map_snd_relabeled, List.map_reverse, List.map_reverse]
    · rw [visited_eq, visited_eq, htwice]
  · have hopens : (parse text).opensWith (Layout.opener true) = true := hobject
    obtain ⟨once, twice, houtputs, honce, htwice⟩ := outputs_reverse hvalid hopens room argument
    refine ⟨once, twice, houtputs,
      fun harray => absurd harray (not_isArray_of_isObject hobject), fun _ => ?_, ?_⟩
    · rw [visited_eq, visited_eq, honce, relabeled_object, List.map_reverse]
    · rw [visited_eq, visited_eq, htwice]

/-- An array without its bracket, with two loose numbers and the beginning of a word. -/
theorem reverse_reverses_children_sample :
    let text := Bytes.ofString " [nan,-.e tru:\"a\""
    Utf8.isValid text = true ∧ (parse text).isArray = true ∧
      ∃ once twice, Registry.builtins.outputs 0 text
          [.reverse [], .reverse [], .reverse []] = some [once, twice, once] ∧
        once = Bytes.ofString "[\"a\",true,-.e,nan]" ∧
        (visited once).map Prod.snd = ((visited text).map Prod.snd).reverse ∧
        visited twice = visited text := by
  intro text
  have hvalid : Utf8.isValid text = true := rfl
  have harray : (parse text).isArray = true := by rfl
  obtain ⟨once, twice, houtputs, hvalues, -, htwice⟩ :=
    reverse_reverses_children hvalid (.inl harray) 0 []
  have honce : Modifier.reverse text = Bytes.ofString "[\"a\",true,-.e,nan]" := by decide +kernel
  rw [Registry.outputs_cons_of_some (output?_reverse ..), Option.map_eq_some_iff] at houtputs
  obtain ⟨others, hothers, houtputs⟩ := houtputs
  obtain ⟨hfirst, rfl⟩ := List.cons.inj houtputs
  refine ⟨hvalid, harray, once, twice, ?_, hfirst ▸ honce, hvalues harray, htwice⟩
  rw [Registry.outputs_cons_of_some (output?_reverse ..), hothers, hfirst]
  rfl

end Reversing

end JsonQuery
