import JsonQuery.Proofs.Printing

/-!
# Blank options that are no space

The texts in the options of a layout have to be blank, but more characters are blank than may stand
between the tokens of a document.  A margin or an indentation with such a character makes the
document that is written with it one that is not well-formed.

## Layers

- **Stray bytes**: the bytes of blank characters that no document has between its tokens.
- **Writing**: what is written goes behind what is there, and on one line it has no indentation.
- **First lines**: how a document that is broken into lines begins.
- **Verdict**: which options keep a document well-formed.
-/

namespace JsonQuery

open Ascii Grammar

/-! ## Stray bytes -/

/-- A byte of a blank character that may not stand between tokens. -/
def isStray (c : UInt8) : Bool :=
  c == 0x0B || c == formFeed || 0x80 ≤ c

section Stray

variable {c : UInt8} {text : Bytes}

theorem isStray_of_isBlankText (h : Layout.isBlankText text = true) (hc : c ∈ text)
    (hgap : c ∉ gapBytes) : isStray c = true := by
  by_cases hascii : c ≤ 0x7F
  · -- A one-byte character is itself among the characters of the text
    have hblank := List.all_eq_true.1 h _ (Utf8.mem_chars_of_mem hc hascii)
    have hall : ∀ n < 128, Blank.isBlank (Char.ofNat n) = true →
        UInt8.ofNat n ∈ gapBytes ∨ isStray (UInt8.ofNat n) = true := by decide
    have hlt : c.toNat < 128 := by
      simp only [UInt8.le_iff_toNat_le, UInt8.reduceToNat] at hascii
      omega
    have hcases := hall c.toNat hlt hblank
    rw [UInt8.ofNat_toNat] at hcases
    exact hcases.resolve_left hgap
  · have hhigh : 0x80 ≤ c := by
      simp only [UInt8.le_iff_toNat_le, UInt8.reduceToNat] at hascii ⊢
      omega
    simp [isStray, hhigh]

/-- A blank text that is no gap has a stray byte behind a gap. -/
theorem exists_stray (h : Layout.isBlankText text = true) (hgap : ¬∀ c ∈ text, c ∈ gapBytes) :
    ∃ a c b, text = a ++ c :: b ∧ (∀ x ∈ a, x ∈ gapBytes) ∧ isStray c = true := by
  have hfind : (text.find? fun c => c ∉ gapBytes).isSome = true := by
    simpa using hgap
  obtain ⟨c, hc⟩ := Option.isSome_iff_exists.1 hfind
  obtain ⟨hcgap, a, b, rfl, ha⟩ := List.find?_eq_some_iff_append.1 hc
  have hmem : c ∈ a ++ c :: b := by simp
  exact ⟨a, c, b, rfl, by simpa using ha, isStray_of_isBlankText h hmem (by simpa using hcgap)⟩

namespace WellFormed

theorem step_stray (h : isStray c = true) (stack : List Frame) (e : Expect) :
    State.step ⟨stack, .between e⟩ c = none := by
  have hne : ∀ d, isStray d = false → c ≠ d := by
    rintro d hd rfl
    rw [h] at hd
    cases hd
  have hgap : isGap c = false := by grind [isStray, isGap]
  have hdigit : isDigit c = false := by grind [isStray, isDigit]
  have hvalue : ∀ s : State, s.startValue c = none := by
    intro s
    simp [State.startValue, wordTail?, hdigit, hne openBrace rfl, hne openBracket rfl,
      hne quote rfl, hne minus rfl, hne zero rfl, hne lowerT rfl, hne lowerF rfl, hne lowerN rfl]
  -- Nothing that may come between two tokens starts with the byte
  cases e with
  | value => simp [State.step, State.stepBetween, hgap, hvalue]
  | firstValue => simp [State.step, State.stepBetween, hgap, hvalue, hne closeBracket rfl]
  | key => simp [State.step, State.stepBetween, State.startKey, hgap, hne quote rfl]
  | firstKey =>
    simp [State.step, State.stepBetween, State.startKey, hgap, hne quote rfl, hne closeBrace rfl]
  | colon => simp [State.step, State.stepBetween, hgap, hne colon rfl]
  | next =>
    rcases stack with _ | ⟨_ | _, stack⟩ <;>
      simp [State.step, State.stepBetween, State.afterValue, hgap, hne comma rfl,
        hne closeBrace rfl, hne closeBracket rfl]

/-- No document goes on with a stray byte between two tokens. -/
theorem after_stray (h : isStray c = true) (stack : List Frame) (e : Expect) {a : Bytes}
    (ha : ∀ x ∈ a, x ∈ gapBytes) (rest : Bytes) :
    (State.mk stack (.between e)).after (a ++ c :: rest) = none := by
  rw [State.after_append, after_gap stack e ⟨a, ha⟩, Option.bind_some, State.after_cons,
    step_stray h, Option.bind_none]

theorem after_isSome_of_isWellFormed (h : isWellFormed text = true) :
    State.start.after text ≠ none := by
  obtain ⟨t, ht, -⟩ := (run_valid_iff .start 0 text).1 h
  rw [ht]
  exact Option.some_ne_none t

end WellFormed

end Stray

namespace Layout

/-! ## Writing -/

/-- A way to write that leaves alone what is on the page. -/
def Pushes (write : Page → Page) : Prop :=
  ∀ page, ∃ text, write page = page.push text

section Writing

theorem pushes_push (text : Bytes) : Pushes (Page.push text) :=
  fun _ => ⟨text, rfl⟩

theorem Pushes.comp {f g : Page → Page} (hf : Pushes f) (hg : Pushes g) :
    Pushes fun page => g (f page) := by
  intro page
  obtain ⟨a, ha⟩ := hf page
  obtain ⟨b, hb⟩ := hg (f page)
  exact ⟨a ++ b, by rw [Page.push_append, ← ha, ← hb]⟩

theorem pushes_separate (layout : Layout) (inline first : Bool) (level : Nat) :
    Pushes (layout.separate inline first level) := by
  intro page
  rw [separate_eq, ← Page.push_append]
  exact pushes_push _ page

theorem pushes_writeMembers (layout : Layout) {writeValue : Item → Page → Page}
    (hvalue : ∀ item, Pushes (writeValue item)) (inline : Bool) (level : Nat) (first : Bool)
    (members : List Member) :
    Pushes fun page => layout.writeMembers writeValue inline level first page members := by
  induction members generalizing first with
  | nil => exact pushes_push []
  | cons member members ih =>
    simp only [writeMembers_cons]
    exact (pushes_separate layout inline first level).comp
      ((pushes_push _).comp ((hvalue member.value).comp (ih false)))

theorem pushes_write (layout : Layout) (levels : Nat) (inline : Bool) (item : Item) :
    Pushes (layout.write levels inline item) := by
  induction levels generalizing inline item with
  | zero =>
    cases item with
    | key span escaped => exact pushes_push span
    | scalar span => exact pushes_push span
    | closer => exact pushes_push []
    | container object items width source length =>
      intro page
      rw [write]
      split <;> exact ⟨_, rfl⟩
  | succ levels ih =>
    cases item with
    | key span escaped => exact pushes_push span
    | scalar span => exact pushes_push span
    | closer => exact pushes_push []
    | container object items width source length =>
      intro page
      rw [write]
      split
      · exact ⟨_, rfl⟩
      · dsimp only
        rw [← push_lastText]
        exact (pushes_push _).comp ((pushes_writeMembers layout (fun item => ih _ item) _ _ true
          _).comp ((pushes_push _).comp (pushes_push _))) page

variable {layout other : Layout}

theorem writeMembers_inline {writeValue writeValue' : Item → Page → Page}
    (hvalue : ∀ item page, writeValue item page = writeValue' item page) (level : Nat)
    (first : Bool) (page : Page) (members : List Member) :
    layout.writeMembers writeValue true level first page members =
      other.writeMembers writeValue' true level first page members := by
  induction members generalizing first page with
  | nil => rfl
  | cons member members ih =>
    rw [writeMembers_cons, writeMembers_cons, hvalue, ih]
    rfl

/-- A container on one line is written alike with every margin and every indentation. -/
theorem write_oneLine (layout other : Layout) (hsort : layout.sortKeys = other.sortKeys)
    {levels : Nat}
    (hvalue : ∀ item page, layout.write levels true item page = other.write levels true item page)
    (object : Bool) (items : List Item) (width length : Nat) (source : Bytes) {inline : Bool}
    {page : Page} (hline : (inline || (!object && page.column + width ≤ layout.width)) = true)
    (hother : (inline || (!object && page.column + width ≤ other.width)) = true) :
    layout.write (levels + 1) inline (.container object items width source length) page =
      other.write (levels + 1) inline (.container object items width source length) page := by
  have hmembers : layout.members object items = other.members object items := by
    rw [members, members, hsort]
  rw [write, write, hmembers, hline, hother]
  dsimp only
  rw [if_pos rfl, if_pos rfl, writeMembers_inline hvalue]

/-- Where all stands on one line the margin and the indentation are not written. -/
theorem write_inline (layout other : Layout) (hsort : layout.sortKeys = other.sortKeys)
    (levels : Nat) (item : Item) (page : Page) :
    layout.write levels true item page = other.write levels true item page := by
  induction levels generalizing item page with
  | zero => cases item <;> rfl
  | succ levels ih =>
    cases item with
    | key span escaped => rfl
    | scalar span => rfl
    | closer => rfl
    | container object items width source length =>
      exact write_oneLine layout other hsort ih object items width length source rfl rfl

end Writing

/-! ## First lines -/

/-- Whether a document is broken into lines: its root is an object or an array that is too long for
one line, and it is not empty. -/
def breaksLines (layout : Layout) (text : Bytes) : Bool :=
  match read? text with
  | some (.container object items width _ _) =>
    !items.isEmpty && (object || layout.width < (Page.push layout.margin {}).column + width)
  | _ => false

section Lines

variable {layout : Layout} {text : Bytes}

theorem members_ne_nil (layout : Layout) (object : Bool) {items : List Item} (h : items ≠ []) :
    layout.members object items ≠ [] := by
  have hpairs : pairs items ≠ [] := by
    cases items with
    | nil => exact absurd rfl h
    | cons key rest =>
      rw [pairs]
      split <;> exact List.cons_ne_nil _ _
  have hsort : sortMembers (pairs items) ≠ [] := by
    intro hnil
    have hlength := congrArg List.length hnil
    simp only [sortMembers, List.length_map, List.length_mergeSort, List.length_nil,
      List.length_eq_zero_iff] at hlength
    exact hpairs hlength
  rw [members]
  split
  · split
    · exact hsort
    · exact hpairs
  · simpa using h

/-- A container that is broken into lines has its first member on a line of its own. -/
theorem write_broken (levels width length : Nat) (source : Bytes) {inline object : Bool}
    {items : List Item} (hitems : items ≠ []) (page : Page)
    (hbroken : (inline || (!object && page.column + width ≤ layout.width)) = false) :
    ∃ rest, layout.write (levels + 1) inline (.container object items width source length) page =
      page.push (opener object :: (layout.lineText (maxLevels - levels) ++ rest)) := by
  have hempty : ¬items.isEmpty = true := by simpa using hitems
  obtain ⟨member, members, hmembers⟩ := List.exists_cons_of_ne_nil
    (members_ne_nil layout object hitems)
  rw [write, if_neg hempty, hmembers]
  dsimp only
  rw [hbroken, writeMembers_cons, separate_eq, ← push_lastText]
  -- All that is written behind the start of the line goes behind it
  obtain ⟨rest, hrest⟩ := (pushes_push (headText member.key)).comp
    ((pushes_write layout levels false member.value).comp
      ((pushes_writeMembers layout (pushes_write layout levels false) false (maxLevels - levels)
        false members).comp ((pushes_push (layout.lastText false (maxLevels - levels))).comp
          (pushes_push [closing object]))))
    (((page.push [opener object]).push (commaText true)).push
      (layout.leadText false true (maxLevels - levels)))
  refine ⟨rest, hrest.trans ?_⟩
  rw [← Page.push_append, ← Page.push_append, ← Page.push_append]
  rfl

theorem pretty_eq_margin (layout : Layout) (d : Document) :
    ∃ rest, layout.pretty d.text = layout.margin ++ rest := by
  obtain ⟨rest, hrest⟩ := pushes_write layout maxLevels false (d.root.item d.after.text)
    (Page.push layout.margin {})
  refine ⟨rest ++ [lineFeed], ?_⟩
  rw [pretty_eq, read?_document]
  dsimp only
  rw [hrest, ← Page.push_append, ← Page.push_append, Page.written_push]
  simp

/-- A document that is broken into lines begins with its bracket and an indentation. -/
theorem pretty_broken (h : layout.breaksLines text = true) :
    ∃ object rest, layout.pretty text =
      layout.margin ++ opener object :: (lineFeed :: layout.margin ++ (layout.indent ++ rest)) := by
  rw [breaksLines] at h
  split at h
  · rename_i object items width source length hread
    simp only [Bool.and_eq_true, Bool.not_eq_true', List.isEmpty_eq_false_iff, Bool.or_eq_true,
      decide_eq_true_eq] at h
    have hbroken : (false || (!object && (Page.push layout.margin {}).column + width ≤
        layout.width)) = false := by
      rcases h.2 with rfl | hwide
      · rfl
      · simp only [Bool.false_or, Bool.and_eq_false_iff, decide_eq_false_iff_not]
        exact .inr (by omega)
    obtain ⟨rest, hrest⟩ := write_broken 1023 width length source h.1 _ hbroken
    refine ⟨object, rest ++ [lineFeed], ?_⟩
    rw [pretty_eq, hread]
    dsimp only
    rw [show maxLevels = 1023 + 1 from rfl, hrest, ← Page.push_append, ← Page.push_append,
      Page.written_push]
    simp [lineText, maxLevels]
  · cases h

/-- A document that is not broken is written alike with every indentation. -/
theorem pretty_unbroken (h : layout.breaksLines text = false) (indent : Bytes) :
    layout.pretty text = ({ layout with indent := indent } : Layout).pretty text := by
  rw [pretty_eq, pretty_eq]
  cases hread : read? text with
  | none => rfl
  | some item =>
    rw [breaksLines, hread] at h
    cases item with
    | key span escaped => rfl
    | scalar span => rfl
    | closer => rfl
    | container object items width source length =>
      simp only [Bool.and_eq_false_iff, Bool.not_eq_false', Bool.or_eq_false_iff,
        decide_eq_false_iff_not, Nat.not_lt] at h
      dsimp only
      rw [show maxLevels = 1023 + 1 from rfl]
      rcases h with hempty | ⟨rfl, hwidth⟩
      · rw [write, write, if_pos hempty, if_pos hempty]
      · let other : Layout := { layout with indent := indent }
        have hline : (false || (!false && (Page.push layout.margin {}).column + width ≤
            layout.width)) = true := by
          simpa using hwidth
        exact congrArg (fun page => (page.push [lineFeed]).written.reverse)
          (write_oneLine layout other rfl (write_inline layout other rfl 1023) false items width
            length source hline hline)

end Lines

/-! ## Verdict -/

section Verdict

variable {layout : Layout} {text : Bytes}

theorem isBlankText_of_fault? (h : layout.fault? = none) :
    isBlankText layout.indent = true ∧ isBlankText layout.margin = true := by
  rw [fault?] at h
  split at h
  · cases h
  · rename_i hindent
    split at h
    · cases h
    · rename_i hmargin
      exact ⟨by simpa using hindent, by simpa using hmargin⟩

/-- Behind the margin and the bracket of a document that is broken stands its first indentation. -/
theorem after_opener (object : Bool) (hmargin : ∀ c ∈ layout.margin, c ∈ gapBytes) (rest : Bytes) :
    WellFormed.State.start.after (layout.margin ++ opener object :: rest) =
      (WellFormed.State.mk [if object then .object else .array]
        (.between (if object then .firstKey else .firstValue))).after rest := by
  have hstep : WellFormed.State.step ⟨[], .between .value⟩ (opener object) =
      some ⟨[if object then .object else .array],
        .between (if object then .firstKey else .firstValue)⟩ := by
    cases object <;> rfl
  rw [WellFormed.State.after_append, WellFormed.State.start,
    WellFormed.after_gap [] .value ⟨layout.margin, hmargin⟩, Option.bind_some,
    WellFormed.after_cons_of_step hstep]

/-- Options that are not refused keep a document well-formed if their margin is space that may stand
between tokens, and if their indentation is such space or is never written.  Blank characters of any
other kind break it. -/
theorem isWellFormed_pretty_iff (hlayout : layout.fault? = none)
    (hwell : isWellFormed text = true) :
    isWellFormed (layout.pretty text) = true ↔
      (∀ c ∈ layout.margin, c ∈ gapBytes) ∧
        (layout.breaksLines text = true → ∀ c ∈ layout.indent, c ∈ gapBytes) := by
  obtain ⟨d, rfl⟩ := WellFormed.isWellFormed_iff_document.1 hwell
  obtain ⟨hindent, hmargin⟩ := isBlankText_of_fault? hlayout
  constructor
  · intro hpretty
    have hafter := WellFormed.after_isSome_of_isWellFormed hpretty
    have hgap : ∀ c ∈ layout.margin, c ∈ gapBytes := by
      refine Decidable.byContradiction fun hgap => ?_
      obtain ⟨a, c, b, htext, ha, hc⟩ := exists_stray hmargin hgap
      obtain ⟨rest, hrest⟩ := pretty_eq_margin layout d
      rw [hrest, htext, List.append_assoc] at hafter
      exact hafter (WellFormed.after_stray hc [] .value ha (b ++ rest))
    refine ⟨hgap, fun hbreaks => Decidable.byContradiction fun hgap' => ?_⟩
    obtain ⟨a, c, b, htext, ha, hc⟩ := exists_stray hindent hgap'
    obtain ⟨object, rest, hrest⟩ := pretty_broken hbreaks
    have hline : ∀ x ∈ lineFeed :: layout.margin ++ a, x ∈ gapBytes := by
      simp only [List.cons_append, List.forall_mem_cons, List.forall_mem_append]
      exact ⟨by decide, hgap, ha⟩
    rw [hrest, after_opener object hgap, htext, List.append_assoc, ← List.append_assoc] at hafter
    exact hafter (WellFormed.after_stray hc _ _ hline (b ++ rest))
  · rintro ⟨hmargin, hindent⟩
    cases hbreaks : layout.breaksLines d.text with
    | true =>
      have hspaced : layout.Spaced := ⟨hmargin, hindent hbreaks⟩
      rw [pretty_document hspaced]
      exact WellFormed.isWellFormed_iff_document.2 ⟨_, rfl⟩
    | false =>
      have hspaced : ({ layout with indent := [] } : Layout).Spaced := ⟨hmargin, by simp⟩
      rw [pretty_unbroken hbreaks [], pretty_document hspaced]
      exact WellFormed.isWellFormed_iff_document.2 ⟨_, rfl⟩

/-- A no-break space is blank and passes for an indentation, but it may not stand between tokens. -/
theorem isWellFormed_pretty_iff_sample :
    let layout : Layout := { indent := [0xC2, 0xA0] }
    let text := Bytes.ofString "\x7b\"a\":[null]\x7d"
    layout.fault? = none ∧ isWellFormed text = true ∧
      isWellFormed (layout.pretty text) = false := by
  intro layout text
  have hlayout : layout.fault? = none := by decide
  have hwell : isWellFormed text = true := by rfl
  have hbreaks : layout.breaksLines text = true := by
    have hroot : ∃ gap e members, Document.sample.root = .object gap (e :: members) :=
      ⟨_, _, _, rfl⟩
    obtain ⟨gap, e, members, hroot⟩ := hroot
    have hread := read?_document Document.sample
    rw [hroot, Node.item_object, Document.text_sample] at hread
    rw [breaksLines, hread]
    rfl
  refine ⟨hlayout, hwell, ?_⟩
  rw [← Bool.not_eq_true, isWellFormed_pretty_iff hlayout hwell]
  rintro ⟨-, hindent⟩
  exact absurd (hindent hbreaks 0xC2 (by decide)) (by decide)

end Verdict

end Layout

end JsonQuery
