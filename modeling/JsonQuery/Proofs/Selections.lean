import JsonQuery.Proofs.Encoding
import JsonQuery.Proofs.Location
import JsonQuery.Proofs.Unaided

/-!
# Sub-selectors build what their parts find

The reader of a sub-selector looks for colons, commas and brackets, and two ways of writing hide
them from it: quotes, between which only a backslash and a quote count, and the escapes of paths.
So names in quotes and escaped paths may hold any text at all, and what is written for some parts is
read as those parts.  Each part then finds what its path finds in a query of its own, since the path
needs no room for nested paths and, as long as no bound is hit, no more depth.

## Layers

- **Readers**: names in quotes and escaped paths are taken whole.
- **Parts**: what is written for parts is read as those parts.
- **Selections**: what is built from the parts that find something.
-/

namespace JsonQuery

open Ascii Grammar

/-! ## Readers -/

namespace Selector

/-- The draft with more text. -/
def Draft.more (draft : Draft) (text : Bytes) : Draft :=
  { draft with text := text.reverse ++ draft.text }

theorem Draft.more_append (draft : Draft) (a b : Bytes) :
    (draft.more a).more b = draft.more (a ++ b) := by
  simp [more]

/-- A byte without a meaning between the brackets of a sub-selector. -/
def passes (c : UInt8) : Bool :=
  !(c == backslash || c == atSign || c == comma || c == quote || isOpener c || isCloser c)

theorem passes_of_isSafe {c : UInt8} (h : Path.isSafe c = true) : passes c = true := by
  by_contra hpasses
  -- No byte with a meaning is safe, which is checked one by one
  simp only [passes, isOpener, isCloser, Bool.not_eq_true', Bool.not_eq_false, Bool.or_eq_true,
    beq_iff_eq] at hpasses
  rcases hpasses with ((((rfl | rfl) | rfl) | rfl) | ((rfl | rfl) | rfl)) | ((rfl | rfl) | rfl) <;>
    exact absurd h (by decide)

section Readers

variable (draft : Draft) (found : List Selector) (rest : Bytes)

theorem parseFrom_escaped (inString : Bool) (depth : Nat) (c : UInt8) :
    parseFrom inString depth draft found (backslash :: c :: rest) =
      parseFrom inString depth (draft.more [backslash, c]) found rest := by
  rw [parseFrom.eq_def]
  rfl

theorem parseFrom_inside {c : UInt8} (hquote : c ≠ quote) (hslash : c ≠ backslash) (depth : Nat) :
    parseFrom true depth draft found (c :: rest) =
      parseFrom true depth (draft.more [c]) found rest := by
  have hopen : (c != quote) = true := bne_iff_ne.2 hquote
  rw [parseFrom.eq_def]
  simp [hslash, hopen, Draft.more, Draft.push]

/-- Behind the colon of its part a byte without a meaning is passed over, and so is one that is no
colon anywhere else. -/
theorem parseFrom_pass {c : UInt8} (hc : passes c = true)
    (hcolon : draft.name.isSome = true ∨ c ≠ colon) (depth : Nat) :
    parseFrom false depth draft found (c :: rest) =
      parseFrom false depth (draft.more [c]) found rest := by
  simp only [passes, Bool.not_eq_true', Bool.or_eq_false_iff, beq_eq_false_iff_ne] at hc
  obtain ⟨⟨⟨⟨⟨hslash, hat⟩, hcomma⟩, hquote⟩, hopener⟩, hcloser⟩ := hc
  have hname : (decide (c = colon) && !draft.modifier && draft.name.isNone &&
      decide (depth = 0)) = false := by
    rcases hcolon with hsome | hne
    · have hnone : draft.name.isNone = false := by
        rw [← Option.not_isSome, hsome]
        rfl
      simp [hnone]
    · simp [hne]
  have hstring : (c == quote) = false := beq_eq_false_iff_ne.2 hquote
  rw [parseFrom.eq_def]
  simp only [hslash, hat, hcomma, hopener, hcloser, hname, hstring, decide_false, Bool.false_and,
    Bool.false_eq_true, if_false]
  rfl

/-- Inside of a string everything is passed over that the string may hold. -/
theorem parseFrom_loose {text : Bytes} (h : IsLoose text) (depth : Nat) :
    parseFrom true depth draft found (text ++ rest) =
      parseFrom true depth (draft.more text) found rest := by
  induction h generalizing draft with
  | nil => rfl
  | plain hquote hslash _ ih =>
    rw [List.cons_append, parseFrom_inside _ _ _ hquote hslash, ih, Draft.more_append]
    rfl
  | pair _ ih =>
    rw [List.cons_append, List.cons_append, parseFrom_escaped, ih, Draft.more_append]
    rfl

/-- A text in quotes is taken whole, whatever it holds. -/
theorem parseFrom_encode (text : Bytes) (depth : Nat) :
    parseFrom false depth draft found (Quoted.encode text ++ rest) =
      parseFrom false depth (draft.more (Quoted.encode text)) found rest := by
  have htext : Quoted.encode text = [quote] ++ (text.flatMap Quoted.spell ++ [quote]) := rfl
  have hopen : ∀ draft rest, parseFrom false depth draft found (quote :: rest) =
      parseFrom true depth (draft.more [quote]) found rest := by
    intro draft rest
    rw [parseFrom.eq_def]
    rfl
  have hclose : ∀ draft rest, parseFrom true depth draft found (quote :: rest) =
      parseFrom false depth (draft.more [quote]) found rest := by
    intro draft rest
    rw [parseFrom.eq_def]
    rfl
  rw [htext, List.append_assoc, List.append_assoc, List.singleton_append, hopen,
    parseFrom_loose _ _ _ (Quoted.isBody_flatMap_spell text).isLoose, List.singleton_append, hclose,
    Draft.more_append, Draft.more_append]

/-- The escapes of a name are taken whole: behind the colon of the part any name, and elsewhere a
name without a colon. -/
theorem parseFrom_escape (name : Bytes) (hcolon : draft.name.isSome = true ∨ colon ∉ name)
    (depth : Nat) :
    parseFrom false depth draft found (Path.escape name ++ rest) =
      parseFrom false depth (draft.more (Path.escape name)) found rest := by
  induction name generalizing draft with
  | nil => rfl
  | cons c name ih =>
    rw [List.mem_cons, not_or] at hcolon
    have hrest : ∀ text, (draft.more text).name.isSome = true ∨ colon ∉ name :=
      fun _ => hcolon.imp_right And.right
    rw [Path.escape_cons, List.append_assoc, ← Draft.more_append, ← ih _ (hrest _)]
    split
    · rename_i hsafe
      exact parseFrom_pass _ _ _ (passes_of_isSafe hsafe)
        (hcolon.imp_right fun h => Ne.symm h.1) depth
    · exact parseFrom_escaped _ _ _ false depth c

/-- A path of escaped names is taken whole. -/
theorem parseFrom_names (names : List Bytes)
    (hcolon : draft.name.isSome = true ∨ ∀ name ∈ names, colon ∉ name) (depth : Nat) :
    parseFrom false depth draft found (Path.ofComponents (names.map Path.escape) ++ rest) =
      parseFrom false depth (draft.more (Path.ofComponents (names.map Path.escape))) found
        rest := by
  induction names generalizing draft with
  | nil => rfl
  | cons name names ih =>
    have hname := hcolon.imp_right fun h => h name List.mem_cons_self
    have hrest : ∀ text, (draft.more text).name.isSome = true ∨ ∀ name ∈ names, colon ∉ name :=
      fun _ => hcolon.imp_right fun h name hname => h name (List.mem_cons_of_mem _ hname)
    cases names with
    | nil =>
      rw [List.map_singleton, Path.ofComponents_singleton]
      exact parseFrom_escape draft found rest name hname depth
    | cons next names =>
      have hcons : Path.ofComponents ((name :: next :: names).map Path.escape) =
          Path.escape name ++ ([dot] ++ Path.ofComponents ((next :: names).map Path.escape)) :=
        Path.ofComponents_cons_cons _ _ _
      rw [hcons, List.append_assoc, List.append_assoc, parseFrom_escape _ _ _ _ hname,
        List.singleton_append, parseFrom_pass _ _ _ (by decide) (.inr (by decide)),
        Draft.more_append, ih _ (hrest _), Draft.more_append, List.append_assoc]

end Readers

/-! ## Parts -/

section Parts

/-- What is written for a part with a name: the name in quotes, a colon and a path. -/
def namedText (name path : Bytes) : Bytes :=
  Quoted.encode name ++ colon :: path

/-- A part with a name in quotes. -/
def named (name path : Bytes) : Selector :=
  ⟨some (Quoted.encode name), path⟩

theorem label_named (name path : Bytes) : (named name path).label = Quoted.encode name := by
  rw [label, named]
  dsimp only
  rw [Quoted.isWellFormed_encode]
  exact if_pos rfl

/-- What is written for a part is read as the part, up to the comma or the bracket behind it. -/
def ReadsAs (text : Bytes) (part : Selector) : Prop :=
  ∀ found rest, ∃ draft : Draft, draft.finish = part ∧
    parseFrom false 0 {} found (text ++ rest) = parseFrom false 0 draft found rest

/-- The first colon of a part ends its name. -/
theorem parseFrom_colon (name : Bytes) (found : List Selector) (rest : Bytes) :
    parseFrom false 0 (({} : Draft).more name) found (colon :: rest) =
      parseFrom false 0 ⟨some name, [], false⟩ found rest := by
  have htake : (({} : Draft).more name).takeName = ⟨some name, [], false⟩ := by
    simp [Draft.more, Draft.takeName]
  rw [parseFrom.eq_def, ← htake]
  rfl

/-- A path of escaped names behind the colon of a name is what the name stands for. -/
theorem readsAs_named (name : Bytes) (names : List Bytes) :
    ReadsAs (namedText name (Path.ofComponents (names.map Path.escape)))
      (named name (Path.ofComponents (names.map Path.escape))) := by
  intro found rest
  generalize hquoted : Quoted.encode name = quoted
  refine ⟨Draft.more ⟨some quoted, [], false⟩ (Path.ofComponents (names.map Path.escape)), ?_, ?_⟩
  · simp [Draft.finish, Draft.more, named, hquoted]
  · rw [namedText, List.append_assoc, parseFrom_encode, hquoted, List.cons_append,
      parseFrom_colon, parseFrom_names _ _ _ _ (.inl rfl)]

/-- What is written for parts is read as those parts, up to the bracket behind them. -/
theorem parseFrom_parts {α : Type} {text : α → Bytes} {part : α → Selector}
    (hreads : ∀ a, ReadsAs (text a) (part a)) {closer : UInt8} (hcloser : isCloser closer = true)
    {parts : List α} (hne : parts ≠ []) (found : List Selector) (rest : Bytes) :
    parseFrom false 0 {} found (Bytes.commaJoin (parts.map text) ++ closer :: rest) =
      some (found.reverse ++ parts.map part, rest) := by
  induction parts generalizing found with
  | nil => exact absurd rfl hne
  | cons a parts ih =>
    -- The last part ends at the bracket, and any other one at a comma
    cases parts with
    | nil =>
      obtain ⟨draft, hdraft, hread⟩ := hreads a found (closer :: rest)
      have hclose : parseFrom false 0 draft found (closer :: rest) =
          some ((draft.finish :: found).reverse, rest) := by
        have hbyte : closer ≠ backslash ∧ closer ≠ atSign ∧ closer ≠ colon ∧ closer ≠ comma ∧
            isOpener closer = false := by
          grind [isCloser, isOpener]
        rw [parseFrom.eq_def]
        simp [hbyte, hcloser]
      rw [List.map_singleton, List.map_singleton, Bytes.commaJoin_singleton, hread, hclose, hdraft,
        List.reverse_cons]
    | cons next parts =>
      have ih := ih (List.cons_ne_nil _ _)
      simp only [List.map_cons] at ih ⊢
      rw [Bytes.commaJoin_cons_cons, List.append_assoc, List.cons_append]
      generalize Bytes.commaJoin _ ++ closer :: rest = others at ih ⊢
      obtain ⟨draft, hdraft, hread⟩ := hreads a found (comma :: others)
      have hcomma : parseFrom false 0 draft found (comma :: others) =
          parseFrom false 0 {} (draft.finish :: found) others := by
        rw [parseFrom.eq_def]
        rfl
      rw [hread, hcomma, ih, hdraft, List.reverse_cons, List.append_assoc, List.singleton_append]

end Parts

end Selector

/-! ## Selections -/

namespace Engine

section Selections

/-- What a part adds to the object or array that is built, if it finds anything. -/
def item? (object : Bool) (part : Selector) (found : Result) : Option Bytes :=
  if found.found then some (if object then part.label ++ colon :: found.raw else found.raw)
  else none

variable (nested : Nested) (object : Bool) (depth : Nat) (text : Bytes)

theorem depthHits_le_selectParts (found : List Bytes) (counts : Counters)
    (parts : List Selector) :
    counts.depthHits ≤ (selectParts nested object depth text found counts parts).hits := by
  induction parts generalizing found counts with
  | nil => exact Nat.le_refl _
  | cons part parts ih =>
    have hle : counts.depthHits ≤ (counts + (nested text part.path depth).counts).depthHits :=
      Nat.le_add_right _ _
    rw [selectParts]
    dsimp only
    split
    · exact Nat.le_trans hle (ih _ _)
    · exact Nat.le_trans hle (ih _ _)

/-- Where no bound is hit, what is built holds what each part finds without a hit. -/
theorem value_selectParts {find : Selector → Result} {parts : List Selector}
    (hfind : ∀ part ∈ parts, (nested text part.path depth).hits = 0 →
      (nested text part.path depth).value = find part)
    (found : List Bytes) (counts : Counters)
    (hhits : (selectParts nested object depth text found counts parts).hits = 0) :
    (selectParts nested object depth text found counts parts).value =
      .built (.json ((if object then openBrace else openBracket) ::
        Bytes.commaJoin (found.reverse ++ parts.filterMap fun part =>
          item? object part (find part)) ++ [if object then closeBrace else closeBracket])) := by
  induction parts generalizing found counts with
  | nil =>
    rw [selectParts, List.filterMap_nil, List.append_nil]
    cases object <;> rfl
  | cons part parts ih =>
    obtain ⟨hpart, hparts⟩ := List.forall_mem_cons.1 hfind
    -- What the part hits is counted before the others
    have hzero : (nested text part.path depth).hits = 0 := by
      have hle : (nested text part.path depth).hits ≤
          (selectParts nested object depth text found counts (part :: parts)).hits := by
        have hadd : (nested text part.path depth).hits ≤
            (counts + (nested text part.path depth).counts).depthHits := Nat.le_add_left _ _
        rw [selectParts]
        dsimp only
        split
        · exact Nat.le_trans hadd (depthHits_le_selectParts _ _ _ _ _ _ _)
        · exact Nat.le_trans hadd (depthHits_le_selectParts _ _ _ _ _ _ _)
      omega
    have hvalue := hpart hzero
    rw [selectParts] at hhits ⊢
    dsimp only at hhits ⊢
    rw [hvalue] at hhits ⊢
    rw [List.filterMap_cons, item?]
    split
    · rename_i hfound
      rw [if_pos hfound] at hhits
      rw [ih hparts _ _ hhits, List.reverse_cons, List.append_assoc]
      rfl
    · rename_i hfound
      rw [if_neg hfound] at hhits
      exact ih hparts _ _ hhits

end Selections

end Engine

namespace Grammar

section Queries

/-- A label as it is called without escapes. -/
def Label.name : Label → Bytes
  | .key name => name
  | .position n => Bytes.ofNat n

theorem Label.written_eq_escape (l : Label) : l.written = Path.escape l.name := by
  cases l with
  | key name => rfl
  | position n => exact (escape_ofNat n).symm

/-- What an object sub-selector has a part for: a name, and the labels of a path. -/
structure Choice where
  name : Bytes
  labels : List Label

/-- The path of a choice. -/
def Choice.path (choice : Choice) : Bytes :=
  Path.ofComponents (choice.labels.map Label.written)

/-- The sub-selector that builds an object from choices. -/
def objectPath (choices : List Choice) : Bytes :=
  openBrace :: Bytes.commaJoin (choices.map fun choice =>
    Quoted.encode choice.name ++ colon :: choice.path) ++ [closeBrace]

theorem Choice.isPlain_path (choice : Choice) : IsPlain choice.path := by
  refine ⟨choice.labels.map Component.ofLabel, ?_⟩
  rw [pathOf, List.map_map]
  exact congrArg Path.ofComponents (List.map_congr_left fun l _ => (Component.text_ofLabel l).symm)

/-- A plain path that is resolved within another one, without hitting a bound, finds what it finds
in a query of its own. -/
theorem value_nested (engine : Engine) {depth : Nat} (hmax : engine.config.maxDepth = depth + 1)
    (text : Bytes) {path : Bytes} (hplain : IsPlain path)
    (hhits : (engine.resolve 127 text path depth).hits = 0) :
    (engine.resolve 127 text path depth).value = (engine.get text path).value := by
  have hsteady := (engine.resolve_steady 1 127 text path depth).same hhits
  rw [← hsteady, Engine.get, hmax, Engine.pathNesting,
    engine.resolve_plain 126 127 text hplain (depth + 1)]
  rfl

/-- A sub-selector that nothing follows is the only link of its chain. -/
theorem link_selector (engine : Engine) (nested : Engine.Nested) (room depth : Nat) (text : Bytes)
    {opener : UInt8} (hopener : opensContainer opener = true) {inside : Bytes}
    {parts : List Selector} (hparse : Selector.parse? (opener :: inside) = some (parts, [])) :
    engine.link nested room depth text (opener :: inside) =
      .selected (Engine.selectParts nested (opener == openBrace) depth text [] .zero parts) := by
  -- The bracket that closes the parts is missing behind one that stands alone
  obtain ⟨b, rest, rfl⟩ : ∃ b rest, inside = b :: rest := by
    cases inside with
    | nil => cases hparse
    | cons b rest => exact ⟨b, rest, rfl⟩
  have hselect : Engine.select? nested depth text (opener :: b :: rest) =
      some (Engine.selectParts nested (opener == openBrace) depth text [] .zero parts) := by
    rw [Engine.select?, hparse]
    rfl
  have hcall : (decide (opener = atSign) && engine.config.modifiers) = false := by
    grind [opensContainer]
  have hbang : opener ≠ bang := by
    grind [opensContainer]
  simp only [Engine.link, hcall, hopener, hselect, if_neg hbang, Bool.false_eq_true, if_false,
    if_true]

variable {choices : List Choice} (hne : choices ≠ [])

include hne

theorem parse?_objectPath :
    Selector.parse? (objectPath choices) =
      some (choices.map fun choice => Selector.named choice.name choice.path, []) := by
  have hreads : ∀ choice : Choice, Selector.ReadsAs
      (Quoted.encode choice.name ++ colon :: choice.path)
      (Selector.named choice.name choice.path) := by
    intro choice
    have hpath : Path.ofComponents ((choice.labels.map Label.name).map Path.escape) =
        choice.path := by
      rw [Choice.path, List.map_map]
      exact congrArg Path.ofComponents
        (List.map_congr_left fun l _ => (Label.written_eq_escape l).symm)
    exact hpath ▸ Selector.readsAs_named choice.name (choice.labels.map Label.name)
  exact Selector.parseFrom_parts hreads rfl hne [] []

/-- A sub-selector for choices is the only link of its chain. -/
theorem link_objectPath (engine : Engine) (nested : Engine.Nested) (room depth : Nat)
    (text : Bytes) :
    engine.link nested room depth text (objectPath choices) =
      .selected (Engine.selectParts nested true depth text [] .zero
        (choices.map fun choice => Selector.named choice.name choice.path)) :=
  link_selector engine nested room depth text rfl (parse?_objectPath hne)

/-- **Object sub-selectors build exactly what their parts find.**  Take names, which may hold any
text, each with a path of escaped keys and positions.  If the query hits no bound, it finds an
object of its own, without a place in the document: one member for each path that finds a value in
the document by itself, in the order of the parts, with the name in quotes as its key and the source
text of the value behind the colon.  The document may be any text. -/
theorem get_objectPath (engine : Engine) (document : Bytes)
    (hhits : (engine.get document (objectPath choices)).counts.depthHits = 0) :
    (engine.get document (objectPath choices)).value =
      .built (.json (openBrace :: Bytes.commaJoin (choices.filterMap fun choice =>
        let found := (engine.get document choice.path).value
        if found.found then some (Quoted.encode choice.name ++ colon :: found.raw) else none) ++
          [closeBrace])) := by
  cases hmax : engine.config.maxDepth with
  | zero =>
    -- Without any depth the query itself is a hit
    rw [Engine.get, hmax, Engine.resolve_pathNesting, Engine.chain] at hhits
    cases hhits
  | succ depth =>
    generalize hparts : choices.map (fun choice => Selector.named choice.name choice.path) = parts
    have hlink := link_objectPath hne engine (engine.resolve 127) 127 depth document
    have hfind : ∀ part ∈ parts, (engine.resolve 127 document part.path depth).hits = 0 →
        (engine.resolve 127 document part.path depth).value =
          (engine.get document part.path).value := by
      intro part hpart hzero
      rw [← hparts] at hpart
      obtain ⟨choice, -, rfl⟩ := List.mem_map.1 hpart
      exact value_nested engine hmax document choice.isPlain_path hzero
    have hget : engine.get document (objectPath choices) =
        ((Engine.selectParts (engine.resolve 127) true depth document [] .zero parts).map
          (·.rebase (some 0))).after .oneGet := by
      rw [Engine.get, hmax, Engine.resolve_pathNesting, Engine.chain_selected _ _ _ _ _ hlink,
        hparts, Counted.after_after, Counters.add_zero]
    rw [hget] at hhits ⊢
    have hvalue := Engine.value_selectParts (engine.resolve 127) true depth document hfind [] .zero
      ((Nat.zero_add _).symm.trans hhits)
    show Result.rebase (some 0) _ = _
    rw [hvalue, ← hparts, List.filterMap_map]
    simp only [Function.comp_def, Engine.item?, Selector.label_named, if_true]
    rfl

omit hne in
/-- Names and keys with commas, colons, brackets and quotes, and a path that finds nothing. -/
theorem get_objectPath_sample :
    let document := Bytes.ofString "\x7b\"a,b\":\x7b\"@\":[1,2]\x7d,\"]:\":true\x7d"
    let choices : List Choice := [
      ⟨Bytes.ofString ",\":",
        [.key (Bytes.ofString "a,b"), .key (Bytes.ofString "@"), .position 1]⟩,
      ⟨Bytes.ofString "none", [.key (Bytes.ofString "a,b"), .key (Bytes.ofString "c")]⟩,
      ⟨Bytes.ofString "@]\\", [.key (Bytes.ofString "]:")]⟩]
    objectPath choices = Bytes.ofString
        "\x7b\",\\\":\":a\\,b.\\@.1,\"none\":a\\,b.c,\"@]\\\\\":\\]:\x7d" ∧
      (Engine.standard.get document (objectPath choices)).counts.depthHits = 0 ∧
      (Engine.standard.get document (objectPath choices)).value =
        .built (.json (Bytes.ofString "\x7b\",\\\":\":2,\"@]\\\\\":true\x7d")) := by
  intro document choices
  have hhits : (Engine.standard.get document (objectPath choices)).counts.depthHits = 0 := by
    decide +kernel
  refine ⟨by decide +kernel, hhits, ?_⟩
  rw [get_objectPath (List.cons_ne_nil _ _) Engine.standard document hhits]
  decide +kernel

end Queries

end Grammar

end JsonQuery
