import JsonQuery.Proofs.Filters
import JsonQuery.Proofs.Inside
import JsonQuery.Proofs.RoundTrip

/-!
# Going down in one query or in two

A path that is cut in two finds the same in two steps: the front in the document, and what is
behind inside of what the front has found.  That holds as long as the front finds no string.  The
query of a result starts at the first bracket of its text, and a string may hold one.

## Layers

- **Residues**: among different names whatever a search leaves as a pipe leads nowhere.
- **Cuts**: a search for components is a search for the front ones and then for the others.
- **Scalars**: a query of a text without brackets finds nothing.
- **Descent**: one query and two queries.
-/

namespace JsonQuery.Grammar

open Ascii Walk

/-! ## Residues -/

section Residues

/-- What the searches below single stops preserve, a search below all of them does. -/
theorem lastPipe_invariant {goal : Spot → Option Spot}
    {left : Spot → Option Bytes → Option Bytes} {P : Option Bytes → Prop} {stops : List Stop}
    (hleft : ∀ stop ∈ stops, ∀ pipe, P pipe → P (left stop.spot pipe)) {pipe : Option Bytes}
    (hpipe : P pipe) : P (lastPipe goal left stops pipe) := by
  induction stops generalizing pipe with
  | nil => exact hpipe
  | cons stop stops ih =>
    rw [List.forall_mem_cons] at hleft
    obtain ⟨selected, s⟩ := stop
    cases selected with
    | false => exact ih hleft.2 hpipe
    | true =>
      rw [lastPipe]
      split
      · exact hleft.1 pipe hpipe
      · exact ih hleft.2 (hleft.1 pipe hpipe)

/-- A bar inside of a component leaves what is behind it, which is a path of components again. -/
theorem exists_pathOf_of_elementTail {c : Component} {components : List Component} {path : Bytes}
    (h : elementTail components c = .pipe path) : ∃ c', path = pathOf (c' :: components) := by
  induction c with
  | nil => cases components <;> cases h
  | cons piece pieces ih =>
    cases piece with
    | escaped b =>
      rw [elementTail] at h
      split at h
      · exact ⟨pieces, (Tail.pipe.inj h).symm⟩
      · split at h
        · cases h
        · exact ih h
    | plain b hb => exact ih h
    | any => exact ih h
    | one => exact ih h

/-- Behind a component that is not empty a path does not start with two dots. -/
theorem lines?_pathOf_cons (c : Component) {components : List Component}
    (hne : ∀ c ∈ components, c.text ≠ []) : lines? (pathOf (c :: components)) = none := by
  rw [lines?_eq_none_iff]
  intro hdots
  obtain ⟨a, b, c', tail, heq, -, hb, -⟩ := exists_behind_dots hdots
  obtain ⟨-, rfl⟩ := List.cons.inj heq
  exact hne b List.mem_cons_self hb

/-- A pipe that a search leaves is a path of components without two dots in front. -/
def LeadsOn (pipe : Option Bytes) : Prop :=
  ∀ path ∈ pipe, ∃ components, path = pathOf components ∧ lines? path = none

theorem leadsOn_entryPipe {components : List Component} (hne : ∀ c ∈ components, c.text ≠ [])
    (c : Component) (s : Spot) {pipe : Option Bytes} (hpipe : LeadsOn pipe) :
    LeadsOn (entryPipe c components s pipe) := by
  unfold entryPipe
  split
  · cases htail : elementTail components c with
    | done => exact hpipe
    | deeper path => exact hpipe
    | pipe path =>
      obtain ⟨c', rfl⟩ := exists_pathOf_of_elementTail htail
      intro path hpath
      obtain rfl := Option.some.inj hpath
      exact ⟨_, rfl, lines?_pathOf_cons c' hne⟩
  · exact hpipe

theorem leadsOn_residue {components : List Component} (hne : ∀ c ∈ components, c.text ≠ [])
    (s : Spot) {pipe : Option Bytes} (hpipe : LeadsOn pipe) :
    LeadsOn (residue components s pipe) := by
  induction components generalizing s pipe with
  | nil => exact hpipe
  | cons c components ih =>
    rw [List.forall_mem_cons] at hne
    exact lastPipe_invariant (fun stop _ pipe hpipe => ih hne.2 stop.spot hpipe)
      (leadsOn_entryPipe hne.2 c s hpipe)

variable {components : List Component} (hnames : ∀ c ∈ components, ∃ name, c = .ofName name)
  (hne : ∀ c ∈ components, c.text ≠ []) {s : Spot} (hdistinct : s.node.Distinct)

include hnames hne hdistinct

/-- Among different names only a search that finds nothing leaves a pipe. -/
theorem residue_eq_none_or : residue components s none = none ∨
    search components s = none ∧ ∃ inner,
      residue components s none = some (pathOf inner) ∧ lines? (pathOf inner) = none := by
  rcases fits_or_search_eq_none hnames hdistinct with hfits | hnone
  · exact .inl (residue_of_fits hfits none)
  · cases hresidue : residue components s none with
    | none => exact .inl rfl
    | some path =>
      have hleads : LeadsOn (residue components s none) := leadsOn_residue hne s (by simp [LeadsOn])
      rw [hresidue] at hleads
      obtain ⟨inner, rfl, hlines⟩ := hleads path rfl
      exact .inr ⟨hnone, inner, rfl, hlines⟩

/-- A pipe that is left by a search that finds nothing finds nothing either. -/
theorem pursue_search (engine : Engine) (depth : Nat) :
    engine.pursue depth (answer (search components s)) (residue components s none) =
      answer (search components s) := by
  rcases residue_eq_none_or hnames hne hdistinct with hnone | ⟨hnone, inner, hresidue, hlines⟩
  · rw [hnone]
    rfl
  · rw [hnone, hresidue]
    exact pursue_missing engine inner hlines depth

end Residues

/-! ## Cuts -/

/-- Among different names a search goes down one branch for each component, so it may be cut in
two. -/
theorem search_append {front : List Component} (hnames : ∀ c ∈ front, ∃ name, c = .ofName name)
    (behind : List Component) {s : Spot} (hdistinct : s.node.Distinct) :
    search (front ++ behind) s = (search front s).bind (search behind) := by
  induction front generalizing s with
  | nil => rfl
  | cons c front ih =>
    rw [List.forall_mem_cons] at hnames
    obtain ⟨name, rfl⟩ := hnames.1
    rw [List.cons_append, search_cons, search_cons]
    rcases hdistinct.filter_ofName name with hnone | ⟨b, hb, hone⟩
    · rw [hnone]
      rfl
    · rw [hone, List.findSome?_singleton, List.findSome?_singleton]
      exact ih hnames.2 (hdistinct.branch hb)

/-! ## Scalars -/

section Scalars

/-- A search runs over a text without what it looks for to the end. -/
theorem find_eq_end {p : UInt8 → Bool} {text : Bytes} (h : ∀ c ∈ text, p c = false)
    (offset : Nat) : (Cursor.mk offset text).find p = ⟨offset + text.length, []⟩ := by
  have hfind := find_append h offset []
  rw [List.append_nil] at hfind
  exact hfind

/-- In a text without brackets a walk finds nothing. -/
theorem start_of_no_bracket (env : Surroundings) {text path : Bytes}
    (htext : ∀ c ∈ text, opensContainer c = false) (hlines : lines? path = none) (room : Nat) :
    start env text path room = {} := by
  rw [start, hlines, Cursor.toContainer, Cursor.start, find_eq_end htext]
  rfl

theorem not_opensContainer_of_isNumberByte {c : UInt8} (h : isNumberByte c = true) :
    opensContainer c = false := by
  grind [isNumberByte, opensContainer, isDigit]

/-- Among the values that are no objects or arrays only strings hold brackets. -/
theorem Node.not_opensContainer {n : Node} (hscalar : n.isContainer = false)
    (hstring : n.lead ≠ .string) : ∀ c ∈ n.text, opensContainer c = false := by
  intro c hc
  cases n with
  | word w =>
    rw [text] at hc
    have hall : w.text.all (fun c => !opensContainer c) = true := by
      rcases w with _ | _ | _ <;> rfl
    simpa using List.all_eq_true.1 hall c hc
  | number n =>
    rw [text] at hc
    exact not_opensContainer_of_isNumberByte (List.all_eq_true.1 n.all_isNumberByte c hc)
  | string body => exact absurd rfl hstring
  | array gap items => cases hscalar
  | object gap members => cases hscalar

theorem Document.not_opensContainer {d : Document}
    (hroot : ∀ c ∈ d.root.text, opensContainer c = false) :
    ∀ c ∈ d.text, opensContainer c = false := by
  intro c hc
  rw [Document.text, List.mem_append, List.mem_append] at hc
  rcases hc with hc | hc | hc
  · exact not_opensContainer_of_mem_gapBytes (d.before.isGap c hc)
  · exact hroot c hc
  · exact not_opensContainer_of_mem_gapBytes (d.after.isGap c hc)

theorem kind_result (s : Spot) : s.result.kind = .string ↔ s.node.lead = .string := by
  obtain ⟨offset, node⟩ := s
  cases node with
  | word w => rcases w with _ | _ | _ <;> exact ⟨nofun, nofun⟩
  | string body => exact ⟨fun _ => rfl, fun _ => rfl⟩
  | _ => exact ⟨nofun, nofun⟩

end Scalars

/-! ## Descent -/

section Descent

variable {labels : List Label}

theorem text_ne_nil_of_mem (hkey : .key [] ∉ labels) :
    ∀ c ∈ labels.map Component.ofLabel, c.text ≠ [] := by
  intro c hc hnil
  obtain ⟨l, hl, rfl⟩ := List.mem_map.1 hc
  exact hkey (text_ofLabel_eq_nil hnil ▸ hl)

theorem names_of_labels : ∀ c ∈ labels.map Component.ofLabel, ∃ name, c = .ofName name := by
  intro c hc
  obtain ⟨l, -, rfl⟩ := List.mem_map.1 hc
  exact exists_ofName l

variable {engine : Engine} {depth : Nat}

section NoBracket

variable (hkey : .key [] ∉ labels)

include hkey

theorem resolve_of_no_bracket {text : Bytes} (htext : ∀ c ∈ text, opensContainer c = false) :
    (engine.resolve Engine.pathNesting text (pathOf (labels.map Component.ofLabel))
      (depth + 1)).value = .missing := by
  rw [resolve_of_startsPlain engine text (startsPlain_pathOf _),
    start_of_no_bracket _ htext (lines?_labels hkey)]
  rfl

variable (hmax : engine.config.maxDepth = depth + 1)

include hmax

theorem get_of_no_bracket {text : Bytes} (htext : ∀ c ∈ text, opensContainer c = false) :
    (engine.get text (pathOf (labels.map Component.ofLabel))).value = .missing := by
  rw [Engine.get, hmax]
  exact resolve_of_no_bracket hkey htext

theorem getFrom_of_no_bracket {r : Result} (hraw : ∀ c ∈ r.raw, opensContainer c = false) :
    (engine.getFrom r (pathOf (labels.map Component.ofLabel))).value = .missing := by
  have hresolve : (engine.resolve Engine.pathNesting r.raw
      (pathOf (labels.map Component.ofLabel)) (depth + 1)).value = .missing :=
    resolve_of_no_bracket hkey hraw
  rw [Engine.getFrom, Engine.descend, hmax]
  show (engine.resolve Engine.pathNesting r.raw _ (depth + 1)).value.rebase r.index = _
  rw [hresolve, Result.missing_rebase]

end NoBracket

variable (hmax : engine.config.maxDepth = depth + 1) (hne : labels ≠ []) (hkey : .key [] ∉ labels)
  (hroom : labels.length ≤ depth + 1)

include hmax hne hkey hroom

/-- Keys and positions, with bars or without, find in a document what the search for them finds. -/
theorem get_labels (d : Document) (hroot : d.root.isContainer = true)
    (hdistinct : d.root.Distinct) :
    (engine.get d.text (pathOf (labels.map Component.ofLabel))).value =
      answer (search (labels.map Component.ofLabel) d.spot) := by
  have hspot : d.spot.node.Distinct := hdistinct
  rw [← pursue_search names_of_labels (text_ne_nil_of_mem hkey) hspot engine depth]
  have hlines := lines?_labels hkey
  obtain ⟨l, rest, rfl⟩ := List.exists_cons_of_ne_nil hne
  exact get_eq_pursue hmax d hroot hlines (by simpa using hroom)

variable {s : Spot} (hdistinct : s.node.Distinct)

include hdistinct

/-- Keys and positions find inside of an object or array what the search for them finds there. -/
theorem getFrom_labels (hs : s.node.isContainer = true) :
    (engine.getFrom s.result (pathOf (labels.map Component.ofLabel))).value =
      answer (search (labels.map Component.ofLabel) s) := by
  have hraw : s.result.raw = s.node.text := s.node.raw_value
  rw [← pursue_search names_of_labels (text_ne_nil_of_mem hkey) hdistinct engine depth]
  have hlines := lines?_labels hkey
  obtain ⟨l, rest, rfl⟩ := List.exists_cons_of_ne_nil hne
  exact getFrom_eq_pursue hmax hraw rfl hs hlines (by simpa using hroom)

/-- Inside of any value but a string keys and positions find what the search for them finds. -/
theorem getFrom_of_ne_string (hstring : s.node.lead ≠ .string) :
    (engine.getFrom s.result (pathOf (labels.map Component.ofLabel))).value =
      answer (search (labels.map Component.ofLabel) s) := by
  cases hs : s.node.isContainer with
  | true => exact getFrom_labels hmax hne hkey hroom hdistinct hs
  | false =>
    have hraw : ∀ c ∈ s.result.raw, opensContainer c = false := by
      rw [show s.result.raw = s.node.text from s.node.raw_value]
      exact Node.not_opensContainer hs hstring
    rw [getFrom_of_no_bracket hkey hmax hraw, search_scalar (by simpa using hne) hs]
    rfl

/-- The search for keys and positions finds nothing inside of a string, and a query may. -/
theorem getFrom_eq_answer_iff :
    (engine.getFrom s.result (pathOf (labels.map Component.ofLabel))).value =
        answer (search (labels.map Component.ofLabel) s) ↔
      ¬(s.result.kind = .string ∧
        (engine.getFrom s.result (pathOf (labels.map Component.ofLabel))).value ≠ .missing) := by
  rw [kind_result]
  by_cases hstring : s.node.lead = .string
  · have hscalar : s.node.isContainer = false := by
      rw [Node.isContainer, hstring]
      rfl
    have hnone : answer (search (labels.map Component.ofLabel) s) = .missing := by
      rw [search_scalar (by simpa using hne) hscalar]
      rfl
    rw [hnone]
    exact ⟨fun hsame h => h.2 hsame, fun h => Decidable.not_not.1 fun hne => h ⟨hstring, hne⟩⟩
  · exact iff_of_true (getFrom_of_ne_string hmax hne hkey hroom hdistinct hstring)
      fun h => hstring h.1

end Descent

section Queries

variable {engine : Engine} {depth : Nat} (hmax : engine.config.maxDepth = depth + 1)

include hmax

/-- What the front of a path finds, if anything, and what the whole path finds below it. -/
theorem exists_found {d : Document} (hvalid : Utf8.isValid d.text = true)
    (hdistinct : d.root.Distinct)
    (hroot : d.root.isContainer = true ∨ ∀ c ∈ d.root.text, opensContainer c = false)
    {front : List Label} (hfront : front ≠ []) (behind : List Label)
    (hkey : .key [] ∉ front ++ behind) (hdepth : (front ++ behind).length ≤ depth + 1) :
    ∃ found : Option Spot, (∀ s ∈ found, s.node.Distinct) ∧
      (engine.get d.text (pathOf (front.map Component.ofLabel))).value =
        (found.map Spot.result).getD .missing ∧
      (engine.get d.text (pathOf ((front ++ behind).map Component.ofLabel))).value =
        answer (found.bind (search (behind.map Component.ofLabel))) := by
  have hne : front ++ behind ≠ [] := fun h => hfront (List.append_eq_nil_iff.1 h).1
  have hkeyFront : .key [] ∉ front := fun hmem => hkey (List.mem_append_left _ hmem)
  have hlength : front.length ≤ depth + 1 := by
    rw [List.length_append] at hdepth
    omega
  by_cases hcontainer : d.root.isContainer = true
  · have hspot : d.spot.node.Distinct := hdistinct
    refine ⟨search (front.map Component.ofLabel) d.spot, fun s hs => ?_, ?_, ?_⟩
    · obtain ⟨labels, hleads, -⟩ := exists_leads_of_search hs
      exact hleads.distinct hdistinct
    · rw [get_labels hmax hfront hkeyFront hlength d hcontainer hdistinct]
      cases hsearch : search (front.map Component.ofLabel) d.spot with
      | none => rfl
      | some s =>
        have hstands : s.StandsIn d.text := standsIn_search d.standsIn_spot hsearch
        exact hstands.reading_eq_result hvalid
    · rw [get_labels hmax hne hkey hdepth d hcontainer hdistinct, List.map_append,
        search_append names_of_labels _ hspot]
  · have htext := Document.not_opensContainer (hroot.resolve_left hcontainer)
    exact ⟨none, by simp, get_of_no_bracket hkeyFront hmax htext,
      get_of_no_bracket hkey hmax htext⟩

end Queries

/-- **One query is two queries, unless the first one ends at a string.**  In a UTF-8 document in
which no object has two members of one name, and which is not itself a string with a bracket in
it, a path of keys and positions finds what its front and then the rest find, if and only if the
front does not find a string inside of which the rest finds something.  The whole path finds
nothing below a value that is no object or array, and inside of a string something is found only
if it holds a bracket. -/
theorem getFrom_get_iff (engine : Engine) (d : Document) (hvalid : isWellFormedUtf8 d.text = true)
    (hdistinct : d.root.Distinct)
    (hroot : d.root.isContainer = true ∨ ∀ c ∈ d.root.text, opensContainer c = false)
    {front behind : List Label} (hfront : front ≠ []) (hbehind : behind ≠ [])
    (hkey : .key [] ∉ front ++ behind)
    (hdepth : (front ++ behind).length ≤ engine.config.maxDepth) :
    let whole := (engine.get d.text (pathOf ((front ++ behind).map Component.ofLabel))).value
    let r := (engine.get d.text (pathOf (front.map Component.ofLabel))).value
    let below := (engine.getFrom r (pathOf (behind.map Component.ofLabel))).value
    (below = whole ↔ ¬(r.kind = .string ∧ below ≠ .missing)) ∧
      (r.isObject = false → r.isArray = false → whole = .missing) ∧
      (r.kind = .string → below ≠ .missing → ∃ c ∈ r.raw, opensContainer c = true) := by
  rw [isWellFormedUtf8, Bool.and_eq_true] at hvalid
  obtain ⟨depth, hmax⟩ : ∃ depth, engine.config.maxDepth = depth + 1 := by
    have hpos := List.length_pos_iff.2 hfront
    rw [List.length_append] at hdepth
    exact ⟨engine.config.maxDepth - 1, by omega⟩
  have hkeyBehind : .key [] ∉ behind := fun hmem => hkey (List.mem_append_right _ hmem)
  have hlength : behind.length ≤ depth + 1 := by
    rw [hmax, List.length_append] at hdepth
    omega
  obtain ⟨found, hfound, hr, hwhole⟩ := exists_found hmax hvalid.1 hdistinct hroot hfront behind
    hkey (hmax ▸ hdepth)
  intro whole r below
  have hbracket : below ≠ .missing → ∃ c ∈ r.raw, opensContainer c = true := by
    intro hne
    apply Classical.byContradiction
    intro hnone
    exact hne (getFrom_of_no_bracket hkeyBehind hmax fun c hc =>
      Bool.eq_false_iff.2 fun hopens => hnone ⟨c, hc, hopens⟩)
  cases found with
  | none =>
    -- Inside of nothing nothing is found
    have hr : r = .missing := hr
    have hbelow : below = .missing := by
      simp only [below, hr]
      exact getFrom_of_no_bracket hkeyBehind hmax (List.forall_mem_nil _)
    exact ⟨iff_of_true (hbelow.trans hwhole.symm) fun h => h.2 hbelow, fun _ _ => hwhole,
      fun _ => hbracket⟩
  | some s =>
    have hr : r = s.result := hr
    have hwhole : whole = answer (search (behind.map Component.ofLabel) s) := hwhole
    have hsame := getFrom_eq_answer_iff hmax hbehind hkeyBehind hlength (hfound s rfl)
    rw [← hr, ← hwhole] at hsame
    refine ⟨hsame, fun hobject harray => ?_, fun _ => hbracket⟩
    have hscalar : s.node.isContainer = false := by
      rw [← s.isContainer_result, ← hr, hobject, harray]
      rfl
    rw [hwhole, search_scalar (by simpa using hbehind) hscalar]
    rfl

/-- The document `{"a":"[1]"}`. -/
def Document.bracketed : Document :=
  let key : Body := ⟨[0x61], isBody_a⟩
  let list : Body := ⟨[openBracket, 0x31, closeBracket], .plain (by decide) (by decide) (by decide)
    (.plain (by decide) (by decide) (by decide) (.plain (by decide) (by decide) (by decide) .nil))⟩
  ⟨.none, .object .none [⟨⟨.none, key, .none, .none⟩, .string list, .none⟩], .none⟩

theorem Document.text_bracketed :
    Document.bracketed.text = Bytes.ofString "\x7b\"a\":\"[1]\"\x7d" := by
  simp only [Document.text, Document.bracketed, Node.text_object, inside_cons, inside_nil,
    separator, Gap.none, Node.text]
  rfl

/-- Inside of the string the second of two queries finds a number, and one query finds nothing. -/
theorem getFrom_get_iff_sample :
    let r := (Engine.standard.get Document.bracketed.text [0x61]).value
    (Engine.standard.getFrom r [0x30]).value ≠
        (Engine.standard.get Document.bracketed.text [0x61, dot, 0x30]).value ∧
      (Engine.standard.get Document.bracketed.text [0x61, dot, 0x30]).value = .missing := by
  have hvalid : isWellFormedUtf8 Document.bracketed.text = true := by
    rw [Document.text_bracketed]
    rfl
  have h := @getFrom_get_iff Engine.standard .bracketed hvalid (.singleton (.string _)) (.inl rfl)
    [.key [0x61]] [.position 0] (by simp) (by simp) (by simp) (by decide)
  have hfront : pathOf ([Label.key [0x61]].map Component.ofLabel) = [0x61] := by decide
  have hbehind : pathOf ([Label.position 0].map Component.ofLabel) = [0x30] := by decide
  have hwhole : pathOf (([Label.key [0x61]] ++ [Label.position 0]).map Component.ofLabel) =
      [0x61, dot, 0x30] := by decide
  rw [Document.text_bracketed] at h ⊢
  have hr : (Engine.standard.get (Bytes.ofString "\x7b\"a\":\"[1]\"\x7d") [0x61]).value =
      .located (.string (Bytes.ofString "\"[1]\"")) 5 := by
    decide +kernel
  have hbelow : (Engine.standard.getFrom (.located (.string (Bytes.ofString "\"[1]\"")) 5)
      [0x30]).value = .located (.number [0x31]) 7 := by
    decide +kernel
  dsimp only at h ⊢
  rw [hfront, hbehind, hwhole, hr, hbelow] at h
  rw [hr, hbelow]
  exact ⟨fun hsame => h.1.1 hsame ⟨rfl, by decide⟩, h.2.1 rfl rfl⟩

end JsonQuery.Grammar
