import JsonQuery.Proofs.Lines
import JsonQuery.Proofs.Location
import Mathlib.Data.List.Forall2

/-!
# Paths resolve to the values that they are found for

The path of a value is written with the labels on the way to it.  Where no object has two members
of one name, a component of a label selects one branch and no other, so a search for the components
goes the same way and ends at the value.

A path that starts with two dots is the exception: the engine takes the dots for a request to read
the text as lines.  Such a path belongs to a value below two members with empty names.

## Layers

- **Distinct names**: at most one branch is selected.
- **Ways**: searching for the components of the labels on a way is going it.
- **Lines**: what a path finds behind two dots.
- **Round trips**: a path finds its value if and only if it does not start with two dots.
-/

namespace JsonQuery.Grammar

open Ascii Walk

/-! ## Distinct names -/

/-- No object in the tree has two members of one name. -/
inductive Node.Distinct : Node → Prop where
  | word (w : Word) : Distinct (.word w)
  | number (n : Numeral) : Distinct (.number n)
  | string (body : Body) : Distinct (.string body)
  | array {gap : Gap} {items : List (Entry Gap Node)} (h : ∀ e ∈ items, Distinct e.value) :
      Distinct (.array gap items)
  | object {gap : Gap} {members : List (Entry Tag Node)}
      (hnames : (members.map fun e => e.front.key.name).Nodup)
      (h : ∀ e ∈ members, Distinct e.value) : Distinct (.object gap members)

section Distinct

variable {s : Spot} {b : Branch}

theorem value_of_mem_branchesFrom {Front : Type} {front : Front → Bytes}
    {label : Nat → Front → Label} {offset position : Nat} {entries : List (Entry Front Node)}
    (hb : b ∈ branchesFrom front label offset position entries) :
    ∃ e ∈ entries, b.node = e.value := by
  induction entries generalizing offset position with
  | nil => cases hb
  | cons e rest ih =>
    rw [branchesFrom, List.mem_cons] at hb
    rcases hb with rfl | hb
    · exact ⟨e, List.mem_cons_self, rfl⟩
    · obtain ⟨e', he', hvalue⟩ := ih hb
      exact ⟨e', List.mem_cons_of_mem _ he', hvalue⟩

theorem Node.Distinct.branch (h : s.node.Distinct) (hb : b ∈ s.branches) : b.node.Distinct := by
  obtain ⟨offset, node⟩ := s
  cases h with
  | word w => cases hb
  | number n => cases hb
  | string body => cases hb
  | array h =>
    obtain ⟨e, he, hvalue⟩ := value_of_mem_branchesFrom hb
    exact hvalue ▸ h e he
  | object _ h =>
    obtain ⟨e, he, hvalue⟩ := value_of_mem_branchesFrom hb
    exact hvalue ▸ h e he

theorem labels_members (members : List (Entry Tag Node)) (offset position : Nat) :
    (branchesFrom Tag.text (fun _ tag => .key tag.key.name) offset position members).map
        Branch.label =
      members.map fun e => .key e.front.key.name := by
  induction members generalizing offset position with
  | nil => rfl
  | cons e rest ih => simp [branchesFrom, ih]

theorem labels_items (items : List (Entry Gap Node)) (offset position : Nat) :
    (branchesFrom Gap.text (fun n _ => .position n) offset position items).map Branch.label =
      (List.range' position items.length).map .position := by
  induction items generalizing offset position with
  | nil => rfl
  | cons e rest ih => simp [branchesFrom, ih, List.range'_succ]

/-- The branches of a container have different labels. -/
theorem Node.Distinct.nodup (h : s.node.Distinct) : (s.branches.map Branch.label).Nodup := by
  obtain ⟨offset, node⟩ := s
  -- Positions differ by themselves, names since the object is distinct
  cases h with
  | word w => exact .nil
  | number n => exact .nil
  | string body => exact .nil
  | @array gap items _ =>
    rw [Spot.branches]
    dsimp only
    rw [labels_items, List.Nodup, List.pairwise_map]
    exact List.Pairwise.imp (fun hne heq => hne (Label.position.inj heq)) List.nodup_range'
  | @object gap members hnames _ =>
    rw [List.Nodup, List.pairwise_map] at hnames
    rw [Spot.branches]
    dsimp only
    rw [labels_members, List.Nodup, List.pairwise_map]
    exact hnames.imp fun hne heq => hne (Label.key.inj heq)

theorem exists_key {offset : Nat} {gap : Gap} {members : List (Entry Tag Node)}
    (hb : b ∈ (Spot.mk offset (.object gap members)).branches) : ∃ name, b.label = .key name := by
  have hlabel := List.mem_map_of_mem (f := Branch.label) hb
  rw [Spot.branches, labels_members] at hlabel
  obtain ⟨e, -, heq⟩ := List.mem_map.1 hlabel
  exact ⟨_, heq.symm⟩

/-- The position of an element is less than the number of elements. -/
theorem exists_position {offset : Nat} {gap : Gap} {items : List (Entry Gap Node)}
    (hb : b ∈ (Spot.mk offset (.array gap items)).branches) :
    ∃ n, b.label = .position n ∧ n < items.length := by
  have hlabel := List.mem_map_of_mem (f := Branch.label) hb
  rw [Spot.branches, labels_items] at hlabel
  obtain ⟨n, hn, heq⟩ := List.mem_map.1 hlabel
  rw [List.mem_range'_1] at hn
  exact ⟨n, heq.symm, by omega⟩

/-- A name selects branches of one label only. -/
theorem label_of_selects_ofName {name : Bytes} {c : Branch} (hb : b ∈ s.branches)
    (hc : c ∈ s.branches) (hselectsB : (Component.ofName name).selects b.label = true)
    (hselectsC : (Component.ofName name).selects c.label = true) : b.label = c.label := by
  obtain ⟨offset, node⟩ := s
  -- A name denotes one position at most, and one name
  cases node with
  | word w => cases hb
  | number n => cases hb
  | string body => cases hb
  | array gap items =>
    obtain ⟨n, hn, -⟩ := exists_position hb
    obtain ⟨m, hm, -⟩ := exists_position hc
    rw [hn, Component.selects_position, beq_iff_eq] at hselectsB
    rw [hm, Component.selects_position, hselectsB, beq_iff_eq, Option.some.injEq] at hselectsC
    rw [hn, hm, hselectsC]
  | object gap members =>
    obtain ⟨k, hk⟩ := exists_key hb
    obtain ⟨l, hl⟩ := exists_key hc
    rw [hk, Component.selects_ofName, beq_iff_eq] at hselectsB
    rw [hl, Component.selects_ofName, beq_iff_eq] at hselectsC
    rw [hk, hl, hselectsB, hselectsC]

/-- A name selects one branch at most. -/
theorem Node.Distinct.filter_ofName (h : s.node.Distinct) (name : Bytes) :
    (s.branches.filter fun b => (Component.ofName name).selects b.label) = [] ∨
      ∃ b ∈ s.branches,
        (s.branches.filter fun b => (Component.ofName name).selects b.label) = [b] := by
  have hmem : ∀ b ∈ s.branches.filter fun b => (Component.ofName name).selects b.label,
      b ∈ s.branches ∧ (Component.ofName name).selects b.label = true :=
    fun b hb => List.mem_filter.1 hb
  have hnodup : ((s.branches.filter fun b => (Component.ofName name).selects b.label).map
      Branch.label).Nodup :=
    (List.filter_sublist.map Branch.label).nodup h.nodup
  generalize (s.branches.filter fun b => (Component.ofName name).selects b.label) = selected
    at hmem hnodup
  -- Two selected branches would have one label
  match selected with
  | [] => exact .inl rfl
  | [b] => exact .inr ⟨b, (hmem b List.mem_cons_self).1, rfl⟩
  | a :: b :: rest =>
    obtain ⟨ha, hselectsA⟩ := hmem a List.mem_cons_self
    obtain ⟨hb, hselectsB⟩ := hmem b (List.mem_cons_of_mem _ List.mem_cons_self)
    have hlabel := label_of_selects_ofName ha hb hselectsA hselectsB
    simp [hlabel] at hnodup

end Distinct

/-! ## Ways -/

section Ways

theorem exists_ofName (l : Label) : ∃ name, Component.ofLabel l = .ofName name := by
  cases l with
  | key name => exact ⟨name, rfl⟩
  | position n => exact ⟨Bytes.ofNat n, rfl⟩

theorem length_le_inside {Front : Type} (front : Front → Bytes)
    (entries : List (Entry Front Node)) : entries.length ≤ (inside front entries).length := by
  induction entries with
  | nil => exact Nat.le_refl 0
  | cons e rest ih =>
    obtain ⟨c, text, htext, -⟩ := e.value.text_cons
    rw [length_inside_cons, List.length_cons, htext, List.length_cons]
    omega

/-- A position that a word holds is selected by its own digits alone. -/
theorem selects_position_iff {n : Nat} (hn : n < Number.wordLimit) (k : Nat) :
    (Component.ofLabel (.position k)).selects (.position n) = (n == k) := by
  rw [Component.ofLabel, Component.selects, Component.text_ofName, escape_ofNat, isDigits_ofNat,
    toNat_ofNat, decide_eq_true hn, Bool.true_and, Bool.and_true, BEq.comm]

/-- In a text whose length a word holds, the component of a label selects the label. -/
theorem selects_ofLabel {text : Bytes} (hsize : text.length < Number.wordLimit) {s : Spot}
    (hs : s.StandsIn text) {b : Branch} (hb : b ∈ s.branches) :
    (Component.ofLabel b.label).selects b.label = true := by
  obtain ⟨offset, node⟩ := s
  cases node with
  | word w => cases hb
  | number n => cases hb
  | string body => cases hb
  | array gap items =>
    obtain ⟨n, hn, hlt⟩ := exists_position hb
    -- Every element takes up a byte, so the text is longer than the position is large
    have hlength := length_le_inside Gap.text items
    obtain ⟨before, after, rfl, -⟩ := hs
    rw [Node.text_array] at hsize
    simp only [List.length_append, List.length_cons] at hsize
    rw [hn, Component.selects_position, Component.ofLabel, Component.text_ofName, escape_ofNat,
      position?_ofNat (by omega)]
    exact BEq.rfl
  | object gap members =>
    obtain ⟨name, hname⟩ := exists_key hb
    rw [hname, Component.ofLabel, Component.selects_ofName]
    exact BEq.rfl

/-- The component of the label of a branch selects that branch and no other. -/
theorem filter_ofLabel {text : Bytes} (hsize : text.length < Number.wordLimit) {s : Spot}
    (hs : s.StandsIn text) (hdistinct : s.node.Distinct) {b : Branch} (hb : b ∈ s.branches) :
    (s.branches.filter fun c => (Component.ofLabel b.label).selects c.label) = [b] := by
  have hmem : b ∈ s.branches.filter fun c => (Component.ofLabel b.label).selects c.label :=
    List.mem_filter.2 ⟨hb, selects_ofLabel hsize hs hb⟩
  obtain ⟨name, hname⟩ := exists_ofName b.label
  rw [hname] at hmem ⊢
  rcases hdistinct.filter_ofName name with hnone | ⟨c, -, hone⟩
  · rw [hnone] at hmem
    cases hmem
  · rw [hone, List.mem_singleton] at hmem
    rw [hone, hmem]

theorem bar_notMem_of_selects_position {c : Component} {n : Nat}
    (h : c.selects (.position n) = true) : bar ∉ c.text := by
  intro hbar
  rw [Component.selects_position, position?_eq_none hbar (by decide)] at h
  cases h

/-- What selects an element is written without a bar. -/
theorem bar_notMem_of_selects {c : Component} {s : Spot} (harray : s.node.lead = .array)
    {b : Branch} (hb : b ∈ s.branches) (hselects : c.selects b.label = true) : bar ∉ c.text := by
  obtain ⟨offset, node⟩ := s
  cases node with
  | word w => cases hb
  | number n => cases hb
  | string body => cases hb
  | object gap members => cases harray
  | array gap items =>
    obtain ⟨n, hn, -⟩ := exists_position hb
    exact bar_notMem_of_selects_position (hn ▸ hselects)

variable {d : Document} {s : Spot} {labels : List Label}

theorem Leads.distinct (h : Leads d.spot labels s) (hdistinct : d.root.Distinct) :
    s.node.Distinct := by
  induction h with
  | here => exact hdistinct
  | branch _ hb ih => exact ih.branch hb

/-- Searching for the components of the labels on a way is going it. -/
theorem search_leads (hsize : d.text.length < Number.wordLimit) (hdistinct : d.root.Distinct)
    (h : Leads d.spot labels s) (components : List Component) :
    search (labels.map Component.ofLabel ++ components) d.spot = search components s := by
  induction h generalizing components with
  | here => rfl
  | @branch t labels hleads b hb ih =>
    have hfilter := filter_ofLabel hsize (hleads.standsIn d.standsIn_spot)
      (hleads.distinct hdistinct) hb
    -- The last label first: the component in front of the others selects one branch
    rw [List.map_append, List.append_assoc, ih]
    show search (Component.ofLabel b.label :: components) t = _
    rw [search_cons, hfilter]
    simp

/-- No bar meets an array on the way. -/
theorem fits_leads (hsize : d.text.length < Number.wordLimit) (hdistinct : d.root.Distinct)
    (h : Leads d.spot labels s) {components : List Component} (hfits : Fits components s) :
    Fits (labels.map Component.ofLabel ++ components) d.spot := by
  induction h generalizing components with
  | here => exact hfits
  | @branch t labels hleads b hb ih =>
    have hfilter := filter_ofLabel hsize (hleads.standsIn d.standsIn_spot)
      (hleads.distinct hdistinct) hb
    rw [List.map_append, List.append_assoc]
    apply ih
    refine ⟨fun hbar harray => ?_, fun c hc hselects => ?_⟩
    · have hselects := selects_ofLabel hsize (hleads.standsIn d.standsIn_spot) hb
      exact bar_notMem_of_selects harray hb hselects hbar
    · have hmem : c ∈ t.branches.filter fun c => (Component.ofLabel b.label).selects c.label :=
        List.mem_filter.2 ⟨hc, hselects⟩
      rw [hfilter, List.mem_singleton] at hmem
      exact hmem ▸ hfits

theorem Leads.isContainer {s t : Spot} (h : Leads s labels t) (hne : labels ≠ []) :
    s.node.isContainer = true := by
  induction h with
  | here => exact absurd rfl hne
  | @branch t labels hleads b hb ih =>
    cases hleads with
    | here => exact isContainer_of_mem_branches hb
    | branch => exact ih (by simp)

/-- A path written with the labels on a way finds what the way leads to, unless it starts with two
dots. -/
theorem get_leads (engine : Engine) (hvalid : Utf8.isValid d.text = true)
    (hsize : d.text.length < Number.wordLimit) (hdistinct : d.root.Distinct)
    (h : Leads d.spot labels s) (hne : labels ≠ [])
    (hdepth : labels.length ≤ engine.config.maxDepth)
    (hdots : ¬[dot, dot] <+: pathOf (labels.map Component.ofLabel)) :
    (engine.get d.text (pathOf (labels.map Component.ofLabel))).value = s.result := by
  have hfits := fits_leads hsize hdistinct h (show Fits [] s from trivial)
  have hsearch := search_leads hsize hdistinct h []
  rw [List.append_nil] at hfits hsearch
  rw [get_pathOf engine d (h.isContainer hne) _ (by simpa using hne) (by simpa using hdepth)
    ((lines?_eq_none_iff _).2 hdots) hfits, hsearch]
  exact (h.standsIn d.standsIn_spot).reading_eq_result hvalid

end Ways

/-! ## Lines -/

section Lines

theorem Leads.trans {s t u : Spot} {a b : List Label} (hs : Leads s a t) (ht : Leads t b u) :
    Leads s (a ++ b) u := by
  induction ht with
  | here => rwa [List.append_nil]
  | branch _ hb ih =>
    rw [← List.append_assoc]
    exact .branch ih hb

/-- A search goes down one branch for each component, which selects it. -/
theorem exists_way_of_search {components : List Component} {s found : Spot}
    (h : search components s = some found) :
    ∃ labels, Leads s labels found ∧
      List.Forall₂ (fun c l => c.selects l = true) components labels := by
  induction components generalizing s with
  | nil =>
    obtain rfl : s = found := Option.some.inj h
    exact ⟨[], .here s, .nil⟩
  | cons c components ih =>
    rw [search_cons] at h
    obtain ⟨b, hb, hfound⟩ := List.exists_of_findSome?_eq_some h
    obtain ⟨hmem, hselects⟩ := List.mem_filter.1 hb
    obtain ⟨labels, hleads, hway⟩ := ih hfound
    have hstep : Leads s ([] ++ [b.label]) b.toSpot := .branch (.here s) hmem
    exact ⟨_, hstep.trans hleads, .cons hselects hway⟩

theorem exists_leads_of_search {components : List Component} {s found : Spot}
    (h : search components s = some found) :
    ∃ labels, Leads s labels found ∧ labels.length = components.length := by
  obtain ⟨labels, hleads, hway⟩ := exists_way_of_search h
  exact ⟨labels, hleads, hway.length_eq.symm⟩

/-- Names with a bar may meet an array, but then nothing is found. -/
theorem fits_or_search_eq_none {components : List Component}
    (hnames : ∀ c ∈ components, ∃ name, c = .ofName name) {s : Spot}
    (hdistinct : s.node.Distinct) : Fits components s ∨ search components s = none := by
  -- On the components, each of which selects one branch or none
  induction components generalizing s with
  | nil => exact .inl trivial
  | cons c components ih =>
    rw [List.forall_mem_cons] at hnames
    obtain ⟨⟨name, rfl⟩, hnames⟩ := hnames
    rcases hdistinct.filter_ofName name with hnone | ⟨b, hb, hone⟩
    · right
      rw [search_cons, hnone]
      rfl
    · rcases ih hnames (hdistinct.branch hb) with hfits | hsearch
      · left
        have hmem : ∀ c ∈ s.branches, (Component.ofName name).selects c.label = true → c = b := by
          intro c hc hselects
          have hfilter : c ∈ s.branches.filter fun b => (Component.ofName name).selects b.label :=
            List.mem_filter.2 ⟨hc, hselects⟩
          rwa [hone, List.mem_singleton] at hfilter
        have hselects : (Component.ofName name).selects b.label = true := by
          have hfilter : b ∈ [b] := List.mem_singleton_self b
          rw [← hone] at hfilter
          exact (List.mem_filter.1 hfilter).2
        refine ⟨fun hbar harray => bar_notMem_of_selects harray hb hselects hbar, ?_⟩
        exact fun c hc hselects => hmem c hc hselects ▸ hfits
      · right
        rw [search_cons, hone]
        simp [hsearch]

variable {d : Document} {s : Spot} {labels : List Label}

/-- As many labels lead to a place as its offset tells. -/
theorem length_of_leads (hvalid : Utf8.isValid d.text = true) {t : Spot} {labels' : List Label}
    (hs : Leads d.spot labels s) (ht : Leads d.spot labels' t) (hoffset : s.offset = t.offset) :
    labels.length = labels'.length := by
  obtain ⟨steps, hsteps, hcomponents⟩ := ofOffset?_leads hvalid hs
  obtain ⟨steps', hsteps', hcomponents'⟩ := ofOffset?_leads hvalid ht
  rw [hoffset, hsteps', Option.some.injEq] at hsteps
  rw [hsteps, hcomponents, Option.some.injEq] at hcomponents'
  simpa using congrArg List.length hcomponents'

/-- Fewer components than labels on the way to a place lead to another place. -/
theorem offset_ne_of_searchLines (hvalid : Utf8.isValid d.text = true)
    (h : Leads d.spot labels s) {c : Component} {components : List Component}
    (hlength : components.length < labels.length) {found : Spot}
    (hfound : searchLines c components d.stream = some found) : found.offset ≠ s.offset := by
  intro hoffset
  rw [searchLines_document] at hfound
  split at hfound
  · obtain ⟨labels', hleads, hlength'⟩ := exists_leads_of_search hfound
    have hsame := length_of_leads hvalid hleads h hoffset
    omega
  · cases hfound

/-- In a document as lines, too, nothing is found where a name with a bar meets an array. -/
theorem residueLines_or_searchLines_eq_none (hdistinct : d.root.Distinct) (c : Component)
    {components : List Component} (hnames : ∀ c ∈ components, ∃ name, c = .ofName name) :
    residueLines c components d.stream = none ∨ searchLines c components d.stream = none := by
  rw [searchLines_document]
  split
  · rename_i hselects
    have hroot : d.spot.node.Distinct := hdistinct
    rcases fits_or_search_eq_none hnames hroot with hfits | hsearch
    · refine .inl ?_
      have hstops : d.stream.branches.map (Branch.stop c) = [⟨true, d.spot⟩] := by
        rw [← hselects]
        rfl
      rw [residueLines, hstops, lastPipe_eq_self]
      · exact kept_of_selects_position hselects components none
      · intro stop hstop _ pipe
        rw [List.mem_singleton.1 hstop]
        exact residue_of_fits hfits pipe
    · exact .inr hsearch
  · exact .inr rfl

/-- A path written with the labels on a way does not find what the way leads to if it starts with
two dots. -/
theorem get_leads_of_dots (engine : Engine) (hvalid : Utf8.isValid d.text = true)
    (hdistinct : d.root.Distinct) (h : Leads d.spot labels s)
    (hdepth : labels.length ≤ engine.config.maxDepth)
    (hdots : [dot, dot] <+: pathOf (labels.map Component.ofLabel)) :
    (engine.get d.text (pathOf (labels.map Component.ofLabel))).value ≠ s.result := by
  obtain ⟨a, b, c, tail, hlabels, -, -, hlines⟩ := exists_behind_dots hdots
  have hlength : labels.length = tail.length + 3 := by
    simpa using congrArg List.length hlabels
  have hnames : ∀ c' ∈ c :: tail, ∃ name, c' = .ofName name := by
    intro c' hc'
    have hmem : c' ∈ labels.map Component.ofLabel := by
      rw [hlabels]
      exact List.mem_cons_of_mem _ (List.mem_cons_of_mem _ hc')
    obtain ⟨l, -, rfl⟩ := List.mem_map.1 hmem
    exact exists_ofName l
  rw [List.forall_mem_cons] at hnames
  obtain ⟨depth, hmax⟩ : ∃ depth, engine.config.maxDepth = depth + 1 :=
    ⟨engine.config.maxDepth - 1, by omega⟩
  have hstart := start_lines ⟨engine.dialect, engine.resolve 127⟩ d.stream c tail hlines
    (show tail.length < depth + 1 by omega)
  rw [d.text_stream] at hstart
  -- The two results differ in their index, whether or not a pipe is kept
  rw [get_of_startsPlain engine d.text (startsPlain_pathOf _) hmax, hstart]
  intro heq
  have hindex := congrArg Result.index heq
  cases hpipe : residueLines c tail d.stream with
  | none =>
    rw [hpipe] at hindex
    cases hsearch : searchLines c tail d.stream with
    | none =>
      rw [hsearch] at hindex
      cases hindex
    | some f =>
      -- The two empty names and the position of the root are missing on the way to what is found
      have hne := offset_ne_of_searchLines hvalid h (by omega) hsearch
      rw [hsearch] at hindex
      exact hne (Option.some.inj hindex)
  | some pipe =>
    -- A pipe is kept only where a bar meets an array, and there nothing is found
    have hnone : searchLines c tail d.stream = none := by
      rcases residueLines_or_searchLines_eq_none hdistinct c hnames.2 with hresidue | hsearch
      · rw [hpipe] at hresidue
        cases hresidue
      · exact hsearch
    rw [hpipe, hnone] at hindex
    have hchain := index_chain engine (engine.resolve 127) 127 Result.missing.raw pipe .zero depth
    exact nomatch hchain.symm.trans hindex

end Lines

/-! ## Round trips -/

section RoundTrips

theorem text_ofLabel_eq_nil {l : Label} (h : (Component.ofLabel l).text = []) :
    l = .key [] := by
  -- A position is written with one digit at least
  cases l with
  | position n =>
    rw [Component.ofLabel, Component.text_ofName, escape_ofNat] at h
    simp [Bytes.ofNat, Nat.toDigits_ne_nil] at h
  | key name =>
    have hname := congrArg Path.unescape h
    rw [unescape_text, Component.ofLabel, Component.name_ofName] at hname
    rw [hname]
    rfl

/-- The labels of a path that starts with two dots are two empty names and at least one more. -/
theorem dots_prefix_iff (labels : List Label) :
    [dot, dot] <+: pathOf (labels.map Component.ofLabel) ↔
      ∃ l rest, labels = .key [] :: .key [] :: l :: rest := by
  constructor
  · intro h
    obtain ⟨a, b, c, tail, hlabels, ha, hb, -⟩ := exists_behind_dots h
    match labels with
    | [] => cases hlabels
    | [_] => cases hlabels
    | [_, _] => cases hlabels
    | k :: k' :: l :: rest =>
      simp only [List.map_cons, List.cons.injEq] at hlabels
      obtain ⟨rfl, rfl, -, -⟩ := hlabels
      exact ⟨l, rest, by rw [text_ofLabel_eq_nil ha, text_ofLabel_eq_nil hb]⟩
  · rintro ⟨l, rest, rfl⟩
    exact ⟨pathOf ((l :: rest).map Component.ofLabel), rfl⟩

/-- Without an empty key among its labels a path does not start with two dots. -/
theorem lines?_labels {labels : List Label} (hkey : .key [] ∉ labels) :
    lines? (pathOf (labels.map Component.ofLabel)) = none := by
  rw [lines?_eq_none_iff, dots_prefix_iff]
  rintro ⟨l, rest, rfl⟩
  exact hkey List.mem_cons_self

/-- **Paths round-trip unless they start with two dots.**  In a UTF-8 document in which no object
has two members of one name, every value below the root that is no deeper than the engine goes has
a path, and the path finds the value again if and only if it does not start with two dots.  A word
holds the length of every text, so it holds the positions of all elements. -/
theorem get_path_iff (d : Document) (hvalid : isWellFormedUtf8 d.text = true)
    (hsize : d.text.length < Number.wordLimit) (hdistinct : d.root.Distinct) {depth : Nat}
    (hpos : 0 < depth) (hdepth : depth ≤ 1024) {r : Result} (hr : Reached d.text depth r) :
    get d.text (r.path d.text) = r ↔ ¬[dot, dot] <+: r.path d.text := by
  rw [isWellFormedUtf8, Bool.and_eq_true] at hvalid
  -- The value stands at a spot, and its path is written with the labels on the way
  obtain ⟨labels, s, hleads, rfl, rfl⟩ := (reached_iff hvalid.1 (by omega) r).1 hr
  have hne : labels ≠ [] := List.ne_nil_of_length_pos hpos
  rw [path_result hvalid.1 hleads hne]
  constructor
  · intro hget hdots
    exact get_leads_of_dots Engine.standard hvalid.1 hdistinct hleads hdepth hdots hget
  · intro hdots
    exact get_leads Engine.standard hvalid.1 hsize hdistinct hleads hne hdepth hdots

/-- The document `{"":{"":[null]}}`, whose elements have a path with two dots in front. -/
def Document.unnamed : Document :=
  let tag : Tag := ⟨.none, ⟨[], .nil⟩, .none, .none⟩
  let list : Node := .array .none [⟨.none, .word .null, .none⟩]
  ⟨.none, .object .none [⟨tag, .object .none [⟨tag, list, .none⟩], .none⟩], .none⟩

theorem Document.text_unnamed :
    Document.unnamed.text = Bytes.ofString "\x7b\"\":\x7b\"\":[null]\x7d\x7d" := by
  simp only [Document.text, Document.unnamed, Node.text_object, Node.text_array, inside_cons,
    inside_nil, separator, Gap.none, Node.text]
  rfl

theorem distinct_list : (Node.array .none [⟨.none, .word .null, .none⟩]).Distinct := by
  refine .array fun e he => ?_
  rw [List.mem_singleton] at he
  subst he
  exact .word _

theorem Node.Distinct.singleton {tag : Tag} {n : Node} (h : n.Distinct) :
    (Node.object .none [⟨tag, n, .none⟩]).Distinct := by
  refine .object (by simp) fun e he => ?_
  rw [List.mem_singleton] at he
  subst he
  exact h

theorem leads_sample :
    Leads Document.sample.spot [.key [0x61], .position 0] ⟨6, .word .null⟩ := by
  have hlist : Leads Document.sample.spot [.key [0x61]] ⟨5, _⟩ :=
    .branch (b := ⟨⟨5, _⟩, .key [0x61]⟩) (.here _) (List.mem_singleton.2 rfl)
  exact .branch (b := ⟨⟨6, _⟩, .position 0⟩) hlist (List.mem_singleton.2 rfl)

theorem leads_unnamed :
    Leads Document.unnamed.spot [.key [], .key [], .position 0] ⟨9, .word .null⟩ := by
  have hobject : Leads Document.unnamed.spot [.key []] ⟨4, _⟩ :=
    .branch (b := ⟨⟨4, _⟩, .key []⟩) (.here _) (List.mem_singleton.2 rfl)
  have hlist : Leads Document.unnamed.spot [.key [], .key []] ⟨8, _⟩ :=
    .branch (b := ⟨⟨8, _⟩, .key []⟩) hobject (List.mem_singleton.2 rfl)
  exact .branch (b := ⟨⟨9, _⟩, .position 0⟩) hlist (List.mem_singleton.2 rfl)

theorem get_path_iff_samples :
    get Document.sample.text ((Result.located .null 6).path Document.sample.text) =
        .located .null 6 ∧
      get Document.unnamed.text ((Result.located .null 9).path Document.unnamed.text) ≠
        .located .null 9 := by
  have hsample : isWellFormedUtf8 Document.sample.text = true := by
    rw [Document.text_sample]
    rfl
  have hunnamed : isWellFormedUtf8 Document.unnamed.text = true := by
    rw [Document.text_unnamed]
    rfl
  have hsampleUtf8 := (Bool.and_eq_true_iff.1 hsample).1
  have hunnamedUtf8 := (Bool.and_eq_true_iff.1 hunnamed).1
  constructor
  · have hiff := get_path_iff Document.sample hsample (by rw [Document.text_sample]; decide)
      distinct_list.singleton (by decide) (by decide)
      ((reached_iff hsampleUtf8 (by decide) (.located .null 6)).2
        ⟨_, _, leads_sample, rfl, rfl⟩)
    refine hiff.2 ?_
    have hpath : (Result.located .null 6).path Document.sample.text = _ :=
      path_result hsampleUtf8 leads_sample (by simp)
    rw [hpath]
    decide
  · have hiff := get_path_iff Document.unnamed hunnamed (by rw [Document.text_unnamed]; decide)
      distinct_list.singleton.singleton (by decide) (by decide)
      ((reached_iff hunnamedUtf8 (by decide) (.located .null 9)).2
        ⟨_, _, leads_unnamed, rfl, rfl⟩)
    intro hget
    refine hiff.1 hget ?_
    have hpath : (Result.located .null 9).path Document.unnamed.text = _ :=
      path_result hunnamedUtf8 leads_unnamed (by simp)
    rw [hpath]
    exact (dots_prefix_iff _).2 ⟨_, _, rfl⟩

end RoundTrips

end JsonQuery.Grammar
