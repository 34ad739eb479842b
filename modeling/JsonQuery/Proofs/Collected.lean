import JsonQuery.Proofs.Depth
import JsonQuery.Proofs.Gathered
import JsonQuery.Proofs.Passage

/-!
# Values collected below a filter

A path may lead to an array, filter its elements and go on inside of those that pass.  What it finds
is gathered in one array, whose text stands nowhere in the document.  The offsets recorded beside it
are those of the values, and the paths made from them lead to the values.

## Layers

- **Ways**: an offset belongs to one place of a document, and one way leads there.
- **Inside of elements**: what keys find inside of an element is what the search for them finds.
- **Arrays**: what a filter with keys behind it leaves with a walk.
- **Queries**: the array that is gathered, its offsets and its paths.
-/

namespace JsonQuery.Grammar

open Ascii Walk
open JsonQuery.Filter (single every)

/-! ## Ways -/

section Ways

variable {s t : Spot} {labels : List Label}

theorem Leads.bounds (h : Leads s labels t) :
    s.offset ≤ t.offset ∧ t.after ≤ s.after ∧ (labels ≠ [] → s.offset < t.offset) := by
  induction h with
  | here => exact ⟨Nat.le_refl _, Nat.le_refl _, fun hne => absurd rfl hne⟩
  | branch _ hb ih =>
    have hbounds := Spot.bounds_branch hb
    exact ⟨by omega, by omega, fun _ => by omega⟩

theorem Leads.eq_of_nil (h : Leads s [] t) : s = t := by
  generalize hway : [] = way at h
  cases h with
  | here => rfl
  | branch => exact absurd hway (by simp)

/-- The first label of a way belongs to a branch, and the others lead on from there. -/
theorem Leads.uncons {l : Label} (h : Leads s (l :: labels) t) :
    ∃ b ∈ s.branches, b.label = l ∧ Leads b.toSpot labels t := by
  generalize hway : l :: labels = way at h
  induction h generalizing labels with
  | here => cases hway
  | @branch t front hfront b hb ih =>
    cases front with
    | nil =>
      obtain ⟨rfl, rfl⟩ := List.cons.inj hway
      obtain rfl := hfront.eq_of_nil
      exact ⟨b, hb, rfl, .here _⟩
    | cons l' front =>
      obtain ⟨rfl, rfl⟩ := List.cons.inj hway
      obtain ⟨b', hb', hlabel, hrest⟩ := ih rfl
      exact ⟨b', hb', hlabel, .branch hrest hb⟩

/-- Branches that share an offset are the same. -/
theorem Spot.branch_unique {a b : Branch} (ha : a ∈ s.branches) (hb : b ∈ s.branches) {i : Nat}
    (hia : a.offset ≤ i ∧ i < a.after) (hib : b.offset ≤ i ∧ i < b.after) : a = b := by
  have happart : a = b ∨ a.after ≤ b.offset ∨ b.after ≤ a.offset := by
    apply List.Pairwise.forall_of_forall_of_flip (R := fun a b : Branch =>
      a = b ∨ a.after ≤ b.offset ∨ b.after ≤ a.offset) _ _ _ ha hb
    · exact fun a _ => .inl rfl
    · exact s.pairwise_branches.imp fun h => .inr (.inl h)
    · exact s.pairwise_branches.imp fun h => .inr (.inr h)
  rcases happart with h | h | h
  · exact h
  · omega
  · omega

/-- An offset belongs to one place, and one way leads there. -/
theorem Leads.unique {labels' : List Label} {t' : Spot} (h : Leads s labels t)
    (h' : Leads s labels' t') (hoffset : t.offset = t'.offset) : labels = labels' ∧ t = t' := by
  induction labels generalizing s labels' with
  | nil =>
    cases labels' with
    | nil =>
      exact ⟨rfl, h.eq_of_nil.symm.trans h'.eq_of_nil⟩
    | cons l' labels' =>
      obtain rfl := h.eq_of_nil
      have hlt := h'.bounds.2.2 (List.cons_ne_nil l' labels')
      omega
  | cons l labels ih =>
    cases labels' with
    | nil =>
      obtain rfl := h'.eq_of_nil
      have hlt := h.bounds.2.2 (List.cons_ne_nil l labels)
      omega
    | cons l' labels' =>
      obtain ⟨b, hb, rfl, hrest⟩ := h.uncons
      obtain ⟨b', hb', rfl, hrest'⟩ := h'.uncons
      have hbounds := hrest.bounds
      have hbounds' := hrest'.bounds
      have hlt := t.offset_lt_after
      have hlt' := t'.offset_lt_after
      obtain rfl : b = b' := Spot.branch_unique hb hb' (i := t.offset) (by omega) (by omega)
      obtain ⟨rfl, rfl⟩ := ih hrest hrest'
      exact ⟨rfl, rfl⟩

end Ways

/-! ## Inside of elements -/

section Inside

theorem barFrom?_cons {b : UInt8} (hbar : b ≠ bar) (hslash : b ≠ backslash) (hhash : b ≠ hash)
    (offset : Nat) (rest : Bytes) :
    Pipe.barFrom? offset (b :: rest) = Pipe.barFrom? (offset + 1) rest := by
  rw [Pipe.barFrom?, if_neg hbar, if_neg hslash, if_neg (by simp [hhash])]

theorem barFrom?_text (c : Component) (offset : Nat) (rest : Bytes) :
    Pipe.barFrom? offset (c.text ++ rest) = Pipe.barFrom? (offset + c.text.length) rest := by
  induction c generalizing offset with
  | nil => rfl
  | cons piece pieces ih =>
    have htext : Component.text (piece :: pieces) = piece.text ++ Component.text pieces := rfl
    rw [htext, List.append_assoc, List.length_append, ← Nat.add_assoc, ← ih]
    cases piece with
    | plain b h =>
      have hne : ∀ c, isLiteral c = false → b ≠ c := fun _ hc => ne_of_isLiteral h hc
      exact barFrom?_cons (hne bar rfl) (hne backslash rfl) (hne hash rfl) _ _
    | escaped b =>
      -- What is behind a backslash is passed over with it
      rw [Piece.text, List.cons_append, Pipe.barFrom?, if_neg (by decide), if_pos rfl]
      rfl
    | any => exact barFrom?_cons (by decide) (by decide) (by decide) _ _
    | one => exact barFrom?_cons (by decide) (by decide) (by decide) _ _

theorem barFrom?_behind (components : List Component) (offset : Nat) :
    Pipe.barFrom? offset (behind components) = none := by
  induction components generalizing offset with
  | nil => rw [behind, Pipe.barFrom?]
  | cons c components ih =>
    rw [behind, barFrom?_cons (by decide) (by decide) (by decide), pathOf_cons, barFrom?_text, ih]

/-- All bars of a path of components stand behind a backslash, so none splits it. -/
theorem split_pathOf (components : List Component) :
    Pipe.split (pathOf components) = (pathOf components, none) := by
  have hbar : Pipe.bar? (pathOf components) = none := by
    cases components with
    | nil => rfl
    | cons c components =>
      have hplain := startsPlain_pathOf (c :: components)
      have hnone : Pipe.barFrom? 0 (pathOf (c :: components)) = none := by
        rw [pathOf_cons, barFrom?_text, barFrom?_behind]
      generalize pathOf (c :: components) = path at hplain hnone
      cases path with
      | nil => rfl
      | cons b rest =>
        rw [Pipe.bar?, (hplain b rfl).2.2.2]
        exact hnone
  rw [Pipe.split, hbar]

variable (engine : Engine) {labels : List Label} (hne : labels ≠ []) (hkey : .key [] ∉ labels)
  {depth : Nat} (hroom : labels.length ≤ depth + 1)

include hne hkey hroom

/-- Keys and positions find in the text of a container what the search for them finds there, however
deep the path is nested. -/
theorem value_resolve_labels (room : Nat) {n : Node} (hn : n.isContainer = true)
    (hdistinct : n.Distinct) :
    (engine.resolve (room + 1) n.text (pathOf (labels.map Component.ofLabel)) (depth + 1)).value =
      answer (search (labels.map Component.ofLabel) ⟨0, n⟩) := by
  let d : Document := ⟨.none, n, .none⟩
  have htext : d.text = n.text := by simp [d, Document.text, Gap.none]
  have hlines := lines?_labels hkey
  have hnames := @names_of_labels labels
  have htexts := text_ne_nil_of_mem hkey
  obtain ⟨l, rest, rfl⟩ := List.exists_cons_of_ne_nil hne
  rw [List.map_cons] at hlines hnames htexts ⊢
  have hlength : (Component.ofLabel l :: rest.map Component.ofLabel).length ≤ depth + 1 := by
    simpa using hroom
  have hstart := start_eq_search ⟨engine.dialect, engine.resolve room⟩ d hn (.ofLabel l)
    (rest.map Component.ofLabel) hlines hlength
  rw [htext, show d.spot = ⟨0, n⟩ from rfl] at hstart
  rw [Engine.resolve, Engine.chain_components _ _ _ _ _ (link_pathOf _ _ _ _ _ _), hstart]
  dsimp only
  rcases residue_eq_none_or hnames htexts (s := ⟨0, n⟩) hdistinct with
    hnone | ⟨hnone, inner, hresidue, hpath⟩
  · rw [hnone]
    exact rebase_zero _
  · rw [hnone, hresidue]
    exact chain_missing engine _ _ inner hpath _ _ _

/-- What a filter with keys and positions behind it takes from an element is what the search for
them finds. -/
theorem value_pick (room : Nat) {s : Spot} {text : Bytes} (hstands : s.StandsIn text)
    (hvalid : Utf8.isValid text = true) (hs : s.node.isContainer = true)
    (hdistinct : s.node.Distinct) :
    (pick ⟨engine.dialect, engine.resolve (room + 1)⟩
        (some (pathOf (labels.map Component.ofLabel))) (depth + 1) s.result).value =
      ((search (labels.map Component.ofLabel) s).map Spot.result).getD .missing := by
  have hraw : s.result.raw = s.node.text := s.node.raw_value
  have hmoved : s = Spot.moved s.offset ⟨0, s.node⟩ := rfl
  have hresolve := value_resolve_labels engine hne hkey hroom room hs hdistinct
  -- The element is resolved by itself and the result moved to where the element stands
  have hanswer : (pick ⟨engine.dialect, engine.resolve (room + 1)⟩
      (some (pathOf (labels.map Component.ofLabel))) (depth + 1) s.result).value =
        answer (search (labels.map Component.ofLabel) s) := by
    rw [hmoved, search_moved, answer_moved, ← hresolve, ← hmoved, ← hraw]
    rfl
  rw [hanswer]
  cases hsearch : search (labels.map Component.ofLabel) s with
  | none => rfl
  | some found => exact (standsIn_search hstands hsearch).reading_eq_result hvalid

end Inside

/-! ## Arrays -/

/-- What components find in the elements of an array that pass a filter. -/
def Spot.collected (env : Surroundings) (f : Filter) (room : Nat) (components : List Component)
    (t : Spot) : List Spot :=
  ((t.branches.map Branch.toSpot).filter fun s => (judge env f room s.result).value).filterMap
    (search components)

section Arrays

variable {t s : Spot}

theorem exists_branch_of_mem_collected {env : Surroundings} {f : Filter} {room : Nat}
    {components : List Component} (hs : s ∈ t.collected env f room components) :
    ∃ b ∈ t.branches, search components b.toSpot = some s := by
  obtain ⟨element, helement, hsearch⟩ := List.mem_filterMap.1 hs
  obtain ⟨b, hb, rfl⟩ := List.mem_map.1 (List.mem_filter.1 helement).1
  exact ⟨b, hb, hsearch⟩

/-- The way to what is collected goes over an element and on by labels that the components
select. -/
theorem exists_way_of_mem_collected {env : Surroundings} {f : Filter} {room : Nat}
    {components : List Component} (harray : t.node.lead = .array)
    (hs : s ∈ t.collected env f room components) :
    ∃ position below, Leads t (.position position :: below) s ∧
      List.Forall₂ (fun c l => c.selects l = true) components below := by
  obtain ⟨b, hb, hsearch⟩ := exists_branch_of_mem_collected hs
  obtain ⟨below, hleads, hway⟩ := exists_way_of_search hsearch
  obtain ⟨position, hlabel⟩ := exists_position_of_lead harray hb
  have hstep : Leads t ([] ++ [b.label]) b.toSpot := .branch (.here t) hb
  rw [hlabel] at hstep
  exact ⟨position, below, hstep.trans hleads, hway⟩

theorem bounds_search {components : List Component} (h : search components s = some t) :
    s.offset ≤ t.offset ∧ t.after ≤ s.after := by
  obtain ⟨labels, hleads, -⟩ := exists_leads_of_search h
  exact ⟨hleads.bounds.1, hleads.bounds.2.1⟩

/-- What is collected from an array stands in the order of the document. -/
theorem pairwise_collected (env : Surroundings) (f : Filter) (room : Nat)
    (components : List Component) (t : Spot) :
    (t.collected env f room components).Pairwise fun a b => a.offset < b.offset := by
  have helements : ((t.branches.map Branch.toSpot).filter fun s =>
      (judge env f room s.result).value).Pairwise fun a b => a.after ≤ b.offset :=
    (List.pairwise_map.2 t.pairwise_branches).filter _
  refine helements.filterMap _ fun a b hab a' ha' b' hb' => ?_
  have ha := bounds_search ha'
  have hb := bounds_search hb'
  have hlt := a'.offset_lt_after
  omega

variable {text : Bytes} (hstands : t.StandsIn text) (hvalid : Utf8.isValid text = true)
  (harray : t.node.lead = .array) {n : Nat} (hafter : t.after ≤ n) (rest : Bytes)

include hstands hvalid harray hafter

/-- Behind the bracket of an array its elements are read, wherever the document ends behind them. -/
theorem elementsFrom_inside :
    (t.inside n rest).elementsFrom [] =
      ⟨(t.branches.map Branch.toSpot).map Spot.result, t.behind n rest, true⟩ := by
  have hlt : t.offset < n := Nat.lt_of_lt_of_le t.offset_lt_after hafter
  have hlength : t.offset + t.node.text.length ≤ n := hafter
  rw [Spot.inside, ← Cursor.advance_one_cut hlt, Cursor.cut_append _ _ hlength,
    elementsFrom_spot hstands hvalid harray, Spot.behind, Cursor.cut_mk _ hafter]
  rfl

variable (hbranches : ∀ b ∈ t.branches, b.node.isContainer = true) (hdistinct : t.node.Distinct)
  {f : Bytes} {filter : Filter} (hparse : Filter.parse? (single f) = some (filter, f.length + 3))
  (engine : Engine) {labels : List Label} (hne : labels ≠ []) (hkey : .key [] ∉ labels)
  {depth : Nat} (hroom : labels.length ≤ depth + 1)

include hbranches hdistinct hparse hne hkey hroom

/-- A filter for all elements with keys and positions behind it leaves the walk with what it
collects, and passes over the array. -/
theorem openAt_every (room : Nat) (walk : Walk) (hwalk : walk.value = .missing) :
    let env : Surroundings := ⟨engine.dialect, engine.resolve (room + 1)⟩
    let components := labels.map Component.ofLabel
    ∃ counts, openAt env (t.node.lead == .object) (t.inside n rest)
        (every f ++ dot :: pathOf components) (depth + 2) walk =
      ({ walk with
          value := gathered
            (t.collected env { filter with collects := true } (depth + 1) components),
          counts }, .passed (t.behind n rest)) := by
  intro env components
  have hpicked : ∀ s ∈ t.branches.map Branch.toSpot,
      (pick env (some (pathOf components)) (depth + 1) s.result).value =
        ((search components s).map Spot.result).getD .missing := by
    intro s hs
    obtain ⟨b, hb, rfl⟩ := List.mem_map.1 hs
    exact value_pick engine hne hkey hroom room (hstands.branch hb) hvalid (hbranches b hb)
      (hdistinct.branch hb)
  obtain ⟨counts, hfiltered⟩ := filterFrom_picking
    (fun s => (judge env { filter with collects := true } (depth + 1) s.result).value)
    (search components) (t.branches.map Branch.toSpot) (fun _ _ => rfl) hpicked rfl walk []
  have hfound : ({ walk with counts } : Walk).value.found = false := by
    rw [show ({ walk with counts } : Walk).value = .missing from hwalk]
    rfl
  refine ⟨counts, ?_⟩
  rw [harray, openAt, if_neg (Nat.succ_ne_zero _), if_neg (by decide), openArray,
    Filter.elementComponent_every_deeper hparse]
  dsimp only [keepPipe]
  rw [elementsFrom_inside hstands hvalid harray hafter, openFilter, insidePath, split_pathOf]
  dsimp only
  rw [show depth + 2 - 1 = depth + 1 from rfl, hfiltered, List.append_nil,
    close_items _ _ _ hfound]
  rfl

end Arrays

/-! ## Queries -/

theorem map_ofLabel_key (keys : List Bytes) :
    (keys.map Label.key).map Component.ofLabel = keys.map Component.ofName := by
  rw [List.map_map]
  rfl

theorem key_notMem_of_notMem {keys : List Bytes} (h : [] ∉ keys) :
    .key [] ∉ keys.map Label.key := by
  intro hmem
  obtain ⟨k, hk, heq⟩ := List.mem_map.1 hmem
  exact h (Label.key.inj heq ▸ hk)

/-- The path of what keys lead to in the elements, that pass a filter, of the array that labels lead
to. -/
def collecting (front : List Label) (f : Bytes) (keys : List Bytes) : Bytes :=
  pathOf (front.map Component.ofLabel) ++
    dot :: (every f ++ dot :: pathOf (keys.map Component.ofName))

section Queries

/-- A filter behind a dot is a component like any other. -/
theorem afterDot_every (dialect : Dialect) (f rest : Bytes) :
    dialect.afterDot (every f ++ rest) = .deeper (every f ++ rest) := by
  have hpipe : dialect.pipesInto (every f ++ rest) = false := by
    show (dialect.modifiers && if hash = atSign then _ else opensContainer hash) = false
    rw [if_neg (by decide)]
    exact Bool.and_false _
  rw [Dialect.afterDot, hpipe, if_neg Bool.false_ne_true]

variable (engine : Engine) {d : Document} (hvalid : Utf8.isValid d.text = true)
  (hdistinct : d.root.Distinct) {front way : List Label} (hfront : front ≠ [])
  (hkey : .key [] ∉ front) {array : Spot} (hleads : Leads d.spot way array)
  (harray : array.node.lead = .array)
  (hresolves : (engine.get d.text (pathOf (front.map Component.ofLabel))).value = array.result)

include hleads harray in
theorem isContainer_root : d.root.isContainer = true := by
  by_cases hway : way = []
  · subst hway
    obtain rfl := hleads.eq_of_nil
    rw [Node.isContainer, show d.root.lead = .array from harray]
    rfl
  · exact hleads.isContainer hway

include hvalid hdistinct hfront hkey hleads harray hresolves

/-- A path that finds an array of the document is a search that ends there. -/
theorem search_of_get : search (front.map Component.ofLabel) d.spot = some array := by
  have hroot := isContainer_root hleads harray
  have hroom : front.length ≤ engine.config.maxDepth := by
    apply Decidable.byContradiction
    intro hshort
    rw [get_labels_of_short hroot hdistinct engine hkey (Nat.lt_of_not_le hshort)] at hresolves
    exact array.result_ne_missing hresolves.symm
  have hpos := List.length_pos_iff.2 hfront
  obtain ⟨depth, hmax⟩ : ∃ depth, engine.config.maxDepth = depth + 1 :=
    ⟨engine.config.maxDepth - 1, by omega⟩
  rw [get_labels hmax hfront hkey (hmax ▸ hroom) d hroot hdistinct] at hresolves
  cases hsearch : search (front.map Component.ofLabel) d.spot with
  | none =>
    rw [hsearch] at hresolves
    exact absurd hresolves.symm array.result_ne_missing
  | some found =>
    -- What is found has the offset of the array, which belongs to one place
    have hreading := (standsIn_search d.standsIn_spot hsearch).reading_eq_result hvalid
    rw [hsearch] at hresolves
    have hindex := congrArg Result.index (hreading.symm.trans hresolves)
    obtain ⟨labels, hfound, -⟩ := exists_leads_of_search hsearch
    exact congrArg some (hfound.unique hleads (Option.some.inj hindex)).2

variable (hobjects : ∀ b ∈ array.branches, b.node.lead = .object) {f : Bytes} {filter : Filter}
  (hparse : Filter.parse? (single f) = some (filter, f.length + 3)) {keys : List Bytes}
  (hkeys : keys ≠ []) (hempty : [] ∉ keys)
  (hhits : (engine.get d.text (collecting front f keys)).counts.depthHits = 0)

include hobjects hparse hkeys hempty hhits

/-- If no bound is hit, the array that is gathered is made of what is collected. -/
theorem exists_collected :
    ∃ room, (engine.get d.text (collecting front f keys)).value =
      gathered (array.collected ⟨engine.dialect, engine.resolve 127⟩
        { filter with collects := true } room (keys.map Component.ofName)) := by
  have hroot := isContainer_root hleads harray
  have hsearch := search_of_get engine hvalid hdistinct hfront hkey hleads harray hresolves
  have hstands : array.StandsIn d.text := hleads.standsIn d.standsIn_spot
  have hcontainer : array.node.isContainer = true := by
    rw [Node.isContainer, harray]
    rfl
  have hbranches : ∀ b ∈ array.branches, b.node.isContainer = true := by
    intro b hb
    rw [Node.isContainer, hobjects b hb]
    rfl
  -- The room that the filter is left with is enough for the keys
  let depth := engine.config.maxDepth + keys.length
  have hroom : (keys.map Label.key).length ≤ depth + 1 := by
    simp only [List.length_map, depth]
    omega
  have heffect := fun rest walk hwalk => openAt_every hstands hvalid harray hstands.after_le rest
    hbranches (hleads.distinct hdistinct) hparse engine (by simpa using hkeys)
    (key_notMem_of_notMem hempty) hroom 126 walk hwalk
  rw [map_ofLabel_key] at heffect
  -- Behind the components in front of it the filter leaves the same
  have hnames := @names_of_labels front
  have htexts := text_ne_nil_of_mem hkey
  have hne : front.map Component.ofLabel ≠ [] := by simpa using hfront
  have hpath := pathOn_eq hne
    (every f ++ dot :: pathOf (keys.map Component.ofName))
  have hmore := Engine.value_get_of_no_hit engine hhits (front.length + keys.length + 2)
  have hdepth : engine.config.maxDepth + (front.length + keys.length + 2) =
      front.length + depth + 1 + 1 := by
    simp only [depth]
    omega
  rw [hdepth, collecting, ← hpath] at hmore
  obtain ⟨l, rest, rfl⟩ := List.exists_cons_of_ne_nil hfront
  have hlength : (Component.ofLabel l :: rest.map Component.ofLabel).length + (depth + 2) =
      (l :: rest).length + depth + 1 + 1 := by
    simp only [List.length_cons, List.length_map]
    omega
  rw [List.map_cons] at hsearch hnames htexts hpath hmore
  obtain ⟨counts, hstart⟩ := start_pathOn hroot hdistinct ⟨engine.dialect, engine.resolve 127⟩
    hnames (htexts _ List.mem_cons_self) (afterDot_every _ f _) hcontainer hsearch heffect
  refine ⟨depth + 1, ?_⟩
  rw [collecting, List.map_cons, ← hpath, ← hmore,
    resolve_of_startsPlain engine d.text (startsPlain_pathOn _ _ _), ← hlength, hstart]
  rfl

end Queries

/-- **The offsets and the paths of what a filter collects are those of its values.**  In a UTF-8
document in which no object has two members of one name, let keys and positions find an array of the
document whose elements are objects.  A filter behind them, with keys behind that, hits no bound
and finds values with recorded offsets.  Then

- there are as many elements as offsets, and as many paths;
- the offsets ascend;
- at each offset stands a value of the document with the text of the element, and the path is
  written with the labels on the way there: those of the array, the position of the element, and
  labels that the keys select.

The filter is any text whose bracket closes at its end.  The array is one of the document: a query
of a string may find an array between its quotes, and no labels lead there. -/
theorem get_collecting (engine : Engine) (d : Document) (hvalid : isWellFormedUtf8 d.text = true)
    (hdistinct : d.root.Distinct) {front way : List Label} (hfront : front ≠ [])
    (hkey : .key [] ∉ front) {array : Spot} (hleads : Leads d.spot way array)
    (harray : array.node.lead = .array) (hobjects : ∀ b ∈ array.branches, b.node.lead = .object)
    (hresolves : (engine.get d.text (pathOf (front.map Component.ofLabel))).value = array.result)
    {f : Bytes} {filter : Filter}
    (hparse : Filter.parse? (single f) = some (filter, f.length + 3)) {keys : List Bytes}
    (hkeys : keys ≠ []) (hempty : [] ∉ keys)
    (hhits : (engine.get d.text (collecting front f keys)).counts.depthHits = 0) {ix : List Nat}
    (hix : (engine.get d.text (collecting front f keys)).value.indexes = some ix) :
    let r := (engine.get d.text (collecting front f keys)).value
    List.Forall₂ (fun l l' => (Component.ofLabel l).selects l' = true) front way ∧
      r.elements.length = ix.length ∧ (r.paths d.text).length = ix.length ∧
      ix.Pairwise (· < ·) ∧
      ∀ (j i : Nat), ix[j]? = some i →
        ∃ (s : Spot) (position : Nat) (below : List Label),
          Leads d.spot (way ++ .position position :: below) s ∧ s.offset = i ∧
            List.Forall₂ (fun k l => (Component.ofName k).selects l = true) keys below ∧
            r.elements[j]? = some s.result ∧ s.result.raw <+: d.text.drop i ∧
            (r.paths d.text)[j]? =
              some (pathOf ((way ++ .position position :: below).map Component.ofLabel)) := by
  rw [isWellFormedUtf8, Bool.and_eq_true] at hvalid
  intro r
  have hsearch := search_of_get engine hvalid.1 hdistinct hfront hkey hleads harray hresolves
  obtain ⟨labels, hfound, hway⟩ := exists_way_of_search hsearch
  obtain rfl := (hfound.unique hleads rfl).1
  obtain ⟨room, hr⟩ := exists_collected engine hvalid.1 hdistinct hfront hkey hleads harray
    hresolves hobjects hparse hkeys hempty hhits
  -- The way to every value that is collected starts with the way to the array
  generalize hspots : array.collected ⟨engine.dialect, engine.resolve 127⟩
    { filter with collects := true } room (keys.map Component.ofName) = spots at hr
  have hascend : spots.Pairwise fun a b => a.offset < b.offset := by
    rw [← hspots]
    exact pairwise_collected _ _ _ _ _
  have hways : ∀ s ∈ spots, ∃ position below,
      Leads d.spot (labels ++ .position position :: below) s ∧
        List.Forall₂ (fun k l => (Component.ofName k).selects l = true) keys below := by
    intro s hs
    rw [← hspots] at hs
    obtain ⟨position, below, hbelow, hselects⟩ := exists_way_of_mem_collected harray hs
    exact ⟨position, below, hleads.trans hbelow, List.forall₂_map_left_iff.1 hselects⟩
  have hutf8 : ∀ s ∈ spots, Utf8.isValid s.node.text = true := by
    intro s hs
    obtain ⟨position, below, hway, -⟩ := hways s hs
    exact (hway.standsIn d.standsIn_spot).isValid hvalid.1
  have hoffsets : ix = spots.map Spot.offset := by
    rw [hr, indexes_gathered] at hix
    split at hix
    · cases hix
    · exact (Option.some.inj hix).symm
  have helements : r.elements = spots.map Spot.result :=
    (congrArg Result.elements hr).trans (elements_gathered hutf8)
  have hpaths : r.paths d.text = spots.map fun s => s.result.path d.text :=
    (congrArg (Result.paths d.text) hr).trans (paths_gathered hutf8 d.text)
  rw [helements, hpaths, hoffsets, List.length_map, List.length_map, List.length_map,
    List.pairwise_map]
  refine ⟨List.forall₂_map_left_iff.1 hway, rfl, rfl, hascend, fun j i hj => ?_⟩
  rw [List.getElem?_map] at hj
  obtain ⟨s, hs, rfl⟩ := Option.map_eq_some_iff.1 hj
  obtain ⟨position, below, hway, hselects⟩ := hways s (List.mem_of_getElem? hs)
  refine ⟨s, position, below, hway, rfl, hselects, by simp [hs], ?_, ?_⟩
  · rw [show s.result.raw = s.node.text from s.node.raw_value]
    exact (hway.standsIn d.standsIn_spot).prefix_drop
  · rw [List.getElem?_map, hs, Option.map_some, path_result hvalid.1 hway (by simp)]

/-- The document `{"a":[{"a":"x"},{},{"a":"z"}]}`. -/
def Document.shelf : Document :=
  ⟨.none, .object .none [⟨⟨.none, ⟨[0x61], isBody_a⟩, .none, .none⟩, Document.listing.root, .none⟩],
    .none⟩

theorem Document.text_shelf :
    Document.shelf.text =
      Bytes.ofString "\x7b\"a\":[\x7b\"a\":\"x\"\x7d,\x7b\x7d,\x7b\"a\":\"z\"\x7d]\x7d" := by
  simp only [Document.text, Document.shelf, Document.listing, Node.text_object, Node.text_array,
    inside_cons, inside_nil, separator, Gap.none, Node.text]
  rfl

theorem distinct_listing : Document.listing.root.Distinct := by
  refine .array fun e he => ?_
  simp only [List.mem_cons, List.not_mem_nil, or_false] at he
  rcases he with rfl | rfl | rfl
  · exact .singleton (.string _)
  · exact .object .nil (fun e he => by cases he)
  · exact .singleton (.string _)

theorem get_collecting_sample :
    let r := (Engine.standard.get Document.shelf.text
      (collecting [.key [0x61]] (Bytes.ofString "a>\"b\"") [[0x61]])).value
    r.indexes = some [11, 24] ∧ r.elements.length = 2 ∧
      (r.paths Document.shelf.text).length = 2 := by
  have hvalid : isWellFormedUtf8 Document.shelf.text = true := by
    rw [Document.text_shelf]
    rfl
  have hleads : Leads Document.shelf.spot [.key [0x61]] ⟨5, Document.listing.root⟩ :=
    .branch (b := ⟨⟨5, _⟩, .key [0x61]⟩) (.here _) (List.mem_singleton.2 rfl)
  have hobjects : ∀ b ∈ (Spot.mk 5 Document.listing.root).branches, b.node.lead = .object := by
    decide
  have hresolves : (Engine.standard.get Document.shelf.text
      (pathOf ([Label.key [0x61]].map Component.ofLabel))).value =
        (Spot.mk 5 Document.listing.root).result := by
    have hpath : pathOf ([Label.key [0x61]].map Component.ofLabel) = [0x61] := by decide
    have htext : Document.listing.root.text = Document.listing.text := by
      simp [Document.text, Document.listing, Gap.none]
    have hresult : (Spot.mk 5 Document.listing.root).result =
        .located (.json Document.listing.root.text) 5 := rfl
    rw [hpath, hresult, htext, Document.text_shelf, Document.text_listing]
    decide +kernel
  have hparse : Filter.parse? (single (Bytes.ofString "a>\"b\"")) =
      some (⟨[0x61], .greater, [0x62], false⟩, (Bytes.ofString "a>\"b\"").length + 3) := by
    decide +kernel
  have hfound : Engine.standard.get Document.shelf.text
      (collecting [.key [0x61]] (Bytes.ofString "a>\"b\"") [[0x61]]) =
        ⟨⟨.json (Bytes.ofString "[\"x\",\"z\"]"), none, some [11, 24]⟩, .oneGet⟩ := by
    rw [Document.text_shelf]
    decide +kernel
  have h := get_collecting Engine.standard .shelf hvalid (.singleton distinct_listing) (by simp)
    (by simp) hleads rfl hobjects hresolves hparse (by simp) (by simp)
    (congrArg (fun x => x.counts.depthHits) hfound)
    (congrArg (fun x => x.value.indexes) hfound)
  exact ⟨congrArg (fun x => x.value.indexes) hfound, h.2.1, h.2.2.1⟩

end JsonQuery.Grammar
