import JsonQuery.Engine.Standard
import JsonQuery.Proofs.Chains
import JsonQuery.Proofs.Recognition
import JsonQuery.Proofs.Walk

/-!
# Plain resolution is tree search

A path of components, written without a bar and without two dots in front, is resolved by searching
the tree of the document.

## Layers

- **Starting**: a walk starts at the root of a document that is a container.
- **Chains**: a path of components is the last link of its chain.
- **Queries**: what a path of components finds in a document.
-/

namespace JsonQuery.Grammar

open Ascii Walk

/-! ## Starting -/

/-- The result of a search. -/
def answer (found : Option Spot) : Result :=
  (found.map Spot.reading).getD .missing

theorem lines?_eq_none_iff (path : Bytes) :
    lines? path = none ↔ ¬[dot, dot] <+: path := by
  match path with
  | [] => simp [lines?]
  | [a] => simp [lines?]
  | a :: b :: rest =>
    have hsame : [dot, dot] <+: a :: b :: rest ↔ a = dot ∧ b = dot := by
      simp [eq_comm (a := dot)]
    rw [hsame]
    by_cases h : a = dot ∧ b = dot
    · simp [lines?, h]
    · simp [lines?, h]

theorem not_opensContainer_of_mem_gapBytes {c : UInt8} (h : c ∈ gapBytes) :
    opensContainer c = false := by
  have hall : gapBytes.all (fun c => !opensContainer c) = true := rfl
  simpa using List.all_eq_true.1 hall c h

theorem Node.container_cons {n : Node} (h : n.isContainer = true) :
    ∃ c rest, n.text = c :: rest ∧ opensContainer c = true ∧
      (c == openBrace) = (n.lead == .object) := by
  cases n with
  | word w => cases h
  | number n => cases h
  | string body => cases h
  | array gap items => exact ⟨openBracket, _, text_array gap items, rfl, rfl⟩
  | object gap members => exact ⟨openBrace, _, text_object gap members, rfl, rfl⟩

/-- The first container of a document whose root is one is the root. -/
theorem toContainer_document (d : Document) (hroot : d.root.isContainer = true) :
    (Cursor.start d.text).toContainer =
      ⟨d.before.text.length, d.root.text ++ d.after.text⟩ := by
  obtain ⟨c, rest, htext, hc, -⟩ := Node.container_cons hroot
  -- No byte of the gap in front opens a container
  have hgap : (Cursor.mk 0 (d.before.text ++ (d.root.text ++ d.after.text))).find
      opensContainer = (Cursor.mk (0 + d.before.text.length) (d.root.text ++ d.after.text)).find
        opensContainer :=
    find_append (fun c hc => not_opensContainer_of_mem_gapBytes (d.before.isGap c hc)) 0 _
  rw [Cursor.toContainer, Cursor.start, Document.text, hgap, htext, List.cons_append,
    find_cons hc, Nat.zero_add]

/-- A walk through a document that ends at an offset enters the root, if the root is a container
whose bracket is still there and the path does not start with two dots. -/
theorem start_eq_entered (env : Surroundings) (d : Document) (hroot : d.root.isContainer = true)
    {n : Nat} (hn : d.before.text.length < n) {path : Bytes} (hlines : lines? path = none)
    (room : Nat) :
    start env (d.text.take n) path room =
      entered env {} (d.root.lead == .object)
        (((Cursor.mk d.before.text.length (d.root.text ++ d.after.text)).advance 1).cut n) path
        room [] := by
  obtain ⟨b, rest, htext, -, hbrace⟩ := Node.container_cons hroot
  have hpeek : (Cursor.mk d.before.text.length (d.root.text ++ d.after.text)).peek? = some b := by
    simp [Cursor.peek?, htext]
  rw [start, hlines]
  dsimp only
  rw [Cursor.start_take, Cursor.toContainer, Cursor.find_cut, ← Cursor.toContainer,
    toContainer_document d hroot, Cursor.peek?_cut hn, hpeek]
  dsimp only
  rw [hbrace, enter_eq_entered, Cursor.advance_one_cut hn]

/-- A walk through a document that ends at an offset is a search in what is left of its tree. -/
theorem start_shown (env : Surroundings) (d : Document) (hroot : d.root.isContainer = true)
    {n : Nat} (hn : d.before.text.length < n) (c : Component) (components : List Component)
    (hlines : lines? (pathOf (c :: components)) = none) {room : Nat}
    (hroom : (c :: components).length ≤ room) :
    start env (d.text.take n) (pathOf (c :: components)) room =
      { value := (searchShown n (c :: components) d.spot).getD .missing,
        pipe := residueShown n (c :: components) d.spot none } := by
  have hentered := entered_shown env c components d.spot hroot hn d.after.text hroom {} []
  rw [start_eq_entered env d hroot hn hlines]
  refine hentered.trans ?_
  cases searchShown n (c :: components) d.spot with
  | none => exact run_nil env _ _
  | some value => rfl

/-- A walk through a document is a search in its tree. -/
theorem start_eq_search (env : Surroundings) (d : Document) (hroot : d.root.isContainer = true)
    (c : Component) (components : List Component)
    (hlines : lines? (pathOf (c :: components)) = none) {room : Nat}
    (hroom : (c :: components).length ≤ room) :
    start env d.text (pathOf (c :: components)) room =
      { value := answer (search (c :: components) d.spot),
        pipe := residue (c :: components) d.spot none } := by
  have hafter := d.standsIn_spot.after_le
  have hlt : d.before.text.length < d.text.length :=
    Nat.lt_of_lt_of_le d.spot.offset_lt_after hafter
  -- No cut is a cut at the end of the text
  have hshown := start_shown env d hroot hlt c components hlines hroom
  rw [List.take_length, searchShown_of_after_le hafter,
    residueShown_of_after_le hafter] at hshown
  exact hshown

/-! ## Chains -/

theorem link_of_startsPlain (engine : Engine) (nested : Engine.Nested) (room depth : Nat)
    (text : Bytes) {path : Bytes} (hplain : StartsPlain path) :
    engine.link nested room depth text path = .components := by
  match path with
  | [] => rfl
  | [c] => rfl
  | c :: b :: rest =>
    obtain ⟨hat, hbang, -, hopens⟩ := hplain c rfl
    simp [Engine.link, hat, hbang, hopens]

/-- A path of components starts with no other link. -/
theorem link_pathOf (engine : Engine) (nested : Engine.Nested) (room depth : Nat) (text : Bytes)
    (components : List Component) :
    engine.link nested room depth text (pathOf components) = .components :=
  link_of_startsPlain engine nested room depth text (startsPlain_pathOf components)

theorem rebase_zero (r : Result) : r.rebase (some 0) = r := by
  obtain ⟨value, index, indexes⟩ := r
  simp [Result.rebase]

/-- A path that starts with no other link is answered by one walk, and by the pipe that the walk
keeps. -/
theorem resolve_of_startsPlain (engine : Engine) (text : Bytes) {path : Bytes}
    (hplain : StartsPlain path) (depth : Nat) :
    let walk := start ⟨engine.dialect, engine.resolve 127⟩ text path (depth + 1)
    (engine.resolve Engine.pathNesting text path (depth + 1)).value =
      engine.pursue depth walk.value walk.pipe := by
  intro walk
  rw [Engine.resolve_pathNesting,
    Engine.chain_components _ _ _ _ _ (link_of_startsPlain engine _ _ _ _ hplain)]
  dsimp only
  cases walk.pipe with
  | none => exact rebase_zero walk.value
  | some pipe =>
    dsimp only
    rw [Engine.zero_shift, Engine.chain_eq_rebase, Engine.pursue,
      Engine.chain_eq_rebase _ _ _ walk.value.index]
    rfl

theorem get_of_startsPlain (engine : Engine) (text : Bytes) {path : Bytes}
    (hplain : StartsPlain path) {depth : Nat} (hmax : engine.config.maxDepth = depth + 1) :
    let walk := start ⟨engine.dialect, engine.resolve 127⟩ text path (depth + 1)
    (engine.get text path).value = engine.pursue depth walk.value walk.pipe := by
  rw [Engine.get, hmax]
  exact resolve_of_startsPlain engine text hplain depth

/-- What a path of components finds in a document, if none with a bar in it meets an array. -/
theorem get_pathOf (engine : Engine) (d : Document) (hroot : d.root.isContainer = true)
    (components : List Component) (hne : components ≠ [])
    (hdepth : components.length ≤ engine.config.maxDepth)
    (hlines : lines? (pathOf components) = none) (hfits : Fits components d.spot) :
    (engine.get d.text (pathOf components)).value = answer (search components d.spot) := by
  cases components with
  | nil => exact absurd rfl hne
  | cons c components =>
    obtain ⟨depth, hmax⟩ : ∃ depth, engine.config.maxDepth = depth + 1 := by
      refine ⟨engine.config.maxDepth - 1, ?_⟩
      simp only [List.length_cons] at hdepth
      omega
    rw [hmax] at hdepth
    -- A search that fits keeps no pipe, so the chain ends with this walk
    rw [get_of_startsPlain engine d.text (startsPlain_pathOf _) hmax,
      start_eq_search _ d hroot c components hlines hdepth,
      residue_of_fits hfits]
    rfl

/-! ## Queries -/

theorem bar_notMem_of_pathOf {components : List Component} (h : bar ∉ pathOf components) :
    ∀ c ∈ components, bar ∉ c.text := by
  induction components with
  | nil => simp
  | cons c components ih =>
    rw [pathOf_cons, List.mem_append, not_or] at h
    rw [List.forall_mem_cons]
    refine ⟨h.1, ?_⟩
    cases components with
    | nil => simp
    | cons c' components =>
      rw [behind, List.mem_cons, not_or] at h
      exact ih h.2.2

theorem standsIn_search {text : Bytes} {components : List Component} {s found : Spot}
    (hs : s.StandsIn text) (h : search components s = some found) : found.StandsIn text := by
  induction components generalizing s with
  | nil => exact Option.some.inj h ▸ hs
  | cons c components ih =>
    -- One component down, to a branch of the value
    rw [search_cons] at h
    obtain ⟨b, hb, hfound⟩ := List.exists_of_findSome?_eq_some h
    exact ih (hs.branch (List.mem_filter.1 hb).1) hfound

theorem Spot.result_ne_missing (s : Spot) : s.result ≠ .missing := by
  intro h
  have hindex := congrArg Result.index h
  cases hindex

/-- **Plain resolution is tree search.**  In a UTF-8 document whose root is a container, a path of
components that holds no bar and does not start with two dots finds the value that the leftmost
depth-first search for the components finds in the tree, with its source text and its offset.  The
result is missing exactly if the search fails. -/
theorem get_eq_search (engine : Engine) (d : Document) (hvalid : isWellFormedUtf8 d.text = true)
    (hroot : d.root.isContainer = true) (components : List Component) (hne : components ≠ [])
    (hdepth : components.length ≤ engine.config.maxDepth) (hbar : bar ∉ pathOf components)
    (hdots : ¬[dot, dot] <+: pathOf components) :
    (engine.get d.text (pathOf components)).value =
        ((search components d.spot).map Spot.result).getD .missing ∧
      ((engine.get d.text (pathOf components)).value = .missing ↔
        search components d.spot = none) ∧
      ∀ s ∈ search components d.spot,
        s.result.raw = s.node.text ∧ s.node.text <+: d.text.drop s.offset := by
  rw [isWellFormedUtf8, Bool.and_eq_true] at hvalid
  -- Without a bar in the path there is none in a component
  have hfits := fits_of_no_bar (bar_notMem_of_pathOf hbar) d.spot
  rw [get_pathOf engine d hroot components hne hdepth ((lines?_eq_none_iff _).2 hdots) hfits]
  have hstands : ∀ s ∈ search components d.spot, s.StandsIn d.text :=
    fun s hs => standsIn_search d.standsIn_spot hs
  have hanswer : answer (search components d.spot) =
      ((search components d.spot).map Spot.result).getD .missing := by
    cases hsearch : search components d.spot with
    | none => rfl
    | some s => exact (hstands s hsearch).reading_eq_result hvalid.1
  refine ⟨hanswer, ?_, fun s hs => ⟨s.node.raw_value, (hstands s hs).prefix_drop⟩⟩
  rw [hanswer]
  cases search components d.spot with
  | none => simp
  | some s => simpa using s.result_ne_missing

theorem get_eq_search_sample :
    (Engine.standard.get Document.sample.text (Bytes.ofString "a.0")).value =
      .located .null 6 := by
  have hvalid : isWellFormedUtf8 Document.sample.text = true := by
    rw [Document.text_sample]
    rfl
  have h := (get_eq_search Engine.standard .sample hvalid rfl [.ofName [0x61], .ofName [0x30]]
    (by simp) (by decide) (by decide) (by decide)).1
  have hsearch : ((search [.ofName [0x61], .ofName [0x30]] Document.sample.spot).map
      Spot.result).getD .missing = .located .null 6 := by
    simp only [search, Document.spot, Document.sample, Spot.branches, branchesFrom]
    decide
  rw [hsearch] at h
  exact h

end JsonQuery.Grammar
