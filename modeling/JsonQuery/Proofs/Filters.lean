import JsonQuery.Proofs.Chains
import JsonQuery.Proofs.FilterPaths
import JsonQuery.Proofs.Resolution

/-!
# Filters select the elements that pass

What a filter that compares a member with a text asks of an array of objects, told on its tree: the
elements whose first member of the name is a string that compares as the operator says, in the order
of the document.

## Layers

- **Elements**: `Node.member?` finds a member and `Node.passes` judges an element.
- **Members**: a path of one name finds the first member of that name in an object.
- **Arrays**: the elements of an array are the readings of its branches.
- **Judgements**: a filter keeps the elements that pass, by induction over the elements.
- **Queries**: what a filter finds in a document.
-/

namespace JsonQuery.Grammar

open Ascii Walk
open JsonQuery.Filter (Operator comparing)

/-! ## Elements -/

/-- The value of the first member of a name. -/
def Node.member? (name : Bytes) : Node → Option Node
  | .object _ members => (members.find? fun e => e.front.key.name == name).map Entry.value
  | _ => none

/-- The first member of the name is a string that compares with the operand. -/
def Node.passes (name : Bytes) (op : Operator) (operand : Bytes) (n : Node) : Bool :=
  match n.member? name with
  | some (.string body) => op.holds body.name operand
  | _ => false

/-- The value at a spot as an item of an array. -/
def Spot.item (s : Spot) : Gathered :=
  ⟨s.node.text, s.offset⟩

/-- The array of the values at some spots, with the offsets of all of them. -/
def gathered (spots : List Spot) : Result :=
  if spots.isEmpty then .built (.json (Bytes.ofString "[]"))
  else
    ⟨.json (openBracket :: Bytes.commaJoin (spots.map fun s => s.node.text) ++ [closeBracket]),
      none, some (spots.map Spot.offset)⟩

/-! ## Members -/

section Members

theorem search_singleton (c : Component) (s : Spot) :
    search [c] s = (s.branches.find? fun b => c.selects b.label).map Branch.toSpot := by
  simp only [search]
  generalize s.branches = branches
  induction branches with
  | nil => rfl
  | cons b branches ih =>
    cases h : c.selects b.label with
    | true => simp [h]
    | false => simpa [h] using ih

/-- The first branch of a name is the first member of the name. -/
theorem find?_branchesFrom (name : Bytes) (members : List (Entry Tag Node))
    (offset position : Nat) :
    ((branchesFrom Tag.text (fun _ tag => .key tag.key.name) offset position members).find?
        fun b => (Component.ofName name).selects b.label).map (fun b => b.node) =
      (members.find? fun e => e.front.key.name == name).map Entry.value := by
  induction members generalizing offset position with
  | nil => rfl
  | cons e members ih =>
    rw [branchesFrom, List.find?_cons, List.find?_cons, Component.selects_ofName]
    cases e.front.key.name == name with
    | true => rfl
    | false => exact ih _ _

/-- The search for a name finds the first member of the name. -/
theorem node_search_ofName (name : Bytes) {s : Spot} (hs : s.node.lead = .object) :
    (search [.ofName name] s).map Spot.node = s.node.member? name := by
  obtain ⟨offset, node⟩ := s
  cases node with
  | word w => cases hs
  | number n => cases hs
  | string body => cases hs
  | array gap items => cases hs
  | object gap members =>
    rw [search_singleton, Option.map_map]
    exact find?_branchesFrom name members _ 0

theorem pathOf_ofName (name : Bytes) : pathOf [Component.ofName name] = Path.escape name := by
  rw [pathOf_cons, Component.text_ofName]
  exact List.append_nil _

/-- The dots of a name are escaped, so none stands in front. -/
theorem lines?_escape (name : Bytes) : lines? (Path.escape name) = none := by
  rw [lines?_eq_none_iff]
  cases name with
  | nil => simp [Path.escape]
  | cons c name =>
    rw [Path.escape_cons]
    rintro ⟨rest, hrest⟩
    split at hrest
    · rename_i hsafe
      obtain rfl : dot = c := (List.cons.inj hrest).1
      cases hsafe
    · cases (List.cons.inj hrest).1

/-- Inside of an object the name of a member finds the first member of the name. -/
theorem value_resolve_escape (engine : Engine) (room depth : Nat) {n : Node}
    (hn : n.lead = .object) (hvalid : Utf8.isValid n.text = true) (name : Bytes) :
    (engine.resolve (room + 1) n.text (Path.escape name) (depth + 1)).value.value =
      ((n.member? name).map Node.value).getD .missing := by
  let d : Document := ⟨.none, n, .none⟩
  have htext : d.text = n.text := by simp [d, Document.text, Gap.none]
  have hcontainer : d.root.isContainer = true := by
    rw [Node.isContainer, show d.root.lead = .object from hn]
    rfl
  have hlines : lines? (pathOf [Component.ofName name]) = none := by
    rw [pathOf_ofName, lines?_escape]
  have hstart := start_eq_search ⟨engine.dialect, engine.resolve room⟩ d hcontainer
    (.ofName name) [] hlines (Nat.le_add_left 1 depth)
  -- An object is met, so no bar matters
  have hfits : Fits [Component.ofName name] d.spot :=
    ⟨fun _ => by rw [show d.spot.node.lead = .object from hn]; exact Lead.noConfusion,
      fun _ _ _ => trivial⟩
  rw [htext, residue_of_fits hfits] at hstart
  have hlink := link_pathOf engine (engine.resolve room) room depth n.text [.ofName name]
  rw [← pathOf_ofName, Engine.resolve, Engine.chain_components _ _ _ _ _ hlink]
  dsimp only
  rw [hstart]
  dsimp only
  have hmember : n.member? name = (search [.ofName name] d.spot).map Spot.node :=
    (node_search_ofName name (s := d.spot) hn).symm
  rw [rebase_zero, hmember]
  cases hsearch : search [Component.ofName name] d.spot with
  | none => rfl
  | some s =>
    have hstands : s.StandsIn d.text := standsIn_search d.standsIn_spot hsearch
    exact s.node.ofSpan_eq_value (hstands.isValid (htext ▸ hvalid))

end Members

/-! ## Arrays -/

theorem elementsFrom_of_some {found : List Result} {c value : Cursor} {reading : Reading}
    (hvalue : c.toValue closeBracket = value) (hpeek : ¬value.peek? = some closeBracket)
    (hread : value.readHere? = some reading) :
    c.elementsFrom found = reading.next.elementsFrom (reading.value :: found) := by
  rw [Cursor.elementsFrom, hvalue, if_neg hpeek]
  split
  · rename_i hsome
    rw [hread] at hsome
    cases hsome
    rfl
  · rename_i hnone
    rw [hread] at hnone
    cases hnone

/-- The elements of an array are read one after the other. -/
theorem elementsFrom_items {position : Nat} {start next : Cursor} {branches : List Branch}
    (h : Items position start branches next) (found : List Result) :
    start.elementsFrom found =
      ⟨found.reverse ++ branches.map fun b => b.toSpot.reading, next, true⟩ := by
  -- The elements that were read are collected in front, last one first
  induction h generalizing found with
  | @close position offset lead rest hlead =>
    have hpeek : (Cursor.mk (offset + lead.length) (closeBracket :: rest)).peek? =
        some closeBracket := rfl
    rw [Cursor.elementsFrom, toValue_close hlead, if_pos hpeek]
    simp [Cursor.advance]
  | @entry position offset lead rest branches next gap s hlead hoffset hrest _ ih =>
    have hvalue := toValue_gap gap s.node hlead offset rest
    rw [← hoffset] at hvalue
    rw [elementsFrom_of_some hvalue (peek?_node_ne s.node rfl _ _) (readHere?_spot s hrest), ih]
    simp

/-- Behind its bracket an array is read as the values of its branches. -/
theorem elementsFrom_spot {t : Spot} {text : Bytes} (hstands : t.StandsIn text)
    (hvalid : Utf8.isValid text = true) (harray : t.node.lead = .array) (rest : Bytes) :
    ((Cursor.mk t.offset (t.node.text ++ rest)).advance 1).elementsFrom [] =
      ⟨(t.branches.map Branch.toSpot).map Spot.result, ⟨t.after, rest⟩, true⟩ := by
  have hreading : (t.branches.map Branch.toSpot).map Spot.result =
      t.branches.map fun b => b.toSpot.reading := by
    rw [List.map_map]
    exact List.map_congr_left fun b hb => ((hstands.branch hb).reading_eq_result hvalid).symm
  rw [hreading]
  obtain ⟨offset, node⟩ := t
  cases node with
  | array gap items => exact elementsFrom_items (items_array offset gap items rest) []
  | _ => cases harray

/-! ## Judgements -/

section Judgements

variable {env : Surroundings} {f : Filter} {room : Nat}

theorem Spot.found_result (s : Spot) : s.result.found = true := by
  obtain ⟨offset, node⟩ := s
  cases node with
  | word w => rcases w with _ | b <;> rfl
  | number n => rfl
  | string body => rfl
  | array gap items => rfl
  | object gap members => rfl

/-- A value with a place of its own is an item there, whatever element it was found in. -/
theorem Spot.ofResult_result (s : Spot) (element : Result) :
    Gathered.ofResult s.result element = s.item :=
  congrArg (Gathered.mk · s.offset) s.node.raw_value

/-- An object passes a comparison if its member compares with the operand. -/
theorem value_judge_member (engine : Engine) (room depth : Nat) {s : Spot} {text : Bytes}
    (hs : s.StandsIn text) (hvalid : Utf8.isValid text = true) (hobject : s.node.lead = .object)
    {name operand : Bytes} (htilde : operand.head? ≠ some tilde) (comparison : Comparison) :
    (judge ⟨engine.dialect, engine.resolve (room + 1)⟩
        ⟨Path.escape name, comparison, operand, true⟩ (depth + 1) s.result).value =
      Filter.acceptsValue comparison operand
        (((s.node.member? name).map Node.value).getD .missing) := by
  have hvalue : s.result.value = .json s.node.text := by
    obtain ⟨offset, node⟩ := s
    cases node with
    | object gap members => rfl
    | _ => cases hobject
  have hraw : s.result.raw = s.node.text := s.node.raw_value
  have hfound := value_resolve_escape engine room depth hobject (hs.isValid hvalid) name
  rw [judge, hvalue]
  dsimp only [Surroundings.descend, Counted.map]
  rw [hraw, Filter.accepts_of_head? htilde, Result.value_rebase, hfound]

/-- An element passes a comparison with a text if its member does. -/
theorem value_judge (engine : Engine) (room depth : Nat) {s : Spot} {text : Bytes}
    (hs : s.StandsIn text) (hvalid : Utf8.isValid text = true) (hobject : s.node.lead = .object)
    {name operand : Bytes} (htilde : operand.head? ≠ some tilde)
    (hmember : ∀ n ∈ s.node.member? name, n.lead = .string) (op : Operator) :
    (judge ⟨engine.dialect, engine.resolve (room + 1)⟩
        ⟨Path.escape name, op.comparison, operand, true⟩ (depth + 1) s.result).value =
      s.node.passes name op operand := by
  rw [value_judge_member engine room depth hs hvalid hobject htilde, Node.passes]
  cases hfind : s.node.member? name with
  | none => exact op.acceptsValue_missing operand
  | some n =>
    have hstring := hmember n hfind
    cases n with
    | string body => exact op.acceptsValue_string _ _
    | _ => cases hstring

/-- A filter that collects keeps what is picked from the elements that pass, the last one first. -/
theorem filterFrom_picking (passes : Spot → Bool) (picked : Spot → Option Spot)
    {path : Option Bytes} (spots : List Spot)
    (hpasses : ∀ s ∈ spots, (judge env f room s.result).value = passes s)
    (hpicked : ∀ s ∈ spots,
      (pick env path room s.result).value = ((picked s).map Spot.result).getD .missing)
    (hcollects : f.collects = true) (walk : Walk) (kept : List Gathered) :
    ∃ counts, filterFrom env f path none room walk kept (spots.map Spot.result) =
      ⟨{ walk with counts },
        (((spots.filter passes).filterMap picked).map Spot.item).reverse ++ kept, false⟩ := by
  -- On the elements; whether one passes changes what is kept, and only counts add to the walk
  induction spots generalizing walk kept with
  | nil => exact ⟨walk.counts, rfl⟩
  | cons s spots ih =>
    rw [List.forall_mem_cons] at hpasses hpicked
    obtain ⟨hjudge, hpasses⟩ := hpasses
    obtain ⟨hpick, hpicked⟩ := hpicked
    rw [List.map_cons, filterFrom, hjudge]
    cases hs : passes s with
    | false =>
      obtain ⟨counts, hrest⟩ := ih hpasses hpicked
        (walk.count (judge env f room s.result).counts) kept
      refine ⟨counts, ?_⟩
      rw [List.filter_cons_of_neg (by simp [hs])]
      exact hrest
    | true =>
      rw [List.filter_cons_of_pos hs, if_pos rfl, if_pos hcollects, hpick]
      cases hfound : picked s with
      | none =>
        obtain ⟨counts, hrest⟩ := ih hpasses hpicked
          (((walk.count (judge env f room s.result).counts).keepSplit none).count
            (pick env path room s.result).counts) kept
        refine ⟨counts, ?_⟩
        rw [List.filterMap_cons_none hfound]
        exact hrest
      | some t =>
        obtain ⟨counts, hrest⟩ := ih hpasses hpicked
          (((walk.count (judge env f room s.result).counts).keepSplit none).count
            (pick env path room s.result).counts) (t.item :: kept)
        refine ⟨counts, ?_⟩
        rw [Option.map_some, Option.getD_some, if_pos t.found_result, t.ofResult_result,
          List.filterMap_cons_some hfound, List.map_cons, List.reverse_cons, List.append_assoc]
        exact hrest

/-- At the end of its path a filter that collects keeps the elements that pass. -/
theorem filterFrom_passing (passes : Spot → Bool) (spots : List Spot)
    (hpasses : ∀ s ∈ spots, (judge env f room s.result).value = passes s)
    (hcollects : f.collects = true) (walk : Walk) (kept : List Gathered) :
    ∃ counts, filterFrom env f none none room walk kept (spots.map Spot.result) =
      ⟨{ walk with counts }, ((spots.filter passes).map Spot.item).reverse ++ kept, false⟩ := by
  have hpicked : ∀ s ∈ spots,
      (pick env none room s.result).value = ((some s).map Spot.result).getD .missing :=
    fun _ _ => rfl
  obtain ⟨counts, hfiltered⟩ :=
    filterFrom_picking passes some spots hpasses hpicked hcollects walk kept
  rw [List.filterMap_some] at hfiltered
  exact ⟨counts, hfiltered⟩

theorem collect_items (spots : List Spot) :
    Gathered.collect (spots.map Spot.item) = gathered spots := by
  cases spots with
  | nil => rfl
  | cons s spots => simp [Gathered.collect, gathered, Spot.item, Function.comp_def]

/-- What a filter has kept is found when nothing was found before. -/
theorem close_items (spots : List Spot) (elements : List Result) (next : Cursor) {walk : Walk}
    (hwalk : walk.value.found = false) :
    Filtered.close true ⟨elements, next, true⟩
        ⟨walk, (spots.map Spot.item).reverse, false⟩ =
      ({ walk with value := gathered spots }, .passed next) := by
  rw [← collect_items, ← List.reverse_reverse (spots.map Spot.item)]
  simp [Filtered.close, hwalk]

end Judgements

/-! ## Queries -/

section Queries

theorem lines?_of_startsFilter {path : Bytes} (h : Filter.starts path = true) :
    lines? path = none := by
  match path with
  | [] => rfl
  | [_] => rfl
  | a :: b :: rest =>
    simp only [Filter.starts, Bool.and_eq_true, beq_iff_eq] at h
    obtain ⟨rfl, -⟩ := h
    rfl

/-- Behind its bracket a document that is an array is read as the values of its branches. -/
theorem exists_elements (d : Document) (hvalid : Utf8.isValid d.text = true)
    (harray : d.root.lead = .array) :
    ∃ bracket next, (Cursor.start d.text).toContainer = bracket ∧
      bracket.peek? = some openBracket ∧
      (bracket.advance 1).elementsFrom [] =
        ⟨(d.spot.branches.map Branch.toSpot).map Spot.result, next, true⟩ := by
  have hcontainer := toContainer_document d (by rw [Node.isContainer, harray]; rfl)
  have helements := elementsFrom_spot d.standsIn_spot hvalid harray d.after.text
  rw [hcontainer]
  refine ⟨_, _, rfl, ?_, helements⟩
  obtain ⟨before, root, after⟩ := d
  cases root with
  | array gap items =>
    rw [Node.text_array]
    rfl
  | _ => cases harray

theorem openFilter_ne_scan (env : Surroundings) (f : Filter) (tail : Tail) (room : Nat)
    (walk : Walk) (array : Elements) (frame : Frame) :
    (openFilter env f tail room walk array).2 ≠ .scan frame := by
  unfold openFilter Filtered.close
  dsimp only
  split
  · exact Opening.noConfusion
  · split <;> exact Opening.noConfusion

/-- A filter in front of a path looks through the elements of the document, and that is all. -/
theorem start_openFilter (env : Surroundings) (d : Document)
    (hvalid : Utf8.isValid d.text = true) (harray : d.root.lead = .array) {path : Bytes}
    (hstarts : Filter.starts path = true) {f : Filter} {tail : Tail}
    (hparse : ElementComponent.parse? env.dialect path = some ⟨.filter f, tail⟩) (room : Nat) :
    ∃ next, start env d.text path (room + 1) =
      (openFilter env f tail room (({} : Walk).keepPipe tail)
        ⟨(d.spot.branches.map Branch.toSpot).map Spot.result, next, true⟩).1 := by
  obtain ⟨bracket, next, hbracket, hpeek, helements⟩ := exists_elements d hvalid harray
  have hopen : openAt env false (bracket.advance 1) path (room + 1) {} =
      openFilter env f tail room (({} : Walk).keepPipe tail)
        ⟨(d.spot.branches.map Branch.toSpot).map Spot.result, next, true⟩ := by
    rw [openAt, if_neg (Nat.succ_ne_zero room), if_neg Bool.false_ne_true, openArray, hparse]
    dsimp only
    rw [helements, Nat.add_sub_cancel]
  refine ⟨next, ?_⟩
  rw [start, lines?_of_startsFilter hstarts]
  dsimp only
  rw [hbracket, hpeek]
  dsimp only
  rw [show (openBracket == openBrace) = false from rfl, enter, hopen]
  -- Whether or not something settles the filter, no scan is left open
  have hclosed := openFilter_ne_scan env f tail room (({} : Walk).keepPipe tail)
    ⟨(d.spot.branches.map Branch.toSpot).map Spot.result, next, true⟩
  generalize openFilter env f tail room _ _ = opened at hclosed ⊢
  obtain ⟨walk, frame | next | _⟩ := opened
  · exact absurd rfl (hclosed frame)
  · rfl
  · rfl

/-- A filter that collects, at the end of its path, finds the elements that pass. -/
theorem start_filter (env : Surroundings) (d : Document) (hvalid : Utf8.isValid d.text = true)
    (harray : d.root.lead = .array) {path : Bytes} (hstarts : Filter.starts path = true)
    {f : Filter} (hparse : ElementComponent.parse? env.dialect path = some ⟨.filter f, .done⟩)
    (hcollects : f.collects = true) (passes : Spot → Bool) (room : Nat)
    (hpasses : ∀ b ∈ d.spot.branches,
      (judge env f room b.toSpot.result).value = passes b.toSpot) :
    ∃ counts, start env d.text path (room + 1) =
      { value := gathered ((d.spot.branches.map Branch.toSpot).filter passes), counts } := by
  obtain ⟨next, hstart⟩ := start_openFilter env d hvalid harray hstarts hparse room
  obtain ⟨counts, hfiltered⟩ := filterFrom_passing passes (d.spot.branches.map Branch.toSpot)
    (List.forall_mem_map.2 hpasses) hcollects {} []
  refine ⟨counts, ?_⟩
  rw [hstart, openFilter]
  dsimp only [keepPipe, insidePath]
  rw [hfiltered, List.append_nil, hcollects, close_items _ _ _ rfl]

/-- A path of a single link is answered by one walk, if the walk keeps no pipe. -/
theorem value_get_of_link (engine : Engine) {depth : Nat}
    (hmax : engine.config.maxDepth = depth + 1) {text path : Bytes}
    (hlink : engine.link (engine.resolve 127) 127 depth text path = .components) {value : Result}
    {counts : Counters}
    (hstart : start ⟨engine.dialect, engine.resolve 127⟩ text path (depth + 1) =
      { value, counts }) :
    (engine.get text path).value = value := by
  rw [Engine.get, hmax, Engine.resolve_pathNesting, Engine.chain_components _ _ _ _ _ hlink]
  dsimp only
  rw [hstart]
  exact rebase_zero value

theorem link_of_startsFilter (engine : Engine) (nested : Engine.Nested) (room depth : Nat)
    (text : Bytes) {path : Bytes} (h : Filter.starts path = true) :
    engine.link nested room depth text path = .components := by
  match path with
  | [] => cases h
  | [_] => cases h
  | a :: b :: rest =>
    simp only [Filter.starts, Bool.and_eq_true, beq_iff_eq] at h
    obtain ⟨rfl, -⟩ := h
    rfl

/-- **Filters select exactly the elements that pass.**  In a UTF-8 document that is an array of
objects, a filter that compares the member of a name with a text finds the array of those elements,
in the order of the document and with their source texts and offsets, in which the first member of
the name is a string that compares with the text as the operator says.  The name neither starts nor
ends with space, the text does not start with a tilde, and the first member of the name is a string
wherever there is one. -/
theorem get_comparing (engine : Engine) (hdepth : 2 ≤ engine.config.maxDepth) (d : Document)
    (hvalid : isWellFormedUtf8 d.text = true) (harray : d.root.lead = .array)
    (hobjects : ∀ b ∈ d.spot.branches, b.node.lead = .object) {name operand : Bytes}
    (hfirst : ∀ c ∈ name.head?, isSpace c = false)
    (hlast : ∀ c ∈ name.getLast?, isSpace c = false) (hoperand : Utf8.isValid operand = true)
    (htilde : operand.head? ≠ some tilde)
    (hmember : ∀ b ∈ d.spot.branches, ∀ n ∈ b.node.member? name, n.lead = .string)
    (op : Operator) :
    (engine.get d.text (comparing name op operand)).value =
      gathered ((d.spot.branches.map Branch.toSpot).filter fun s =>
        s.node.passes name op operand) := by
  rw [isWellFormedUtf8, Bool.and_eq_true] at hvalid
  obtain ⟨depth, hmax⟩ : ∃ depth, engine.config.maxDepth = depth + 1 + 1 :=
    ⟨engine.config.maxDepth - 2, by omega⟩
  -- One level of the array and one of the element take up the depth that is asked for
  have hjudge : ∀ b ∈ d.spot.branches,
      (judge ⟨engine.dialect, engine.resolve (126 + 1)⟩
        ⟨Path.escape name, op.comparison, operand, true⟩ (depth + 1) b.toSpot.result).value =
        b.node.passes name op operand := by
    intro b hb
    exact value_judge engine 126 depth (d.standsIn_spot.branch hb) hvalid.1 (hobjects b hb) htilde
      (hmember b hb) op
  obtain ⟨counts, hstart⟩ := start_filter ⟨engine.dialect, engine.resolve (126 + 1)⟩ d hvalid.1
    harray rfl (Filter.elementComponent_comparing engine.dialect op hfirst hlast hoperand) rfl
    (fun s => s.node.passes name op operand) (depth + 1) hjudge
  exact value_get_of_link engine hmax (link_of_startsFilter _ _ _ _ _ rfl) hstart

theorem isBody_a : IsBody [0x61] :=
  .plain (by decide) (by decide) (by decide) .nil

/-- The document `[{"a":"x"},{},{"a":"z"}]`. -/
def Document.listing : Document :=
  let key : Body := ⟨[0x61], isBody_a⟩
  let x : Body := ⟨[0x78], .plain (by decide) (by decide) (by decide) .nil⟩
  let z : Body := ⟨[0x7a], .plain (by decide) (by decide) (by decide) .nil⟩
  let holding (body : Body) : Node :=
    .object .none [⟨⟨.none, key, .none, .none⟩, .string body, .none⟩]
  ⟨.none, .array .none [⟨.none, holding x, .none⟩, ⟨.none, .object .none [], .none⟩,
    ⟨.none, holding z, .none⟩], .none⟩

theorem Document.text_listing :
    Document.listing.text =
      Bytes.ofString "[\x7b\"a\":\"x\"\x7d,\x7b\x7d,\x7b\"a\":\"z\"\x7d]" := by
  simp only [Document.text, Document.listing, Node.text_object, Node.text_array, inside_cons,
    inside_nil, separator, Gap.none, Node.text]
  rfl

theorem get_comparing_sample :
    (Engine.standard.get Document.listing.text (comparing [0x61] .greaterEqual [0x79])).value =
      ⟨.json (Bytes.ofString "[\x7b\"a\":\"z\"\x7d]"), none, some [14]⟩ := by
  have hvalid : isWellFormedUtf8 Document.listing.text = true := by
    rw [Document.text_listing]
    rfl
  have hobjects : ∀ b ∈ Document.listing.spot.branches, b.node.lead = .object := by decide
  have hmember : ∀ b ∈ Document.listing.spot.branches, ∀ n ∈ b.node.member? [0x61],
      n.lead = .string := by decide
  have hspace : ∀ c ∈ some (0x61 : UInt8), isSpace c = false :=
    fun c hc => Option.some.inj hc ▸ rfl
  have h := get_comparing Engine.standard (by decide) .listing hvalid rfl hobjects
    (show ∀ c ∈ ([0x61] : Bytes).head?, isSpace c = false from hspace) hspace
    (show Utf8.isValid [0x79] = true by decide) (by decide) hmember .greaterEqual
  -- The second element has no member, and the text of the first one is smaller
  have hpassing : (Document.listing.spot.branches.map Branch.toSpot).filter
      (fun s => s.node.passes [0x61] .greaterEqual [0x79]) =
        (Document.listing.spot.branches.map Branch.toSpot).drop 2 := rfl
  rw [hpassing] at h
  refine h.trans ?_
  simp only [Document.spot, Document.listing, Spot.branches, branchesFrom, List.map_cons,
    List.map_nil, List.drop_succ_cons, List.drop_zero, gathered, Node.text_object, inside_cons,
    inside_nil, separator, Gap.none, Node.text]
  rfl

end Queries

end JsonQuery.Grammar
