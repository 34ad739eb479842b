import JsonQuery.Proofs.Filters
import JsonQuery.Proofs.Inside
import JsonQuery.Proofs.Offsets
import JsonQuery.Proofs.Patterns
import JsonQuery.Proofs.RoundTrip

/-!
# Members that are tried

A star in front of a name tries the members of an object one after the other.  A member in which
nothing is found leaves one trace at most: an array that meets a name with a bar in it leaves what
stands behind the bar as the pipe of the walk, and a member behind that array may be the one in
which something is found.

## Layers

- **Stars**: a star selects every member.
- **Bars**: the pipe that a name leaves where it meets an array.
- **Places**: what is found inside of a bracket does not stand at the start of the text.
- **Members**: the members that are tried, and what is found inside of them.
- **Attempts**: what a star and a name find.
-/

namespace JsonQuery.Grammar

open Ascii Walk

/-! ## Stars -/

section Stars

theorem isMatch_star (text : Bytes) : Glob.isMatch text [star] = true := by
  have htokens : Glob.tokens (Utf8.chars [star]) = [.any] := rfl
  rw [Glob.isMatch, Glob.matchesChars_iff, htokens, Glob.splits_any_iff]
  exact ⟨_, [], (List.append_nil _).symm, .nil⟩

/-- A star selects every member of an object. -/
theorem selects_star {s : Spot} (hs : s.node.lead = .object) {b : Branch} (hb : b ∈ s.branches) :
    Component.selects [.any] b.label = true := by
  obtain ⟨offset, node⟩ := s
  cases node with
  | object gap members =>
    obtain ⟨name, hname⟩ := exists_key hb
    rw [hname]
    exact isMatch_star name
  | _ => cases hs

end Stars

/-! ## Bars -/

/-- What stands behind the first bar of a name, if no dot stands in front of it. -/
def behindBar? : Bytes → Option Bytes
  | [] => none
  | c :: name => if c = bar then some name else if c = dot then none else behindBar? name

section Bars

/-- A name that meets an array leaves what stands behind its bar as the pipe. -/
theorem kept_ofName (name : Bytes) (pipe : Option Bytes) :
    (elementTail [] (Component.ofName name)).kept pipe =
      ((behindBar? name).map Path.escape).or pipe := by
  induction name with
  | nil => rfl
  | cons c name ih =>
    have hcons : Component.ofName (c :: name) = Piece.ofByte c :: Component.ofName name := rfl
    rw [hcons, behindBar?, Piece.ofByte]
    by_cases hsafe : Path.isSafe c = true
    · -- A byte that needs no escape is neither a bar nor a dot
      have hbar : c ≠ bar := by
        rintro rfl
        cases hsafe
      have hdot : c ≠ dot := by
        rintro rfl
        cases hsafe
      rw [dif_pos hsafe, if_neg hbar, if_neg hdot]
      exact ih
    · rw [dif_neg hsafe, elementTail]
      by_cases hbar : c = bar
      · rw [if_pos hbar, if_pos hbar, pathOf_ofName]
        rfl
      · rw [if_neg hbar, if_neg hbar]
        by_cases hdot : c = dot
        · rw [if_pos hdot, if_pos hdot]
          rfl
        · rw [if_neg hdot, if_neg hdot]
          exact ih

/-- Only an array leaves a pipe where it meets a name. -/
theorem residue_ofName (name : Bytes) (s : Spot) (pipe : Option Bytes) :
    residue [Component.ofName name] s pipe =
      if s.node.lead = .array then ((behindBar? name).map Path.escape).or pipe else pipe := by
  rw [residue, lastPipe_eq_self fun _ _ _ _ => rfl, entryPipe, kept_ofName]

theorem bar_mem_of_behindBar? {name rest : Bytes} (h : behindBar? name = some rest) :
    bar ∈ (Component.ofName name).text := by
  induction name with
  | nil => cases h
  | cons c name ih =>
    have hcons : (Component.ofName (c :: name)).text =
        (Piece.ofByte c).text ++ (Component.ofName name).text := rfl
    rw [hcons, List.mem_append, Piece.text_ofByte]
    rw [behindBar?] at h
    split at h
    · rename_i hbar
      subst hbar
      exact .inl (by decide)
    · split at h
      · cases h
      · exact .inr (ih h)

/-- A name with a bar in it is no position, so it selects no element. -/
theorem search_array_of_bar {name : Bytes} (hbar : bar ∈ (Component.ofName name).text) {s : Spot}
    (hs : s.node.lead = .array) : search [Component.ofName name] s = none := by
  have hnone : (s.branches.filter fun b => (Component.ofName name).selects b.label) = [] := by
    rw [List.filter_eq_nil_iff]
    exact fun b hb hselects => bar_notMem_of_selects hs hb hselects hbar
  rw [search_cons, hnone]
  rfl

end Bars

/-! ## Places -/

section Places

theorem isValid_spaces (n : Nat) {text : Bytes} (h : Utf8.isValid text = true) :
    Utf8.isValid (List.replicate n space ++ text) = true := by
  induction n with
  | zero => exact h
  | succ n ih => exact ih

/-- A search ends in front of a byte that it looks for. -/
theorem peek?_find {p : UInt8 → Bool} {c : Cursor} {b : UInt8}
    (h : (c.find p).peek? = some b) : p b = true := by
  obtain ⟨offset, rest⟩ := c
  rw [Cursor.find] at h
  induction rest generalizing offset with
  | nil => cases h
  | cons a rest ih =>
    rw [Cursor.findFrom] at h
    split at h
    · rename_i ha
      obtain rfl : a = b := Option.some.inj h
      exact ha
    · exact ih (offset + 1) h

theorem standsIn_pursue (engine : Engine) (depth : Nat) {text : Bytes} {r : Result}
    (h : r.StandsIn text) (pipe : Option Bytes) :
    (engine.pursue depth r pipe).StandsIn text := by
  cases pipe with
  | none => exact h
  | some path =>
    rw [Engine.pursue, Engine.chain_eq_rebase]
    exact h.rebase fun hraw =>
      engine.standsIn_chain (engine.faithful_resolve 127) 127 hraw path .zero depth

/-- No value starts with a space. -/
theorem not_standsAt_space (value : Value) (text : Bytes) : ¬value.StandsAt (space :: text) 0 := by
  have hraw : ∀ raw : Bytes,
      ¬(raw <+: space :: text ∧ Utf8.isValid raw = true ∧ OwnLead raw) := by
    rintro raw ⟨⟨behind, hbehind⟩, -, c, rest, rfl, hc, -⟩
    obtain rfl : c = space := (List.cons.inj hbehind).1
    cases hc
  intro h
  cases value with
  | missing => exact h
  | null => cases h
  | boolean b => cases b <;> cases h
  | number raw => exact hraw raw h
  | string raw => exact hraw raw h
  | json raw => exact hraw raw h

/-- A walk looks only at what is behind the first bracket of its text.  So with spaces up to and in
place of the bracket the text still holds what the walk finds. -/
theorem exists_spaced (env : Surroundings) (hnested : Engine.Nested.Faithful env.nested)
    {text path : Bytes} (hvalid : Utf8.isValid text = true) (hlines : lines? path = none)
    (room : Nat) : ∃ behind, (start env text path room).value.StandsIn (space :: behind) := by
  rw [start, hlines]
  dsimp only
  have hbracket : (Cursor.start text).toContainer.IsIn text := (Cursor.isIn_start text).find _
  have hopens : ∀ b, (Cursor.start text).toContainer.peek? = some b → opensContainer b = true :=
    fun b hb => peek?_find hb
  generalize (Cursor.start text).toContainer = bracket at hbracket hopens
  obtain ⟨offset, rest⟩ := bracket
  cases rest with
  | nil => exact ⟨[], Result.standsIn_missing⟩
  | cons b rest =>
    have hb : b ≤ 0x7F := by
      have hb := hopens b rfl
      simp only [opensContainer, Bool.or_eq_true, beq_iff_eq] at hb
      rcases hb with rfl | rfl <;> decide
    have hdrop : b :: rest = text.drop offset := hbracket
    have hrest : Utf8.isValid rest = true :=
      (Utf8.isValid_of_ascii_append (a := []) hb (Utf8.isValid_drop hvalid hdrop.symm hb)).2
    have hinside : (Cursor.mk (offset + 1) rest).IsIn
        (List.replicate (offset + 1) space ++ rest) := by
      have hlength : (List.replicate (offset + 1) space).length = offset + 1 :=
        List.length_replicate
      exact (List.drop_left' hlength).symm
    exact ⟨_, standsIn_enter hnested (isValid_spaces (offset + 1) hrest) _ hinside path room⟩

/-- What a path finds in a text stands behind the first bracket of the text, so not at its start. -/
theorem index_resolve_ne_zero (engine : Engine) {text path : Bytes}
    (hvalid : Utf8.isValid text = true) (hplain : StartsPlain path)
    (hlines : lines? path = none) (depth : Nat) :
    (engine.resolve Engine.pathNesting text path depth).value.index ≠ some 0 := by
  cases depth with
  | zero => nofun
  | succ depth =>
    obtain ⟨behind, hstands⟩ := exists_spaced ⟨engine.dialect, engine.resolve 127⟩
      (engine.faithful_resolve 127) hvalid hlines (depth + 1)
    rw [resolve_of_startsPlain engine text hplain]
    exact fun hindex =>
      not_standsAt_space _ behind (standsIn_pursue engine depth hstands _ 0 hindex)

/-- A pipe never leads back to the value that it goes on from. -/
theorem pursue_ne (engine : Engine) (depth : Nat) {s : Spot} {text : Bytes}
    (hs : s.StandsIn text) (hvalid : Utf8.isValid text = true) (rest : Bytes) :
    engine.pursue depth s.result (some (Path.escape rest)) ≠ s.result := by
  have hraw : s.result.raw = s.node.text := s.node.raw_value
  have hplain := startsPlain_pathOf [Component.ofName rest]
  rw [pathOf_ofName] at hplain
  have hindex := index_resolve_ne_zero engine (hs.isValid hvalid) hplain (lines?_escape rest) depth
  rw [Engine.resolve_pathNesting] at hindex
  rw [Engine.pursue, Engine.chain_eq_rebase, hraw]
  intro heq
  -- What the pipe finds would have to stand at the start of the value
  apply hindex
  have hsame : (engine.chain (engine.resolve 127) 127 s.node.text (Path.escape rest) (some 0) .zero
      depth).value.index.map (· + s.offset) = some s.offset := congrArg Result.index heq
  obtain ⟨i, hi, hzero⟩ := Option.map_eq_some_iff.1 hsame
  rw [hi, show i = 0 by omega]

/-- A name in a pipe finds nothing where nothing was found. -/
theorem pursue_missing_ofName (engine : Engine) (depth : Nat) (rest : Bytes) :
    engine.pursue depth .missing (some (Path.escape rest)) = .missing := by
  have hlines : lines? (pathOf [Component.ofName rest]) = none := by
    rw [pathOf_ofName, lines?_escape]
  have hmissing := pursue_missing engine [Component.ofName rest] hlines depth
  rwa [pathOf_ofName] at hmissing

end Places

/-! ## Members -/

/-- The children of a result that are objects or arrays. -/
def containersOf (r : Result) : List Result :=
  r.values.filter fun m => m.isObject || m.isArray

/-- The first of some results that exists, and missing if none does. -/
def firstFound (results : List Result) : Result :=
  (results.find? Result.found).getD .missing

/-- The branches that are objects or arrays. -/
def Spot.containers (s : Spot) : List Branch :=
  s.branches.filter fun b => b.node.isContainer

section Members

theorem Spot.isArray_result (s : Spot) : s.result.isArray = (s.node.lead == .array) := by
  obtain ⟨offset, node⟩ := s
  cases node with
  | word w => rcases w with _ | _ <;> rfl
  | number n => rfl
  | string body => rfl
  | array gap items =>
    rw [Spot.result, Node.value, Node.text_array]
    rfl
  | object gap members =>
    rw [Spot.result, Node.value, Node.text_object]
    rfl

theorem Spot.found_reading (s : Spot) : s.reading.found = true := by
  rw [Spot.reading, Result.found, Result.located, bne_iff_ne]
  -- No kind of value is read as missing
  cases s.node.lead with
  | word =>
    rw [Value.ofSpan, Value.ofWord]
    split
    · exact Value.noConfusion
    · split <;> exact Value.noConfusion
  | _ => exact Value.noConfusion

theorem found_answer (found : Option Spot) : (answer found).found = found.isSome := by
  cases found with
  | none => rfl
  | some s => exact s.found_reading

/-- The containers among the members of a document are those of its tree. -/
theorem containersOf_document (d : Document) (hvalid : Utf8.isValid d.text = true)
    (hroot : d.root.isContainer = true) :
    containersOf (parse d.text) = d.spot.containers.map fun b => b.toSpot.result := by
  have hresult : ∀ b ∈ d.spot.branches, b.toSpot.reading = b.toSpot.result :=
    fun b hb => (d.standsIn_spot.branch hb).reading_eq_result hvalid
  have hvalues : (parse d.text).values = d.spot.branches.map fun b => b.toSpot.result := by
    rw [parse_document d hvalid hroot]
    exact (values_container d.root hroot d.after.text _).trans (List.map_congr_left hresult)
  rw [containersOf, hvalues, List.filter_map, Spot.containers]
  congr 1
  exact List.filter_congr fun b _ => b.toSpot.isContainer_result

/-- The first answer of several searches is the answer to the first one that succeeds. -/
theorem firstFound_answers {α : Type} (goal : α → Option Spot) (list : List α) :
    firstFound (list.map fun a => answer (goal a)) = answer (list.findSome? goal) := by
  induction list with
  | nil => rfl
  | cons a list ih =>
    rw [firstFound, List.map_cons, List.find?_cons, found_answer, List.findSome?_cons]
    cases goal a with
    | none => exact ih
    | some s => rfl

theorem takeWhile_congr {α : Type} {p q : α → Bool} {list : List α}
    (h : ∀ a ∈ list, p a = q a) : list.takeWhile p = list.takeWhile q := by
  induction list with
  | nil => rfl
  | cons a list ih =>
    rw [List.forall_mem_cons] at h
    rw [List.takeWhile_cons, List.takeWhile_cons, h.1, ih h.2]

/-- Only containers answer a search. -/
theorem findSome?_containers (components : List Component) (hne : components ≠ [])
    (branches : List Branch) :
    (branches.filter fun b => b.node.isContainer).findSome?
        (fun b => search components b.toSpot) =
      branches.findSome? fun b => search components b.toSpot := by
  induction branches with
  | nil => rfl
  | cons b branches ih =>
    cases hb : b.node.isContainer with
    | true =>
      rw [List.filter_cons_of_pos (by simpa using hb), List.findSome?_cons,
        List.findSome?_cons, ih]
    | false =>
      rw [List.filter_cons_of_neg (by simp [hb]), ih, List.findSome?_cons,
        search_scalar hne hb]

variable {d : Document} (hvalid : Utf8.isValid d.text = true) (hroot : d.root.isContainer = true)
  {inside : Result → Result} {goal : Spot → Option Spot}
  (hinside : ∀ b ∈ d.spot.containers, inside b.toSpot.result = answer (goal b.toSpot))

include hvalid hroot hinside

/-- The first answer inside of the members is the answer to the first search that succeeds. -/
theorem firstFound_document :
    firstFound ((containersOf (parse d.text)).map inside) =
      answer (d.spot.containers.findSome? fun b => goal b.toSpot) := by
  rw [containersOf_document d hvalid hroot, List.map_map, ← firstFound_answers]
  exact congrArg firstFound (List.map_congr_left hinside)

/-- The members in front of the first answer are those that the search passes over. -/
theorem any_isArray_rejected :
    ((containersOf (parse d.text)).takeWhile fun m => !(inside m).found).any Result.isArray =
      (d.spot.containers.takeWhile fun b => (goal b.toSpot).isNone).any
        fun b => b.node.lead == .array := by
  have hpassed : ∀ b ∈ d.spot.containers,
      (!(inside b.toSpot.result).found) = (goal b.toSpot).isNone := by
    intro b hb
    rw [hinside b hb, found_answer, Option.not_isSome]
  rw [containersOf_document d hvalid hroot, List.takeWhile_map, List.any_map]
  exact (congrArg (List.any · _) (takeWhile_congr hpassed)).trans
    (congrArg (List.any _) (funext fun b => b.toSpot.isArray_result))

end Members

/-! ## Attempts -/

section Attempts

variable {name : Bytes}

/-- The pipe that members leave, which are tried in front of the first one with an answer: one array
among them is enough. -/
theorem lastPipe_tried {rest : Bytes} (hbar : behindBar? name = some rest)
    {branches : List Branch} (hall : ∀ b ∈ branches, Component.selects [.any] b.label = true)
    (pipe : Option Bytes) :
    lastPipe (search [Component.ofName name]) (residue [Component.ofName name])
        (branches.map (Branch.stop [.any])) pipe =
      if ((branches.filter fun b => b.node.isContainer).takeWhile fun b =>
          (search [Component.ofName name] b.toSpot).isNone).any fun b => b.node.lead == .array
      then some (Path.escape rest) else pipe := by
  induction branches generalizing pipe with
  | nil => rfl
  | cons b branches ih =>
    rw [List.forall_mem_cons] at hall
    rw [List.map_cons, Branch.stop, hall.1, lastPipe, ih hall.2, residue_ofName, hbar]
    cases hb : b.node.isContainer with
    | false =>
      -- A scalar is no array, and nothing is found below it
      have harray : b.node.lead ≠ .array := by
        intro harray
        rw [Node.isContainer, harray] at hb
        cases hb
      rw [search_scalar (by simp) hb, List.filter_cons_of_neg (by simp [hb]), if_neg harray]
      rfl
    | true =>
      rw [List.filter_cons_of_pos (by simpa using hb)]
      by_cases harray : b.node.lead = .array
      · have hnone := search_array_of_bar (bar_mem_of_behindBar? hbar) harray
        simp [hnone, harray]
      · cases hsearch : search [Component.ofName name] b.toSpot with
        | none => simp [hsearch, harray]
        | some s => simp [hsearch, harray]

/-- Without a bar in front of the first dot of the name no member leaves a pipe. -/
theorem lastPipe_untried (hbar : behindBar? name = none) (stops : List Stop)
    (pipe : Option Bytes) :
    lastPipe (search [Component.ofName name]) (residue [Component.ofName name]) stops pipe =
      pipe := by
  apply lastPipe_eq_self
  intro stop _ _ pipe
  rw [residue_ofName, hbar]
  exact ite_self _

theorem search_any {s : Spot} (hs : s.node.lead = .object) (components : List Component)
    (hne : components ≠ []) :
    search ([.any] :: components) s =
      s.containers.findSome? fun b => search components b.toSpot := by
  rw [search_cons, List.filter_eq_self.2 fun b hb => selects_star hs hb, Spot.containers,
    findSome?_containers components hne]

variable {engine : Engine} {depth : Nat} (hmax : engine.config.maxDepth = depth + 1)

include hmax

/-- Inside of a container a name finds what the search for it finds: where the name leaves a pipe
nothing is found. -/
theorem getFrom_ofName {s : Spot} (hs : s.node.isContainer = true) :
    (engine.getFrom s.result (Path.escape name)).value =
      answer (search [Component.ofName name] s) := by
  have hraw : s.result.raw = s.node.text := s.node.raw_value
  have hlines : lines? (pathOf [Component.ofName name]) = none := by
    rw [pathOf_ofName, lines?_escape]
  have hget := getFrom_eq_pursue hmax hraw rfl hs hlines (Nat.le_add_left 1 depth)
  rw [pathOf_ofName, residue_ofName] at hget
  rw [hget]
  split
  · rename_i harray
    cases hbar : behindBar? name with
    | none => rfl
    | some rest =>
      rw [search_array_of_bar (bar_mem_of_behindBar? hbar) harray]
      exact pursue_missing_ofName engine depth rest
  · rfl

/-- A star and a name find the first answer, with the pipe that the members left applied to it. -/
theorem get_any_ofName (name : Bytes) (hdepth : 0 < depth) (d : Document)
    (hroot : d.root.lead = .object) :
    (engine.get d.text (star :: dot :: Path.escape name)).value =
      engine.pursue depth
        (answer (d.spot.containers.findSome? fun b => search [Component.ofName name] b.toSpot))
        (residue [[.any], Component.ofName name] d.spot none) := by
  have hpath : star :: dot :: Path.escape name = pathOf [[.any], Component.ofName name] := by
    rw [pathOf_cons, behind, pathOf_ofName]
    rfl
  have hcontainer : d.root.isContainer = true := by
    rw [Node.isContainer, hroot]
    rfl
  have hspot : d.spot.node.lead = .object := hroot
  have hlines : lines? (pathOf [[.any], Component.ofName name]) = none := by
    rw [← hpath]
    rfl
  rw [hpath, get_eq_pursue hmax d hcontainer hlines (show 2 ≤ depth + 1 by omega),
    search_any hspot _ (by simp)]

omit hmax in
theorem residue_any_ofName {d : Document} (hroot : d.root.lead = .object) :
    residue [[.any], Component.ofName name] d.spot none =
      if (d.spot.containers.takeWhile fun b =>
          (search [Component.ofName name] b.toSpot).isNone).any fun b => b.node.lead == .array
      then (behindBar? name).map Path.escape else none := by
  have hspot : d.spot.node.lead = .object := hroot
  have hentry : entryPipe [.any] [Component.ofName name] d.spot none = none := by
    rw [entryPipe, hspot]
    rfl
  rw [residue, hentry]
  cases hbar : behindBar? name with
  | none => rw [lastPipe_untried hbar, Option.map_none, ite_self]
  | some rest => exact lastPipe_tried hbar (fun b hb => selects_star hspot hb) none

end Attempts

/-- **Members that are tried leave no trace but a bar.**  In a UTF-8 document that is an object, a
star and a name find the first result that the name finds inside of the members that are objects or
arrays, in the order of the document.  The exception is exact: something is found, an array was
tried before, and the name holds a bar with no dot in front of it. -/
theorem get_any_iff (engine : Engine) (hdepth : 2 ≤ engine.config.maxDepth) (d : Document)
    (hvalid : isWellFormedUtf8 d.text = true) (hroot : d.root.lead = .object) (name : Bytes) :
    let inside := fun m : Result => (engine.getFrom m (Path.escape name)).value
    let members := containersOf (parse d.text)
    let rejected := members.takeWhile fun m => !(inside m).found
    let first := firstFound (members.map inside)
    (engine.get d.text (star :: dot :: Path.escape name)).value = first ↔
      ¬(first.found = true ∧ rejected.any Result.isArray = true ∧
        (behindBar? name).isSome = true) := by
  rw [isWellFormedUtf8, Bool.and_eq_true] at hvalid
  obtain ⟨depth, hmax⟩ : ∃ depth, engine.config.maxDepth = depth + 1 :=
    ⟨engine.config.maxDepth - 1, by omega⟩
  have hcontainer : d.root.isContainer = true := by
    rw [Node.isContainer, hroot]
    rfl
  intro inside members rejected first
  have hinside : ∀ b ∈ d.spot.containers,
      inside b.toSpot.result = answer (search [Component.ofName name] b.toSpot) :=
    fun b hb => getFrom_ofName hmax (List.mem_filter.1 hb).2
  have hfirst : first = _ := firstFound_document hvalid.1 hcontainer hinside
  have hrejected : rejected.any Result.isArray = _ :=
    any_isArray_rejected hvalid.1 hcontainer hinside
  have hget := get_any_ofName hmax name (by omega) d hroot
  rw [residue_any_ofName hroot, ← hfirst, ← hrejected] at hget
  rw [hget]
  cases rejected.any Result.isArray with
  | false => simp [Engine.pursue]
  | true =>
    cases behindBar? name with
    | none => simp [Engine.pursue]
    | some rest =>
      rw [if_pos rfl, Option.map_some, hfirst]
      cases hsearch : d.spot.containers.findSome? fun b =>
          search [Component.ofName name] b.toSpot with
      | none =>
        exact iff_of_true (pursue_missing_ofName engine depth rest) fun h => Bool.false_ne_true h.1
      | some s =>
        have hspot : d.spot.node.lead = .object := hroot
        rw [← search_any hspot _ (by simp)] at hsearch
        have hstands : s.StandsIn d.text := standsIn_search d.standsIn_spot hsearch
        have hreading : answer (some s) = s.result := hstands.reading_eq_result hvalid.1
        rw [hreading]
        exact iff_of_false (pursue_ne engine depth hstands hvalid.1 rest)
          (not_not_intro ⟨s.found_result, rfl, rfl⟩)

/-- The document `{"a":[1],"b":{"x|y":5,"z":6}}`. -/
def Document.barred : Document :=
  let body (c : UInt8) (h : c ≠ quote ∧ c ≠ backslash ∧ ¬c < space) : Body :=
    ⟨[c], .plain h.1 h.2.1 h.2.2 .nil⟩
  let key : Body := ⟨[0x78, bar, 0x79], .plain (by decide) (by decide) (by decide)
    (.plain (by decide) (by decide) (by decide) (.plain (by decide) (by decide) (by decide) .nil))⟩
  let digit (c : UInt8) (h : isDigit c = true ∧ c ≠ zero) : Node :=
    .number ⟨false, [c], [], [], .inr ⟨by simp [Number.isDigits, h.1], by simp [h.2]⟩, .inl rfl,
      .inl rfl⟩
  ⟨.none, .object .none
    [⟨⟨.none, body 0x61 (by decide), .none, .none⟩,
      .array .none [⟨.none, digit 0x31 (by decide), .none⟩], .none⟩,
    ⟨⟨.none, body 0x62 (by decide), .none, .none⟩,
      .object .none [⟨⟨.none, key, .none, .none⟩, digit 0x35 (by decide), .none⟩,
        ⟨⟨.none, body 0x7A (by decide), .none, .none⟩, digit 0x36 (by decide), .none⟩], .none⟩],
    .none⟩

theorem Document.text_barred :
    Document.barred.text =
      Bytes.ofString "\x7b\"a\":[1],\"b\":\x7b\"x|y\":5,\"z\":6\x7d\x7d" := by
  simp only [Document.text, Document.barred, Node.text_object, Node.text_array, inside_cons,
    inside_nil, separator, Gap.none, Node.text]
  rfl

/-- Behind the array a name with a bar does not find what it finds in the member, and another name
does. -/
theorem get_any_iff_samples :
    (Engine.standard.get Document.barred.text
        (star :: dot :: Path.escape [0x78, bar, 0x79])).value ≠
        .located (.number [0x35]) 20 ∧
      (Engine.standard.get Document.barred.text (star :: dot :: Path.escape [0x7A])).value =
        .located (.number [0x36]) 26 := by
  have hvalid : isWellFormedUtf8 Document.barred.text = true := by
    rw [Document.text_barred]
    decide +kernel
  have hbarred := get_any_iff Engine.standard (by decide) .barred hvalid rfl [0x78, bar, 0x79]
  have hplain := get_any_iff Engine.standard (by decide) .barred hvalid rfl [0x7A]
  rw [Document.text_barred] at hbarred hplain ⊢
  refine ⟨fun heq => hbarred.1 (heq.trans ?_) ⟨?_, ?_, rfl⟩,
    (hplain.2 fun h => absurd h.2.2 (by decide)).trans ?_⟩
  · decide +kernel
  · decide +kernel
  · decide +kernel
  · decide +kernel

end JsonQuery.Grammar
