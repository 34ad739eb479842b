import JsonQuery.Proofs.Chains
import JsonQuery.Proofs.Lines
import JsonQuery.Proofs.Standing

/-!
# Offsets are faithful

A result that knows its offset stands there in the text that the query began with, however it was
found: by walking, behind pipes, inside of filters and projections, by further queries of a result
or as one of its children.  What is built along the way has no offset.

## Layers

- **Walks**: what a walk finds, by induction over its events.
- **Chains**: what a chain finds, by induction over its links, and the same for resolution.
- **Results**: everything that queries and iteration derive from a text.
-/

namespace JsonQuery

open Ascii Grammar

/-! ## Walks -/

/-- What happens in a scan over a text happens at places of it, and what is found stands there. -/
def Event.IsIn (text : Bytes) : Event → Prop
  | .skip _ next => next.IsIn text
  | .enter _ bracket _ => bracket.IsIn text
  | .found value => value.StandsIn text
  | .close next => next.IsIn text

/-- Nested paths find what stands in their texts. -/
def Engine.Nested.Faithful (nested : Engine.Nested) : Prop :=
  ∀ text path depth, Utf8.isValid text = true → (nested text path depth).value.StandsIn text

section Steps

variable {text : Bytes} {c : Cursor} (hvalid : Utf8.isValid text = true)

namespace Scan

theorem isIn_pass (scan : Scan) (h : c.IsIn text) : (scan.pass c).IsIn text := by
  unfold pass
  split
  · exact h.skipHere? ‹_›
  · exact h.toEnd

include hvalid

theorem isIn_take (h : c.IsIn text) : (take c).IsIn text := by
  unfold take
  split
  · exact (h.readHere? hvalid ‹_›).1
  · exact h.toEnd

theorem isIn_select (scan : Scan) (tail : Tail) (h : c.IsIn text) :
    (scan.select tail c).IsIn text := by
  unfold select
  split
  · split
    · exact h
    · exact isIn_pass scan h
  · exact isIn_take hvalid h

theorem isIn_stepMember (component : KeyComponent) (h : c.IsIn text) :
    (stepMember component c).IsIn text := by
  have hstart : c.toKey.IsIn text := h.find _
  unfold stepMember
  dsimp only
  split
  · -- The object ends at its brace or with the text
    split
    · exact hstart.advance 1
    · exact hstart.toEnd
  · rename_i key hkey
    have hvalue : (key.next.toValue closeBrace).IsIn text := (hstart.keyHere? hvalid hkey).2.find _
    split
    · exact hvalue.advance 1
    · split
      · exact isIn_select hvalid _ _ hvalue
      · exact isIn_pass _ hvalue

theorem isIn_stepElement (target : Option Nat) (tail : Tail) (passed : Nat) (h : c.IsIn text) :
    (stepElement target tail passed c).IsIn text := by
  have hvalue : (c.toValue closeBracket).IsIn text := h.find _
  unfold stepElement
  dsimp only
  split
  · exact hvalue.advance 1
  · split
    · exact isIn_select hvalid _ _ hvalue
    · exact isIn_pass _ hvalue

theorem isIn_step (scan : Scan) (h : c.IsIn text) : (scan.step c).IsIn text := by
  cases scan with
  | members component => exact isIn_stepMember hvalid component h
  | elements target tail passed => exact isIn_stepElement hvalid target tail passed h

end Scan

end Steps

theorem Gathered.index_collect (items : List Gathered) : (collect items).index = none := by
  unfold collect
  dsimp only
  split <;> rfl

namespace Walk

@[simp] theorem value_keepSplit (pipe : Option Bytes) (walk : Walk) :
    (walk.keepSplit pipe).value = walk.value := by
  cases pipe <;> rfl

variable {env : Surroundings} {text : Bytes} (hnested : Engine.Nested.Faithful env.nested)

include hnested

theorem standsIn_descend {value : Result} (h : value.StandsIn text) (path : Bytes) (room : Nat) :
    (env.descend value path room).value.StandsIn text :=
  h.rebase fun hraw => hnested value.raw path room hraw

theorem standsIn_pick {element : Result} (h : element.StandsIn text) (path : Option Bytes)
    (room : Nat) : (pick env path room element).value.StandsIn text := by
  cases path with
  | none => exact h
  | some path => exact standsIn_descend hnested h path room

omit hnested in
/-- A projection has no place of its own. -/
theorem standsIn_project (path : Bytes) (room : Nat) (walk : Walk) (kept : List Gathered)
    (elements : List Result) : (project env path room walk kept elements).value.StandsIn text := by
  induction elements generalizing walk kept with
  | nil => exact Result.standsIn_of_index_eq_none (Gathered.index_collect _)
  | cons element elements ih =>
    rw [project]
    split
    · exact ih _ _
    · exact ih _ _

theorem standsIn_filterFrom (f : Filter) (path pipe : Option Bytes) (room : Nat) (walk : Walk)
    (kept : List Gathered) (elements : List Result) (hwalk : walk.value.StandsIn text)
    (helements : ∀ r ∈ elements, r.StandsIn text) :
    (filterFrom env f path pipe room walk kept elements).walk.value.StandsIn text := by
  induction elements generalizing walk kept with
  | nil => exact hwalk
  | cons element elements ih =>
    rw [List.forall_mem_cons] at helements
    rw [filterFrom]
    dsimp only
    split
    · split
      · refine ih _ _ ?_ helements.2
        show ((walk.count _).keepSplit pipe).value.StandsIn text
        rwa [value_keepSplit]
      · exact standsIn_pick hnested helements.1 path room
    · exact ih _ _ hwalk helements.2

omit hnested in
theorem standsIn_close (hvalid : Utf8.isValid text = true) (collects : Bool) {c : Cursor}
    (h : c.IsIn text) {filtered : Filtered} (hfiltered : filtered.walk.value.StandsIn text) :
    (filtered.close collects (c.elementsFrom [])).1.value.StandsIn text ∧
      ∀ next, (filtered.close collects (c.elementsFrom [])).2 = .passed next →
        next.IsIn text := by
  have hnext := (h.elementsFrom hvalid (List.forall_mem_nil _)).2
  unfold Filtered.close
  split
  · exact ⟨hfiltered, nofun⟩
  · split
    · exact ⟨Result.standsIn_of_index_eq_none (Gathered.index_collect _),
        fun _ hpassed => Opening.passed.inj hpassed ▸ hnext⟩
    · exact ⟨hfiltered, fun _ hpassed => Opening.passed.inj hpassed ▸ hnext⟩

theorem standsIn_openArray (hvalid : Utf8.isValid text = true) {c : Cursor} (h : c.IsIn text)
    (path : Bytes) (room : Nat) (walk : Walk) (hwalk : walk.value.StandsIn text) :
    (openArray env c path room walk).1.value.StandsIn text ∧
      ∀ next, (openArray env c path room walk).2 = .passed next → next.IsIn text := by
  obtain ⟨hitems, hnext⟩ := h.elementsFrom hvalid (List.forall_mem_nil _)
  unfold openArray
  split
  · exact ⟨hwalk, nofun⟩
  · rename_i component hparse
    have hkept : (walk.keepPipe component.tail).value.StandsIn text := by
      rwa [value_keepPipe]
    dsimp only
    split
    · exact ⟨hkept, nofun⟩
    · split
      · exact ⟨Result.standsIn_of_index_eq_none rfl, nofun⟩
      · exact ⟨hkept, fun _ hpassed => Opening.passed.inj hpassed ▸ hnext⟩
    · split
      · exact ⟨standsIn_project _ _ _ _ _, nofun⟩
      · exact ⟨hkept, fun _ hpassed => Opening.passed.inj hpassed ▸ hnext⟩
    · exact standsIn_close hvalid _ h
        (standsIn_filterFrom hnested _ _ _ _ _ _ _ hkept hitems)

/-- What is known when a container is entered stands in the text. -/
theorem standsIn_openAt (hvalid : Utf8.isValid text = true) (object : Bool) {c : Cursor}
    (h : c.IsIn text) (path : Bytes) (room : Nat) (walk : Walk) (hwalk : walk.value.StandsIn text) :
    (openAt env object c path room walk).1.value.StandsIn text ∧
      ∀ next, (openAt env object c path room walk).2 = .passed next → next.IsIn text := by
  unfold openAt
  split
  · exact ⟨hwalk, nofun⟩
  · split
    · refine ⟨?_, nofun⟩
      show (walk.keepPipe _).value.StandsIn text
      rwa [value_keepPipe]
    · exact standsIn_openArray hnested hvalid h path room walk hwalk

/-- What a walk finds stands in its text. -/
theorem standsIn_run (hvalid : Utf8.isValid text = true) (walk : Walk) (c : Cursor)
    (frames : List Frame) (hwalk : walk.value.StandsIn text) (h : c.IsIn text) :
    (run env walk c frames).value.StandsIn text := by
  induction walk, c, frames using run_induction with
  | nil walk c => rwa [run_nil]
  | skip walk c frame frames scan next hstep ih =>
    have hevent := Scan.isIn_step hvalid frame.scan h
    rw [hstep] at hevent
    rw [run_cons, hstep]
    exact ih hwalk hevent
  | close walk c frame frames next hstep ih =>
    have hevent := Scan.isIn_step hvalid frame.scan h
    rw [hstep] at hevent
    rw [run_cons, hstep]
    exact ih hwalk hevent
  | found walk c frame frames value hstep =>
    have hevent := Scan.isIn_step hvalid frame.scan h
    rw [hstep] at hevent
    rw [run_cons, hstep]
    exact hevent
  | enter walk c frame frames scan bracket path hstep ihscan ihpassed =>
    have hevent := Scan.isIn_step hvalid frame.scan h
    rw [hstep] at hevent
    have hinside : (bracket.advance 1).IsIn text := hevent.advance 1
    have hopened := standsIn_openAt hnested hvalid (bracket.peek? = some openBrace) hinside path
      (frame.room - 1) walk hwalk
    rw [run_cons, hstep, react, entered]
    rcases hopen : openAt env (bracket.peek? = some openBrace) (bracket.advance 1) path
      (frame.room - 1) walk with ⟨after, inner | next | _⟩
    · rw [hopen] at hopened
      exact ihscan after inner hopen hopened.1 hinside
    · rw [hopen] at hopened
      exact ihpassed after next hopen hopened.1 (hopened.2 next rfl)
    · rw [hopen] at hopened
      exact hopened.1

theorem standsIn_enter (hvalid : Utf8.isValid text = true) (object : Bool) {c : Cursor}
    (h : c.IsIn text) (path : Bytes) (room : Nat) :
    (enter env object c path room).value.StandsIn text := by
  have hopened := standsIn_openAt hnested hvalid object h path room {}
    Result.standsIn_missing
  rw [enter]
  rcases hopen : openAt env object c path room {} with ⟨after, inner | next | _⟩
  · rw [hopen] at hopened
    exact standsIn_run hnested hvalid after c [inner] hopened.1 h
  · rw [hopen] at hopened
    exact hopened.1
  · rw [hopen] at hopened
    exact hopened.1

theorem standsIn_start (hvalid : Utf8.isValid text = true) (path : Bytes) (room : Nat) :
    (start env text path room).value.StandsIn text := by
  have hstart := Cursor.isIn_start text
  unfold start
  split
  · exact standsIn_enter hnested hvalid false hstart _ room
  · dsimp only
    split
    · exact Result.standsIn_missing
    · exact standsIn_enter hnested hvalid _ ((hstart.find _).advance 1) path room

end Walk

/-! ## Chains -/

namespace Engine

variable {nested : Nested}

theorem index_selectParts (object : Bool) (depth : Nat) (text : Bytes) (found : List Bytes)
    (counts : Counters) (parts : List Selector) :
    (selectParts nested object depth text found counts parts).value.index = none := by
  induction parts generalizing found counts with
  | nil => rfl
  | cons part parts ih =>
    rw [selectParts]
    dsimp only
    split
    · exact ih _ _
    · exact ih _ _

/-- A sub-selector builds what it finds. -/
theorem index_of_select? {depth : Nat} {text path : Bytes} {result : Counted Result}
    (h : select? nested depth text path = some result) : result.value.index = none := by
  obtain ⟨⟨parts, rest⟩, hparse, h⟩ := Option.bind_eq_some_iff.1 h
  obtain ⟨next?, htail, rfl⟩ := Option.map_eq_some_iff.1 h
  cases next? with
  | none => exact index_selectParts _ _ _ _ _ _
  | some next => rfl

theorem index_of_link_eq_selected {engine : Engine} {room depth : Nat} {text path : Bytes}
    {result : Counted Result} (h : engine.link nested room depth text path = .selected result) :
    result.value.index = none := by
  unfold link at h
  split at h
  · split at h
    · dsimp only at h
      split at h <;> cases h
    · split at h
      · split at h <;> cases h
      · split at h
        · split at h
          · rename_i found hselect
            cases h
            exact index_of_select? hselect
          · cases h
        · cases h
  · cases h

theorem standsIn_applied {env : Surroundings} (hnested : Nested.Faithful env.nested) {text : Bytes}
    {walk : Walk} (hwalk : walk.value.StandsIn text) (depth : Nat) :
    (env.applied walk depth).value.StandsIn text := by
  unfold Surroundings.applied
  split
  · exact Walk.standsIn_descend hnested hwalk _ depth
  · exact hwalk

/-- What a chain finds from the front of its text stands in that text. -/
theorem standsIn_chain (engine : Engine) (hnested : nested.Faithful) (room : Nat)
    {text : Bytes} (hvalid : Utf8.isValid text = true) (path : Bytes) (counts : Counters)
    (depth : Nat) :
    (engine.chain nested room text path (some 0) counts depth).value.StandsIn text := by
  -- On the depth, of which every link of the chain takes one
  induction depth generalizing text path counts with
  | zero => exact Result.standsIn_missing
  | succ depth ih =>
    have hwalk := @Walk.standsIn_start ⟨engine.dialect, nested⟩ text hnested hvalid path (depth + 1)
    cases hlink : engine.link nested room depth text path with
    | output output =>
      rw [chain_output _ _ _ _ _ hlink]
      split
      · exact Result.standsIn_of_index_eq_none rfl
      · exact Result.standsIn_of_index_eq_none (index_chain _ _ _ _ _ _ _)
    | selected result =>
      rw [chain_selected _ _ _ _ _ hlink]
      apply Result.standsIn_of_index_eq_none
      show (result.value.rebase (some 0)).index = none
      rw [rebase_zero, index_of_link_eq_selected hlink]
    | unknown rest =>
      rw [chain_unknown _ _ _ _ _ hlink]
      have hfound := @standsIn_applied ⟨engine.dialect, nested⟩ hnested text _ hwalk depth
      dsimp only
      split
      · show (Result.rebase (some 0) _).StandsIn text
        rwa [rebase_zero]
      · split
        · show (Result.rebase (some 0) _).StandsIn text
          rw [rebase_zero]
          exact standsIn_parse hvalid
        · exact ih hvalid _ _
    | components =>
      rw [chain_components _ _ _ _ _ hlink]
      generalize Walk.start _ text path (depth + 1) = walk at hwalk
      dsimp only
      split
      · rwa [rebase_zero]
      · rename_i pipe hpipe
        rw [chain_eq_rebase, zero_shift]
        exact hwalk.rebase fun hraw => ih hraw pipe .zero

/-- What a path finds in a text stands in that text. -/
theorem faithful_resolve (engine : Engine) (room : Nat) : (engine.resolve room).Faithful := by
  induction room with
  | zero => exact fun _ _ _ _ => Result.standsIn_missing
  | succ room ih => exact fun text path depth hvalid =>
      engine.standsIn_chain ih room hvalid path .zero depth

end Engine

/-! ## Results -/

/-- The results that a text leads to: its first value, what a path finds in it, and from a result
what a path finds in that, and its children with their keys.  Every step may have an engine of its
own.  The children of a gathered array, which has an offset for each of them, are left out. -/
inductive Derived (text : Bytes) : Result → Prop where
  | parse : Derived text (parse text)
  | get (engine : Engine) (path : Bytes) : Derived text (engine.get text path).value
  | getFrom (engine : Engine) {r : Result} (h : Derived text r) (path : Bytes) :
      Derived text (engine.getFrom r path).value
  | key {r : Result} {child : Child} (h : Derived text r) (hindexes : r.indexes = none)
      (hchild : child ∈ r.children) : Derived text child.key
  | value {r : Result} {child : Child} (h : Derived text r) (hindexes : r.indexes = none)
      (hchild : child ∈ r.children) : Derived text child.value

section Results

variable {text : Bytes} {r : Result}

theorem Result.StandsIn.children (h : r.StandsIn text) (hindexes : r.indexes = none)
    {child : Child} (hchild : child ∈ r.children) :
    child.key.StandsIn text ∧ child.value.StandsIn text := by
  have hself : child ∈ [⟨.missing, r⟩] → child.key.StandsIn text ∧ child.value.StandsIn text := by
    intro hmem
    obtain rfl := List.mem_singleton.1 hmem
    exact ⟨standsIn_missing, h⟩
  unfold Result.children at hchild
  split at hchild
  · cases hchild
  · -- The children of a container stand in its text
    rename_i raw hvalue
    obtain ⟨position, hlt, rfl⟩ := List.mem_mapIdx.1 hchild
    obtain rfl : r.raw = raw := by
      rw [Result.raw, hvalue]
      rfl
    have hinner := fun hvalid => standsIn_childrenOf hvalid _ (List.getElem_mem hlt)
    simp only [placeChild, hindexes]
    exact ⟨h.rebase fun hvalid => (hinner hvalid).1, h.rebase fun hvalid => (hinner hvalid).2⟩
  · exact hself hchild

theorem Derived.standsIn (hvalid : Utf8.isValid text = true) (h : Derived text r) :
    r.StandsIn text := by
  induction h with
  | parse => exact standsIn_parse hvalid
  | get engine path => exact engine.faithful_resolve _ text path _ hvalid
  | getFrom engine h path ih => exact ih.rebase fun hraw => engine.faithful_resolve _ _ path _ hraw
  | key h hindexes hchild ih => exact (ih.children hindexes hchild).1
  | value h hindexes hchild ih => exact (ih.children hindexes hchild).2

/-- **Offsets are faithful.**  Whatever steps lead to a result of a UTF-8 text, if it has an offset
then its source text stands there in the text, if it is a number, a string or a container, and its
first byte does, if it is a word. -/
theorem Derived.faithful (hvalid : Utf8.isValid text = true) (h : Derived text r) {i : Nat}
    (hindex : r.index = some i) :
    (r.kind ∈ [.json, .number, .string] →
        i + r.raw.length ≤ text.length ∧ (text.drop i).take r.raw.length = r.raw) ∧
      (r.kind = .yes → text[i]? = some lowerT) ∧
      (r.kind = .no → text[i]? = some lowerF) ∧
      (r.kind = .null → text[i]? = some lowerN) := by
  have hstands := h.standsIn hvalid i hindex
  have hraw : ∀ raw : Bytes, raw <+: text.drop i ∧ Utf8.isValid raw = true ∧ OwnLead raw →
      i + raw.length ≤ text.length ∧ (text.drop i).take raw.length = raw := by
    rintro raw ⟨hfront, -, c, rest, rfl, -⟩
    have hlength := hfront.length_le
    rw [List.length_drop, List.length_cons] at hlength
    exact ⟨by rw [List.length_cons]; omega, (List.prefix_iff_eq_take.1 hfront).symm⟩
  unfold Result.kind Result.raw
  cases hvalue : r.value with
  | missing =>
    rw [hvalue] at hstands
    cases hstands
  | null =>
    rw [hvalue] at hstands
    simpa [Value.kind, Value.StandsAt] using hstands
  | boolean b =>
    rw [hvalue] at hstands
    cases b <;> simpa [Value.kind, Value.StandsAt] using hstands
  | number raw =>
    rw [hvalue] at hstands
    simpa [Value.kind, Value.raw] using hraw raw hstands
  | string raw =>
    rw [hvalue] at hstands
    simpa [Value.kind, Value.raw] using hraw raw hstands
  | json raw =>
    rw [hvalue] at hstands
    simpa [Value.kind, Value.raw] using hraw raw hstands

theorem Derived.faithful_sample :
    let text := Bytes.ofString "\x7b\"a\":\x7b\"b\":1\x7d\x7d"
    (Engine.standard.getFrom (Engine.standard.get text [0x61]).value [0x62]).value =
        .located (.number [0x31]) 10 ∧
      (text.drop 10).take 1 = [0x31] := by
  have hfound : (Engine.standard.getFrom (Engine.standard.get
      (Bytes.ofString "\x7b\"a\":\x7b\"b\":1\x7d\x7d") [0x61]).value [0x62]).value =
        .located (.number [0x31]) 10 := by
    decide +kernel
  have hderived : Derived (Bytes.ofString "\x7b\"a\":\x7b\"b\":1\x7d\x7d") _ :=
    (Derived.get Engine.standard [0x61]).getFrom Engine.standard [0x62]
  rw [hfound] at hderived
  exact ⟨hfound, ((Derived.faithful (by decide) hderived rfl).1 (by decide)).2⟩

end Results

end JsonQuery
