import JsonQuery.Proofs.Chains
import JsonQuery.Proofs.Walk

/-!
# More depth changes nothing where no bound is hit

A resolution that counts no depth hit never asked whether there is depth left and found none, so it
finds the same with more of it, and counts the same.  The hits only add up, so a computation without
any has none in its parts.

## Layers

- **Agreement**: `SameUnlessHit` relates a computation to the same one with more depth.
- **Elements**: projections and filters.
- **Walks**: entering a container, and driving the open scans, by induction over their events.
- **Chains**: sub-selectors, the links of a chain, and resolution by induction over the nesting.
- **Configurations**: the bound of an engine is only the depth that its queries begin with.
-/

namespace JsonQuery

open Ascii

/-! ## Agreement -/

/-- The bounds that a computation has hit. -/
def Counted.hits {α : Type} (x : Counted α) : Nat :=
  x.counts.depthHits

@[simp] theorem Counted.hits_after {α : Type} (counts : Counters) (x : Counted α) :
    (x.after counts).hits = counts.depthHits + x.hits :=
  rfl

/-- The bounds that a walk has hit. -/
def Walk.hits (walk : Walk) : Nat :=
  walk.counts.depthHits

theorem Walk.hits_count (counts : Counters) (walk : Walk) :
    (walk.count counts).hits = walk.hits + counts.depthHits := by
  simp only [hits, count]
  rfl

@[simp] theorem Walk.hits_keepSplit (pipe : Option Bytes) (walk : Walk) :
    (walk.keepSplit pipe).hits = walk.hits := by
  cases pipe <;> rfl

@[simp] theorem Walk.hits_keepPipe (tail : Tail) (walk : Walk) :
    (walk.keepPipe tail).hits = walk.hits := by
  cases tail <;> rfl

/-- A computation that counted some hits before and others after agrees with another one, unless it
hit a bound. -/
structure SameUnlessHit {α : Type} (before after : Nat) (x y : α) : Prop where
  grows : before ≤ after
  same : after = 0 → y = x

namespace SameUnlessHit

variable {α : Type} {before after mid : Nat} {x y : α}

theorem refl (h : before ≤ after) (x : α) : SameUnlessHit before after x x :=
  ⟨h, fun _ => rfl⟩

/-- What was counted in a first step is counted before the rest. -/
theorem mono (h : SameUnlessHit mid after x y) (hmid : before ≤ mid) :
    SameUnlessHit before after x y :=
  ⟨Nat.le_trans hmid h.grows, h.same⟩

/-- A first step and a rest that goes on with what the step leads to. -/
theorem bind {β : Type} {n : Nat} {b b' : β} {f f' : β → α} (hb : SameUnlessHit 0 n b b')
    (hf : SameUnlessHit (before + n) after (f b) (f' b)) :
    SameUnlessHit before after (f b) (f' b') := by
  have hgrows := hf.grows
  refine ⟨by omega, fun hafter => ?_⟩
  -- No hit in the end is no hit in the first step
  rw [hb.same (by omega)]
  exact hf.same hafter

theorem map {β : Type} (h : SameUnlessHit before after x y) (f : α → β) :
    SameUnlessHit before after (f x) (f y) :=
  ⟨h.grows, fun hafter => congrArg f (h.same hafter)⟩

/-- What was counted before stays counted. -/
theorem counted {x y : Counted α} (h : SameUnlessHit 0 x.hits x y) (counts : Counters) :
    SameUnlessHit counts.depthHits (x.after counts).hits (x.after counts) (y.after counts) := by
  refine ⟨Nat.le_add_right _ _, fun hafter => ?_⟩
  rw [Counted.hits_after] at hafter
  rw [h.same (by omega)]

end SameUnlessHit

/-! ## Elements -/

/-- Nested paths agree with themselves at a greater depth, unless they hit a bound. -/
def Engine.Nested.Steady (nested : Engine.Nested) (more : Nat) : Prop :=
  ∀ text path depth, SameUnlessHit 0 (nested text path depth).hits (nested text path depth)
    (nested text path (depth + more))

namespace Walk

variable {env : Surroundings} {more : Nat}

theorem descend_steady (hsteady : Engine.Nested.Steady env.nested more) (value : Result)
    (path : Bytes) (room : Nat) :
    SameUnlessHit 0 (env.descend value path room).hits (env.descend value path room)
      (env.descend value path (room + more)) :=
  (hsteady value.raw path room).map (Counted.map (·.rebase value.index))

theorem project_steady (hsteady : Engine.Nested.Steady env.nested more) (path : Bytes)
    (room : Nat) (walk : Walk) (kept : List Gathered) (elements : List Result) :
    SameUnlessHit walk.hits (project env path room walk kept elements).hits
      (project env path room walk kept elements)
      (project env path (room + more) walk kept elements) := by
  -- On the elements, each of which is resolved by itself
  induction elements generalizing walk kept with
  | nil => exact .refl (Nat.le_refl _) _
  | cons element elements ih =>
    have hfound := descend_steady hsteady element path room
    rw [project, project]
    generalize env.descend element path room = found at hfound
    generalize env.descend element path (room + more) = found' at hfound
    apply hfound.bind
    split
    · exact ih (walk.count _) _
    · exact ih (walk.count _) _

theorem judge_steady (hsteady : Engine.Nested.Steady env.nested more) (f : Filter) (room : Nat)
    (element : Result) :
    SameUnlessHit 0 (judge env f room element).hits (judge env f room element)
      (judge env f (room + more) element) := by
  unfold judge
  split
  · exact (descend_steady hsteady element f.path room).map (Counted.map f.accepts)
  · exact .refl (Nat.zero_le _) _

theorem pick_steady (hsteady : Engine.Nested.Steady env.nested more) (path : Option Bytes)
    (room : Nat) (element : Result) :
    SameUnlessHit 0 (pick env path room element).hits (pick env path room element)
      (pick env path (room + more) element) := by
  cases path with
  | none => exact .refl (Nat.zero_le _) _
  | some path => exact descend_steady hsteady element path room

theorem filterFrom_steady (hsteady : Engine.Nested.Steady env.nested more) (f : Filter)
    (path pipe : Option Bytes) (room : Nat) (walk : Walk) (kept : List Gathered)
    (elements : List Result) :
    SameUnlessHit walk.hits (filterFrom env f path pipe room walk kept elements).walk.hits
      (filterFrom env f path pipe room walk kept elements)
      (filterFrom env f path pipe (room + more) walk kept elements) := by
  -- On the elements: each is judged, and if it passes the filter something is taken from it
  induction elements generalizing walk kept with
  | nil => exact .refl (Nat.le_refl _) _
  | cons element elements ih =>
    have hverdict := judge_steady hsteady f room element
    have hpicked := pick_steady hsteady path room element
    rw [filterFrom, filterFrom]
    generalize judge env f room element = verdict at hverdict
    generalize judge env f (room + more) element = verdict' at hverdict
    generalize pick env path room element = picked at hpicked
    generalize pick env path (room + more) element = picked' at hpicked
    apply hverdict.bind
    dsimp only
    split
    · apply hpicked.bind
      split
      · exact (ih _ _).mono (by simp [Walk.hits_count, Counted.hits])
      · have hhits : ((walk.count verdict.counts).keepSplit pipe |>.count picked.counts).hits =
            walk.hits + verdict.hits + picked.hits := by
          simp [Walk.hits_count, Counted.hits]
        exact .refl (Nat.le_of_eq hhits.symm) _
    · exact ih (walk.count _) _

theorem hits_close (collects : Bool) (array : Elements) (filtered : Filtered) :
    (filtered.close collects array).1.hits = filtered.walk.hits := by
  unfold Filtered.close
  split
  · rfl
  · split <;> rfl

end Walk

/-! ## Walks -/

/-- The frame with more room. -/
def Frame.raised (more : Nat) (frame : Frame) : Frame :=
  { frame with room := frame.room + more }

/-- The opening with more room for the scan that it starts. -/
def Opening.raised (more : Nat) : Opening → Opening
  | .scan frame => .scan (frame.raised more)
  | opening => opening

namespace Walk

variable {env : Surroundings} {more : Nat}

/-- A filter leads to no scan. -/
theorem raised_close (collects : Bool) (array : Elements) (filtered : Filtered) :
    (filtered.close collects array).2.raised more = (filtered.close collects array).2 := by
  unfold Filtered.close
  split
  · rfl
  · split <;> rfl

theorem openFilter_steady (hsteady : Engine.Nested.Steady env.nested more) (f : Filter)
    (tail : Tail) (room : Nat) (walk : Walk) (array : Elements) :
    SameUnlessHit walk.hits (openFilter env f tail room walk array).1.hits
      ((openFilter env f tail room walk array).1,
        (openFilter env f tail room walk array).2.raised more)
      (openFilter env f tail (room + more) walk array) := by
  have hfilter := filterFrom_steady hsteady f (insidePath tail).1 (insidePath tail).2 room walk []
    array.items
  simp only [openFilter, hits_close, raised_close]
  exact hfilter.map (Filtered.close f.collects array)

theorem openArray_steady (hsteady : Engine.Nested.Steady env.nested more) (c : Cursor)
    (path : Bytes) (room : Nat) (walk : Walk) :
    SameUnlessHit walk.hits (openArray env c path (room + 1) walk).1.hits
      ((openArray env c path (room + 1) walk).1,
        (openArray env c path (room + 1) walk).2.raised more)
      (openArray env c path (room + 1 + more) walk) := by
  unfold openArray
  split
  · exact .refl (Nat.le_refl _) _
  · rename_i component hparse
    have hroom : room + 1 + more - 1 = room + more := by omega
    dsimp only
    rw [hroom, Nat.add_sub_cancel]
    -- By what the component selects; only projections and filters resolve nested paths
    split
    · exact .refl (by simp) _
    · split
      · exact .refl (Nat.le_of_eq (hits_keepPipe component.tail walk).symm) _
      · exact .refl (by simp) _
    · rename_i inner hselection
      split
      · have hproject := project_steady hsteady (Pipe.split inner).1 room
          ((walk.keepPipe component.tail).keepSplit (Pipe.split inner).2) []
          (c.elementsFrom []).items
        exact (hproject.mono (by simp)).map fun walk => (walk, Opening.over)
      · exact .refl (by simp) _
    · exact (openFilter_steady hsteady _ _ room _ _).mono (by simp)

/-- Entering a container with more room starts the same scan with more room, unless it hits a
bound. -/
theorem openAt_steady (hsteady : Engine.Nested.Steady env.nested more) (object : Bool)
    (c : Cursor) (path : Bytes) (room : Nat) (walk : Walk) :
    SameUnlessHit walk.hits (openAt env object c path room walk).1.hits
      ((openAt env object c path room walk).1,
        (openAt env object c path room walk).2.raised more)
      (openAt env object c path (room + more) walk) := by
  cases room with
  | zero =>
    -- Without room a hit is counted
    refine ⟨by simp [openAt, Walk.hits_count], fun hhits => ?_⟩
    simp [openAt, Walk.hits_count, Counters.oneDepthHit] at hhits
  | succ room =>
    have hne : room + 1 + more ≠ 0 := by omega
    rw [openAt, openAt, if_neg (Nat.succ_ne_zero room), if_neg hne]
    cases object with
    | true => exact .refl (Nat.le_of_eq (hits_keepPipe _ walk).symm) _
    | false => exact openArray_steady hsteady c path room walk

theorem room_ne_zero_of_openAt {object : Bool} {c : Cursor} {path : Bytes} {room : Nat}
    {walk after : Walk} {inner : Frame}
    (h : openAt env object c path room walk = (after, .scan inner)) : inner.room ≠ 0 := by
  obtain ⟨_, hscan, hroom⟩ | ⟨hpassed, -⟩ | hover := openAt_cases h
  · cases hscan
    exact hroom
  · cases hpassed
  · cases hover

/-- More room for all open scans changes nothing, unless a bound is hit. -/
theorem run_steady (hsteady : Engine.Nested.Steady env.nested more) (walk : Walk) (c : Cursor)
    (frames : List Frame) (hroom : ∀ frame ∈ frames, frame.room ≠ 0) :
    SameUnlessHit walk.hits (run env walk c frames).hits (run env walk c frames)
      (run env walk c (frames.map (Frame.raised more))) := by
  induction walk, c, frames using run_induction with
  | nil walk c => exact .refl (Nat.le_of_eq (by rw [run_nil])) _
  | skip walk c frame frames scan next hstep ih =>
    rw [List.forall_mem_cons] at hroom
    have ih := ih (List.forall_mem_cons.2 hroom)
    rw [List.map_cons, run_cons, run_cons, hstep]
    have hstep' : (frame.raised more).scan.step c = .skip scan next := hstep
    rw [hstep']
    exact ih
  | close walk c frame frames next hstep ih =>
    rw [List.forall_mem_cons] at hroom
    have ih := ih hroom.2
    have hstep' : (frame.raised more).scan.step c = .close next := hstep
    rw [List.map_cons, run_cons, run_cons, hstep, hstep']
    exact ih
  | found walk c frame frames value hstep =>
    have hstep' : (frame.raised more).scan.step c = .found value := hstep
    rw [List.map_cons, run_cons, run_cons, hstep, hstep']
    exact .refl (Nat.le_refl _) _
  | enter walk c frame frames scan bracket path hstep ihscan ihpassed =>
    rw [List.forall_mem_cons] at hroom
    have hstep' : (frame.raised more).scan.step c = .enter scan bracket path := hstep
    rw [List.map_cons, run_cons, run_cons, hstep, hstep']
    have hminus : (frame.raised more).room - 1 = frame.room - 1 + more := by
      have hne := hroom.1
      show frame.room + more - 1 = _
      omega
    have hopened := openAt_steady hsteady (bracket.peek? = some openBrace) (bracket.advance 1) path
      (frame.room - 1) walk
    simp only [react, entered, hminus]
    -- Where no bound is hit both walks enter the same scan
    rcases hopen : openAt env (bracket.peek? = some openBrace) (bracket.advance 1) path
      (frame.room - 1) walk with ⟨after, inner | next | _⟩
    · rw [hopen] at hopened
      have ih := ihscan after inner hopen (List.forall_mem_cons.2
        ⟨room_ne_zero_of_openAt hopen, List.forall_mem_cons.2 hroom⟩)
      refine ⟨Nat.le_trans hopened.grows ih.grows, fun hhits => ?_⟩
      rw [hopened.same (Nat.eq_zero_of_le_zero (hhits ▸ ih.grows))]
      exact ih.same hhits
    · rw [hopen] at hopened
      have ih := ihpassed after next hopen (List.forall_mem_cons.2 hroom)
      refine ⟨Nat.le_trans hopened.grows ih.grows, fun hhits => ?_⟩
      rw [hopened.same (Nat.eq_zero_of_le_zero (hhits ▸ ih.grows))]
      exact ih.same hhits
    · rw [hopen] at hopened
      refine ⟨hopened.grows, fun hhits => ?_⟩
      rw [hopened.same hhits]
      rfl

/-- A walk with more room finds the same, unless it hits a bound. -/
theorem start_steady (hsteady : Engine.Nested.Steady env.nested more) (text path : Bytes)
    (room : Nat) :
    SameUnlessHit 0 (start env text path room).hits (start env text path room)
      (start env text path (room + more)) := by
  have henter : ∀ (object : Bool) (c : Cursor) (path : Bytes),
      SameUnlessHit 0 (enter env object c path room).hits (enter env object c path room)
        (enter env object c path (room + more)) := by
    intro object c path
    have hopened := openAt_steady hsteady object c path room {}
    rw [enter, enter]
    rcases hopen : openAt env object c path room {} with ⟨after, inner | next | _⟩
    · rw [hopen] at hopened
      have hrun := run_steady hsteady after c [inner] (by
        simpa using room_ne_zero_of_openAt hopen)
      refine ⟨Nat.zero_le _, fun hhits => ?_⟩
      rw [hopened.same (Nat.eq_zero_of_le_zero (hhits ▸ hrun.grows))]
      exact hrun.same hhits
    · rw [hopen] at hopened
      refine ⟨Nat.zero_le _, fun hhits => ?_⟩
      rw [hopened.same hhits]
      rfl
    · rw [hopen] at hopened
      refine ⟨Nat.zero_le _, fun hhits => ?_⟩
      rw [hopened.same hhits]
      rfl
  unfold start
  split
  · exact henter _ _ _
  · dsimp only
    split
    · exact .refl (Nat.zero_le _) _
    · exact henter _ _ _

end Walk

/-! ## Chains -/

namespace Engine

variable {nested : Nested} {more : Nat}

theorem selectParts_steady (hsteady : nested.Steady more) (object : Bool) (depth : Nat)
    (text : Bytes) (found : List Bytes) (counts : Counters) (parts : List Selector) :
    SameUnlessHit counts.depthHits
      (selectParts nested object depth text found counts parts).hits
      (selectParts nested object depth text found counts parts)
      (selectParts nested object (depth + more) text found counts parts) := by
  induction parts generalizing found counts with
  | nil => exact .refl (Nat.le_refl _) _
  | cons part parts ih =>
    have hvalue := hsteady text part.path depth
    rw [selectParts, selectParts]
    generalize nested text part.path depth = value at hvalue
    generalize nested text part.path (depth + more) = value' at hvalue
    apply hvalue.bind
    dsimp only
    split
    · exact ih _ (counts + value.counts)
    · exact ih _ (counts + value.counts)

/-- What a sub-selector finds and the path behind it does. -/
theorem select?_steady (hsteady : nested.Steady more) (depth : Nat) (text path : Bytes) :
    Option.Rel (fun x y => SameUnlessHit 0 (Counted.hits x) x y)
      (select? nested depth text path) (select? nested (depth + more) text path) := by
  unfold select?
  cases Selector.parse? path with
  | none => exact .none
  | some parsed =>
    obtain ⟨parts, rest⟩ := parsed
    dsimp only [Option.bind_some]
    cases selectorTail? rest with
    | none => exact .none
    | some next? =>
      have hselected := selectParts_steady hsteady (path.head? == some openBrace) depth text []
        .zero parts
      apply Option.Rel.some
      cases next? with
      | none => exact hselected
      | some next =>
        dsimp only
        generalize selectParts nested _ depth text [] .zero parts = selected at hselected
        generalize selectParts nested _ (depth + more) text [] .zero parts = selected' at hselected
        apply hselected.bind
        have hnext := (hsteady selected.value.raw next depth).map (Counted.map Result.detached)
        exact (hnext.counted selected.counts).mono (Nat.le_of_eq (Nat.zero_add _))

/-- Two links lead on alike, unless the first one hits a bound. -/
inductive LinksSame : Link → Link → Prop where
  /-- Only what a sub-selector finds depends on how much depth is left. -/
  | selected {x y : Counted Result} (h : SameUnlessHit 0 x.hits x y) :
      LinksSame (.selected x) (.selected y)
  | refl (link : Link) : LinksSame link link

theorem link_steady (engine : Engine) (hsteady : nested.Steady more) (room depth : Nat)
    (text path : Bytes) :
    LinksSame (engine.link nested room depth text path)
      (engine.link nested room (depth + more) text path) := by
  unfold link
  split
  · rename_i c d rest
    split
    · exact .refl _
    · split
      · exact .refl _
      · split
        · -- Only a sub-selector resolves paths
          have hselect := select?_steady hsteady depth text (c :: d :: rest)
          generalize select? nested depth text (c :: d :: rest) = found at hselect
          generalize select? nested (depth + more) text (c :: d :: rest) = found' at hselect
          cases hselect with
          | none => exact .refl _
          | some h => exact .selected h
        · exact .refl _
  · exact .refl _

/-- What a walk found with its pipe applied, when the walk is the same. -/
theorem applied_steady {env : Surroundings} (hsteady : Nested.Steady env.nested more) (walk : Walk)
    (depth : Nat) :
    SameUnlessHit 0 (env.applied walk depth).hits (env.applied walk depth)
      (env.applied walk (depth + more)) := by
  unfold Surroundings.applied
  split
  · exact Walk.descend_steady hsteady walk.value _ depth
  · exact .refl (Nat.zero_le _) _

/-- A chain with more depth finds the same, unless it hits a bound. -/
theorem chain_steady (engine : Engine) (hsteady : nested.Steady more) (room : Nat)
    (text path : Bytes) (base : Option Nat) (counts : Counters) (depth : Nat) :
    SameUnlessHit counts.depthHits (engine.chain nested room text path base counts depth).hits
      (engine.chain nested room text path base counts depth)
      (engine.chain nested room text path base counts (depth + more)) := by
  -- On the depth, of which every link of the chain takes one
  induction depth generalizing text path base counts with
  | zero =>
    refine ⟨Nat.le_add_right _ _, fun hhits => ?_⟩
    rw [chain] at hhits
    exact absurd hhits (Nat.succ_ne_zero _)
  | succ depth ih =>
    have hlinks := link_steady engine hsteady room depth text path
    have hwalk := @Walk.start_steady ⟨engine.dialect, nested⟩ more hsteady text path (depth + 1)
    rw [Nat.add_right_comm depth 1 more] at hwalk ⊢
    generalize hlink : engine.link nested room depth text path = link at hlinks
    generalize hlink' : engine.link nested room (depth + more) text path = link' at hlinks
    cases hlinks with
    | selected h =>
      rw [chain_selected _ _ _ _ _ hlink, chain_selected _ _ _ _ _ hlink']
      exact (h.map (Counted.map (·.rebase base))).counted counts
    | refl =>
      cases link with
      | output output =>
        rw [chain_output _ _ _ _ _ hlink, chain_output _ _ _ _ _ hlink']
        split
        · exact .refl (Nat.le_add_right _ _) _
        · exact (ih output.text _ none (counts + output.counts)).mono (Nat.le_add_right _ _)
      | selected result =>
        rw [chain_selected _ _ _ _ _ hlink, chain_selected _ _ _ _ _ hlink']
        exact .refl (Nat.le_add_right _ _) _
      | unknown rest =>
        rw [chain_unknown _ _ _ _ _ hlink, chain_unknown _ _ _ _ _ hlink']
        dsimp only
        generalize Walk.start _ text path (depth + 1) = walk at hwalk
        generalize Walk.start _ text path (depth + more + 1) = walk' at hwalk
        apply hwalk.bind
        have hfound := @applied_steady more ⟨engine.dialect, nested⟩ hsteady walk depth
        generalize Surroundings.applied _ walk depth = found at hfound
        generalize Surroundings.applied _ walk (depth + more) = found' at hfound
        apply hfound.bind
        split
        · exact .refl (Nat.le_refl _) _
        · split
          · exact .refl (Nat.le_refl _) _
          · exact ih text _ base (counts + walk.counts + found.counts)
      | components =>
        rw [chain_components _ _ _ _ _ hlink, chain_components _ _ _ _ _ hlink']
        dsimp only
        generalize Walk.start _ text path (depth + 1) = walk at hwalk
        generalize Walk.start _ text path (depth + more + 1) = walk' at hwalk
        apply hwalk.bind
        split
        · exact .refl (Nat.le_refl _) _
        · exact ih walk.value.raw _ _ (counts + walk.counts)

/-- Resolution with more depth finds the same, unless it hits a bound. -/
theorem resolve_steady (engine : Engine) (more room : Nat) : (engine.resolve room).Steady more := by
  -- On the room: what is nested has one less
  induction room with
  | zero => exact fun _ _ _ => .refl (Nat.zero_le _) _
  | succ room ih => exact fun text path => engine.chain_steady ih room text path (some 0) .zero

/-- A query that hits no bound finds what it finds with more depth. -/
theorem value_get_of_no_hit (engine : Engine) {text path : Bytes}
    (hhits : (engine.get text path).counts.depthHits = 0) (more : Nat) :
    (engine.resolve pathNesting text path (engine.config.maxDepth + more)).value =
      (engine.get text path).value := by
  have hsteady := engine.resolve_steady more pathNesting text path engine.config.maxDepth
  -- Counting the query itself adds no hit
  have hsame := hsteady.same ((Nat.zero_add _).symm.trans hhits)
  show _ = (engine.resolve pathNesting text path engine.config.maxDepth).value
  rw [hsame]

/-! ## Configurations -/

/-- A chain is told how much depth is left, and does not ask the configuration for its bound. -/
theorem chain_bound (maxDepth maxDepth' : Nat) (modifiers : Bool) (registry : Registry)
    (nested : Nested) (room : Nat) (text path : Bytes) (base : Option Nat) (counts : Counters)
    (depth : Nat) :
    chain ⟨⟨maxDepth', modifiers⟩, registry⟩ nested room text path base counts depth =
      chain ⟨⟨maxDepth, modifiers⟩, registry⟩ nested room text path base counts depth := by
  induction depth generalizing text path base counts with
  | zero => rfl
  | succ depth ih =>
    have hlink : link ⟨⟨maxDepth', modifiers⟩, registry⟩ nested room depth text path =
        link ⟨⟨maxDepth, modifiers⟩, registry⟩ nested room depth text path := rfl
    simp only [chain, hlink, ih]
    rfl

theorem resolve_bound (maxDepth maxDepth' : Nat) (modifiers : Bool) (registry : Registry)
    (room : Nat) :
    resolve ⟨⟨maxDepth', modifiers⟩, registry⟩ room =
      resolve ⟨⟨maxDepth, modifiers⟩, registry⟩ room := by
  induction room with
  | zero => rfl
  | succ room ih =>
    funext text path depth
    rw [resolve, resolve, ih, chain_bound maxDepth maxDepth']

/-- A wider bound stays wider when both are moved into range. -/
theorem clamped_mono {config config' : Config} (h : config.maxDepth ≤ config'.maxDepth) :
    config.clamped.maxDepth ≤ config'.clamped.maxDepth := by
  simp only [Config.clamped]
  omega

/-- **The depth bound shows only in its counter.**  A path that hits no bound under one
configuration finds the same under a configuration with a wider one, and counts the same, so it
hits no bound there either.  Configurations out of range are moved into it first. -/
theorem get_eq_of_no_hit (registry : Registry) (config config' : Config)
    (hmodifiers : config'.modifiers = config.modifiers)
    (hbound : config.maxDepth ≤ config'.maxDepth) (document path : Bytes)
    (hhits : ((Engine.new config registry).get document path).counts.depthHits = 0) :
    (Engine.new config' registry).get document path =
        (Engine.new config registry).get document path ∧
      ((Engine.new config' registry).get document path).counts.depthHits = 0 := by
  obtain ⟨more, hmore⟩ := Nat.exists_eq_add_of_le (clamped_mono hbound)
  have hresolve : (Engine.new config' registry).resolve pathNesting =
      (Engine.new config registry).resolve pathNesting := by
    obtain ⟨maxDepth, modifiers⟩ := config
    obtain ⟨maxDepth', modifiers'⟩ := config'
    cases hmodifiers
    exact resolve_bound _ _ _ _ _
  have hsteady := (Engine.new config registry).resolve_steady more pathNesting document path
    config.clamped.maxDepth
  -- Counting the query itself adds no hit
  have hzero : ((Engine.new config registry).resolve pathNesting document path
      config.clamped.maxDepth).hits = 0 := (Nat.zero_add _).symm.trans hhits
  have hsame : (Engine.new config' registry).get document path =
      (Engine.new config registry).get document path := by
    have hsame := hsteady.same hzero
    rw [← hmore] at hsame
    show ((Engine.new config' registry).resolve pathNesting document path
      config'.clamped.maxDepth).after .oneGet = _
    rw [hresolve, hsame]
    rfl
  exact ⟨hsame, hsame ▸ hhits⟩

/-- A registry of one modifier, which keeps its text. -/
def keeping : Registry :=
  Registry.empty.register (Bytes.ofString "same") fun _ text _ => .ok text

/-- A member, a filter with a path behind it and a modifier need three levels, and find the same
under the widest bound. -/
theorem get_eq_of_no_hit_sample :
    ((Engine.new ⟨3, true⟩ keeping).get (Bytes.ofString "\x7b\"a\":[\x7b\"b\":7\x7d]\x7d")
        (Bytes.ofString "a.#(b>5).b|@same")).counts.depthHits = 0 ∧
      (Engine.new ⟨Config.depthLimit, true⟩ keeping).get
          (Bytes.ofString "\x7b\"a\":[\x7b\"b\":7\x7d]\x7d") (Bytes.ofString "a.#(b>5).b|@same") =
        ⟨⟨.number [0x37], none, none⟩, { gets := 1, modifierCalls := 1 }⟩ := by
  have hfound : (Engine.new ⟨3, true⟩ keeping).get
      (Bytes.ofString "\x7b\"a\":[\x7b\"b\":7\x7d]\x7d") (Bytes.ofString "a.#(b>5).b|@same") =
        ⟨⟨.number [0x37], none, none⟩, { gets := 1, modifierCalls := 1 }⟩ := by decide +kernel
  rw [hfound]
  refine ⟨rfl, Eq.trans ?_ hfound⟩
  exact (get_eq_of_no_hit keeping ⟨3, true⟩ ⟨Config.depthLimit, true⟩ rfl (by decide) _ _
    (congrArg (fun x => x.counts.depthHits) hfound)).1

end Engine

end JsonQuery
