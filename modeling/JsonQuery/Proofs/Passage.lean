import JsonQuery.Proofs.Descent

/-!
# Passing through a document

Among different names a component of a name selects one branch of a container at most.  A walk for
such components goes down one way, and behind every container that it has entered it selects nothing
more, so whatever happens at the end of the way is all that happens.

## Layers

- **Paths**: components with a path of any kind behind them.
- **Branches**: a scan that selects one branch stops there and nowhere else.
- **Levels**: a container in which one branch is selected is passed over behind it.
- **Bounds**: a walk without the room for its components finds nothing.
- **Passages**: what a path does to a container, it does behind components that lead there.
- **Documents**: the same from the root of a document on.
-/

namespace JsonQuery.Grammar

open Ascii Walk

/-! ## Paths -/

/-- Components with a path behind them, and dots between. -/
def pathOn (components : List Component) (path : Bytes) : Bytes :=
  components.foldr (fun c rest => c.text ++ dot :: rest) path

section Paths

variable (dialect : Dialect)

theorem pathOn_cons (c : Component) (components : List Component) (path : Bytes) :
    pathOn (c :: components) path = c.text ++ dot :: pathOn components path :=
  rfl

/-- The components are written in front, as they are without the path. -/
theorem pathOn_eq {components : List Component} (hne : components ≠ []) (path : Bytes) :
    pathOn components path = pathOf components ++ dot :: path := by
  induction components with
  | nil => exact absurd rfl hne
  | cons c components ih =>
    rw [pathOn_cons, pathOf_cons]
    cases components with
    | nil => simp [pathOn, behind]
    | cons c' components => simp [ih (List.cons_ne_nil _ _), behind]

theorem startsPlain_pathOn (c : Component) (components : List Component) (path : Bytes) :
    StartsPlain (pathOn (c :: components) path) :=
  (startsPlain_dot _).append c

theorem lines?_pathOn {c : Component} (hne : c.text ≠ []) (components : List Component)
    (path : Bytes) : lines? (pathOn (c :: components) path) = none := by
  obtain ⟨b, rest, htext⟩ := List.exists_cons_of_ne_nil hne
  have hb : b ≠ dot := c.head_ne_dot b (by simp [htext])
  rw [pathOn_cons, htext, lines?_eq_none_iff, List.cons_append, List.cons_prefix_cons]
  exact fun h => hb h.1.symm

/-- The component that meets an object, with any path behind it. -/
theorem keyComponent_dot (c : Component) {path : Bytes}
    (hpath : dialect.afterDot path = .deeper path) :
    KeyComponent.parse dialect (c.text ++ dot :: path) = ⟨c.text, c.isWild, .deeper path⟩ := by
  rw [KeyComponent.parse, parseFrom_text, parseFrom_cons dialect (by decide), if_neg (by decide),
    if_pos rfl, hpath]
  simp

theorem partFrom_digits {digits : Bytes} (hdigits : ∀ b ∈ digits, isDigit b = true)
    (before rest : Bytes) :
    ElementComponent.partFrom dialect before false (digits ++ rest) =
      ElementComponent.partFrom dialect (digits.reverse ++ before) false rest := by
  induction digits generalizing before with
  | nil => rfl
  | cons b digits ih =>
    rw [List.forall_mem_cons] at hdigits
    have hne : ∀ c, isDigit c = false → b ≠ c := by
      rintro c hc rfl
      rw [hc] at hdigits
      exact absurd hdigits.1 Bool.false_ne_true
    rw [List.cons_append, partFrom_cons dialect (hne bar rfl) (hne dot rfl),
      beq_eq_false_iff_ne.2 (hne hash rfl), Bool.or_false, ih hdigits.2]
    simp

/-- A component that names a position meets an array, with any path behind it. -/
theorem elementComponent_dot {c : Component} (hc : (Number.position? c.text).isSome = true)
    {path : Bytes} (hpath : dialect.afterDot path = .deeper path) :
    ElementComponent.parse? dialect (c.text ++ dot :: path) =
      some ⟨.position (Number.position? c.text), .deeper path⟩ := by
  have hdigits : ∀ b ∈ c.text, isDigit b = true := by
    intro b hb
    apply Decidable.byContradiction
    intro hdigit
    rw [position?_eq_none hb (Bool.eq_false_iff.2 hdigit)] at hc
    cases hc
  have hpart : ElementComponent.partFrom dialect [] false (c.text ++ dot :: path) =
      ⟨c.text, false, .deeper path⟩ := by
    rw [partFrom_digits dialect hdigits, ElementComponent.partFrom, if_neg (by decide), if_pos rfl,
      if_neg (by decide), hpath]
    simp
  rw [ElementComponent.parse?, ((startsPlain_dot path).append c).not_startsFilter,
    if_neg Bool.false_ne_true, hpart]
  rfl

end Paths

/-! ## Branches -/

section Branches

variable {env : Surroundings} {n room : Nat} {tail : Tail} {scan : Scan} {c next : Cursor}
  {stops : List Stop}

/-- A scan that selects nothing passes over its container. -/
theorem run_passed (h : Tour n tail scan c stops next) (hnone : stops.filter Stop.selected = [])
    (walk : Walk) (frames : List Frame) :
    run env walk (c.cut n) (⟨scan, room⟩ :: frames) = run env walk (next.cut n) frames := by
  induction h with
  | close hstep =>
    rw [run_cons, hstep]
    rfl
  | @stop scan after c next stops selected s rest hstep hrest htour ih =>
    cases selected with
    | true => cases hnone
    | false =>
      rw [run_cons, hstep, if_neg (by simp), react_pass s hrest]
      exact ih hnone

/-- A scan that selects one value stops there, and passes over the container from there on. -/
theorem run_selected (h : Tour n tail scan c stops next) {s : Spot}
    (hone : stops.filter Stop.selected = [⟨true, s⟩]) :
    ∃ after rest, Follows rest ∧
      (∀ walk frames, run env walk (c.cut n) (⟨scan, room⟩ :: frames) =
        react env walk room frames
          (after.select tail ((Cursor.mk s.offset (s.node.text ++ rest)).cut n))) ∧
      ∀ walk frames, run env walk ((Cursor.mk s.after rest).cut n) (⟨after, room⟩ :: frames) =
        run env walk (next.cut n) frames := by
  induction h with
  | close hstep => cases hone
  | @stop scan after c next stops selected t rest hstep hrest htour ih =>
    cases selected with
    | true =>
      obtain ⟨hstop, hnone⟩ := List.cons.inj hone
      obtain rfl : t = s := (Stop.mk.inj hstop).2
      refine ⟨after, rest, hrest, fun walk frames => ?_, run_passed htour hnone⟩
      rw [run_cons, hstep, if_pos rfl]
    | false =>
      obtain ⟨after', rest', hrest', hselect, hbehind⟩ := ih hone
      refine ⟨after', rest', hrest', fun walk frames => ?_, hbehind⟩
      rw [run_cons, hstep, if_neg (by simp), react_pass t hrest]
      exact hselect walk frames

end Branches

/-! ## Levels -/

section Levels

variable {env : Surroundings} {n room : Nat} {c : Component} {s : Spot} {b : Branch}

theorem filter_stops (c : Component) (s : Spot) :
    (s.branches.map (Branch.stop c)).filter Stop.selected =
      (s.branches.filter fun b => c.selects b.label).map (Branch.stop c) :=
  List.filter_map

theorem filter_stops_of_one (hone : (s.branches.filter fun b => c.selects b.label) = [b]) :
    (s.branches.map (Branch.stop c)).filter Stop.selected = [⟨true, b.toSpot⟩] := by
  have hselects : c.selects b.label = true := by
    have hmem : b ∈ s.branches.filter fun b => c.selects b.label := by simp [hone]
    exact (List.mem_filter.1 hmem).2
  rw [filter_stops, hone, List.map_singleton, Branch.stop, hselects]

/-- The inside of a container in a document that ends at an offset, with a text behind. -/
def Spot.inside (n : Nat) (s : Spot) (rest : Bytes) : Cursor :=
  ((Cursor.mk s.offset (s.node.text ++ rest)).advance 1).cut n

/-- The place behind a value in a document that ends at an offset, with a text behind. -/
def Spot.behind (n : Nat) (s : Spot) (rest : Bytes) : Cursor :=
  (Cursor.mk s.after rest).cut n

variable {tail : Tail} {scan : Scan} {path : Bytes} {rest : Bytes} {opened : Walk → Walk}
  (hopen : ∀ walk, openAt env (s.node.lead == .object) (s.inside n rest) path room walk =
    (opened walk, .scan ⟨scan, room⟩))
  (htour : Tour n tail scan ((Cursor.mk s.offset (s.node.text ++ rest)).advance 1)
    (s.branches.map (Branch.stop c)) ⟨s.after, rest⟩)

include hopen htour

/-- A container in which nothing is selected is passed over. -/
theorem entered_passed (hnone : (s.branches.filter fun b => c.selects b.label) = [])
    (walk : Walk) (frames : List Frame) :
    entered env walk (s.node.lead == .object) (s.inside n rest) path room frames =
      run env (opened walk) (s.behind n rest) frames := by
  rw [entered, hopen]
  exact run_passed htour (by rw [filter_stops, hnone, List.map_nil]) (opened walk) frames

/-- A container in which one branch is selected is passed over from there on. -/
theorem entered_selected (hone : (s.branches.filter fun b => c.selects b.label) = [b]) :
    ∃ after rest', Follows rest' ∧
      (∀ walk frames,
        entered env walk (s.node.lead == .object) (s.inside n rest) path room frames =
          react env (opened walk) room frames
            (after.select tail ((Cursor.mk b.offset (b.node.text ++ rest')).cut n))) ∧
      ∀ walk frames, run env walk (b.behind n rest') (⟨after, room⟩ :: frames) =
        run env walk (s.behind n rest) frames := by
  obtain ⟨after, rest', hrest', hselect, hbehind⟩ := run_selected htour (filter_stops_of_one hone)
  refine ⟨after, rest', hrest', fun walk frames => ?_, hbehind⟩
  rw [entered, hopen]
  exact hselect (opened walk) frames

end Levels

section Selections

variable {env : Surroundings} {n room : Nat} {b : Branch} {rest : Bytes} (scan : Scan)
  (path : Bytes) (walk : Walk) (frames : List Frame)

/-- A container that is selected is entered if the path goes on. -/
theorem react_container (hb : b.node.isContainer = true) (hlt : b.offset < n) :
    react env walk room frames
        (scan.select (.deeper path) ((Cursor.mk b.offset (b.node.text ++ rest)).cut n)) =
      entered env walk (b.node.lead == .object) (b.inside n rest) path (room - 1)
        (⟨scan, room⟩ :: frames) := by
  simp only [Scan.select, atContainer_cut b.toSpot rest hlt, hb, if_true, react]
  rw [Cursor.peek?_cut hlt, peek?_container b.toSpot hb rest, Cursor.advance_one_cut hlt]
  rfl

/-- A scalar that is selected is passed over if the path goes on. -/
theorem react_scalar (hb : b.node.isContainer = false) (hlt : b.offset < n)
    (hrest : Follows rest) :
    react env walk room frames
        (scan.select (.deeper path) ((Cursor.mk b.offset (b.node.text ++ rest)).cut n)) =
      run env walk (b.behind n rest) (⟨scan, room⟩ :: frames) := by
  simp only [Scan.select, atContainer_cut b.toSpot rest hlt, hb, Bool.false_eq_true, if_false]
  exact react_pass b.toSpot hrest scan walk frames

end Selections

/-! ## Bounds -/

section Bounds

variable {env : Surroundings} {n room : Nat}

/-- A walk without the room for its components finds nothing: it is over where its room ends, or
goes on behind the container. -/
theorem entered_short {components : List Component}
    (hnames : ∀ c ∈ components, ∃ name, c = .ofName name) (hne : ∀ c ∈ components, c.text ≠ [])
    (hroom : room ≤ components.length) (name : Bytes) {s : Spot} (hdistinct : s.node.Distinct)
    (hs : s.node.isContainer = true) (hafter : s.after ≤ n) (rest : Bytes) (walk : Walk)
    (frames : List Frame) :
    ∃ after : Walk, after.value = walk.value ∧ (LeadsOn walk.pipe → LeadsOn after.pipe) ∧
      (entered env walk (s.node.lead == .object) (s.inside n rest)
            (pathOf (.ofName name :: components)) room frames = after ∨
        entered env walk (s.node.lead == .object) (s.inside n rest)
            (pathOf (.ofName name :: components)) room frames =
          run env after (s.behind n rest) frames) := by
  -- On the components: there are more of them than levels of room
  induction components generalizing room name s rest walk frames with
  | nil =>
    obtain rfl : room = 0 := Nat.le_zero.1 hroom
    exact ⟨walk.count .oneDepthHit, rfl, id, .inl (by simp [entered, openAt])⟩
  | cons c components ih =>
    cases room with
    | zero => exact ⟨walk.count .oneDepthHit, rfl, id, .inl (by simp [entered, openAt])⟩
    | succ room =>
      have hopen := openAt_container env (.ofName name) (c :: components) s hs (s.inside n rest)
        (Nat.succ_ne_zero room)
      have htour := tour_container (.ofName name) (c :: components) s hs rest n
      -- Opening the container changes the pipe alone
      let inner := walk.withPipe (entryPipe (.ofName name) (c :: components) s walk.pipe)
      have hentry : LeadsOn walk.pipe → LeadsOn inner.pipe :=
        leadsOn_entryPipe hne (.ofName name) s
      rw [List.forall_mem_cons] at hnames hne
      obtain ⟨⟨name', rfl⟩, hnames⟩ := hnames
      rcases hdistinct.filter_ofName name with hnone | ⟨b, hb, hone⟩
      · exact ⟨inner, rfl, hentry, .inr (entered_passed hopen htour hnone walk frames)⟩
      · obtain ⟨after, rest', hrest', hselect, hbehind⟩ := entered_selected hopen htour hone
        have hbounds := Spot.bounds_branch hb
        have hlt := b.toSpot.offset_lt_after
        rw [hselect, tailOf]
        cases hcontainer : b.node.isContainer with
        | false =>
          rw [react_scalar after _ _ _ hcontainer (by omega) hrest', hbehind]
          exact ⟨inner, rfl, hentry, .inr rfl⟩
        | true =>
          rw [react_container after _ _ _ hcontainer (by omega)]
          obtain ⟨found, hvalue, hpipe, hfound⟩ := ih hnames hne.2 (Nat.le_of_succ_le_succ hroom)
            name' (hdistinct.branch hb) hcontainer (by omega) rest' inner
            (⟨after, room + 1⟩ :: frames)
          rw [hbehind] at hfound
          exact ⟨found, hvalue, fun h => hpipe (hentry h), hfound⟩

end Bounds

/-! ## Passages -/

section Passages

variable (env : Surroundings)

/-- The scan of a container for a component, whatever is behind it. -/
def Component.scanOn (c : Component) (tail : Tail) (s : Spot) : Scan :=
  if s.node.lead = .array then .elements (Number.position? c.text) tail 0
  else .members ⟨c.text, c.isWild, tail⟩

/-- The elements of an array have positions. -/
theorem exists_position_of_lead {s : Spot} (harray : s.node.lead = .array) {b : Branch}
    (hb : b ∈ s.branches) : ∃ n, b.label = .position n := by
  obtain ⟨offset, node⟩ := s
  cases node with
  | array gap items =>
    obtain ⟨n, hn, -⟩ := exists_position hb
    exact ⟨n, hn⟩
  | _ => cases harray

/-- A component that selects an element names a position. -/
theorem isSome_position?_of_selects {c : Component} {s : Spot} (harray : s.node.lead = .array)
    {b : Branch} (hb : b ∈ s.branches) (hselects : c.selects b.label = true) :
    (Number.position? c.text).isSome = true := by
  obtain ⟨n, hn⟩ := exists_position_of_lead harray hb
  rw [hn, Component.selects_position, beq_iff_eq] at hselects
  rw [hselects]
  rfl

/-- Entering a container scans it for the component in front. -/
theorem openAt_dot (c : Component) {path : Bytes}
    (hpath : env.dialect.afterDot path = .deeper path) {s : Spot}
    (hs : s.node.isContainer = true)
    (hc : s.node.lead = .array → (Number.position? c.text).isSome = true) (start : Cursor)
    {room : Nat} (hroom : room ≠ 0) (walk : Walk) :
    openAt env (s.node.lead == .object) start (c.text ++ dot :: path) room walk =
      (walk, .scan ⟨c.scanOn (.deeper path) s, room⟩) := by
  obtain ⟨offset, node⟩ := s
  cases node with
  | word w => cases hs
  | number n => cases hs
  | string body => cases hs
  | object gap members =>
    have hobject : ((Node.object gap members).lead == .object) = true := rfl
    rw [openAt, if_neg hroom, hobject, if_pos rfl, openObject, keyComponent_dot _ c hpath]
    rfl
  | array gap items =>
    have hobject : ((Node.array gap items).lead == .object) = false := rfl
    rw [openAt, if_neg hroom, hobject, if_neg Bool.false_ne_true, openArray,
      elementComponent_dot _ (hc rfl) hpath]
    rfl

/-- The branches of a container are searched for the component in front. -/
theorem tour_scanOn (c : Component) (tail : Tail) {s : Spot} (hs : s.node.isContainer = true)
    (rest : Bytes) (n : Nat) :
    Tour n tail (c.scanOn tail s) ((Cursor.mk s.offset (s.node.text ++ rest)).advance 1)
      (s.branches.map (Branch.stop c)) ⟨s.after, rest⟩ := by
  obtain ⟨offset, node⟩ := s
  cases node with
  | word w => cases hs
  | number n => cases hs
  | string body => cases hs
  | object gap members => exact tour_members c _ (members_object offset gap members rest) n
  | array gap items => exact tour_elements c (fun _ => rfl) (items_array offset gap items rest) n

theorem afterDot_pathOn (dialect : Dialect) {path : Bytes}
    (hpath : dialect.afterDot path = .deeper path) (components : List Component) :
    dialect.afterDot (pathOn components path) = .deeper (pathOn components path) := by
  cases components with
  | nil => exact hpath
  | cons c components =>
    exact afterDot_of_startsPlain dialect (startsPlain_pathOn c components path)

/-- What is found below a value that is no container is the value itself. -/
theorem isContainer_of_search {components : List Component} {s t : Spot}
    (h : search components s = some t) (ht : t.node.isContainer = true) :
    s.node.isContainer = true := by
  cases components with
  | nil => exact Option.some.inj h ▸ ht
  | cons c components =>
    cases hs : s.node.isContainer with
    | true => rfl
    | false =>
      rw [search_scalar (List.cons_ne_nil c components) hs] at h
      cases h

variable {env} {n room : Nat} {path : Bytes} {value : Result} {t : Spot}
  (hpath : env.dialect.afterDot path = .deeper path) (ht : t.node.isContainer = true)
  (heffect : ∀ rest walk, walk.value = .missing →
    ∃ counts, openAt env (t.node.lead == .object) (t.inside n rest) path room walk =
      ({ walk with value, counts }, .passed (t.behind n rest)))

include hpath ht heffect

/-- A path that leaves a value with the walk and passes over its container does so behind components
that lead there. -/
theorem entered_pathOn {components : List Component}
    (hnames : ∀ c ∈ components, ∃ name, c = .ofName name) {s : Spot}
    (hdistinct : s.node.Distinct) (hsearch : search components s = some t) (hafter : s.after ≤ n)
    (rest : Bytes) (walk : Walk) (hwalk : walk.value = .missing) (frames : List Frame) :
    ∃ counts,
      entered env walk (s.node.lead == .object) (s.inside n rest) (pathOn components path)
          (components.length + room) frames =
        run env { walk with value, counts } (s.behind n rest) frames := by
  -- On the components, of which each selects the one branch on the way
  induction components generalizing s rest frames with
  | nil =>
    obtain rfl : s = t := Option.some.inj hsearch
    obtain ⟨counts, heffect⟩ := heffect rest walk hwalk
    refine ⟨counts, ?_⟩
    rw [pathOn, List.foldr_nil, List.length_nil, Nat.zero_add, entered, heffect]
  | cons c components ih =>
    rw [List.forall_mem_cons] at hnames
    obtain ⟨⟨name, rfl⟩, hnames⟩ := hnames
    have hs := isContainer_of_search hsearch ht
    rw [search_cons] at hsearch
    rcases hdistinct.filter_ofName name with hnone | ⟨b, hb, hone⟩
    · rw [hnone] at hsearch
      cases hsearch
    · rw [hone, List.findSome?_singleton] at hsearch
      have hselects : (Component.ofName name).selects b.label = true := by
        have hmem : b ∈ s.branches.filter fun b => (Component.ofName name).selects b.label := by
          simp [hone]
        exact (List.mem_filter.1 hmem).2
      have hroom : (Component.ofName name :: components).length + room ≠ 0 := by simp
      have hopen := openAt_dot env (.ofName name) (afterDot_pathOn _ hpath components) hs
        (fun harray => isSome_position?_of_selects harray hb hselects) (s.inside n rest) hroom
      obtain ⟨after, rest', -, hselect, hbehind⟩ :=
        entered_selected hopen (tour_scanOn (.ofName name) _ hs rest n) hone
      have hbounds := Spot.bounds_branch hb
      have hlt := b.toSpot.offset_lt_after
      have hinner : (Component.ofName name :: components).length + room - 1 =
          components.length + room := by
        simp only [List.length_cons]
        omega
      obtain ⟨counts, hbelow⟩ := ih hnames (hdistinct.branch hb) hsearch (by omega) rest'
        (⟨after, (Component.ofName name :: components).length + room⟩ :: frames)
      refine ⟨counts, ?_⟩
      rw [pathOn_cons, hselect,
        react_container after _ _ _ (isContainer_of_search hsearch ht) (by omega), hinner, hbelow,
        hbehind]

end Passages

/-! ## Documents -/

section Documents

variable {d : Document} (hroot : d.root.isContainer = true) (hdistinct : d.root.Distinct)

include hroot

/-- A walk through a whole document enters its root. -/
theorem start_eq_inside (env : Surroundings) {path : Bytes} (hlines : lines? path = none)
    (room : Nat) :
    start env d.text path room =
      entered env {} (d.root.lead == .object) (d.spot.inside d.text.length d.after.text) path room
        [] := by
  have hlt : d.before.text.length < d.text.length :=
    Nat.lt_of_lt_of_le d.spot.offset_lt_after d.standsIn_spot.after_le
  have hentered := start_eq_entered env d hroot hlt hlines room
  rw [List.take_length] at hentered
  exact hentered

include hdistinct

/-- In a document, too, a path does the same behind components that lead to where it does it. -/
theorem start_pathOn (env : Surroundings) {c : Component} {components : List Component}
    (hnames : ∀ c' ∈ c :: components, ∃ name, c' = .ofName name) (hne : c.text ≠ [])
    {path : Bytes} (hpath : env.dialect.afterDot path = .deeper path) {t : Spot}
    (ht : t.node.isContainer = true) (hsearch : search (c :: components) d.spot = some t)
    {room : Nat} {value : Result}
    (heffect : ∀ rest walk, walk.value = .missing →
      ∃ counts, openAt env (t.node.lead == .object) (t.inside d.text.length rest) path room walk =
        ({ walk with value, counts }, .passed (t.behind d.text.length rest))) :
    ∃ counts, start env d.text (pathOn (c :: components) path) ((c :: components).length + room) =
      { value, counts } := by
  have hspot : d.spot.node.Distinct := hdistinct
  obtain ⟨counts, hentered⟩ := entered_pathOn hpath ht heffect hnames hspot hsearch
    d.standsIn_spot.after_le d.after.text {} rfl []
  refine ⟨counts, ?_⟩
  rw [start_eq_inside hroot env (lines?_pathOn hne components path)]
  exact hentered.trans (run_nil env _ _)

/-- More keys and positions than the engine goes deep find nothing. -/
theorem get_labels_of_short (engine : Engine) {labels : List Label} (hkey : .key [] ∉ labels)
    (hshort : engine.config.maxDepth < labels.length) :
    (engine.get d.text (pathOf (labels.map Component.ofLabel))).value = .missing := by
  cases hmax : engine.config.maxDepth with
  | zero =>
    rw [Engine.get, hmax]
    rfl
  | succ depth =>
    have hne : labels ≠ [] := List.ne_nil_of_length_pos (by omega)
    have hlines := lines?_labels hkey
    have hnames := @names_of_labels labels
    have htexts := text_ne_nil_of_mem hkey
    obtain ⟨l, rest, rfl⟩ := List.exists_cons_of_ne_nil hne
    rw [List.map_cons] at hlines hnames htexts ⊢
    rw [List.forall_mem_cons] at hnames htexts
    obtain ⟨name, hname⟩ := hnames.1
    rw [hname] at hlines ⊢
    have hroom : depth + 1 ≤ (rest.map Component.ofLabel).length := by
      rw [List.length_map]
      rw [List.length_cons] at hshort
      omega
    have hspot : d.spot.node.Distinct := hdistinct
    obtain ⟨after, hvalue, hpipe, hafter⟩ :=
      @entered_short ⟨engine.dialect, engine.resolve 127⟩ d.text.length _ _ hnames.2 htexts.2 hroom
        name d.spot hspot hroot d.standsIn_spot.after_le d.after.text {} []
    have hstart : start ⟨engine.dialect, engine.resolve 127⟩ d.text
        (pathOf (.ofName name :: rest.map Component.ofLabel)) (depth + 1) = after := by
      rw [start_eq_inside hroot _ hlines]
      rcases hafter with hover | hbehind
      · exact hover
      · exact hbehind.trans (run_nil _ _ _)
    rw [get_of_startsPlain engine d.text (startsPlain_pathOf _) hmax, hstart]
    rw [hvalue]
    cases hkept : after.pipe with
    | none => rfl
    | some path =>
      obtain ⟨components, rfl, hpath⟩ := hpipe (by simp [LeadsOn]) path hkept
      exact pursue_missing engine components hpath depth

end Documents

end JsonQuery.Grammar
