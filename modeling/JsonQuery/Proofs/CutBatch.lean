import JsonQuery.Proofs.Independence

/-!
# Batches in documents that are cut off

The scan of a batch measures each value before it looks into it, and a single walk does not.  In a
document that is cut off this makes a difference exactly for the values inside of the branch of the
root that the cut goes through: a walk still finds them, and the scan of a batch gives up in front
of the branch.

## Layers

- **Branches**: what is found below the branches of the root by a walk and by the scan of a batch.
- **Batches**: what a batch answers, and where that is what a query for the path alone answers.
-/

namespace JsonQuery.Batch

open Ascii Grammar

/-! ## Branches -/

/-- A result lies inside of a branch that goes on behind an offset. -/
def InsideCut (n : Nat) (s : Spot) (found : Result) : Prop :=
  ∃ b ∈ s.branches, n < b.after ∧ ∃ j, found.index = some j ∧ b.offset < j

section Branches

variable {n : Nat} {components : List Component} {s : Spot} {b : Branch} {found : Result}

theorem shownBelow_of_none (h : searchShown n components s = none) :
    shownBelow n components s = none := by
  rw [shownBelow, h, ite_self]

/-- What is found in a whole branch, or is a branch itself, is not inside of one that is cut off. -/
theorem not_insideCut (hb : b ∈ s.branches) (h : searchShown n components b.toSpot = some found)
    (hwhole : components = [] ∨ b.after ≤ n) : ¬InsideCut n s found := by
  rintro ⟨b', hb', hcut, j, hindex, hj⟩
  have hlt : b.offset < n := by
    rw [← Nat.not_le]
    intro hle
    rw [searchShown_of_le hle] at h
    cases h
  obtain ⟨i, hindex', hleaf, -, -, hafter⟩ := bounds_searchShown h
  obtain rfl : i = j := Option.some.inj (hindex'.symm.trans hindex)
  -- The branch that is cut off is this one, or lies in front of it or behind
  rcases s.apart_branches hb' hb with ⟨hoffset, hsame⟩ | hfront | hbehind
  · rcases hwhole with rfl | hwhole
    · have heq : i = b.offset := hleaf rfl
      omega
    · omega
  · omega
  · omega

/-- The branch of the root in which a walk finds something is the only one in which the scan of a
batch can. -/
theorem exists_branch {c : Component} (h : searchShown n (c :: components) s = some found) :
    ∃ b ∈ s.branches, searchShown n components b.toSpot = some found ∧
      firstAnswer (shownBelow n components) (s.branches.map (Branch.stop c)) =
        shownBelow n components b.toSpot := by
  have hordered := s.pairwise_branches.filter fun b => c.selects b.label
  rw [searchShown_cons, List.findSome?_eq_some_iff] at h
  obtain ⟨before, b, behind, hlist, hb, hbefore⟩ := h
  have hmem : b ∈ s.branches.filter fun b => c.selects b.label := by simp [hlist]
  rw [hlist, List.pairwise_append, List.pairwise_cons] at hordered
  refine ⟨b, (List.mem_filter.1 hmem).1, hb, ?_⟩
  have hnone : before.findSome? (fun b => shownBelow n components b.toSpot) = none :=
    List.findSome?_eq_none_iff.2 fun x hx => shownBelow_of_none (hbefore x hx)
  rw [firstAnswer_stops, hlist, List.findSome?_append, hnone, Option.none_or, List.findSome?_cons]
  cases hbelow : shownBelow n components b.toSpot with
  | some value => rfl
  | none =>
    -- The branch goes on behind the cut, and so the ones behind it are not there at all
    have hafter : n ≤ b.after := by
      rw [← Nat.not_lt]
      intro hlt
      rw [shownBelow, if_pos (by simp [Nat.le_of_lt hlt]), hb] at hbelow
      cases hbelow
    refine List.findSome?_eq_none_iff.2 fun x hx => shownBelow_of_none (searchShown_of_le ?_)
    exact Nat.le_trans hafter (hordered.2.1.1 x hx)

/-- The scan of a batch finds what a walk finds, unless that lies inside of a branch that is cut
off. -/
theorem firstAnswer_shownBelow (n : Nat) (c : Component) (components : List Component) (s : Spot) :
    let single := (searchShown n (c :: components) s).getD .missing
    let batch := (firstAnswer (shownBelow n components) (s.branches.map (Branch.stop c))).getD
      .missing
    (InsideCut n s single → batch = .missing) ∧ (¬InsideCut n s single → batch = single) := by
  intro single batch
  cases hsingle : searchShown n (c :: components) s with
  | none =>
    have hnone : firstAnswer (shownBelow n components) (s.branches.map (Branch.stop c)) = none := by
      rw [searchShown_cons, List.findSome?_eq_none_iff] at hsingle
      rw [firstAnswer_stops, List.findSome?_eq_none_iff]
      exact fun b hb => shownBelow_of_none (hsingle b hb)
    simp [single, batch, hsingle, hnone]
  | some found =>
    obtain ⟨b, hb, hfound, hfirst⟩ := exists_branch hsingle
    have hbatch : batch = (shownBelow n components b.toSpot).getD .missing := by
      simp only [batch, hfirst]
    have hsame : single = found := by simp only [single, hsingle, Option.getD_some]
    rw [hsame, hbatch, shownBelow]
    by_cases hwhole : components = [] ∨ b.after ≤ n
    · rw [if_pos (by simpa using hwhole), hfound]
      exact ⟨fun hcut => absurd hcut (not_insideCut hb hfound hwhole), fun _ => rfl⟩
    · obtain ⟨j, hindex, -, hinside, -⟩ := bounds_searchShown hfound
      rw [not_or, Nat.not_le] at hwhole
      rw [if_neg (by simpa using hwhole)]
      exact ⟨fun _ => rfl, fun h => absurd ⟨b, hb, hwhole.2, j, hindex, hinside hwhole.1⟩ h⟩

end Branches

/-! ## Batches -/

section Batches

variable {n : Nat} {components : List Component}

/-- What the scan of a batch of one flat path stores in a document that is cut off. -/
theorem answers_cut (d : Document) (hroot : d.root.isContainer = true)
    (hn : d.before.text.length < n) {c : Component} (hflat : ∀ c' ∈ c :: components, IsFlat c') :
    (answers (d.text.take n) 1 [⟨0, c.text, components.map Component.text⟩])[0]? =
      some (firstAnswer (shownBelow n components) (d.spot.branches.map (Branch.stop c))) := by
  rw [List.forall_mem_cons] at hflat
  have hfree : (Array.replicate 1 (none : Option Result))[0]? = some none := rfl
  have hbracket : (Cursor.start (d.text.take n)).toContainer =
      (Cursor.mk d.spot.offset (d.spot.node.text ++ d.after.text)).cut n := by
    rw [Cursor.start_take, Cursor.toContainer, Cursor.find_cut, ← Cursor.toContainer,
      toContainer_document d hroot]
    rfl
  have hcourse := course_openAt 0 (components.map Component.text)
    [⟨0, c.text, components.map Component.text⟩] hflat.1 d.spot hroot hn d.after.text
  have hscan := scan_course (serves_shownBelow hflat.2 n 0 c.text) hcourse rfl hfree []
  have hrest : ((Cursor.mk d.spot.offset (d.spot.node.text ++ d.after.text)).cut n).rest.isEmpty =
      false := by
    obtain ⟨b, rest, htext, -⟩ := Node.container_cons hroot
    have hpeek : ((Cursor.mk d.spot.offset (d.spot.node.text ++ d.after.text)).cut n).peek? =
        some b := by
      rw [Cursor.peek?_cut hn, Document.spot, htext]
      rfl
    cases hbytes : ((Cursor.mk d.spot.offset (d.spot.node.text ++ d.after.text)).cut n).rest with
    | nil =>
      rw [Cursor.peek?, hbytes] at hpeek
      cases hpeek
    | cons => rfl
  rw [answers, hbracket, hrest]
  simp only [List.isEmpty_cons, Bool.or_self, Bool.false_eq_true, if_false]
  rw [hscan, scan_nil]
  cases firstAnswer (shownBelow n components) (d.spot.branches.map (Branch.stop c)) with
  | none => rfl
  | some value => rfl

end Batches

end JsonQuery.Batch

namespace JsonQuery.Engine

open Ascii Batch Grammar

/-- What a path without bars finds in a document that is cut off. -/
theorem get_cut (engine : Engine) (d : Document) (hroot : d.root.isContainer = true) {n : Nat}
    (hn : d.before.text.length < n) {c : Component} {components : List Component}
    (hbar : ∀ c' ∈ c :: components, bar ∉ c'.text)
    (hlines : Walk.lines? (pathOf (c :: components)) = none)
    (hdepth : (c :: components).length ≤ engine.config.maxDepth) :
    (engine.get (d.text.take n) (pathOf (c :: components))).value =
      (searchShown n (c :: components) d.spot).getD .missing := by
  obtain ⟨depth, hmax⟩ : ∃ depth, engine.config.maxDepth = depth + 1 := by
    refine ⟨engine.config.maxDepth - 1, ?_⟩
    simp only [List.length_cons] at hdepth
    omega
  rw [hmax] at hdepth
  rw [get_of_startsPlain engine _ (startsPlain_pathOf _) hmax,
    start_shown _ d hroot hn c components hlines hdepth,
    residueShown_of_fits n (fits_of_no_bar hbar d.spot)]
  rfl

/-- What a batch of one flat path answers in a document that is cut off. -/
theorem getMany_cut (engine : Engine) (d : Document) (hroot : d.root.isContainer = true)
    {n : Nat} (hn : d.before.text.length < n) {c : Component} {components : List Component}
    (hflat : ∀ c' ∈ c :: components, IsFlat c') {path : Bytes}
    (hparts : components? engine.config.maxDepth path =
      some ((c :: components).map Component.text)) :
    (engine.getMany (d.text.take n) [path]).value =
      [(firstAnswer (shownBelow n components)
        (d.spot.branches.map (Branch.stop c))).getD .missing] := by
  have htarget : target? engine.config.maxDepth 0 path =
      some ⟨0, c.text, components.map Component.text⟩ := by
    rw [target?, hparts]
    rfl
  have htargets : targets engine.config.maxDepth [path] =
      [⟨0, c.text, components.map Component.text⟩] := by
    simp [targets, htarget]
  rw [value_getMany, htargets, List.length_singleton]
  simp [entry, htarget, answers_cut d hroot hn hflat]

/-- **A batch in a document that is cut off.**  Let a document whose root is a container end at any
place behind the first byte of its root.  A flat path has the same answer in a batch as in a query
for it alone, exactly if that answer is not inside of a member or element of the root that is cut
off; and if it is, the batch has no answer to the path. -/
theorem getMany_truncated_iff (engine : Engine) (d : Document)
    (hroot : d.root.isContainer = true) (n : Nat) (hn : d.before.text.length < n)
    (paths : List Bytes) (i : Nat) (path : Bytes) (hpath : paths[i]? = some path)
    (hflat : (components? engine.config.maxDepth path).isSome = true) :
    let text := d.text.take n
    let single := (engine.get text path).value
    let batch := (engine.getMany text paths).value[i]?
    (batch = some single ↔ ¬InsideCut n d.spot single) ∧
      (InsideCut n d.spot single → batch = some .missing) := by
  intro text single batch
  obtain ⟨parts, hparts⟩ := Option.isSome_iff_exists.1 hflat
  obtain ⟨components, rfl, rfl, hne, hdepth, hlines, hbar, hflat⟩ := exists_components hparts
  cases components with
  | nil => exact absurd rfl hne
  | cons c components =>
    have hsingle : single = (searchShown n (c :: components) d.spot).getD .missing :=
      get_cut engine d hroot hn (bar_notMem_of_pathOf hbar) hlines hdepth
    have hbatch : batch = some ((firstAnswer (shownBelow n components)
        (d.spot.branches.map (Branch.stop c))).getD .missing) := by
      have halone := (getMany_apart engine text paths).2.1 i
      rw [hpath, Option.bind_some, getMany_cut engine d hroot hn hflat hparts] at halone
      exact halone
    obtain ⟨hcut, hwhole⟩ := firstAnswer_shownBelow n c components d.spot
    rw [← hsingle] at hcut hwhole
    refine ⟨⟨fun hsame hinside => ?_, fun h => ?_⟩, fun h => ?_⟩
    · -- A missing result has no offset at all, so it is not inside of anything
      have hmissing : single = .missing :=
        (Option.some.inj (hbatch.symm.trans hsame)).symm.trans (hcut hinside)
      obtain ⟨b, -, -, j, hindex, -⟩ := hinside
      rw [hmissing] at hindex
      cases hindex
    · rw [hbatch, hwhole h]
    · rw [hbatch, hcut h]

/-- In `{"a":[nu` a query still finds the element of the array, and a batch does not; the array
itself is not found by either. -/
theorem getMany_truncated_iff_samples :
    let text := Bytes.ofString "\x7b\"a\":[nu"
    let batch := (Engine.standard.getMany text [Bytes.ofString "a", Bytes.ofString "a.0"]).value
    batch[0]? = some (Engine.standard.get text (Bytes.ofString "a")).value ∧
      (Engine.standard.get text (Bytes.ofString "a.0")).value = .located .null 6 ∧
      batch[1]? = some .missing := by
  have htext : Document.sample.text.take 8 = Bytes.ofString "\x7b\"a\":[nu" := by
    rw [Document.text_sample]
    rfl
  have hwhole := getMany_truncated_iff Engine.standard .sample rfl 8 (by decide)
    [Bytes.ofString "a", Bytes.ofString "a.0"] 0 (Bytes.ofString "a") rfl (by decide)
  have hcut := getMany_truncated_iff Engine.standard .sample rfl 8 (by decide)
    [Bytes.ofString "a", Bytes.ofString "a.0"] 1 (Bytes.ofString "a.0") rfl (by decide)
  rw [htext] at hwhole hcut
  have hmissing : (Engine.standard.get (Bytes.ofString "\x7b\"a\":[nu")
      (Bytes.ofString "a")).value = .missing := by
    decide +kernel
  have hfound : (Engine.standard.get (Bytes.ofString "\x7b\"a\":[nu")
      (Bytes.ofString "a.0")).value = .located .null 6 := by
    decide +kernel
  have hinside : InsideCut 8 Document.sample.spot (.located .null 6) := by
    have hlist : (Node.array .none [⟨.none, .word .null, .none⟩]).text =
        Bytes.ofString "[null]" := by
      simp only [Node.text_array, inside_cons, inside_nil, separator, Gap.none, Node.text]
      rfl
    refine ⟨_, List.mem_singleton_self _, ?_, 6, rfl, by decide⟩
    rw [Spot.after, hlist]
    decide
  refine ⟨hwhole.1.2 ?_, hfound, hcut.2 (hfound ▸ hinside)⟩
  rw [hmissing]
  rintro ⟨b, -, -, j, hindex, -⟩
  cases hindex

end JsonQuery.Engine
