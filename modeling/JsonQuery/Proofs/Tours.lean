import JsonQuery.Proofs.Components
import JsonQuery.Proofs.Cuts
import JsonQuery.Proofs.Places

/-!
# Scans tour the branches of a container

A scan of a container that is written as the grammar has it stops at the branches of the container,
one after the other, and ends right behind its closing bracket.  Where the document ends early, the
scan does the same up to the cut.

## Layers

- **Separators**: what stands between two values holds nothing that a scan looks for.
- **Layouts**: `Layout` is the inside of a container as a scan comes along it: the branches one by
  one, and the closing bracket.
- **Tours**: `Tour` lists the stops of a scan, and whether the component selects each.
- **Steps and tours**: one step of a scan over a member or an element, and all of them by induction
  over the layout of the container.
-/

namespace JsonQuery.Grammar

open Ascii Extent

/-! ## Separators -/

/-- A text of bytes that stand between two tokens. -/
def Separates (text : Bytes) : Prop :=
  ∀ c ∈ text, isSeparator c = true

section Separators

variable {a b : Bytes}

theorem Separates.append (ha : Separates a) (hb : Separates b) : Separates (a ++ b) := by
  intro c hc
  rcases List.mem_append.1 hc with hc | hc
  · exact ha c hc
  · exact hb c hc

theorem Gap.separates (gap : Gap) : Separates gap.text := by
  intro c hc
  simp [isSeparator, isSpace_of_mem_gapBytes (gap.isGap c hc)]

/-- What stands between a key and its value. -/
theorem Tag.separates (tag : Tag) :
    Separates (tag.between.text ++ (colon :: tag.after.text)) := by
  apply tag.between.separates.append
  intro c hc
  rcases List.mem_cons.1 hc with rfl | hc
  · rfl
  · exact tag.after.separates c hc

theorem separates_separator {Front : Type} (e : Entry Front Node)
    (rest : List (Entry Front Node)) : Separates (separator e rest) := by
  apply e.gap.separates.append
  intro c hc
  split at hc
  · cases hc
  · rw [List.mem_singleton] at hc
    subst hc
    rfl

/-- Behind a value stands its separator, or the bracket that ends the container. -/
theorem follows_separator {Front : Type} (front : Front → Bytes) (e : Entry Front Node)
    (entries : List (Entry Front Node)) (closer : UInt8) (hcloser : endsNumber closer = true)
    (rest : Bytes) :
    Follows (separator e entries ++ (inside front entries ++ closer :: rest)) := by
  rw [separator, List.append_assoc]
  apply Follows.gap
  cases entries with
  | nil => exact .cons hcloser
  | cons e' entries => exact .cons rfl

/-- A search for the next key passes over separators. -/
theorem toKey_separates {text : Bytes} (h : Separates text) (offset : Nat) (rest : Bytes) :
    (Cursor.mk offset (text ++ rest)).toKey = (Cursor.mk (offset + text.length) rest).toKey := by
  apply find_append
  intro c hc
  have hc := h c hc
  grind [isSeparator, isSpace]

theorem not_startsNumber_of_isSeparator {c : UInt8} (h : isSeparator c = true) :
    startsNumber c = false := by
  grind [isSeparator, isSpace, startsNumber, isDigit]

theorem not_startsValue_of_isSeparator {c : UInt8} (h : isSeparator c = true) :
    startsValue c = false := by
  have hnumber := not_startsNumber_of_isSeparator h
  grind [isSeparator, isSpace, startsValue, opensContainer]

/-- A search for the next value passes over separators. -/
theorem toValue_separates {text : Bytes} (h : Separates text) {closer : UInt8}
    (hcloser : isCloser closer = true) (offset : Nat) (rest : Bytes) :
    (Cursor.mk offset (text ++ rest)).toValue closer =
      (Cursor.mk (offset + text.length) rest).toValue closer := by
  apply find_append
  intro c hc
  have hc := h c hc
  have hne : c ≠ closer := by grind [isSeparator, isSpace, isCloser]
  simp [not_startsValue_of_isSeparator hc, hne]

/-- A search for the next value ends where one stands. -/
theorem toValue_node (n : Node) (closer : UInt8) (offset : Nat) (rest : Bytes) :
    (Cursor.mk offset (n.text ++ rest)).toValue closer = ⟨offset, n.text ++ rest⟩ := by
  obtain ⟨c, text, htext, hc⟩ := n.text_cons
  rw [htext, List.cons_append]
  exact find_cons (by simp [hc]) offset _

theorem peek?_node_ne (n : Node) {closer : UInt8} (hcloser : isCloser closer = true)
    (offset : Nat) (rest : Bytes) :
    (Cursor.mk offset (n.text ++ rest)).peek? ≠ some closer := by
  obtain ⟨c, text, htext, hc⟩ := n.text_cons
  rw [htext]
  intro hpeek
  have hpeek : c = closer := by simpa [Cursor.peek?] using hpeek
  subst hpeek
  simp only [isCloser, Bool.or_eq_true, beq_iff_eq] at hcloser
  -- No closer starts a value
  rcases hcloser with (rfl | rfl) | rfl <;> exact absurd hc (by decide)

end Separators

/-! ## Layouts -/

/-- The inside of a container from a cursor on, with the position of the next branch: what separates
it from the branch before, its front and its value, and in the end the closing bracket. -/
inductive Layout {Front : Type} (front : Front → Bytes) (label : Nat → Front → Label)
    (closer : UInt8) : Nat → Cursor → List Branch → Cursor → Prop where
  | close {position offset : Nat} {lead rest : Bytes} (hlead : Separates lead) :
      Layout front label closer position ⟨offset, lead ++ closer :: rest⟩ []
        ⟨offset + lead.length + 1, rest⟩
  | entry {position offset : Nat} {lead rest : Bytes} {branches : List Branch} {next : Cursor}
      (f : Front) (s : Spot) (hlead : Separates lead)
      (hoffset : s.offset = offset + lead.length + (front f).length) (hrest : Follows rest)
      (hlayout : Layout front label closer (position + 1) ⟨s.after, rest⟩ branches next) :
      Layout front label closer position ⟨offset, lead ++ (front f ++ (s.node.text ++ rest))⟩
        (⟨s, label position f⟩ :: branches) next

/-- The layout of the members of an object. -/
abbrev Members :=
  Layout Tag.text (fun _ tag => .key tag.key.name) closeBrace

/-- The layout of the elements of an array. -/
abbrev Items :=
  Layout Gap.text (fun n _ => .position n) closeBracket

section Layouts

theorem layout_inside {Front : Type} {front : Front → Bytes} {label : Nat → Front → Label}
    {closer : UInt8} (hcloser : endsNumber closer = true) (entries : List (Entry Front Node))
    (offset position : Nat) (rest : Bytes) {lead : Bytes} (hlead : Separates lead) :
    Layout front label closer position ⟨offset, lead ++ (inside front entries ++ closer :: rest)⟩
      (branchesFrom front label (offset + lead.length) position entries)
      ⟨offset + lead.length + (inside front entries).length + 1, rest⟩ := by
  -- Behind an entry stands a separator like the one in front
  induction entries generalizing lead offset position with
  | nil => exact .close hlead
  | cons e entries ih =>
    have hlayout := ih (offset + lead.length + (front e.front).length + e.value.text.length)
      (position + 1) (separates_separator e entries)
    have hend : offset + lead.length + (inside front (e :: entries)).length + 1 =
        offset + lead.length + (front e.front).length + e.value.text.length +
          (separator e entries).length + (inside front entries).length + 1 := by
      rw [length_inside_cons]
      omega
    rw [append_inside_cons, hend]
    exact .entry e.front ⟨_, e.value⟩ hlead rfl
      (follows_separator front e entries closer hcloser rest) hlayout

/-- The inside of an object starts behind its brace. -/
theorem members_object (offset : Nat) (gap : Gap) (members : List (Entry Tag Node))
    (rest : Bytes) :
    Members 0 ((Cursor.mk offset ((Node.object gap members).text ++ rest)).advance 1)
      (Spot.mk offset (.object gap members)).branches
      ⟨(Spot.mk offset (.object gap members)).after, rest⟩ := by
  have hcursor : (Cursor.mk offset ((Node.object gap members).text ++ rest)).advance 1 =
      ⟨offset + 1, gap.text ++ (inside Tag.text members ++ closeBrace :: rest)⟩ := by
    simp [Cursor.advance, Node.text_object]
  have hafter : (Spot.mk offset (.object gap members)).after =
      offset + 1 + gap.text.length + (inside Tag.text members).length + 1 := by
    rw [Spot.after, Node.text_object]
    simp only [List.length_cons, List.length_append, List.length_nil]
    omega
  rw [hcursor, hafter]
  exact layout_inside rfl members (offset + 1) 0 rest gap.separates

/-- The inside of an array starts behind its bracket. -/
theorem items_array (offset : Nat) (gap : Gap) (items : List (Entry Gap Node)) (rest : Bytes) :
    Items 0 ((Cursor.mk offset ((Node.array gap items).text ++ rest)).advance 1)
      (Spot.mk offset (.array gap items)).branches
      ⟨(Spot.mk offset (.array gap items)).after, rest⟩ := by
  have hcursor : (Cursor.mk offset ((Node.array gap items).text ++ rest)).advance 1 =
      ⟨offset + 1, gap.text ++ (inside Gap.text items ++ closeBracket :: rest)⟩ := by
    simp [Cursor.advance, Node.text_array]
  have hafter : (Spot.mk offset (.array gap items)).after =
      offset + 1 + gap.text.length + (inside Gap.text items).length + 1 := by
    rw [Spot.after, Node.text_array]
    simp only [List.length_cons, List.length_append, List.length_nil]
    omega
  rw [hcursor, hafter]
  exact layout_inside rfl items (offset + 1) 0 rest gap.separates

end Layouts

/-! ## Tours -/

/-- A value that a scan comes to, and whether it is selected. -/
structure Stop where
  selected : Bool
  spot : Spot

/-- The stops of a scan from a cursor on, and the place where it ends, in a document that ends at an
offset.  All places are those of the whole document. -/
inductive Tour (n : Nat) (tail : Tail) : Scan → Cursor → List Stop → Cursor → Prop where
  | close {scan : Scan} {c next : Cursor} (hstep : scan.step (c.cut n) = .close (next.cut n)) :
      Tour n tail scan c [] next
  | stop {scan after : Scan} {c next : Cursor} {stops : List Stop} {selected : Bool} {s : Spot}
      {rest : Bytes}
      (hstep : scan.step (c.cut n) =
        if selected then after.select tail ((Cursor.mk s.offset (s.node.text ++ rest)).cut n)
        else after.pass ((Cursor.mk s.offset (s.node.text ++ rest)).cut n))
      (hrest : Follows rest) (htour : Tour n tail after ⟨s.after, rest⟩ stops next) :
      Tour n tail scan c (⟨selected, s⟩ :: stops) next

/-- A branch as a stop of a scan for a component. -/
def Branch.stop (c : Component) (b : Branch) : Stop :=
  ⟨c.selects b.label, b.toSpot⟩

/-- At the end of the text there is nothing to select. -/
theorem select_end (scan : Scan) (tail : Tail) (offset : Nat) :
    scan.select tail ⟨offset, []⟩ = .close ⟨offset, []⟩ := by
  cases tail <;> rfl

/-! ## Members -/

section Members

/-- A search for the next key passes over what separates it from the member before. -/
theorem toKey_tag (tag : Tag) {lead : Bytes} (hlead : Separates lead) (offset : Nat)
    (rest : Bytes) :
    (Cursor.mk offset (lead ++ (tag.text ++ rest))).toKey =
      ⟨offset + lead.length + tag.before.text.length, Bytes.quoted tag.key.text ++
        (tag.between.text ++ (colon :: tag.after.text) ++ rest)⟩ := by
  -- First what is behind the member before, then the gap in front of the key
  rw [toKey_separates hlead, Tag.text, List.append_assoc, toKey_separates tag.before.separates]
  simp only [List.append_assoc, List.cons_append]
  exact find_cons rfl _ _

/-- A search for the value of a key passes over the colon. -/
theorem toValue_tag (tag : Tag) (n : Node) (offset : Nat) (rest : Bytes) :
    (Cursor.mk offset (tag.between.text ++ (colon :: tag.after.text) ++
        (n.text ++ rest))).toValue closeBrace =
      ⟨offset + (tag.between.text ++ (colon :: tag.after.text)).length, n.text ++ rest⟩ := by
  rw [toValue_separates tag.separates rfl, toValue_node]

theorem length_tag (tag : Tag) :
    tag.text.length = tag.before.text.length + (Bytes.quoted tag.key.text).length +
      (tag.between.text ++ (colon :: tag.after.text)).length := by
  simp only [Tag.text, List.length_append]
  omega

variable {lead : Bytes} {offset : Nat}

/-- A scan of an object passes to the value of the next member, as far as it is there. -/
theorem stepMember_tag (component : KeyComponent) (tag : Tag) (s : Spot) (rest : Bytes)
    (hlead : Separates lead) (hoffset : s.offset = offset + lead.length + tag.text.length)
    (n : Nat) :
    Scan.stepMember component
        ((Cursor.mk offset (lead ++ (tag.text ++ (s.node.text ++ rest)))).cut n) =
      if component.selects tag.key.text (tag.key.text.contains backslash) then
        (Scan.members component).select component.tail
          ((Cursor.mk s.offset (s.node.text ++ rest)).cut n)
      else (Scan.members component).pass ((Cursor.mk s.offset (s.node.text ++ rest)).cut n) := by
  have hlength : offset + lead.length + tag.before.text.length +
      (Bytes.quoted tag.key.text).length +
        (tag.between.text ++ (colon :: tag.after.text)).length = s.offset := by
    rw [hoffset, length_tag]
    omega
  rw [Scan.stepMember]
  dsimp only
  rw [Cursor.toKey_cut, toKey_tag tag hlead, keyHere?_cut]
  by_cases hkey : offset + lead.length + tag.before.text.length +
      (Bytes.quoted tag.key.text).length ≤ n
  · rw [if_pos hkey]
    dsimp only
    rw [Cursor.toValue_cut, toValue_tag, hlength, body_quoted,
      if_neg (Cursor.peek?_cut_ne (peek?_node_ne s.node rfl s.offset rest) n)]
  · -- The document ends in front of the value
    have hvalue : (Cursor.mk s.offset (s.node.text ++ rest)).cut n = ⟨n, []⟩ :=
      Cursor.cut_of_le (by simp only; omega)
    have hquote : (Cursor.mk (offset + lead.length + tag.before.text.length)
        (Bytes.quoted tag.key.text ++ (tag.between.text ++ (colon :: tag.after.text) ++
          (s.node.text ++ rest)))).peek? ≠ some closeBrace :=
      fun h => absurd (Option.some.inj h) (by decide)
    rw [if_neg hkey, hvalue, select_end]
    dsimp only
    rw [if_neg (Cursor.peek?_cut_ne hquote n),
      Cursor.toEnd_cut (by simp only [List.length_append]; omega)]
    exact (ite_self _).symm

/-- A search for the next key ends at the brace of its object. -/
theorem toKey_close (hlead : Separates lead) (offset : Nat) (rest : Bytes) :
    (Cursor.mk offset (lead ++ closeBrace :: rest)).toKey =
      ⟨offset + lead.length, closeBrace :: rest⟩ := by
  rw [toKey_separates hlead]
  exact find_cons rfl _ _

/-- A scan of an object ends behind its brace, or at the cut. -/
theorem stepMember_close (component : KeyComponent) (hlead : Separates lead) (offset : Nat)
    (rest : Bytes) (n : Nat) :
    Scan.stepMember component ((Cursor.mk offset (lead ++ closeBrace :: rest)).cut n) =
      .close ((Cursor.mk (offset + lead.length + 1) rest).cut n) := by
  rw [Scan.stepMember]
  dsimp only
  rw [Cursor.toKey_cut, toKey_close hlead]
  rcases Nat.lt_or_ge (offset + lead.length) n with hlt | hle
  · have hpeek : ((Cursor.mk (offset + lead.length) (closeBrace :: rest)).cut n).peek? =
        some closeBrace := Cursor.peek?_cut hlt
    rw [keyHere?_of_peek? (by rw [hpeek]; decide)]
    dsimp only
    rw [if_pos hpeek, Cursor.advance_one_cut hlt]
    rfl
  · rw [Cursor.cut_of_le hle, Cursor.cut_of_le (Nat.le_succ_of_le hle)]
    rfl

/-- The scan of an object stops at each of its members.  A component that is read selects what `c`
does by the names of the keys. -/
theorem tour_keys {component : KeyComponent} {c : Component}
    (hselects : ∀ body : Body,
      component.selects body.text (body.text.contains backslash) = c.selects (.key body.name))
    {position : Nat} {start next : Cursor} {branches : List Branch}
    (h : Members position start branches next) (n : Nat) :
    Tour n component.tail (.members component) start (branches.map (Branch.stop c)) next := by
  induction h with
  | close hlead => exact .close (stepMember_close _ hlead _ _ n)
  | @entry position offset lead rest branches next tag s hlead hoffset hrest _ ih =>
    have hstep := stepMember_tag component tag s rest hlead hoffset n
    rw [hselects] at hstep
    exact .stop hstep hrest ih

theorem tour_members (c : Component) (tail : Tail) {position : Nat} {start next : Cursor}
    {branches : List Branch} (h : Members position start branches next) (n : Nat) :
    Tour n tail (.members ⟨c.text, c.isWild, tail⟩) start (branches.map (Branch.stop c)) next :=
  tour_keys (selects_key c tail) h n

end Members

/-! ## Elements -/

section Elements

variable {lead : Bytes} {offset : Nat}

/-- A search for the next element passes over what separates it from the one before. -/
theorem toValue_gap (gap : Gap) (n : Node) (hlead : Separates lead) (offset : Nat)
    (rest : Bytes) :
    (Cursor.mk offset (lead ++ (gap.text ++ (n.text ++ rest)))).toValue closeBracket =
      ⟨offset + lead.length + gap.text.length, n.text ++ rest⟩ := by
  rw [toValue_separates hlead rfl, toValue_separates gap.separates rfl, toValue_node]

/-- A scan of an array passes to the next element, as far as it is there. -/
theorem stepElement_gap (c : Component) {tail tail' : Tail}
    (htail : (Number.position? c.text).isSome = true → tail' = tail) (passed : Nat) (gap : Gap)
    (s : Spot) (rest : Bytes) (hlead : Separates lead)
    (hoffset : s.offset = offset + lead.length + gap.text.length) (n : Nat) :
    Scan.stepElement (Number.position? c.text) tail' passed
        ((Cursor.mk offset (lead ++ (gap.text ++ (s.node.text ++ rest)))).cut n) =
      if c.selects (.position passed) then
        (Scan.elements (Number.position? c.text) tail' (passed + 1)).select tail
          ((Cursor.mk s.offset (s.node.text ++ rest)).cut n)
      else (Scan.elements (Number.position? c.text) tail' (passed + 1)).pass
          ((Cursor.mk s.offset (s.node.text ++ rest)).cut n) := by
  have hpeek := Cursor.peek?_cut_ne
    (peek?_node_ne s.node (show isCloser closeBracket = true by rfl) s.offset rest) n
  rw [Scan.stepElement, Cursor.toValue_cut, toValue_gap gap s.node hlead, ← hoffset,
    if_neg hpeek, Component.selects_position]
  -- Only an element that is selected asks for the rest of the path
  by_cases heq : Number.position? c.text = some passed
  · have htail := htail (by rw [heq]; rfl)
    simp [heq, htail]
  · simp [heq]

/-- A search for the next element ends at the bracket of its array. -/
theorem toValue_close (hlead : Separates lead) (offset : Nat) (rest : Bytes) :
    (Cursor.mk offset (lead ++ closeBracket :: rest)).toValue closeBracket =
      ⟨offset + lead.length, closeBracket :: rest⟩ := by
  rw [toValue_separates hlead rfl]
  exact find_cons rfl _ _

/-- A scan of an array ends behind its bracket, or at the cut. -/
theorem stepElement_close (target : Option Nat) (tail : Tail) (passed : Nat)
    (hlead : Separates lead) (offset : Nat) (rest : Bytes) (n : Nat) :
    Scan.stepElement target tail passed
        ((Cursor.mk offset (lead ++ closeBracket :: rest)).cut n) =
      .close ((Cursor.mk (offset + lead.length + 1) rest).cut n) := by
  rw [Scan.stepElement, Cursor.toValue_cut, toValue_close hlead]
  rcases Nat.lt_or_ge (offset + lead.length) n with hlt | hle
  · have hpeek : ((Cursor.mk (offset + lead.length) (closeBracket :: rest)).cut n).peek? =
        some closeBracket := Cursor.peek?_cut hlt
    rw [if_pos hpeek, Cursor.advance_one_cut hlt]
    rfl
  · have hpeek : (Cursor.mk n []).peek? ≠ some closeBracket := by simp [Cursor.peek?]
    rw [Cursor.cut_of_le hle, Cursor.cut_of_le (Nat.le_succ_of_le hle), if_neg hpeek, select_end]
    exact ite_self _

/-- The scan of an array stops at each of its elements.  What follows the component matters only
where the component names a position. -/
theorem tour_elements (c : Component) {tail tail' : Tail}
    (htail : (Number.position? c.text).isSome = true → tail' = tail) {position : Nat}
    {start next : Cursor} {branches : List Branch} (h : Items position start branches next)
    (n : Nat) :
    Tour n tail (.elements (Number.position? c.text) tail' position) start
      (branches.map (Branch.stop c)) next := by
  -- The count of the scan is the position of the next element
  induction h with
  | close hlead => exact .close (stepElement_close _ _ _ hlead _ _ n)
  | @entry position offset lead rest branches next gap s hlead hoffset hrest _ ih =>
    exact .stop (stepElement_gap c htail position gap s rest hlead hoffset n) hrest ih

/-- A search for a value runs over a gap to the end of the text. -/
theorem toValue_end (hlead : Separates lead) (offset : Nat) :
    (Cursor.mk offset lead).toValue closeBracket = ⟨offset + lead.length, []⟩ := by
  have hcloser : isCloser closeBracket = true := rfl
  have hvalue := toValue_separates hlead hcloser offset []
  rw [List.append_nil] at hvalue
  exact hvalue

/-- Behind the last value there is no further element. -/
theorem stepElement_end (target : Option Nat) (tail : Tail) (passed : Nat)
    (hlead : Separates lead) (offset n : Nat) :
    Scan.stepElement target tail passed ((Cursor.mk offset lead).cut n) =
      .close ((Cursor.mk (offset + lead.length) []).cut n) := by
  have hcut : (Cursor.mk (offset + lead.length) []).cut n = ⟨min (offset + lead.length) n, []⟩ := by
    simp [Cursor.cut]
  have hpeek : ((Cursor.mk (offset + lead.length) []).cut n).peek? ≠ some closeBracket := by
    simp [hcut, Cursor.peek?]
  rw [Scan.stepElement, Cursor.toValue_cut, toValue_end hlead, if_neg hpeek, hcut, select_end]
  exact ite_self _

end Elements

end JsonQuery.Grammar
