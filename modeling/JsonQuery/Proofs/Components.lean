import JsonQuery.Proofs.Search

/-!
# Components as they are read

A path of components is read one component at a time, by one reader where it meets an object and by
another where it meets an array.  Both find the component in front and the path behind it.

## Layers

- **Paths**: what stands behind a component, and the bytes that a path starts with.
- **Keys**: the component that meets an object selects what `Component.selects` says.
- **Positions**: the component that meets an array names the position that its digits denote, and
  none if it is not a run of digits.
-/

namespace JsonQuery.Grammar

open Ascii

/-! ## Paths -/

/-- What stands behind a component in its path. -/
def behind : List Component → Bytes
  | [] => []
  | c :: components => dot :: pathOf (c :: components)

/-- How a path goes on behind a component. -/
def tailOf : List Component → Tail
  | [] => .done
  | c :: components => .deeper (pathOf (c :: components))

theorem pathOf_cons (c : Component) (components : List Component) :
    pathOf (c :: components) = c.text ++ behind components := by
  cases components with
  | nil => simp [pathOf, behind, Path.ofComponents_singleton]
  | cons c' components =>
    simp [pathOf, behind, Path.ofComponents_cons_cons]

/-- A byte that a path of components may start with. -/
def StartsPlain (path : Bytes) : Prop :=
  ∀ b ∈ path.head?, b ≠ atSign ∧ b ≠ bang ∧ b ≠ hash ∧ opensContainer b = false

theorem startsPlain_of_isLiteral {c : UInt8} (h : isLiteral c = true) :
    c ≠ atSign ∧ c ≠ bang ∧ c ≠ hash ∧ opensContainer c = false := by
  refine ⟨ne_of_isLiteral h rfl, ne_of_isLiteral h rfl, ne_of_isLiteral h rfl, ?_⟩
  apply Bool.eq_false_iff.2
  intro hopens
  simp only [opensContainer, Bool.or_eq_true, beq_iff_eq] at hopens
  rcases hopens with rfl | rfl <;> exact absurd h (by decide)

theorem startsPlain_dot (path : Bytes) : StartsPlain (dot :: path) := by
  intro b hb
  obtain rfl : dot = b := Option.some.inj hb
  decide

theorem startsPlain_behind (components : List Component) : StartsPlain (behind components) := by
  cases components with
  | nil => simp [StartsPlain, behind]
  | cons c components => exact startsPlain_dot _

/-- An empty component leaves the start to what is behind it. -/
theorem StartsPlain.append {rest : Bytes} (hrest : StartsPlain rest) (c : Component) :
    StartsPlain (c.text ++ rest) := by
  cases c with
  | nil => exact hrest
  | cons piece pieces =>
    intro b hb
    cases piece with
    | plain c h =>
      have hb : c = b := by simpa [Component.text, Piece.text] using hb
      exact hb ▸ startsPlain_of_isLiteral h
    | escaped c =>
      have hb : backslash = b := by simpa [Component.text, Piece.text] using hb
      exact hb ▸ by decide
    | any =>
      have hb : star = b := by simpa [Component.text, Piece.text] using hb
      exact hb ▸ by decide
    | one =>
      have hb : question = b := by simpa [Component.text, Piece.text] using hb
      exact hb ▸ by decide

theorem startsPlain_append (c : Component) (components : List Component) :
    StartsPlain (c.text ++ behind components) :=
  (startsPlain_behind components).append c

theorem startsPlain_pathOf (components : List Component) : StartsPlain (pathOf components) := by
  cases components with
  | nil => simp [StartsPlain]
  | cons c components =>
    rw [pathOf_cons]
    exact startsPlain_append c components

/-- Behind a dot such a path goes on inside of what is selected. -/
theorem afterDot_of_startsPlain (dialect : Dialect) {path : Bytes} (h : StartsPlain path) :
    dialect.afterDot path = .deeper path := by
  have hpipe : dialect.pipesInto path = false := by
    cases path with
    | nil => simp [Dialect.pipesInto]
    | cons b rest =>
      obtain ⟨hat, -, -, hopens⟩ := h b rfl
      simp [Dialect.pipesInto, hat, hopens]
  simp [Dialect.afterDot, hpipe]

/-! ## Keys -/

section Keys

variable (dialect : Dialect)

theorem parseFrom_cons {c : UInt8} (hslash : c ≠ backslash) (before : Bytes) (wild : Bool)
    (rest : Bytes) :
    KeyComponent.parseFrom dialect before wild (c :: rest) =
      if c = bar then ⟨before.reverse, wild, .pipe rest⟩
      else if c = dot then ⟨before.reverse, wild, dialect.afterDot rest⟩
      else KeyComponent.parseFrom dialect (c :: before) (wild || c == star || c == question)
        rest := by
  cases rest <;> simp [KeyComponent.parseFrom, hslash]

theorem parseFrom_behind (before : Bytes) (wild : Bool) (components : List Component) :
    KeyComponent.parseFrom dialect before wild (behind components) =
      ⟨before.reverse, wild, tailOf components⟩ := by
  cases components with
  | nil => rfl
  | cons c components =>
    rw [behind, parseFrom_cons dialect (by decide), if_neg (by decide), if_pos rfl,
      afterDot_of_startsPlain dialect (startsPlain_pathOf _)]
    rfl

/-- The reader takes the pieces of a component one after the other. -/
theorem parseFrom_text (c : Component) (before : Bytes) (wild : Bool) (rest : Bytes) :
    KeyComponent.parseFrom dialect before wild (c.text ++ rest) =
      KeyComponent.parseFrom dialect (c.text.reverse ++ before) (wild || c.isWild) rest := by
  induction c generalizing before wild with
  | nil => simp [Component.text, Component.isWild]
  | cons piece pieces ih =>
    -- One piece in front of any others; only a wildcard sets the mark
    have hpiece : KeyComponent.parseFrom dialect before wild
          (piece.text ++ (Component.text pieces ++ rest)) =
        KeyComponent.parseFrom dialect (piece.text.reverse ++ before) (wild || piece.isWild)
          (Component.text pieces ++ rest) := by
      cases piece with
      | plain c h =>
        have hstar : c ≠ star := ne_of_isLiteral h rfl
        have hquestion : c ≠ question := ne_of_isLiteral h rfl
        have hwild : (wild || c == star || c == question) = wild := by
          rw [beq_eq_false_iff_ne.2 hstar, beq_eq_false_iff_ne.2 hquestion, Bool.or_false,
            Bool.or_false]
        simp only [Piece.text, Piece.isWild, List.singleton_append, List.reverse_singleton,
          Bool.or_false]
        rw [parseFrom_cons dialect (ne_of_isLiteral h rfl), if_neg (ne_of_isLiteral h rfl),
          if_neg (ne_of_isLiteral h rfl), hwild]
      | escaped c => simp [Piece.text, Piece.isWild, KeyComponent.parseFrom]
      | any =>
        simp only [Piece.text, Piece.isWild, List.singleton_append, List.reverse_singleton]
        rw [parseFrom_cons dialect (by decide), if_neg (by decide), if_neg (by decide)]
        rw [Bool.or_assoc]
        rfl
      | one =>
        simp only [Piece.text, Piece.isWild, List.singleton_append, List.reverse_singleton]
        rw [parseFrom_cons dialect (by decide), if_neg (by decide), if_neg (by decide)]
        rw [Bool.or_assoc]
        rfl
    have htext : Component.text (piece :: pieces) = piece.text ++ Component.text pieces := rfl
    have hwild : Component.isWild (piece :: pieces) =
        (piece.isWild || Component.isWild pieces) := rfl
    rw [htext, hwild, List.append_assoc, hpiece, ih, List.reverse_append, List.append_assoc,
      Bool.or_assoc]

theorem keyComponent_pathOf (c : Component) (components : List Component) :
    KeyComponent.parse dialect (pathOf (c :: components)) =
      ⟨c.text, c.isWild, tailOf components⟩ := by
  rw [pathOf_cons, KeyComponent.parse, parseFrom_text, parseFrom_behind]
  simp

theorem unescape_cons {c : UInt8} (hslash : c ≠ backslash) (rest : Bytes) :
    Path.unescape (c :: rest) = c :: Path.unescape rest := by
  cases rest <;> simp [Path.unescape, hslash]

theorem unescape_text (c : Component) : Path.unescape c.text = c.name := by
  induction c with
  | nil => rfl
  | cons piece pieces ih =>
    have htext : Component.text (piece :: pieces) = piece.text ++ Component.text pieces := rfl
    have hname : Component.name (piece :: pieces) = piece.byte :: Component.name pieces := rfl
    rw [htext, hname]
    -- An escape loses its backslash, any other piece is what it was
    cases piece with
    | plain c h =>
      have hslash : c ≠ backslash := ne_of_isLiteral h rfl
      simp [Piece.text, Piece.byte, unescape_cons hslash, ih]
    | escaped c => simp [Piece.text, Piece.byte, Path.unescape, ih]
    | any =>
      rw [Piece.text, List.singleton_append, unescape_cons (by decide), ih]
      rfl
    | one =>
      rw [Piece.text, List.singleton_append, unescape_cons (by decide), ih]
      rfl

theorem name_eq (body : Body) :
    body.name =
      if body.text.contains backslash then Quoted.decode body.text else body.text :=
  Value.stringText_quoted body.text

/-- The component that meets an object selects a member by the name of its key. -/
theorem selects_key (c : Component) (tail : Tail) (body : Body) :
    KeyComponent.selects ⟨c.text, c.isWild, tail⟩ body.text (body.text.contains backslash) =
      c.selects (.key body.name) := by
  rw [name_eq]
  simp only [KeyComponent.selects, KeyComponent.key, unescape_text, Component.selects]
  cases body.text.contains backslash <;> rfl

end Keys

/-! ## Positions -/

section Positions

variable (dialect : Dialect)

/-- How a path goes on behind a component that meets an array.  The reader of positions knows no
escapes, so it stops at the first dot or bar behind a backslash. -/
def elementTail (components : List Component) : Component → Tail
  | [] => tailOf components
  | .escaped b :: pieces =>
    if b = bar then .pipe (pathOf (pieces :: components))
    else if b = dot then .deeper (pathOf (pieces :: components))
    else elementTail components pieces
  | _ :: pieces => elementTail components pieces

/-- The reader of positions takes a component whole, or stops at an escaped dot or bar inside of it.
In the second case a backslash is left in front, so that the part read is no run of digits. -/
inductive Split (c : Component) (before : Bytes) (counting : Bool)
    (part : ElementComponent.Part) : Prop where
  | whole (htext : part.text = before.reverse ++ c.text)
      (hcounting : part.counting = (counting || c.text.contains hash))
  | cut (hslash : backslash ∈ part.text) (htext : backslash ∈ c.text)

theorem partFrom_behind (before : Bytes) (counting : Bool) (components : List Component) :
    ElementComponent.partFrom dialect before counting (behind components) =
      ⟨before.reverse, counting, tailOf components⟩ := by
  cases components with
  | nil => rfl
  | cons c components =>
    rw [behind, ElementComponent.partFrom, if_neg (by decide), if_pos rfl,
      afterDot_of_startsPlain dialect (startsPlain_pathOf _), ite_self]
    rfl

theorem partFrom_cons {b : UInt8} (hbar : b ≠ bar) (hdot : b ≠ dot) (before : Bytes)
    (counting : Bool) (rest : Bytes) :
    ElementComponent.partFrom dialect before counting (b :: rest) =
      ElementComponent.partFrom dialect (b :: before) (counting || b == hash) rest := by
  rw [ElementComponent.partFrom, if_neg hbar, if_neg hdot]

/-- A piece of a single byte in front of the ones that were read. -/
theorem Split.cons {c : Component} {before : Bytes} {counting : Bool}
    {part : ElementComponent.Part} {piece : Piece} {b : UInt8} (hpiece : piece.text = [b])
    (h : Split c (b :: before) (counting || b == hash) part) :
    Split (piece :: c) before counting part := by
  have htext : Component.text (piece :: c) = b :: c.text := by
    simp [Component.text, hpiece]
  cases h with
  | whole hpart hcounting =>
    refine .whole ?_ ?_
    · rw [hpart, htext]
      simp
    · rw [hcounting, htext, List.contains_cons, Bool.or_assoc, BEq.comm]
  | cut hslash hmem =>
    refine .cut hslash ?_
    rw [htext]
    exact List.mem_cons_of_mem _ hmem

/-- What the reader of positions takes of a component, and how the path goes on behind it. -/
theorem split_partFrom (c : Component) (components : List Component) (before : Bytes)
    (counting : Bool) :
    Split c before counting
        (ElementComponent.partFrom dialect before counting (c.text ++ behind components)) ∧
      (ElementComponent.partFrom dialect before counting (c.text ++ behind components)).tail =
        elementTail components c := by
  -- The reader knows no escapes: a dot or a bar ends the component even behind a backslash
  induction c generalizing before counting with
  | nil =>
    have htext : Component.text [] ++ behind components = behind components := rfl
    rw [htext, partFrom_behind]
    exact ⟨.whole (by simp [Component.text]) (by simp [Component.text]), rfl⟩
  | cons piece pieces ih =>
    have htext : Component.text (piece :: pieces) ++ behind components =
        piece.text ++ (Component.text pieces ++ behind components) := by
      simp [Component.text]
    rw [htext]
    cases piece with
    | plain b h =>
      rw [Piece.text, List.singleton_append,
        partFrom_cons dialect (ne_of_isLiteral h rfl) (ne_of_isLiteral h rfl)]
      obtain ⟨hsplit, htail⟩ := ih (b :: before) (counting || b == Ascii.hash)
      exact ⟨hsplit.cons rfl, htail⟩
    | any =>
      rw [Piece.text, List.singleton_append, partFrom_cons dialect (by decide) (by decide)]
      obtain ⟨hsplit, htail⟩ := ih (star :: before) (counting || star == Ascii.hash)
      exact ⟨hsplit.cons rfl, htail⟩
    | one =>
      rw [Piece.text, List.singleton_append, partFrom_cons dialect (by decide) (by decide)]
      obtain ⟨hsplit, htail⟩ := ih (question :: before) (counting || question == Ascii.hash)
      exact ⟨hsplit.cons rfl, htail⟩
    | escaped b =>
      have htext : Component.text (.escaped b :: pieces) =
          backslash :: b :: Component.text pieces := rfl
      have hslash : backslash ∈ Component.text (.escaped b :: pieces) := by simp [htext]
      rw [Piece.text, List.cons_append, List.singleton_append,
        partFrom_cons dialect (by decide) (by decide), elementTail, pathOf_cons]
      by_cases hbar : b = bar
      · subst hbar
        rw [ElementComponent.partFrom, if_pos rfl, if_pos rfl]
        exact ⟨.cut (by simp) hslash, rfl⟩
      by_cases hdot : b = dot
      · subst hdot
        rw [ElementComponent.partFrom, if_neg (by decide), if_pos rfl,
          afterDot_of_startsPlain dialect (startsPlain_append pieces components), ite_self,
          if_neg (by decide), if_pos rfl]
        exact ⟨.cut (by simp) hslash, rfl⟩
      · rw [partFrom_cons dialect hbar hdot, if_neg hbar, if_neg hdot]
        obtain ⟨hsplit, htail⟩ :=
          ih (b :: backslash :: before) (counting || backslash == Ascii.hash || b == Ascii.hash)
        refine ⟨?_, htail⟩
        cases hsplit with
        | whole hpart hcounting =>
          refine .whole ?_ ?_
          · rw [hpart, htext]
            simp
          · rw [hcounting, htext, List.contains_cons, List.contains_cons, BEq.comm (a := hash),
              BEq.comm (a := hash)]
            simp only [Bool.or_assoc]
        | cut hpart hmem => exact .cut hpart hslash

theorem position?_eq_none {text : Bytes} {b : UInt8} (hmem : b ∈ text)
    (hb : isDigit b = false) : Number.position? text = none := by
  have hdigits : Number.isDigits text = false := by
    simp only [Number.isDigits, Bool.and_eq_false_iff, List.all_eq_false]
    exact .inr ⟨b, hmem, by simp [hb]⟩
  simp [Number.position?, hdigits]

/-- A hash sign stands in a component only behind a backslash. -/
theorem backslash_mem_of_hash {c : Component} (h : hash ∈ c.text) : backslash ∈ c.text := by
  simp only [Component.text, List.mem_flatMap] at h ⊢
  obtain ⟨piece, hpiece, hmem⟩ := h
  refine ⟨piece, hpiece, ?_⟩
  -- A literal byte is never a hash sign, and no wildcard is
  cases piece with
  | plain b h =>
    have hb : hash = b := by simpa [Piece.text] using hmem
    subst hb
    exact absurd h (by decide)
  | escaped b => simp [Piece.text]
  | any => exact absurd hmem (by decide)
  | one => exact absurd hmem (by decide)

/-- What is read of a component selects what the whole component does: digits are always read whole,
and a part that was cut holds a backslash, so it names no position. -/
theorem Split.selection {c : Component} {part : ElementComponent.Part}
    (h : Split c [] false part) :
    part.selection = .position (Number.position? c.text) := by
  cases h with
  | whole htext hcounting =>
    simp only [List.reverse_nil, List.nil_append, Bool.false_or] at htext hcounting
    rw [ElementComponent.Part.selection, htext, hcounting]
    cases hhash : c.text.contains hash with
    | false => rfl
    | true =>
      -- A component that counts holds a hash sign, so its text is no number either way
      have hmem : hash ∈ c.text := List.contains_iff_mem.1 hhash
      have hone : c.text ≠ [hash] := by
        intro hone
        have hslash := backslash_mem_of_hash hmem
        rw [hone] at hslash
        exact absurd hslash (by decide)
      rw [if_pos rfl, if_neg hone, position?_eq_none hmem rfl]
  | cut hslash hmem =>
    have hone : part.text ≠ [hash] := by
      intro hone
      rw [hone] at hslash
      exact absurd hslash (by decide)
    rw [ElementComponent.Part.selection, if_neg hone, position?_eq_none hslash rfl,
      position?_eq_none hmem rfl, ite_self]

theorem StartsPlain.not_startsFilter {path : Bytes} (h : StartsPlain path) :
    Filter.starts path = false := by
  match path with
  | [] => rfl
  | [_] => rfl
  | a :: b :: rest =>
    have ha : a ≠ hash := (h a rfl).2.2.1
    simp [Filter.starts, ha]

theorem not_startsFilter_pathOf (components : List Component) :
    Filter.starts (pathOf components) = false :=
  (startsPlain_pathOf components).not_startsFilter

/-- The component that meets an array names the position that its digits denote. -/
theorem elementComponent_eq (c : Component) (components : List Component) :
    ElementComponent.parse? dialect (pathOf (c :: components)) =
      some ⟨.position (Number.position? c.text), elementTail components c⟩ := by
  -- The reader starts with nothing read and nothing counted
  obtain ⟨hsplit, htail⟩ := split_partFrom dialect c components [] false
  rw [← pathOf_cons] at hsplit htail
  simp only [ElementComponent.parse?, not_startsFilter_pathOf, Bool.false_eq_true, if_false,
    hsplit.selection, htail]

/-- Without a backslash a component is read whole. -/
theorem elementTail_of_slash_notMem (components : List Component) {c : Component}
    (h : backslash ∉ c.text) : elementTail components c = tailOf components := by
  induction c with
  | nil => rfl
  | cons piece pieces ih =>
    have htext : Component.text (piece :: pieces) = piece.text ++ Component.text pieces := rfl
    rw [htext, List.mem_append, not_or] at h
    cases piece with
    | escaped b => exact absurd (by simp [Piece.text]) h.1
    | plain b hb => exact ih h.2
    | any => exact ih h.2
    | one => exact ih h.2

theorem elementTail_ne_pipe (components : List Component) {c : Component} (h : bar ∉ c.text)
    (path : Bytes) : elementTail components c ≠ .pipe path := by
  induction c with
  | nil => cases components <;> exact Tail.noConfusion
  | cons piece pieces ih =>
    have htext : Component.text (piece :: pieces) = piece.text ++ Component.text pieces := rfl
    rw [htext, List.mem_append, not_or] at h
    cases piece with
    | escaped b =>
      have hbar : b ≠ bar := by
        rintro rfl
        exact h.1 (by simp [Piece.text])
      rw [elementTail, if_neg hbar]
      split
      · exact Tail.noConfusion
      · exact ih h.2
    | plain b hb => exact ih h.2
    | any => exact ih h.2
    | one => exact ih h.2

/-- A component that names a position is read whole. -/
theorem elementTail_of_position (components : List Component) {c : Component}
    (h : (Number.position? c.text).isSome = true) :
    elementTail components c = tailOf components := by
  apply elementTail_of_slash_notMem
  intro hslash
  rw [position?_eq_none hslash rfl] at h
  cases h

end Positions

end JsonQuery.Grammar
