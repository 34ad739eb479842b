import JsonQuery.Engine.Walk
import JsonQuery.Proofs.Extents

/-!
# Texts that are cut off

What the readers do where a text ends early.  A search and a scan take the bytes as they come, so in
a text that is cut off they come to the places that they come to in the whole text, as far as these
are still there.  Strings and containers are read only if their last byte is there; numbers and
words have no last byte of their own, and are read as far as they go.

## Layers

- **Cut cursors**: `Cursor.cut` is a place of the whole text in the text that is cut off.
- **Closers**: the byte that closes a string or a container is found if the cut is behind it.
- **Keys and values**: `Spot.shown` is what can still be read of a value.
-/

namespace JsonQuery

open Ascii

/-! ## Cut cursors -/

namespace Cursor

/-- A place of a text, in the text that ends at an offset. -/
def cut (n : Nat) (c : Cursor) : Cursor :=
  ⟨min c.offset n, c.rest.take (n - c.offset)⟩

variable {n : Nat} {c : Cursor}

theorem start_take (n : Nat) (text : Bytes) : start (text.take n) = (start text).cut n := by
  simp [start, cut]

/-- Nothing is left behind the cut. -/
theorem cut_of_le (h : n ≤ c.offset) : c.cut n = ⟨n, []⟩ := by
  simp [cut, Nat.sub_eq_zero_of_le h, Nat.min_eq_right h]

theorem cut_mk {offset : Nat} (rest : Bytes) (h : offset ≤ n) :
    (mk offset rest).cut n = ⟨offset, rest.take (n - offset)⟩ := by
  rw [cut, Nat.min_eq_left h]

/-- A cut behind the end of the text takes nothing away. -/
theorem cut_self {offset : Nat} {rest : Bytes} (h : offset + rest.length ≤ n) :
    (mk offset rest).cut n = ⟨offset, rest⟩ := by
  rw [cut_mk rest (by omega), List.take_of_length_le (by omega)]

/-- A text in front of the cut stays as it is. -/
theorem cut_append (text rest : Bytes) {offset : Nat} (h : offset + text.length ≤ n) :
    (mk offset (text ++ rest)).cut n =
      ⟨offset, text ++ rest.take (n - (offset + text.length))⟩ := by
  have hleft : n - offset - text.length = n - (offset + text.length) := by omega
  have htake : text.take (n - offset) = text := List.take_of_length_le (by omega)
  rw [cut_mk _ (by omega), List.take_append, htake, hleft]

theorem peek?_cut (h : c.offset < n) : (c.cut n).peek? = c.peek? := by
  have hpos : n - c.offset ≠ 0 := by omega
  simp [peek?, cut, List.head?_take, hpos]

/-- The cut adds no byte. -/
theorem peek?_cut_ne {b : UInt8} (h : c.peek? ≠ some b) (n : Nat) :
    (c.cut n).peek? ≠ some b := by
  rcases Nat.lt_or_ge c.offset n with hlt | hle
  · rw [peek?_cut hlt]
    exact h
  · simp [peek?, cut_of_le hle]

theorem advance_one_cut (h : c.offset < n) : (c.cut n).advance 1 = (c.advance 1).cut n := by
  have hmin : min c.offset n + 1 = min (c.offset + 1) n := by omega
  have hleft : n - c.offset - 1 = n - (c.offset + 1) := by omega
  simp only [cut, advance, hmin, List.drop_take, hleft]

theorem toEnd_cut (h : n ≤ c.offset + c.rest.length) : (c.cut n).toEnd = ⟨n, []⟩ := by
  simp only [toEnd, cut, List.length_take, mk.injEq, and_true]
  omega

theorem offset_le_findFrom (p : UInt8 → Bool) (offset : Nat) (text : Bytes) :
    offset ≤ (findFrom p offset text).offset := by
  induction text generalizing offset with
  | nil => exact Nat.le_refl _
  | cons c rest ih =>
    rw [findFrom]
    split
    · exact Nat.le_refl _
    · exact Nat.le_of_succ_le (ih (offset + 1))

theorem findFrom_take (p : UInt8 → Bool) (offset m : Nat) (text : Bytes) :
    findFrom p offset (text.take m) = (findFrom p offset text).cut (offset + m) := by
  induction text generalizing offset m with
  | nil => simp [findFrom, cut]
  | cons c rest ih =>
    cases m with
    | zero =>
      rw [Nat.add_zero, cut_of_le (offset_le_findFrom p offset _)]
      rfl
    | succ m =>
      rw [List.take_succ_cons, findFrom, findFrom, ih]
      split
      · simp [cut]
      · rw [Nat.add_right_comm offset 1 m]
        rfl

/-- A search in the text that is cut off comes to the place that it comes to in the whole text. -/
theorem find_cut (p : UInt8 → Bool) (n : Nat) (c : Cursor) :
    (c.cut n).find p = (c.find p).cut n := by
  obtain ⟨offset, text⟩ := c
  rcases Nat.le_total offset n with hle | hle
  · have hn : offset + (n - offset) = n := by omega
    have hfind := findFrom_take p offset (n - offset) text
    rw [hn] at hfind
    simpa [find, cut, Nat.min_eq_left hle] using hfind
  · have hfind : n ≤ (findFrom p offset text).offset :=
      Nat.le_trans hle (offset_le_findFrom p offset text)
    rw [cut_of_le hle, find, find, cut_of_le hfind, findFrom]

theorem toKey_cut (n : Nat) (c : Cursor) : (c.cut n).toKey = c.toKey.cut n :=
  find_cut _ n c

theorem toValue_cut (closer : UInt8) (n : Nat) (c : Cursor) :
    (c.cut n).toValue closer = (c.toValue closer).cut n :=
  find_cut _ n c

end Cursor

/-- Strings and containers end with a byte of their own. -/
def Lead.isClosed : Lead → Bool
  | .string | .object | .array => true
  | _ => false

namespace Grammar

open Extent

/-! ## Closers -/

section Closers

variable {n : Nat}

theorem length_le_of_close? {length : Nat} {escaped : Bool} {text : Bytes} {body : Quoted.Body}
    (h : Quoted.closeFrom length escaped text = some body) : length ≤ body.length := by
  fun_induction Quoted.closeFrom length escaped text with
  | case1 length escaped => cases h
  | case2 length escaped rest => exact Option.some.inj h ▸ Nat.le_refl _
  | case3 length escaped => cases h
  | case4 length escaped hquote c rest ih => exact Nat.le_of_add_right_le (ih h)
  | case5 length escaped c rest hquote hslash ih => exact Nat.le_of_succ_le (ih h)

theorem filter_close?_eq_none {bound length : Nat} (hle : bound ≤ length) (escaped : Bool)
    (text : Bytes) :
    ((Quoted.closeFrom length escaped text).filter fun body => body.length < bound) = none := by
  rw [Option.filter_eq_none_iff]
  intro body hbody
  have hlength := length_le_of_close? hbody
  simp only [decide_eq_true_eq]
  omega

/-- The quote that ends a body is found if it is still there. -/
theorem close?_take (m length : Nat) (escaped : Bool) (text : Bytes) :
    Quoted.closeFrom length escaped (text.take m) =
      (Quoted.closeFrom length escaped text).filter fun body => body.length < length + m := by
  fun_induction Quoted.closeFrom length escaped text generalizing m with
  | case1 length escaped => simp [Quoted.closeFrom]
  | case2 length escaped rest =>
    cases m with
    | zero => simp [Quoted.closeFrom, Option.filter_some]
    | succ m => simp [close?_quote, Option.filter_some]
  | case3 length escaped =>
    cases m with
    | zero => rfl
    | succ m => simp [Quoted.closeFrom, show ¬backslash = quote by decide]
  | case4 length escaped c rest hquote ih =>
    -- A cut may leave the backslash without the byte behind it
    cases m with
    | zero => exact (filter_close?_eq_none (by omega) true rest).symm
    | succ m =>
      cases m with
      | zero =>
        rw [filter_close?_eq_none (by omega) true rest]
        simp [Quoted.closeFrom, hquote]
      | succ m =>
        have hlength : length + (m + 1 + 1) = length + 2 + m := by omega
        simp only [List.take_succ_cons, close?_slash, ih, hlength]
  | case5 length escaped c rest hquote hslash ih =>
    cases m with
    | zero => exact (filter_close?_eq_none (by omega) escaped rest).symm
    | succ m =>
      have hlength : length + (m + 1) = length + 1 + m := by omega
      simp only [List.take_succ_cons, close?_plain hquote hslash, ih, hlength]

/-- The bracket that ends a container is found if it is still there. -/
theorem closeFrom_take (place : Place) (depth length m : Nat) (text : Bytes) :
    closeFrom place depth length (text.take m) =
      (closeFrom place depth length text).filter fun next => next ≤ length + m := by
  induction text generalizing place depth length m with
  | nil => simp [closeFrom]
  | cons c rest ih =>
    cases m with
    | zero =>
      rw [List.take_zero, closeFrom, eq_comm, Option.filter_eq_none_iff]
      intro next hnext
      simpa using lt_of_closeFrom hnext
    | succ m =>
      have hlength : length + (m + 1) = length + 1 + m := by omega
      rw [List.take_succ_cons, hlength]
      cases place with
      | escaped => simp only [closeFrom, ih]
      | quoted =>
        simp only [closeFrom, ih]
        split
        · rfl
        · split <;> rfl
      | plain =>
        simp only [closeFrom, ih]
        split
        · rfl
        · split
          · rfl
          · split
            · cases depth <;> simp [Option.filter_some]
            · rfl

/-- A run of bytes that pass a test ends at the cut, if not before. -/
theorem length_takeWhile_take (p : UInt8 → Bool) (m : Nat) (text : Bytes) :
    ((text.take m).takeWhile p).length = min (text.takeWhile p).length m := by
  induction text generalizing m with
  | nil => simp
  | cons c rest ih =>
    cases m with
    | zero => simp
    | succ m =>
      rw [List.take_succ_cons, List.takeWhile_cons, List.takeWhile_cons]
      split
      · simp [ih, Nat.add_min_add_right]
      · simp

theorem ofNumber_take (m : Nat) (text : Bytes) :
    ofNumber (text.take m) = min (ofNumber text) m := by
  match m, text with
  | 0, _ => simp [ofNumber]
  | _ + 1, [] => simp [ofNumber]
  | m + 1, c :: rest => simp [ofNumber, length_takeWhile_take, Nat.add_min_add_right]

theorem ofWord_take (m : Nat) (text : Bytes) : ofWord (text.take m) = min (ofWord text) m := by
  match m, text with
  | 0, _ => simp [ofWord]
  | _ + 1, [] => simp [ofWord]
  | m + 1, c :: rest => simp [ofWord, length_takeWhile_take, Nat.add_min_add_right]

theorem ofString?_take (m : Nat) (text : Bytes) :
    ofString? (text.take m) = (ofString? text).filter (· ≤ m) := by
  match m, text with
  | _, [] => simp [ofString?]
  | 0, c :: rest =>
    rw [List.take_zero, ofString?, ofString?, eq_comm, Option.filter_eq_none_iff]
    intro next hnext
    obtain ⟨body, -, rfl⟩ := Option.map_eq_some_iff.1 hnext
    simp
  | m + 1, c :: rest =>
    rw [List.take_succ_cons, ofString?, ofString?, Quoted.close?, close?_take, Option.filter_map]
    congr 2
    funext body
    simp only [Function.comp_apply, decide_eq_decide]
    omega

theorem ofContainer?_take (m : Nat) (text : Bytes) :
    ofContainer? (text.take m) = (ofContainer? text).filter (· ≤ m) := by
  match m, text with
  | _, [] => simp [ofContainer?]
  | 0, c :: rest =>
    rw [List.take_zero, ofContainer?, ofContainer?, eq_comm, Option.filter_eq_none_iff]
    intro next hnext
    have hlt := lt_of_closeFrom hnext
    simp only [decide_eq_true_eq]
    omega
  | m + 1, c :: rest =>
    rw [List.take_succ_cons, ofContainer?, ofContainer?, closeFrom_take, Nat.add_comm 1 m]

/-- The extent of a value where the text ends early: what is left of the value, and nothing if its
last byte is missed. -/
theorem ofLead?_take (lead : Lead) (m : Nat) (text : Bytes) :
    ofLead? lead (text.take m) = (ofLead? lead text).bind fun length =>
      if length ≤ m then some length else if lead.isClosed then none else some m := by
  have hclosed : ∀ length? : Option Nat, length?.filter (· ≤ m) =
      length?.bind fun length => if length ≤ m then some length else none := by
    intro length?
    cases length? <;> simp [Option.filter_some]
  have hopen : ∀ length, some (min length m) = if length ≤ m then some length else some m := by
    intro length
    split
    · rw [Nat.min_eq_left ‹_›]
    · rw [Nat.min_eq_right (by omega)]
  cases lead with
  | object => exact (ofContainer?_take m text).trans (hclosed _)
  | array => exact (ofContainer?_take m text).trans (hclosed _)
  | string => exact (ofString?_take m text).trans (hclosed _)
  | number => exact (congrArg some (ofNumber_take m text)).trans (hopen _)
  | word => exact (congrArg some (ofWord_take m text)).trans (hopen _)

end Closers

/-! ## Keys and values -/

section Values

variable {rest : Bytes} {n : Nat}

theorem Follows.take (h : Follows rest) (m : Nat) : Follows (rest.take m) := by
  intro c hc
  rw [List.head?_take] at hc
  split at hc
  · cases hc
  · exact h c hc

/-- A key is read if its closing quote is still there. -/
theorem keyHere?_cut (body : Body) (offset : Nat) (rest : Bytes) (n : Nat) :
    ((Cursor.mk offset (Bytes.quoted body.text ++ rest)).cut n).keyHere? =
      if offset + (Bytes.quoted body.text).length ≤ n then
        some ⟨offset, Bytes.quoted body.text, body.text.contains backslash,
          (Cursor.mk (offset + (Bytes.quoted body.text).length) rest).cut n⟩
      else none := by
  split
  · rename_i hle
    rw [Cursor.cut_append _ _ hle, keyHere?_quoted, Cursor.cut_mk _ hle]
  · rename_i hlt
    rw [Nat.not_le] at hlt
    rcases Nat.lt_or_ge offset n with hoffset | hoffset
    · obtain ⟨m, rfl⟩ : ∃ m, n = offset + (m + 1) := ⟨n - offset - 1, by omega⟩
      have hlength : ¬body.text.length < m := by
        simp only [Bytes.quoted, List.length_append, List.length_cons, List.length_nil] at hlt
        omega
      -- The search for the closing quote comes to the cut
      have hclose : Quoted.close? ((body.text ++ quote :: rest).take m) = none := by
        rw [Quoted.close?, close?_take, close?_loose body.isBody.isLoose]
        simp [Option.filter_some, hlength]
      have hcut : (Cursor.mk offset (Bytes.quoted body.text ++ rest)).cut (offset + (m + 1)) =
          ⟨offset, quote :: (body.text ++ quote :: rest).take m⟩ := by
        simp [Cursor.cut, Bytes.quoted]
      simp [hcut, Cursor.keyHere?, hclose]
    · rw [Cursor.cut_of_le hoffset]
      rfl

/-- The bytes that are left of a value tell its kind, even if it is only one. -/
theorem of?_take (v : Node) (rest : Bytes) (m : Nat) :
    Lead.of? ((v.text ++ rest).take (m + 1)) = some v.lead := by
  have hwhole := of?_node v rest
  cases v with
  | word w =>
    -- An `n` alone counts as a word
    rw [Node.text]
    rcases w with _ | _ | _
    · cases m <;> rfl
    · rfl
    · rfl
  | number number =>
    obtain ⟨c, text, htext, hc⟩ := number.text_cons
    have hne : c ≠ lowerN := by grind [isDigit]
    rw [Node.text, htext, List.cons_append] at hwhole ⊢
    rw [List.take_succ_cons]
    simpa [Lead.of?, hne] using hwhole
  | string body =>
    rw [Node.text]
    rfl
  | array gap items =>
    rw [Node.text_array]
    rfl
  | object gap members =>
    rw [Node.text_object]
    rfl

/-- What can be read of a value in a document that ends at an offset. -/
def Spot.shown (n : Nat) (s : Spot) : Option Result :=
  if s.offset < n ∧ (s.after ≤ n ∨ s.node.lead.isClosed = false) then
    some (.located (.ofSpan s.node.lead (s.node.text.take (n - s.offset))) s.offset)
  else none

theorem Spot.shown_of_le {s : Spot} (h : n ≤ s.offset) : s.shown n = none :=
  if_neg fun hshown => Nat.not_lt.2 h hshown.1

theorem Spot.offset_lt_after (s : Spot) : s.offset < s.after := by
  obtain ⟨c, text, htext, -⟩ := s.node.text_cons
  simp [after, htext]

/-- A value in front of the cut is read as in the whole document. -/
theorem Spot.shown_of_after_le {s : Spot} (h : s.after ≤ n) : s.shown n = some s.reading := by
  have htake : s.node.text.take (n - s.offset) = s.node.text := by
    rw [after] at h
    exact List.take_of_length_le (by omega)
  have hlt := s.offset_lt_after
  rw [shown, if_pos ⟨by omega, .inl h⟩, htake, reading]

theorem Spot.offset_lt_of_shown {s : Spot} {found : Result} (h : s.shown n = some found) :
    s.offset < n := by
  unfold shown at h
  split at h
  · rename_i hshown
    exact hshown.1
  · cases h

/-- Of a container all or nothing can be read. -/
theorem Spot.after_le_of_shown {s : Spot} (hs : s.node.isContainer = true) {found : Result}
    (h : s.shown n = some found) : s.after ≤ n := by
  have hclosed : s.node.lead.isClosed = true := by
    unfold Node.isContainer at hs
    cases hlead : s.node.lead <;> rw [hlead] at hs <;> first | rfl | cases hs
  unfold shown at h
  split at h
  · rename_i hshown
    rcases hshown.2 with hafter | hopen
    · exact hafter
    · rw [hclosed] at hopen
      cases hopen
  · cases h

theorem Spot.le_after_of_shown {s : Spot} (h : s.shown n = none) : n ≤ s.after := by
  rcases Nat.le_total n s.after with hle | hle
  · exact hle
  · rw [shown_of_after_le hle] at h
    cases h

/-- A value that the cut goes through is read up to the cut, or not at all. -/
theorem readHere?_through (s : Spot) (hrest : Follows rest) (hoffset : s.offset < n)
    (hafter : n < s.after) :
    ((Cursor.mk s.offset (s.node.text ++ rest)).cut n).readHere? =
      (s.shown n).map fun value => ⟨value, (Cursor.mk s.after rest).cut n⟩ := by
  obtain ⟨m, rfl⟩ : ∃ m, n = s.offset + (m + 1) := ⟨n - s.offset - 1, by omega⟩
  have hlength : m + 1 < s.node.text.length := by
    rw [Spot.after] at hafter
    omega
  have htake : (s.node.text ++ rest).take (m + 1) = s.node.text.take (m + 1) :=
    List.take_append_of_le_length (Nat.le_of_lt hlength)
  have hextent : ofLead? s.node.lead ((s.node.text ++ rest).take (m + 1)) =
      if s.node.lead.isClosed then none else some (m + 1) := by
    rw [ofLead?_take, ofLead?_node s.node hrest, Option.bind_some, if_neg (Nat.not_le.2 hlength)]
  rw [Cursor.cut_mk _ (Nat.le_of_lt hoffset), Cursor.cut_of_le (Nat.le_of_lt hafter), Spot.shown]
  simp only [Cursor.readHere?, Nat.add_sub_cancel_left, of?_take, Option.bind_some, hextent]
  cases s.node.lead.isClosed with
  | true => simp [Nat.not_le.2 hafter]
  | false => simp [htake, Cursor.advance, List.take_take]

/-- Reading a value leads behind it, or to the cut. -/
theorem readHere?_cut (s : Spot) (hrest : Follows rest) (n : Nat) :
    ((Cursor.mk s.offset (s.node.text ++ rest)).cut n).readHere? =
      (s.shown n).map fun value => ⟨value, (Cursor.mk s.after rest).cut n⟩ := by
  rcases Nat.lt_or_ge n s.after with hlt | hle
  · rcases Nat.lt_or_ge s.offset n with hoffset | hoffset
    · exact readHere?_through s hrest hoffset hlt
    · rw [Cursor.cut_of_le hoffset, Spot.shown_of_le hoffset]
      rfl
  · rw [Spot.shown_of_after_le hle, Cursor.cut_mk _ hle]
    rw [Spot.after] at hle
    rw [Cursor.cut_append _ _ hle, readHere?_spot s (hrest.take _)]
    rfl

/-- A container starts where its first byte is still there. -/
theorem atContainer_cut (s : Spot) (rest : Bytes) (hlt : s.offset < n) :
    Scan.atContainer ((Cursor.mk s.offset (s.node.text ++ rest)).cut n) = s.node.isContainer := by
  obtain ⟨m, rfl⟩ : ∃ m, n = s.offset + (m + 1) := ⟨n - s.offset - 1, by omega⟩
  rw [Cursor.cut_mk _ (Nat.le_of_lt hlt), Scan.atContainer, Nat.add_sub_cancel_left]
  dsimp only
  rw [of?_take]
  rfl

/-- Passing over a value leads behind it, or to the cut. -/
theorem skipHere?_cut (s : Spot) (hrest : Follows rest) (n : Nat) :
    ((Cursor.mk s.offset (s.node.text ++ rest)).cut n).skipHere? =
      (s.shown n).map fun _ => (Cursor.mk s.after rest).cut n := by
  rw [Cursor.skipHere?_eq, readHere?_cut s hrest, Option.map_map]
  rfl

end Values

end Grammar

end JsonQuery
