import JsonQuery.Extent

/-!
# Brackets that match

The scan over a container skips strings and counts brackets, all three kinds alike, and looks at
nothing else.  What it takes for the inside of a container is described here without the counting,
and the scan finds the first bracket that closes more than was opened, in every text.

## Layers

- **Matched texts**: texts that close the strings and brackets that they open, as far as the scan
  can tell.
- **Scans**: a scan passes over a matched text, and wherever it comes to an end it has passed over
  one.
- **Containers**: `ofContainer?` by the texts that it measures.
-/

namespace JsonQuery.Grammar

open Ascii Extent

/-! ## Matched texts -/

section Matched

variable {c : UInt8} {text : Bytes}

theorem ne_of_isOpener (h : isOpener c = true) :
    c ≠ quote ∧ c ≠ backslash ∧ isCloser c = false := by
  grind [isOpener, isCloser]

theorem ne_of_isCloser (h : isCloser c = true) :
    c ≠ quote ∧ c ≠ backslash ∧ isOpener c = false := by
  grind [isOpener, isCloser]

/-- The bytes that a scan over a container takes notice of outside of strings. -/
def isMark (c : UInt8) : Bool :=
  c == quote || isOpener c || isCloser c

/-- What a scan takes for the inside of a string: a backslash takes the byte behind it along. -/
inductive IsLoose : Bytes → Prop where
  | nil : IsLoose []
  | plain {c : UInt8} {text : Bytes} (hquote : c ≠ quote) (hslash : c ≠ backslash)
      (h : IsLoose text) : IsLoose (c :: text)
  | pair {c : UInt8} {text : Bytes} (h : IsLoose text) : IsLoose (backslash :: c :: text)

/-- Texts that a scan takes for the inside of a container: outside of strings as many brackets close
as were opened, whatever their kinds. -/
inductive Matched : Bytes → Prop where
  | nil : Matched []
  | plain {c : UInt8} {text : Bytes} (hc : isMark c = false) (h : Matched text) :
      Matched (c :: text)
  | quoted {body text : Bytes} (hbody : IsLoose body) (h : Matched text) :
      Matched (quote :: (body ++ quote :: text))
  | bracketed {opener closer : UInt8} {inside text : Bytes} (hopener : isOpener opener = true)
      (hcloser : isCloser closer = true) (hinside : Matched inside) (h : Matched text) :
      Matched (opener :: (inside ++ closer :: text))

theorem Matched.append {rest : Bytes} (h : Matched text) (hrest : Matched rest) :
    Matched (text ++ rest) := by
  induction h with
  | nil => exact hrest
  | plain hc _ ih => exact .plain hc ih
  | quoted hbody _ ih => simpa using .quoted hbody ih
  | bracketed hopener hcloser hinside _ _ ih => simpa using .bracketed hopener hcloser hinside ih

end Matched

/-! ## Scans -/

section Scans

variable {c : UInt8} {text : Bytes}

theorem closeFrom_quote (depth length : Nat) (rest : Bytes) :
    closeFrom .plain depth length (quote :: rest) = closeFrom .quoted depth (length + 1) rest := by
  simp [closeFrom]

theorem closeFrom_endQuote (depth length : Nat) (rest : Bytes) :
    closeFrom .quoted depth length (quote :: rest) = closeFrom .plain depth (length + 1) rest := by
  simp [closeFrom]

theorem closeFrom_opener (h : isOpener c = true) (depth length : Nat) (rest : Bytes) :
    closeFrom .plain depth length (c :: rest) = closeFrom .plain (depth + 1) (length + 1) rest := by
  simp [closeFrom, ne_of_isOpener h, h]

theorem closeFrom_closer (h : isCloser c = true) (depth length : Nat) (rest : Bytes) :
    closeFrom .plain (depth + 1) length (c :: rest) = closeFrom .plain depth (length + 1) rest := by
  simp [closeFrom, ne_of_isCloser h, h]

theorem closeFrom_lastCloser (h : isCloser c = true) (length : Nat) (rest : Bytes) :
    closeFrom .plain 0 length (c :: rest) = some (length + 1) := by
  simp [closeFrom, ne_of_isCloser h, h]

theorem closeFrom_unmarked (h : isMark c = false) (depth length : Nat) (rest : Bytes) :
    closeFrom .plain depth length (c :: rest) = closeFrom .plain depth (length + 1) rest := by
  simp only [isMark, Bool.or_eq_false_iff, beq_eq_false_iff_ne] at h
  simp [closeFrom, h]

theorem closeFrom_loose (h : IsLoose text) (depth length : Nat) (rest : Bytes) :
    closeFrom .quoted depth length (text ++ rest) =
      closeFrom .quoted depth (length + text.length) rest := by
  induction h generalizing length with
  | nil => rfl
  | plain hquote hslash _ ih =>
    rw [List.cons_append, closeFrom]
    simp only [hquote, hslash, if_false]
    rw [ih, List.length_cons, Nat.add_right_comm, Nat.add_assoc]
  | pair _ ih =>
    rw [List.cons_append, List.cons_append, closeFrom, closeFrom]
    simp only [show ¬backslash = quote by decide, if_false, if_true]
    rw [ih, List.length_cons, List.length_cons]
    congr 1
    omega

/-- A scan passes over a matched text with as many brackets open behind it as in front. -/
theorem closeFrom_matched (h : Matched text) (depth length : Nat) (rest : Bytes) :
    closeFrom .plain depth length (text ++ rest) =
      closeFrom .plain depth (length + text.length) rest := by
  -- On how the text is matched, with any number of brackets open in front of it
  induction h generalizing depth length rest with
  | nil => rfl
  | plain hc _ ih =>
    rw [List.cons_append, closeFrom_unmarked hc, ih, List.length_cons, Nat.add_right_comm,
      Nat.add_assoc]
  | quoted hbody _ ih =>
    rw [List.cons_append, List.append_assoc, List.cons_append, closeFrom_quote,
      closeFrom_loose hbody, closeFrom_endQuote, ih]
    simp only [List.length_cons, List.length_append]
    congr 1
    omega
  | bracketed hopener hcloser _ _ ihinside ih =>
    -- The inside is read one bracket deeper, and the closer takes that back
    rw [List.cons_append, List.append_assoc, List.cons_append, closeFrom_opener hopener, ihinside,
      closeFrom_closer hcloser, ih]
    simp only [List.length_cons, List.length_append]
    congr 1
    omega

/-- A scan that ends has found the end of every string that it came to. -/
theorem exists_loose_of_closeFrom {depth n : Nat} :
    ∀ {length : Nat} {text : Bytes}, closeFrom .quoted depth length text = some n →
      ∃ body rest, text = body ++ quote :: rest ∧ IsLoose body ∧
        closeFrom .plain depth (length + body.length + 1) rest = some n
  | _, [], h => by cases h
  | _, [c], h => by
    rw [closeFrom] at h
    repeat' split at h
    all_goals cases h
  | length, c :: d :: rest, h => by
    rw [closeFrom] at h
    split at h
    · rename_i hquote
      exact ⟨[], d :: rest, by rw [hquote]; rfl, .nil, h⟩
    · rename_i hquote
      split at h
      · rename_i hslash
        rw [closeFrom] at h
        obtain ⟨body, rest, rfl, hbody, hclose⟩ := exists_loose_of_closeFrom h
        refine ⟨c :: d :: body, rest, rfl, hslash ▸ hbody.pair, ?_⟩
        rw [← hclose, List.length_cons, List.length_cons]
        congr 1
        omega
      · rename_i hslash
        obtain ⟨body, rest', hrest, hbody, hclose⟩ := exists_loose_of_closeFrom h
        refine ⟨c :: body, rest', by rw [hrest]; rfl, .plain hquote hslash hbody, ?_⟩
        rw [← hclose, List.length_cons]
        congr 1
        omega

/-- A scan that ends has passed over a matched text and a bracket that closes, and either ends there
or goes on with one bracket less. -/
theorem exists_matched_of_closeFrom {depth length n : Nat}
    (h : closeFrom .plain depth length text = some n) :
    ∃ inside closer rest, text = inside ++ closer :: rest ∧ Matched inside ∧
      isCloser closer = true ∧
      closeFrom .plain depth (length + inside.length) (closer :: rest) = some n := by
  -- On the length of the text, for a bracket that opens is followed by two shorter scans
  induction hlength : text.length using Nat.strongRecOn generalizing text depth length with
  | _ m ih =>
    cases text with
    | nil => cases h
    | cons c text =>
      rw [List.length_cons] at hlength
      by_cases hcloser : isCloser c = true
      · exact ⟨[], c, text, rfl, .nil, hcloser, h⟩
      · by_cases hopener : isOpener c = true
        · rw [closeFrom_opener hopener] at h
          obtain ⟨inside, closer, rest, rfl, hinside, hcloser, h⟩ := ih _ (by omega) h rfl
          rw [closeFrom_closer hcloser] at h
          rw [List.length_append, List.length_cons] at hlength
          obtain ⟨behind, last, rest, rfl, hbehind, hlast, h⟩ := ih _ (by omega) h rfl
          refine ⟨c :: (inside ++ closer :: behind), last, rest, by simp,
            .bracketed hopener hcloser hinside hbehind, hlast, ?_⟩
          rw [← h]
          simp only [List.length_cons, List.length_append]
          congr 1
          omega
        · by_cases hquote : c = quote
          · rw [hquote, closeFrom_quote] at h
            obtain ⟨body, rest, rfl, hbody, h⟩ := exists_loose_of_closeFrom h
            rw [List.length_append, List.length_cons] at hlength
            obtain ⟨behind, last, rest, rfl, hbehind, hlast, h⟩ := ih _ (by omega) h rfl
            refine ⟨c :: (body ++ quote :: behind), last, rest, by simp,
              hquote ▸ .quoted hbody hbehind, hlast, ?_⟩
            rw [← h]
            simp only [List.length_cons, List.length_append]
            congr 1
            omega
          · have hmark : isMark c = false := by simp [isMark, hquote, hopener, hcloser]
            rw [closeFrom_unmarked hmark] at h
            obtain ⟨inside, closer, rest, rfl, hinside, hcloser, h⟩ := ih _ (by omega) h rfl
            refine ⟨c :: inside, closer, rest, rfl, .plain hmark hinside, hcloser, ?_⟩
            rw [← h, List.length_cons]
            congr 1
            omega

end Scans

/-! ## Containers -/

/-- Behind its opening bracket, a container is a matched text and a bracket that closes. -/
theorem ofContainer?_eq_some_iff {opener : UInt8} {text : Bytes} {n : Nat} :
    ofContainer? (opener :: text) = some n ↔
      ∃ inside closer rest, text = inside ++ closer :: rest ∧ Matched inside ∧
        isCloser closer = true ∧ n = inside.length + 2 := by
  rw [ofContainer?]
  constructor
  · intro h
    obtain ⟨inside, closer, rest, rfl, hinside, hcloser, h⟩ := exists_matched_of_closeFrom h
    rw [closeFrom_lastCloser hcloser] at h
    refine ⟨inside, closer, rest, rfl, hinside, hcloser, ?_⟩
    have hn := Option.some.inj h
    omega
  · rintro ⟨inside, closer, rest, rfl, hinside, hcloser, rfl⟩
    rw [closeFrom_matched hinside, closeFrom_lastCloser hcloser]
    congr 1
    omega

end JsonQuery.Grammar
