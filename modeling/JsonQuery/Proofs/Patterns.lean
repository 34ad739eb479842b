import JsonQuery.Path.Glob
import JsonQuery.Proofs.Characters

/-!
# Patterns match exactly

What a pattern says is told on its characters: a text matches if it falls into parts that match the
elements of the pattern one after the other.  Matching goes back to the last star only, and this
loses no match.  Between that star and the cursors lies a piece without stars, whose matches are all
of one length.  So a longer run for the star never leaves more of the text to the rest of the
pattern, and a run that is longer for an earlier star is made up for by the last one.

## Layers

- **Patterns**: `Matches` says which texts match a pattern, `Splits` the same of its elements.
- **Pieces**: what a longer run for a star leaves to the pattern behind the piece that follows it.
- **Attempts**: each step keeps what an attempt can still match, and so does a whole run.
-/

namespace JsonQuery.Glob

/-! ## Patterns -/

/-- A text falls into parts that match the characters of a pattern in order. -/
inductive Matches : List Char → List Char → Prop where
  | nil : Matches [] []
  /-- A star matches any run of characters. -/
  | star (run : List Char) {pattern text : List Char} (h : Matches pattern text) :
      Matches ('*' :: pattern) (run ++ text)
  /-- A question mark matches any one character. -/
  | question (c : Char) {pattern text : List Char} (h : Matches pattern text) :
      Matches ('?' :: pattern) (c :: text)
  /-- A character behind a backslash matches itself. -/
  | escaped (c : Char) {pattern text : List Char} (h : Matches pattern text) :
      Matches ('\\' :: c :: pattern) (c :: text)
  /-- A backslash at the end of the pattern matches itself. -/
  | lastSlash : Matches ['\\'] ['\\']
  /-- Any other character matches itself. -/
  | plain {c : Char} (hstar : c ≠ '*') (hquestion : c ≠ '?') (hslash : c ≠ '\\')
      {pattern text : List Char} (h : Matches pattern text) : Matches (c :: pattern) (c :: text)

/-- A text falls into parts that match the elements of a pattern in order. -/
inductive Splits : List Token → List Char → Prop where
  | nil : Splits [] []
  | any (run : List Char) {tokens : List Token} {text : List Char} (h : Splits tokens text) :
      Splits (.any :: tokens) (run ++ text)
  | one (c : Char) {tokens : List Token} {text : List Char} (h : Splits tokens text) :
      Splits (.one :: tokens) (c :: text)
  | char (c : Char) {tokens : List Token} {text : List Char} (h : Splits tokens text) :
      Splits (.char c :: tokens) (c :: text)

theorem tokens_cons {c : Char} (hslash : c ≠ '\\') (pattern : List Char) :
    tokens (c :: pattern) =
      (if c = '*' then .any else if c = '?' then .one else .char c) :: tokens pattern := by
  rw [tokens.eq_def]
  dsimp only
  rw [if_neg hslash]
  split
  · rfl
  · split <;> rfl

/-- The elements of a pattern match the texts that the pattern matches. -/
theorem splits_tokens_iff (pattern text : List Char) :
    Splits (tokens pattern) text ↔ Matches pattern text := by
  constructor
  · intro h
    fun_induction tokens pattern generalizing text with
    | case1 => cases h with | nil => exact .nil
    | case2 =>
      cases h with
      | char _ h => cases h with | nil => exact .lastSlash
    | case3 literal rest ih => cases h with | char _ h => exact .escaped _ (ih _ h)
    | case4 rest _ ih => cases h with | any run h => exact .star run (ih _ h)
    | case5 rest _ _ ih => cases h with | one c h => exact .question c (ih _ h)
    | case6 c rest hslash hstar hquestion ih =>
      cases h with | char _ h => exact .plain hstar hquestion hslash (ih _ h)
  · intro h
    induction h with
    | nil => exact .nil
    | star run _ ih =>
      rw [tokens_cons (by decide)]
      exact .any run ih
    | question c _ ih =>
      rw [tokens_cons (by decide)]
      exact .one c ih
    | escaped c _ ih => exact .char c ih
    | lastSlash => exact .char _ .nil
    | @plain c hstar hquestion hslash pattern text h ih =>
      rw [tokens_cons hslash, if_neg hstar, if_neg hquestion]
      exact .char c ih

/-! ## Pieces -/

section Pieces

variable {a b piece : List Token} {text rest front : List Char}

theorem splits_append_iff :
    Splits (a ++ b) text ↔ ∃ x y, text = x ++ y ∧ Splits a x ∧ Splits b y := by
  constructor
  · intro h
    induction a generalizing text with
    | nil => exact ⟨[], text, rfl, .nil, h⟩
    | cons t a ih =>
      cases h with
      | any run h =>
        obtain ⟨x, y, rfl, hx, hy⟩ := ih h
        exact ⟨run ++ x, y, (List.append_assoc ..).symm, .any run hx, hy⟩
      | one c h =>
        obtain ⟨x, y, rfl, hx, hy⟩ := ih h
        exact ⟨c :: x, y, rfl, .one c hx, hy⟩
      | char c h =>
        obtain ⟨x, y, rfl, hx, hy⟩ := ih h
        exact ⟨c :: x, y, rfl, .char c hx, hy⟩
  · rintro ⟨x, y, rfl, hx, hy⟩
    induction hx with
    | nil => exact hy
    | any run _ ih =>
      rw [List.append_assoc]
      exact .any run ih
    | one c _ ih => exact .one c ih
    | char c _ ih => exact .char c ih

/-- An element that takes a character by itself takes the first one of a text. -/
theorem splits_cons_cons_iff {t : Token} (ht : t ≠ .any) (c : Char) :
    Splits (t :: a) (c :: text) ↔ t.takes c = true ∧ Splits a text := by
  cases t with
  | any => exact absurd rfl ht
  | one =>
    constructor
    · intro h
      cases h with | one _ h => exact ⟨rfl, h⟩
    · rintro ⟨-, h⟩
      exact .one c h
  | char d =>
    constructor
    · intro h
      cases h with | char _ h => exact ⟨decide_eq_true rfl, h⟩
    · rintro ⟨htakes, h⟩
      obtain rfl := of_decide_eq_true htakes
      exact .char d h

theorem splits_any_iff :
    Splits (.any :: a) text ↔ ∃ run rest, text = run ++ rest ∧ Splits a rest := by
  constructor
  · intro h
    cases h with
    | any run h => exact ⟨run, _, rfl, h⟩
  · rintro ⟨run, rest, rfl, h⟩
    exact .any run h

/-- A star stands for no character, or else for one more than it does for the rest of the text. -/
theorem splits_any_iff_tail :
    Splits (.any :: a) text ↔ Splits a text ∨ Splits (.any :: a) text.tail := by
  rw [splits_any_iff, splits_any_iff]
  constructor
  · rintro ⟨run, rest, rfl, h⟩
    cases run with
    | nil => exact .inl h
    | cons c run => exact .inr ⟨run, rest, rfl, h⟩
  · rintro (h | ⟨run, rest, htail, h⟩)
    · exact ⟨[], text, rfl, h⟩
    · cases text with
      | nil => exact ⟨run, rest, htail, h⟩
      | cons c text => exact ⟨c :: run, rest, congrArg (c :: ·) htail, h⟩

/-- Only stars match no character at all. -/
theorem splits_nil_iff : Splits a [] ↔ a.all (· == .any) = true := by
  constructor
  · intro h
    induction a with
    | nil => rfl
    | cons t a ih =>
      cases t with
      | any =>
        obtain ⟨run, rest, htext, h⟩ := splits_any_iff.1 h
        obtain ⟨-, rfl⟩ := List.append_eq_nil_iff.1 htext.symm
        exact ih h
      | one => cases h
      | char => cases h
  · intro h
    induction a with
    | nil => exact .nil
    | cons t a ih =>
      rw [List.all_cons, Bool.and_eq_true, beq_iff_eq] at h
      obtain ⟨rfl, h⟩ := h
      exact .any [] (ih h)

/-- The run of a star takes up whatever is put in front of it. -/
theorem Splits.of_suffix (h : Splits (.any :: a) rest) (hsuffix : rest <:+ text) :
    Splits (.any :: a) text := by
  obtain ⟨run, rest, rfl, hrest⟩ := splits_any_iff.1 h
  obtain ⟨front, rfl⟩ := hsuffix
  rw [← List.append_assoc]
  exact .any _ hrest

/-- All matches of a piece, which holds no star, are as long as the piece. -/
theorem Splits.length_eq (h : Splits piece text) (hpiece : .any ∉ piece) :
    text.length = piece.length := by
  induction h with
  | nil => rfl
  | any run _ _ => exact absurd List.mem_cons_self hpiece
  | one c _ ih => simpa using ih fun h => hpiece (List.mem_cons_of_mem _ h)
  | char c _ ih => simpa using ih fun h => hpiece (List.mem_cons_of_mem _ h)

/-- Let a piece match in front of a text.  Where a star in front of the piece stands for one
character or more, the elements behind the piece are left with an end of that text. -/
theorem exists_suffix_of_longer (hpiece : .any ∉ piece) (hfront : Splits piece front)
    (h : Splits (.any :: (piece ++ a)) (front ++ text).tail) :
    ∃ rest, rest <:+ text ∧ Splits a rest := by
  obtain ⟨run, _, htail, hbehind⟩ := splits_any_iff.1 h
  obtain ⟨other, rest, rfl, hother, hrest⟩ := splits_append_iff.1 hbehind
  refine ⟨rest, ?_, hrest⟩
  -- Both are ends of one text, and the piece takes up as many characters in either place
  have hlength := (hother.length_eq hpiece).trans (hfront.length_eq hpiece).symm
  have hend : rest <:+ front ++ text := by
    refine List.IsSuffix.trans ?_ (List.tail_suffix _)
    rw [htail, ← List.append_assoc]
    exact List.suffix_append _ _
  refine List.suffix_of_suffix_length_le hend (List.suffix_append _ _) ?_
  have htotal := congrArg List.length htail
  simp only [List.length_tail, List.length_append] at htotal
  omega

end Pieces

/-! ## Attempts -/

namespace Attempt

/-- Between the place to resume at and the cursors lies a piece without stars, and characters that
it matches. -/
def IsConsistent (a : Attempt) : Prop :=
  ∀ r ∈ a.resume, ∃ piece front, .any ∉ piece ∧ Splits piece front ∧
    r.pattern = piece ++ a.pattern ∧ r.text = front ++ a.text

/-- What is left can match: from the cursors on, or with a longer run for the last star. -/
def CanMatch (a : Attempt) : Prop :=
  Splits a.pattern a.text ∨ ∃ r ∈ a.resume, Splits (.any :: r.pattern) r.text.tail

section Steps

variable {a : Attempt}

/-- A longer run for the last star leaves an end of the text to the rest of the pattern. -/
theorem IsConsistent.exists_suffix (hconsistent : a.IsConsistent) (h : a.CanMatch) :
    ∃ rest, rest <:+ a.text ∧ Splits a.pattern rest := by
  rcases h with h | ⟨r, hr, h⟩
  · exact ⟨a.text, List.suffix_rfl, h⟩
  · obtain ⟨piece, front, hpiece, hfront, hpattern, htext⟩ := hconsistent r hr
    rw [hpattern, htext] at h
    exact exists_suffix_of_longer hpiece hfront h

theorem isConsistent_start (text : List Char) (pattern : List Token) :
    (start text pattern).IsConsistent := by
  intro r hr
  cases hr

theorem canMatch_start (text : List Char) (pattern : List Token) :
    (start text pattern).CanMatch ↔ Splits pattern text := by
  simp [CanMatch, start]

/-- Directly behind a star nothing lies between the place to resume at and the cursors. -/
theorem isConsistent_of_eq (h : a.resume = some ⟨a.pattern, a.text⟩) : a.IsConsistent := by
  intro r hr
  obtain rfl := Option.some.inj (h.symm.trans hr)
  exact ⟨[], [], List.not_mem_nil, .nil, rfl, rfl⟩

end Steps

/-- A turn decides a question: by its answer, or by what the next attempt can match. -/
def Decides (question : Prop) : Turn Attempt Bool → Prop
  | .again next => next.IsConsistent ∧ (next.CanMatch ↔ question)
  | .over found => found = true ↔ question

section Runs

variable {a : Attempt} {t : Token} {pattern : List Token} {c : Char} {text : List Char}

/-- Going back loses no match where the cursors have none. -/
theorem decides_goBack (hmiss : ¬Splits a.pattern a.text) : Decides a.CanMatch a.goBack := by
  unfold goBack
  cases hresume : a.resume with
  | none =>
    -- Without a star the cursors are all that can match
    refine ⟨fun h => (Bool.false_ne_true h).elim, ?_⟩
    rintro (h | ⟨r, hr, -⟩)
    · exact absurd h hmiss
    · rw [hresume] at hr
      cases hr
  | some r =>
    refine ⟨isConsistent_of_eq rfl, ?_⟩
    have hlonger : a.CanMatch ↔ Splits (.any :: r.pattern) r.text.tail := by
      simp [CanMatch, hmiss, hresume]
    rw [hlonger, splits_any_iff_tail]
    simp [CanMatch, lengthen]

/-- Behind the next star, an earlier one has nothing to offer that this one has not. -/
theorem decides_enterStar (hconsistent : a.IsConsistent) (hpattern : a.pattern = .any :: pattern) :
    Decides a.CanMatch (.again a.enterStar) := by
  refine ⟨isConsistent_of_eq rfl, ?_⟩
  -- From now on only the new star and what is behind it count
  have henter : a.enterStar.CanMatch ↔ Splits a.pattern a.text := by
    rw [hpattern, splits_any_iff_tail]
    simp [CanMatch, enterStar, hpattern]
  rw [henter]
  refine ⟨.inl, fun h => ?_⟩
  obtain ⟨rest, hsuffix, hrest⟩ := hconsistent.exists_suffix h
  rw [hpattern] at hrest ⊢
  exact hrest.of_suffix hsuffix

/-- An element that takes the next character joins the piece behind the last star. -/
theorem decides_advance (hconsistent : a.IsConsistent) (hpattern : a.pattern = t :: pattern)
    (htext : a.text = c :: text) (htakes : t.takes c = true) :
    Decides a.CanMatch (.again a.advance) := by
  have ht : t ≠ .any := by
    rintro rfl
    exact Bool.false_ne_true htakes
  have hmatch (rest : List Token) (behind : List Char) :
      Splits (t :: rest) (c :: behind) ↔ Splits rest behind := by
    rw [splits_cons_cons_iff ht, and_iff_right htakes]
  refine ⟨fun r hr => ?_, ?_⟩
  · obtain ⟨piece, front, hpiece, hfront, hbehind, hrest⟩ := hconsistent r hr
    refine ⟨piece ++ [t], front ++ [c], ?_, ?_, ?_, ?_⟩
    · simpa [hpiece] using Ne.symm ht
    · exact splits_append_iff.2 ⟨front, [c], rfl, hfront, (hmatch [] []).2 .nil⟩
    · simp [hbehind, hpattern, advance]
    · simp [hrest, htext, advance]
  · simp [CanMatch, advance, hpattern, htext, hmatch]

/-- One turn decides what an attempt can match. -/
theorem decides_turn (hconsistent : a.IsConsistent) : Decides a.CanMatch a.turn := by
  obtain ⟨text, pattern, resume, hreaches⟩ := a
  unfold turn
  dsimp only
  split
  · -- At the end of the text no longer run for the last star helps
    rename_i pattern
    show _ = true ↔ _
    rw [← splits_nil_iff]
    refine ⟨.inl, fun h => ?_⟩
    obtain ⟨rest, hsuffix, hrest⟩ := hconsistent.exists_suffix h
    obtain rfl := List.suffix_nil.1 hsuffix
    exact hrest
  · exact decides_enterStar hconsistent rfl
  · -- Any other element takes the next character, or the cursors have no match
    rename_i c text t pattern hany
    split
    · exact decides_advance hconsistent rfl rfl ‹_›
    · rename_i htakes
      refine decides_goBack fun h => htakes ?_
      exact ((splits_cons_cons_iff (fun ht => hany ht) c).1 h).1
  · -- The pattern is used up in front of the end of the text
    refine decides_goBack fun h => ?_
    cases h

/-- Matching from a consistent attempt on finds out whether the attempt can match. -/
theorem run_iff (hconsistent : a.IsConsistent) : matching.run a = true ↔ a.CanMatch := by
  fun_induction matching.run a with
  | case1 a next hturn ih =>
    have hdecides : Decides a.CanMatch (matching.turn a) := decides_turn hconsistent
    rw [hturn] at hdecides
    exact (ih hdecides.1).trans hdecides.2
  | case2 a found hturn =>
    have hdecides : Decides a.CanMatch (matching.turn a) := decides_turn hconsistent
    rwa [hturn] at hdecides

end Runs

end Attempt

/-- A text matches the characters of a pattern exactly if it falls into parts for its elements. -/
theorem matchesChars_iff (text pattern : List Char) :
    matchesChars text pattern = true ↔ Splits (tokens pattern) text := by
  rw [matchesChars, Attempt.run_iff (Attempt.isConsistent_start _ _), Attempt.canMatch_start]

/-- **Patterns match exactly.**  A text is found to match a pattern if and only if it falls into
parts that match the characters of the pattern in order. -/
theorem isMatch_iff_matches (text pattern : List Char) :
    isMatch (Utf8.encode text) (Utf8.encode pattern) = true ↔ Matches pattern text := by
  rw [isMatch, Utf8.chars_encode, Utf8.chars_encode, matchesChars_iff, splits_tokens_iff]

end JsonQuery.Glob
