import JsonQuery.Loop
import JsonQuery.Text.Utf8

/-!
# Glob patterns

A pattern is matched against characters: `*` stands for any run of them, `?` for exactly one, a
backslash makes the character behind it stand for itself, and so does a backslash at the end.

Matching moves a cursor in the text and one in the pattern.  Where they do not go together, it goes
back to the last star, never to one in front of it, and lets that star stand for one more character.
-/

namespace JsonQuery.Glob

open Ascii

/-! ## Patterns -/

/-- An element of a pattern. -/
inductive Token where
  /-- Any run of characters. -/
  | any
  /-- Exactly one character. -/
  | one
  /-- The given character. -/
  | char (c : Char)
  deriving DecidableEq, Repr, Inhabited

/-- The elements of a pattern. -/
def tokens : List Char → List Token
  | [] => []
  | c :: rest =>
    if c = '\\' then
      match rest with
      | [] => [.char c]
      | literal :: rest => .char literal :: tokens rest
    else if c = '*' then .any :: tokens rest
    else if c = '?' then .one :: tokens rest
    else .char c :: tokens rest

/-- A component of a path holds a star or a question mark that no backslash stands before. -/
def hasWildcard : Bytes → Bool
  | [] => false
  | c :: rest =>
    if c = backslash then
      match rest with
      | [] => false
      | _ :: rest => hasWildcard rest
    else c == star || c == question || hasWildcard rest

/-! ## Matching -/

/-- An element of a pattern takes a character by itself. -/
def Token.takes : Token → Char → Bool
  | .any, _ => false
  | .one, _ => true
  | .char c, d => c = d

/-- Where matching resumes: at the last star that was met. -/
structure Resume where
  /-- The elements behind the star. -/
  pattern : List Token
  /-- The text behind the run that the star stands for. -/
  text : List Char
  deriving DecidableEq, Repr, Inhabited

/-- How far matching has come: a cursor in the text, a cursor in the pattern, and the last star. -/
structure Attempt where
  text : List Char
  pattern : List Token
  resume : Option Resume
  /-- The cursor in the text is not in front of the place to resume at. -/
  reaches : ∀ r ∈ resume, text.length ≤ r.text.length

namespace Attempt

/-- The attempt before any turn. -/
def start (text : List Char) (pattern : List Token) : Attempt :=
  ⟨text, pattern, none, by simp⟩

/-- Both cursors go on by one. -/
def advance (a : Attempt) : Attempt where
  text := a.text.tail
  pattern := a.pattern.tail
  resume := a.resume
  reaches r hr := Nat.le_trans (by simp) (a.reaches r hr)

/-- The star at the cursor becomes the one to resume at.  It stands for no character at first. -/
def enterStar (a : Attempt) : Attempt where
  text := a.text
  pattern := a.pattern.tail
  resume := some ⟨a.pattern.tail, a.text⟩
  reaches := by simp

/-- The attempt in which a star stands for one more character. -/
def lengthen (r : Resume) : Attempt where
  text := r.text.tail
  pattern := r.pattern
  resume := some ⟨r.pattern, r.text.tail⟩
  reaches _ hr := Option.some.inj hr ▸ Nat.le_refl _

/-- Goes back to the last star, if there is one. -/
def goBack (a : Attempt) : Turn Attempt Bool :=
  match a.resume with
  | some r => .again (lengthen r)
  | none => .over false

/-- One turn of matching.  At the end of the text only stars may be left of the pattern. -/
def turn (a : Attempt) : Turn Attempt Bool :=
  match a.text, a.pattern with
  | [], pattern => .over (pattern.all (· == .any))
  -- Stars in front of this one are given up: it can make up for longer runs of theirs
  | _ :: _, .any :: _ => .again a.enterStar
  | c :: _, t :: _ => if t.takes c then .again a.advance else a.goBack
  | _ :: _, [] => a.goBack

/-- What is left: of the text behind the run of the last star, of the text, and of the pattern. -/
def left (a : Attempt) : Nat × Nat × Nat :=
  (a.resume.elim (a.text.length + 1) fun r => r.text.length, a.text.length, a.pattern.length)

/-- Going back leaves less of the text behind the run of the last star. -/
theorem left_lt_of_goBack {a next : Attempt} (htext : a.text ≠ []) (h : a.goBack = .again next) :
    Prod.Lex (· < ·) (Prod.Lex (· < ·) (· < ·)) next.left a.left := by
  unfold goBack at h
  split at h
  · rename_i r hr
    cases h
    have hreaches := a.reaches r hr
    have hpos := List.length_pos_iff.2 htext
    refine Prod.Lex.left _ _ ?_
    simp only [lengthen, hr, Option.elim_some, List.length_tail]
    omega
  · cases h

theorem left_lt_of_turn {a next : Attempt} (h : a.turn = .again next) :
    Prod.Lex (· < ·) (Prod.Lex (· < ·) (· < ·)) next.left a.left := by
  obtain ⟨text, pattern, resume, hreaches⟩ := a
  unfold turn at h
  dsimp only at h
  split at h
  · cases h
  · rename_i c text pattern
    cases h
    cases resume with
    | none => exact Prod.Lex.left _ _ (Nat.lt_succ_self _)
    | some r =>
      -- At the place to resume at, another star leaves the same text behind its run
      rcases Nat.lt_or_eq_of_le (hreaches r rfl) with hlt | heq
      · exact Prod.Lex.left _ _ hlt
      · simp only [left, enterStar, Option.elim_some, heq]
        exact Prod.Lex.right _ (Prod.Lex.right _ (Nat.lt_succ_self _))
  · rename_i c text t pattern _
    split at h
    · cases h
      cases resume with
      | none => exact Prod.Lex.left _ _ (Nat.lt_succ_self _)
      | some r => exact Prod.Lex.right _ (Prod.Lex.left _ _ (Nat.lt_succ_self _))
    · exact left_lt_of_goBack (List.cons_ne_nil _ _) h
  · exact left_lt_of_goBack (List.cons_ne_nil _ _) h

end Attempt

/-- Matching ends where the text is used up, or where no star is left to go back to. -/
def matching : Loop Attempt Bool (Nat × Nat × Nat) where
  turn := Attempt.turn
  left := Attempt.left
  left_lt := Attempt.left_lt_of_turn

/-- The pattern matches the whole text. -/
def matchesChars (text pattern : List Char) : Bool :=
  matching.run (.start text (tokens pattern))

/-- The characters of the pattern match all characters of the text. -/
def isMatch (text pattern : Bytes) : Bool :=
  matchesChars (Utf8.chars text) (Utf8.chars pattern)

end JsonQuery.Glob
