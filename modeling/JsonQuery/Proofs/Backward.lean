import JsonQuery.Extent.Backward
import JsonQuery.Proofs.Extents

/-!
# Values begin where they are written

The scan of `Extent` that runs to the left, over texts of the grammar: a text is passed over with as
many brackets open in front of it as behind, and a string or a container begins at its first byte.

Whether a quote opens a string depends on the backslashes in front of it.  No text of the grammar
ends with an odd number of them, which is what `Unescaped` carries from each text to the next.

## Layers

- **Backslashes**: texts behind which a quote stands for itself.
- **Scans**: strings, and balanced texts by induction.
- **Extents**: the length that is found from the last byte of a value.
-/

namespace JsonQuery.Grammar

open Ascii Extent

/-! ## Backslashes -/

/-- A byte behind the text, which is given last byte first, is not escaped. -/
def Unescaped (before : Bytes) : Prop :=
  followsOddBackslashes before = false

section Backslashes

variable {text before : Bytes}

theorem Unescaped.cons {c : UInt8} (hc : c ≠ backslash) : Unescaped (c :: before) := by
  simp [Unescaped, followsOddBackslashes, hc]

theorem followsOddBackslashes_cons (h : Unescaped before) :
    followsOddBackslashes (backslash :: before) = true := by
  simp only [Unescaped, followsOddBackslashes, beq_eq_false_iff_ne] at h
  simp only [followsOddBackslashes, List.takeWhile_cons, BEq.rfl, if_true, List.length_cons,
    beq_iff_eq]
  omega

/-- A backslash escapes one byte only, be it a backslash itself. -/
theorem Unescaped.escape (h : Unescaped before) (c : UInt8) :
    Unescaped (c :: backslash :: before) := by
  by_cases hc : c = backslash
  · subst hc
    simp only [Unescaped, followsOddBackslashes, beq_eq_false_iff_ne] at h
    simp only [Unescaped, followsOddBackslashes, List.takeWhile_cons, BEq.rfl, if_true,
      List.length_cons, beq_eq_false_iff_ne]
    omega
  · exact .cons hc

/-- Behind a balanced text a quote stands for itself. -/
theorem Unescaped.balanced (h : Balanced text) (hbefore : Unescaped before) :
    Unescaped (text.reverse ++ before) := by
  induction h generalizing before with
  | nil => exact hbefore
  | append _ _ iha ihb =>
    rw [List.reverse_append, List.append_assoc]
    exact ihb (iha hbefore)
  | plain hc =>
    simp only [isPlain, Bool.and_eq_true, bne_iff_ne] at hc
    exact .cons hc.1.1.2
  | quoted hbody =>
    rw [Bytes.quoted, List.reverse_concat]
    exact .cons (by decide)
  | @bracketed opener closer text _ hcloser _ _ =>
    rw [← List.cons_append, List.reverse_concat]
    exact .cons (ne_of_isCloser hcloser).2.1

end Backslashes

/-! ## Scans -/

section Scans

variable {text before : Bytes}

theorem openFrom_inside {c : UInt8} (hc : c = quote → followsOddBackslashes before = true)
    (depth length : Nat) :
    openFrom true depth length (c :: before) = openFrom true depth (length + 1) before := by
  rw [openFrom]
  by_cases hquote : c = quote
  · simp [hquote, hc hquote]
  · simp [hquote]

/-- A scan passes over the body of a string. -/
theorem openFrom_body (h : IsBody text) (hbefore : Unescaped before) (depth length : Nat) :
    openFrom true depth length (text.reverse ++ before) =
      openFrom true depth (length + text.length) before := by
  -- From the front of the body, so the scan meets the last byte of the rest first
  induction h generalizing before with
  | nil => rfl
  | @plain c rest hquote hslash _ _ ih =>
    rw [List.reverse_cons, List.append_assoc, List.singleton_append, ih (.cons hslash),
      openFrom_inside (fun h => absurd h hquote)]
    rfl
  | @short c rest hc _ ih =>
    simp only [List.reverse_cons, List.append_assoc, List.cons_append, List.nil_append]
    rw [ih (hbefore.escape c), openFrom_inside (fun _ => followsOddBackslashes_cons hbefore),
      openFrom_inside (fun h => absurd h (by decide))]
    rfl
  | @unit c₁ c₂ c₃ c₄ rest h₁ h₂ h₃ h₄ _ ih =>
    have hdigit : ∀ {c : UInt8} {before : Bytes}, isHexDigit c = true → ∀ depth length,
        openFrom true depth length (c :: before) = openFrom true depth (length + 1) before := by
      intro c before hc
      exact openFrom_inside fun h => absurd h (ne_of_isHexDigit hc).1
    simp only [List.reverse_cons, List.append_assoc, List.cons_append, List.nil_append]
    rw [ih (.cons (ne_of_isHexDigit h₄).2), hdigit h₄, hdigit h₃, hdigit h₂, hdigit h₁,
      openFrom_inside (fun h => absurd h (by decide)),
      openFrom_inside (fun h => absurd h (by decide))]
    rfl

/-- Inside of a bracket, a scan passes over a balanced text with as many brackets open in front of
it as behind. -/
theorem openFrom_balanced (h : Balanced text) (hbefore : Unescaped before) {depth : Nat}
    (hdepth : depth ≠ 0) (length : Nat) :
    openFrom false depth length (text.reverse ++ before) =
      openFrom false depth (length + text.length) before := by
  -- As for the scan to the right, with the quotes in front counted as well
  induction h generalizing depth length before with
  | nil => rfl
  | @append a b ha _ iha ihb =>
    rw [List.reverse_append, List.append_assoc, ihb (hbefore.balanced ha) hdepth,
      iha hbefore hdepth, List.length_append]
    congr 1
    omega
  | plain hc =>
    simp only [isPlain, Bool.and_eq_true, bne_iff_ne, Bool.not_eq_true'] at hc
    obtain ⟨⟨⟨hquote, -⟩, hopener⟩, hcloser⟩ := hc
    simp [openFrom, hquote, hopener, hcloser]
  | @quoted body hbody =>
    have hopen : openFrom false depth length ((Bytes.quoted body).reverse ++ before) =
        openFrom true depth (length + 1) (body.reverse ++ quote :: before) := by
      simp [Bytes.quoted, openFrom]
    -- The quote that opens the string is not escaped, and some bracket stays open in front of it
    rw [hopen, openFrom_body hbody (.cons (by decide)), openFrom, hbefore, if_pos (by decide),
      if_neg hdepth]
    simp only [Bytes.quoted, List.length_append, List.length_cons, List.length_nil]
    congr 1
    omega
  | @bracketed opener closer text hopener hcloser _ ih =>
    obtain ⟨-, hslash, -⟩ := ne_of_isOpener hopener
    have hclose : openFrom false depth length ((opener :: (text ++ [closer])).reverse ++ before) =
        openFrom false (depth + 1) (length + 1) (text.reverse ++ opener :: before) := by
      simp [openFrom, ne_of_isCloser hcloser, hcloser]
    have hopen : openFrom false (depth + 1) (length + 1 + text.length) (opener :: before) =
        openFrom false depth (length + 1 + text.length + 1) before := by
      simp [openFrom, ne_of_isOpener hopener, hopener, hdepth]
    rw [hclose, ih (.cons hslash) (by omega), hopen]
    simp only [List.length_cons, List.length_append, List.length_nil]
    congr 1
    omega

end Scans

/-! ## Extents -/

section Extents

variable {text before : Bytes}

/-- A string begins at its first quote. -/
theorem ofReversed_quoted (h : IsBody text) (hbefore : Unescaped before) :
    ofReversed ((Bytes.quoted text).reverse ++ before) = (Bytes.quoted text).length := by
  have hclose : ofReversed ((Bytes.quoted text).reverse ++ before) =
      openFrom true 0 1 (text.reverse ++ quote :: before) := by
    simp [ofReversed, Bytes.quoted]
  -- With no bracket open the first quote ends the scan
  rw [hclose, openFrom_body h (.cons (by decide)), openFrom, hbefore, if_pos (by decide),
    if_pos rfl]
  simp only [Bytes.quoted, List.length_append, List.length_cons, List.length_nil]
  omega

theorem openFrom_opener {opener : UInt8} (hopener : isOpener opener = true) (length : Nat) :
    openFrom false 1 length (opener :: before) = length + 1 := by
  simp [openFrom, ne_of_isOpener hopener, hopener]

/-- A container begins at its bracket. -/
theorem ofReversed_bracketed {opener closer : UInt8} (hopener : isOpener opener = true)
    (hcloser : isCloser closer = true) (h : Balanced text) :
    ofReversed ((opener :: (text ++ [closer])).reverse ++ before) =
      (opener :: (text ++ [closer])).length := by
  obtain ⟨-, hslash, -⟩ := ne_of_isOpener hopener
  have hclose : ofReversed ((opener :: (text ++ [closer])).reverse ++ before) =
      openFrom false 1 1 (text.reverse ++ opener :: before) := by
    simp [ofReversed, ne_of_isCloser hcloser, hcloser]
  rw [hclose, openFrom_balanced h (.cons hslash) (by decide), openFrom_opener hopener]
  simp only [List.length_cons, List.length_append, List.length_nil]
  omega

/-- From inside of a container, the scan runs to the bracket that opens it. -/
theorem ofReversed_inside {opener : UInt8} (hopener : isOpener opener = true)
    (h : Balanced text) (hlast : ∀ c ∈ text.getLast?, c ≠ quote ∧ isCloser c = false) :
    ofReversed (text.reverse ++ opener :: before) = text.length + 1 := by
  obtain ⟨hquote, hslash, hcloser⟩ := ne_of_isOpener hopener
  -- The byte in front of the place is neither a quote nor a closer, so the scan counts as inside
  have hinside : ofReversed (text.reverse ++ opener :: before) =
      openFrom false 1 0 (text.reverse ++ opener :: before) := by
    rcases List.eq_nil_or_concat text with rfl | ⟨init, c, rfl⟩
    · simp [ofReversed, hquote, hcloser]
    · have hc := hlast c (by simp)
      simp [ofReversed, hc]
  rw [hinside, openFrom_balanced h (.cons hslash) (by decide), openFrom_opener hopener,
    Nat.zero_add]

end Extents

end JsonQuery.Grammar
