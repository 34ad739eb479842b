import JsonQuery.Proofs.Backward
import JsonQuery.Proofs.Literals

/-!
# Scans that meet

A value is measured from its first byte by one scan and from its last byte by another.  One runs to
the right and takes escapes in pairs, the other runs to the left and tells a quote by the
backslashes in front of it, and both count brackets whatever their kind.  On an object, an array or
a string they come to the same bytes, whatever stands in front of the value and behind it.

## Layers

- **Containers**: what any bracketed text is measured as, from both ends.
- **Strings**: the same for quotes, and the place of the last quote.
- **Values**: well-formed texts by the kind that their first byte tells.
-/

namespace JsonQuery.Grammar

open Ascii Extent

/-! ## Containers -/

section Containers

variable {opener closer : UInt8} {text : Bytes}

/-- A container is found behind any text. -/
theorem ofTrailing_bracketed (hopener : isOpener opener = true) (hcloser : isCloser closer = true)
    (h : Balanced text) (before : Bytes) :
    ofTrailing (before ++ opener :: (text ++ [closer])) =
      (opener :: (text ++ [closer])).length := by
  rw [ofTrailing, List.reverse_append]
  exact ofReversed_bracketed hopener hcloser h

/-- An object or an array is a balanced text between its brackets. -/
theorem Node.exists_bracketed {n : Node} (h : n.isContainer = true) :
    ∃ opener closer text, isOpener opener = true ∧ isCloser closer = true ∧ Balanced text ∧
      n.text = opener :: (text ++ [closer]) := by
  cases n with
  | array gap items =>
    refine ⟨openBracket, closeBracket, gap.text ++ inside Gap.text items, rfl, rfl, ?_, ?_⟩
    · exact gap.balanced.append
        (balanced_inside Gap.balanced items fun e _ => e.value.balanced)
    · rw [text_array, List.append_assoc]
  | object gap members =>
    refine ⟨openBrace, closeBrace, gap.text ++ inside Tag.text members, rfl, rfl, ?_, ?_⟩
    · exact gap.balanced.append
        (balanced_inside Tag.balanced members fun e _ => e.value.balanced)
    · rw [text_object, List.append_assoc]
  | _ => cases h

end Containers

/-! ## Strings -/

section Strings

variable (body : Body)

/-- A quote is escaped by what stands in front of it only if that ends in a backslash. -/
theorem unescaped_reverse {before : Bytes} (h : before.getLast? ≠ some backslash) :
    Unescaped before.reverse := by
  rcases List.eq_nil_or_concat before with rfl | ⟨front, c, rfl⟩
  · rfl
  · rw [List.concat_eq_append, List.getLast?_concat] at h
    rw [List.concat_eq_append, List.reverse_concat]
    exact .cons fun hc => h (congrArg some hc)

/-- A string is found behind any text that leaves its first quote alone. -/
theorem ofTrailing_quoted {before : Bytes} (h : before.getLast? ≠ some backslash) :
    ofTrailing (before ++ Bytes.quoted body.text) = (Bytes.quoted body.text).length := by
  rw [ofTrailing, List.reverse_append]
  exact ofReversed_quoted body.isBody (unescaped_reverse h)

/-- The search behind the first quote of a string finds the last one. -/
theorem close?_quoted (rest : Bytes) :
    Quoted.close? ((Bytes.quoted body.text ++ rest).drop 1) =
      some ⟨body.text.length, (Bytes.quoted body.text).contains backslash⟩ := by
  have hbehind : (Bytes.quoted body.text ++ rest).drop 1 = body.text ++ quote :: rest := by
    simp [Bytes.quoted]
  have hcontains : (Bytes.quoted body.text).contains backslash =
      body.text.contains backslash := by
    simp [Bytes.quoted, show backslash ≠ quote by decide]
  rw [hbehind, hcontains, Quoted.close?, close?_loose body.isBody.isLoose, Nat.zero_add,
    Bool.false_or]

end Strings

/-! ## Values -/

section Values

variable {value : Bytes}

/-- The first byte of a value tells an object and an array. -/
theorem Node.isContainer_of_head? {n : Node}
    (h : n.text.head? = some openBrace ∨ n.text.head? = some openBracket) :
    n.isContainer = true := by
  have hlead := of?_node n []
  rw [List.append_nil] at hlead
  obtain ⟨c, rest, htext, -⟩ := n.text_cons
  rw [htext, List.head?_cons, Option.some.injEq, Option.some.injEq] at h
  rw [htext] at hlead
  rcases h with rfl | rfl
  · rw [Node.isContainer, ← Option.some.inj hlead]
    rfl
  · rw [Node.isContainer, ← Option.some.inj hlead]
    rfl

/-- The first byte of a value tells a string. -/
theorem Node.exists_body_of_head? {n : Node} (h : n.text.head? = some quote) :
    ∃ body, n = .string body := by
  have hlead := of?_node n []
  rw [List.append_nil] at hlead
  obtain ⟨c, rest, htext, -⟩ := n.text_cons
  rw [htext, List.head?_cons, Option.some.injEq] at h
  subst h
  rw [htext] at hlead
  cases n with
  | string body => exact ⟨body, rfl⟩
  | _ => cases hlead

/-- **The scans from either end meet.**  An object or an array is as long read from its first
bracket as it is read from its last one, with any text around it.  The first quote of a string leads
to its last one, which tells as well whether there is a backslash between them, and the last one
leads back to the first unless a backslash stands in front of that. -/
theorem extents_meet (hwell : isWellFormed value = true) (htrimmed : IsTrimmed value)
    (before rest : Bytes) :
    (value.head? = some openBrace ∨ value.head? = some openBracket →
      ofContainer? (value ++ rest) = some value.length ∧
        ofArgument (value ++ rest) = value.length ∧
        ofTrailing (before ++ value) = value.length) ∧
    (value.head? = some quote →
      (Quoted.close? ((value ++ rest).drop 1)).map (fun body => (1 + body.length, body.escaped)) =
          some (value.length - 1, value.contains backslash) ∧
        value.getLast? = some quote ∧
        ofArgument (value ++ rest) = value.length ∧
        (before.getLast? ≠ some backslash → ofTrailing (before ++ value) = value.length)) := by
  obtain ⟨n, rfl⟩ := exists_node hwell htrimmed
  constructor
  · intro hhead
    obtain ⟨opener, closer, text, hopener, hcloser, hbalanced, htext⟩ :=
      Node.exists_bracketed (Node.isContainer_of_head? hhead)
    rw [htext]
    exact ⟨ofContainer?_bracketed hcloser hbalanced rest,
      ofArgument_bracketed hopener hcloser hbalanced rest,
      ofTrailing_bracketed hopener hcloser hbalanced before⟩
  · intro hhead
    obtain ⟨body, rfl⟩ := Node.exists_body_of_head? hhead
    have hlength : (Bytes.quoted body.text).length - 1 = 1 + body.text.length := by
      simp [Bytes.quoted, Nat.add_comm]
    rw [Node.text, close?_quoted, hlength]
    exact ⟨rfl, List.getLast?_concat (l := quote :: body.text), ofArgument_quoted body rest,
      ofTrailing_quoted body⟩

/-- An object with a string that holds brackets, behind a backslash, and a string that ends in an
escaped quote, behind an open bracket. -/
theorem extents_meet_samples :
    let object := Bytes.ofString "\x7b\"a\":[\"\x7d\\\\\",\x7b\x7d]\x7d"
    let string := Bytes.ofString "\"x\\\"\""
    isWellFormed object = true ∧ IsTrimmed object ∧ object.head? = some openBrace ∧
      ofContainer? (object ++ [closeBrace]) = some object.length ∧
      ofArgument (object ++ [closeBrace]) = object.length ∧
      ofTrailing ([backslash] ++ object) = object.length ∧
    isWellFormed string = true ∧ IsTrimmed string ∧ string.head? = some quote ∧
      (Quoted.close? ((string ++ [quote]).drop 1)).map
        (fun body => (1 + body.length, body.escaped)) = some (4, true) ∧
      [openBracket].getLast? ≠ some backslash ∧
      ofTrailing ([openBracket] ++ string) = string.length := by
  intro object string
  have hobject : isWellFormed object = true := by decide +kernel
  have hobjectTrimmed : IsTrimmed object := by decide +kernel
  have hstring : isWellFormed string = true := by decide +kernel
  have hstringTrimmed : IsTrimmed string := by decide +kernel
  have hbrace : object.head? = some openBrace := by decide +kernel
  have hquote : string.head? = some quote := by decide +kernel
  obtain ⟨hcontainer, hargument, htrailing⟩ :=
    (extents_meet hobject hobjectTrimmed [backslash] [closeBrace]).1 (.inl hbrace)
  obtain ⟨hclose, -, -, hback⟩ :=
    (extents_meet hstring hstringTrimmed [openBracket] [quote]).2 hquote
  have hlast : [openBracket].getLast? ≠ some backslash := by decide
  exact ⟨hobject, hobjectTrimmed, hbrace, hcontainer, hargument, htrailing, hstring, hstringTrimmed,
    hquote, hclose.trans (by decide +kernel), hlast, hback hlast⟩

end Values

end JsonQuery.Grammar
