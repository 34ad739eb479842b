import JsonQuery.Path.Pipe
import JsonQuery.Proofs.FilterPaths

/-!
# Where a filter ends, and where its path is split

A filter is read twice: `Filter.parse?` counts round and square brackets, and a backslash takes the
byte behind it along; `Pipe.split` looks for the bar behind the filter, and measures the filter as a
container, with braces counted and backslashes outside of strings ignored.  Both come to the same
end where no brace and no escaped bracket or quote stands outside of the strings of the filter.  Of
all filters it is told exactly which ones a path is split behind, as it should be.

## Layers

- **Splitting**: the paths in front of a bar that splits, described without the scan for the bar.
- **Filters**: a filter that is read ends with a bracket; the bytes that both readings take alike.
- **Delimiters**: the ends that both readings find.
-/

namespace JsonQuery

open Ascii Extent Grammar

/-! ## Splitting -/

namespace Pipe

/-- Paths without a bar that splits them: a backslash takes the byte behind it along, and a filter
whatever stands in it, up to a bracket that closes as many as were opened. -/
inductive Barless : Bytes → Prop where
  | nil : Barless []
  | plain {c : UInt8} {path : Bytes} (hbar : c ≠ bar) (hslash : c ≠ backslash)
      (hhash : c = hash → opensFilter path = false) (h : Barless path) : Barless (c :: path)
  | escaped {c : UInt8} {path : Bytes} (h : Barless path) : Barless (backslash :: c :: path)
  | filter {opener closer : UInt8} {inside path : Bytes}
      (hopener : opener = openBracket ∨ opener = openParen) (hinside : Matched inside)
      (hcloser : isCloser closer = true) (h : Barless path) :
      Barless (hash :: opener :: (inside ++ closer :: path))

variable {path : Bytes}

theorem opensFilter_append_bar (path rest : Bytes) :
    opensFilter (path ++ bar :: rest) = opensFilter path := by
  cases path <;> rfl

/-- The search for a bar passes over a path without one. -/
theorem barFrom?_barless (h : Barless path) (offset : Nat) (rest : Bytes) :
    barFrom? offset (path ++ bar :: rest) = some (offset + path.length) := by
  induction h generalizing offset with
  | nil => simp [barFrom?]
  | @plain c path hbar hslash hhash _ ih =>
    have hfilter : ¬(c = hash && opensFilter (path ++ bar :: rest)) = true := by
      rw [opensFilter_append_bar, Bool.and_eq_true, decide_eq_true_iff]
      exact fun h => Bool.false_ne_true ((hhash h.1).symm.trans h.2)
    rw [List.cons_append, barFrom?, if_neg hbar, if_neg hslash, if_neg hfilter, ih,
      List.length_cons, Nat.add_right_comm, Nat.add_assoc]
  | escaped _ ih =>
    rw [List.cons_append, List.cons_append, barFrom?, if_neg (by decide), if_pos rfl,
      List.drop_succ_cons, List.drop_zero, ih, List.length_cons, List.length_cons]
    congr 1
    omega
  | @filter opener closer inside path hopener hinside hcloser _ ih =>
    have hopens : opensFilter (opener :: (inside ++ closer :: (path ++ bar :: rest))) = true := by
      rcases hopener with rfl | rfl <;> rfl
    have hlength : ofContainer? (opener :: (inside ++ closer :: (path ++ bar :: rest))) =
        some (inside.length + 2) :=
      ofContainer?_eq_some_iff.2 ⟨inside, closer, _, rfl, hinside, hcloser, rfl⟩
    have hdrop : (opener :: (inside ++ closer :: (path ++ bar :: rest))).drop
        (inside.length + 2) = path ++ bar :: rest := by
      rw [List.drop_succ_cons, ← List.drop_drop, List.drop_left]
      rfl
    rw [List.cons_append, List.cons_append, List.append_assoc, List.cons_append, barFrom?,
      if_neg (by decide), if_neg (by decide), hopens, Bool.and_true, if_pos (by decide), hlength]
    dsimp only
    rw [hdrop, ih]
    simp only [List.length_cons, List.length_append]
    congr 1
    omega

/-- In front of a bar that is found there is none. -/
theorem exists_barless_of_barFrom? {offset n : Nat} (h : barFrom? offset path = some n) :
    ∃ before rest, path = before ++ bar :: rest ∧ Barless before ∧ n = offset + before.length := by
  fun_induction barFrom? offset path with
  | case1 offset => cases h
  | case2 offset rest =>
    cases h
    exact ⟨[], rest, rfl, .nil, rfl⟩
  | case3 offset rest _ ih =>
    obtain ⟨before, behind, hrest, hbefore, rfl⟩ := ih h
    cases rest with
    | nil =>
      -- There is nothing behind the backslash, so no bar either
      rw [List.drop_nil] at hrest
      simp at hrest
    | cons c rest =>
      rw [List.drop_succ_cons, List.drop_zero] at hrest
      refine ⟨backslash :: c :: before, behind, by rw [hrest]; rfl, .escaped hbefore, ?_⟩
      rw [List.length_cons, List.length_cons]
      omega
  | case4 offset c rest hbar hslash hfilter length hlength ih =>
    rw [Bool.and_eq_true, decide_eq_true_iff] at hfilter
    obtain ⟨before, behind, hrest, hbefore, rfl⟩ := ih h
    cases rest with
    | nil => cases hfilter.2
    | cons opener rest =>
      obtain ⟨inside, closer, rest, rfl, hinside, hcloser, rfl⟩ :=
        ofContainer?_eq_some_iff.1 hlength
      have hdrop : (opener :: (inside ++ closer :: rest)).drop (inside.length + 2) = rest := by
        rw [List.drop_succ_cons, ← List.drop_drop, List.drop_left]
        rfl
      have hopener : opener = openBracket ∨ opener = openParen := by
        simpa [opensFilter] using hfilter.2
      rw [hdrop] at hrest
      refine ⟨hash :: opener :: (inside ++ closer :: before), behind, ?_,
        .filter hopener hinside hcloser hbefore, ?_⟩
      · rw [hfilter.1, hrest]
        simp
      · simp only [List.length_cons, List.length_append]
        omega
  | case5 => cases h
  | case6 offset c rest hbar hslash hfilter ih =>
    obtain ⟨before, behind, rfl, hbefore, rfl⟩ := ih h
    rw [opensFilter_append_bar, Bool.and_eq_true, decide_eq_true_iff, not_and, Bool.not_eq_true]
      at hfilter
    refine ⟨c :: before, behind, rfl, .plain hbar hslash hfilter hbefore, ?_⟩
    rw [List.length_cons]
    omega

/-- A path that starts with no sub-selector is split where a bar is put behind it, if and only if
none stands in it. -/
theorem split_eq_iff (hlead : ∀ c ∈ path.head?, opensContainer c = false) :
    (∀ rest, split (path ++ bar :: rest) = (path, some rest)) ↔ Barless path := by
  have hbar : ∀ rest, bar? (path ++ bar :: rest) = barFrom? 0 (path ++ bar :: rest) := by
    intro rest
    cases path with
    | nil => rfl
    | cons c path => exact if_neg (by simp [hlead c rfl])
  constructor
  · intro h
    -- The shortest text behind the bar tells it all
    have hsplit := h []
    rw [split, hbar] at hsplit
    cases hfound : barFrom? 0 (path ++ [bar]) with
    | none =>
      rw [hfound] at hsplit
      cases (congrArg Prod.snd hsplit)
    | some offset =>
      obtain ⟨before, rest, hpath, hbefore, rfl⟩ := exists_barless_of_barFrom? hfound
      rw [hfound] at hsplit
      have htake : (path ++ [bar]).take (0 + before.length) = path := congrArg Prod.fst hsplit
      rw [hpath, Nat.zero_add, List.take_left] at htake
      exact htake ▸ hbefore
  · intro h rest
    rw [split, hbar, barFrom?_barless h, Nat.zero_add]
    simp

end Pipe

/-! ## Filters -/

namespace Filter

/-- What a filter may hold without its two readings telling it apart: outside of strings no brace,
and nothing behind a backslash that a scan over a container takes notice of. -/
inductive Tame : Bytes → Prop where
  | nil : Tame []
  | plain {c : UInt8} {text : Bytes} (hquote : c ≠ quote) (hslash : c ≠ backslash)
      (hopen : c ≠ openBrace) (hclose : c ≠ closeBrace) (h : Tame text) : Tame (c :: text)
  | escaped {c : UInt8} {text : Bytes} (hc : isMark c = false) (h : Tame text) :
      Tame (backslash :: c :: text)
  | quoted {body text : Bytes} (hbody : IsLoose body) (h : Tame text) :
      Tame (quote :: (body ++ quote :: text))

variable {inside found : Inside} {depth : Nat} {text : Bytes}

/-- The search ends in front of a bracket that closes. -/
theorem exists_closer_of_insideFrom {inString : Bool}
    (h : insideFrom inString depth inside text = some found) :
    ∃ before closer rest, text = before ++ closer :: rest ∧ isCloser closer = true ∧
      found.length = inside.length + before.length := by
  -- Every byte but the last one only moves the search on
  have hmoves : ∀ {c : UInt8} {rest : Bytes} {n : Nat},
      (∃ before closer behind, rest = before ++ closer :: behind ∧ isCloser closer = true ∧
        found.length = n + 1 + before.length) →
      ∃ before closer behind, c :: rest = before ++ closer :: behind ∧ isCloser closer = true ∧
        found.length = n + before.length := by
    rintro c _ n ⟨before, closer, behind, rfl, hcloser, hlength⟩
    refine ⟨c :: before, closer, behind, rfl, hcloser, ?_⟩
    rw [hlength, List.length_cons, Nat.add_right_comm, Nat.add_assoc]
  fun_induction insideFrom inString depth inside text with
  | case1 | case2 | case6 => cases h
  | case3 | case7 =>
    rename_i ih
    exact hmoves (hmoves (ih h))
  | case4 | case5 | case8 | case10 | case11 =>
    rename_i ih
    exact hmoves (ih h)
  | case9 inside c rest _ _ hcloser =>
    cases h
    refine ⟨[], c, rest, rfl, ?_, rfl⟩
    rw [Bool.or_eq_true, decide_eq_true_iff, decide_eq_true_iff] at hcloser
    rcases hcloser with rfl | rfl <;> rfl

/-- Outside of strings, the search and a scan over a container do the same about a byte that is no
brace and takes no other along. -/
theorem closeFrom_of_insideFrom_cons {c : UInt8} (hquote : c ≠ quote) (hslash : c ≠ backslash)
    (h : insideFrom false depth inside (c :: text) = some found) :
    (found = inside ∧ depth = 0 ∧ isCloser c = true) ∨
      ∃ (below : Nat) (next : Inside), next.length = inside.length + 1 ∧
        insideFrom false below next text = some found ∧
        (c ≠ openBrace → c ≠ closeBrace → ∀ length rest,
          closeFrom .plain depth length (c :: rest) =
            closeFrom .plain below (length + 1) rest) := by
  rw [insideFrom.eq_def] at h
  simp only [if_neg hslash] at h
  split at h
  · -- The operator
    rename_i hop
    have hmark : isMark c = false := by
      grind [startsOperator, isMark, isOpener, isCloser]
    exact .inr ⟨_, _, rfl, h, fun _ _ length rest => closeFrom_unmarked hmark depth length rest⟩
  · split at h
    · rename_i hopener
      have hopener : isOpener c = true := by
        grind [isOpener]
      exact .inr ⟨_, _, rfl, h, fun _ _ length rest => closeFrom_opener hopener depth length rest⟩
    · split at h
      · rename_i hcloser
        have hcloser : isCloser c = true := by
          grind [isCloser]
        split at h
        · exact .inl ⟨(Option.some.inj h).symm, rfl, hcloser⟩
        · exact .inr ⟨_, _, rfl, h, fun _ _ length rest => closeFrom_closer hcloser _ length rest⟩
      · rename_i hopener hcloser
        rw [beq_eq_false_iff_ne.2 hquote] at h
        refine .inr ⟨_, _, rfl, h, fun hopen hclose length rest => ?_⟩
        have hmark : isMark c = false := by
          grind [isMark, isOpener, isCloser]
        exact closeFrom_unmarked hmark depth length rest

/-- A scan over a container finds the end of a filter, if nothing in the filter is read
differently. -/
theorem closeFrom_tame (htame : Tame text) {closer : UInt8} {behind : Bytes}
    (h : insideFrom false depth inside (text ++ closer :: behind) = some found)
    (hlength : found.length = inside.length + text.length) (length : Nat) (rest : Bytes) :
    closeFrom .plain depth length (text ++ closer :: rest) = some (length + text.length + 1) := by
  -- On the filter, with any number of brackets open in front of it
  induction htame generalizing depth inside length with
  | nil =>
    obtain ⟨before, last, rest', hlast, hcloser, hbefore⟩ := exists_closer_of_insideFrom h
    obtain rfl : before = [] := List.length_eq_zero_iff.1 (by simp at hlength; omega)
    obtain ⟨rfl, rfl⟩ : closer = last ∧ behind = rest' := by simpa using hlast
    obtain ⟨hquote, hslash, -⟩ := ne_of_isCloser hcloser
    obtain ⟨-, rfl, -⟩ | ⟨below, next, hnext, h, -⟩ :=
      closeFrom_of_insideFrom_cons hquote hslash h
    · exact closeFrom_lastCloser hcloser length rest
    · -- The search does not end behind the closer
      obtain ⟨_, _, _, -, -, hfound⟩ := exists_closer_of_insideFrom h
      simp at hlength
      omega
  | @plain c text hquote hslash hopen hclose _ ih =>
    rw [List.length_cons] at hlength ⊢
    obtain ⟨rfl, -, -⟩ | ⟨below, next, hnext, h, hsame⟩ :=
      closeFrom_of_insideFrom_cons hquote hslash h
    · omega
    · rw [List.cons_append, hsame hopen hclose, ih h (by omega)]
      congr 1
      omega
  | @escaped c text hc _ ih =>
    have hslash : isMark backslash = false := rfl
    rw [List.length_cons, List.length_cons] at hlength ⊢
    rw [List.cons_append, List.cons_append, insideFrom_escaped] at h
    rw [List.cons_append, List.cons_append, closeFrom_unmarked hslash, closeFrom_unmarked hc,
      ih h (by rw [hlength]; simp only [Inside.more]; omega)]
    congr 1
    omega
  | @quoted body text hbody _ ih =>
    rw [List.cons_append, List.append_assoc, List.cons_append] at h ⊢
    rw [insideFrom_open, insideFrom_loose hbody, insideFrom_closeQuote] at h
    rw [closeFrom_quote, closeFrom_loose hbody, closeFrom_endQuote, ih h]
    · simp only [List.length_cons, List.length_append]
      congr 1
      omega
    · rw [hlength]
      simp only [Inside.moreQuoted, Inside.more, List.length_cons, List.length_append,
        List.length_nil]
      omega

/-! ## Delimiters -/

/-- A filter that is read stands between two brackets at the front of its path. -/
theorem exists_of_parse? {path : Bytes} {f : Filter} {length : Nat}
    (h : parse? path = some (f, length)) :
    ∃ opener body closer rest found, path = hash :: opener :: (body ++ closer :: rest) ∧
      (opener = openBracket ∨ opener = openParen) ∧ isCloser closer = true ∧
      length = body.length + 3 ∧ inside? (body ++ closer :: rest) = some found ∧
      found.length = body.length := by
  unfold parse? at h
  split at h
  · rename_i hstarts
    obtain ⟨found, hfound, hpair⟩ := Option.map_eq_some_iff.1 h
    match path with
    | [] => cases hstarts
    | [_] => cases hstarts
    | first :: opener :: text =>
      obtain ⟨rfl, hopener⟩ : first = hash ∧ (opener = openParen ∨ opener = openBracket) := by
        simpa [starts] using hstarts
      obtain ⟨body, closer, rest, hbody, hcloser, hlength⟩ := exists_closer_of_insideFrom hfound
      have hlength : found.length = body.length := hlength.trans (Nat.zero_add _)
      obtain rfl : text = body ++ closer :: rest := hbody
      exact ⟨opener, body, closer, rest, found, rfl, hopener.symm, hcloser,
        hlength ▸ (congrArg Prod.snd hpair).symm, hfound, hlength⟩
  · cases h

/-- **Where a filter ends for the two that read it.**  A path with a bar behind a filter is split
there, whatever follows, if and only if no bar splits the filter itself; the splitter measures the
filter as it was read if and only if what stands between its brackets is matched; and both are so if
outside of its strings it holds no brace, and no quote or bracket behind a backslash. -/
theorem split_behind {path : Bytes} {f : Filter} {length : Nat}
    (h : parse? path = some (f, length)) :
    ((∀ rest, Pipe.split (path.take length ++ bar :: rest) = (path.take length, some rest)) ↔
        Pipe.Barless (path.take length)) ∧
      (ofContainer? (path.drop 1) = some (length - 1) ↔
        Matched ((path.take (length - 1)).drop 2)) ∧
      (Tame ((path.take (length - 1)).drop 2) →
        ofContainer? (path.drop 1) = some (length - 1) ∧
          ∀ rest, Pipe.split (path.take length ++ bar :: rest) =
            (path.take length, some rest)) := by
  obtain ⟨opener, body, closer, rest, found, rfl, hopener, hcloser, rfl, hfound, hlength⟩ :=
    exists_of_parse? h
  have hfilter : (hash :: opener :: (body ++ closer :: rest)).take (body.length + 3) =
      hash :: opener :: (body ++ [closer]) := by
    simp [List.take_append, List.take_of_length_le]
  have hinside : ((hash :: opener :: (body ++ closer :: rest)).take (body.length + 3 - 1)).drop 2 =
      body := List.take_left
  have hsplit : (∀ rest, Pipe.split ((hash :: opener :: (body ++ [closer])) ++ bar :: rest) =
      (hash :: opener :: (body ++ [closer]), some rest)) ↔
        Pipe.Barless (hash :: opener :: (body ++ [closer])) :=
    Pipe.split_eq_iff fun c hc => Option.some.inj hc ▸ rfl
  have hmatched : ofContainer? (opener :: (body ++ closer :: rest)) = some (body.length + 2) ↔
      Matched body := by
    constructor
    · intro hmeasure
      obtain ⟨body', closer', rest', htext, hbody', -, hsame⟩ := ofContainer?_eq_some_iff.1 hmeasure
      obtain ⟨rfl, -⟩ := List.append_inj htext (by omega)
      exact hbody'
    · exact fun hbody => ofContainer?_eq_some_iff.2 ⟨body, closer, rest, rfl, hbody, hcloser, rfl⟩
  rw [hfilter, hinside]
  refine ⟨hsplit, hmatched, fun htame => ?_⟩
  have hmeasure : ofContainer? (opener :: (body ++ closer :: rest)) = some (body.length + 2) := by
    rw [ofContainer?, closeFrom_tame htame hfound (by rw [hlength]; exact (Nat.zero_add _).symm)]
    congr 1
    omega
  exact ⟨hmeasure, hsplit.2 (.filter hopener (hmatched.1 hmeasure) hcloser .nil)⟩

/-- A bar in a string does not split a path, but one behind an escaped bracket does. -/
theorem split_behind_samples :
    Pipe.split (Bytes.ofString "#(a==\"|\")|0") =
        (Bytes.ofString "#(a==\"|\")", some (Bytes.ofString "0")) ∧
      parse? (Bytes.ofString "#(a\\)==\"|\")|0") =
        some (⟨Bytes.ofString "a\\)", .equal, Bytes.ofString "|", false⟩, 11) ∧
      Pipe.split (Bytes.ofString "#(a\\)==\"|\")|0") =
        (Bytes.ofString "#(a\\)==\"", some (Bytes.ofString "\")|0")) ∧
      ¬Pipe.Barless (Bytes.ofString "#(a\\)==\"|\")") := by
  have hplain : parse? (Bytes.ofString "#(a==\"|\")|0") =
      some (⟨Bytes.ofString "a", .equal, Bytes.ofString "|", false⟩, 9) := by decide +kernel
  have hescaped : parse? (Bytes.ofString "#(a\\)==\"|\")|0") =
      some (⟨Bytes.ofString "a\\)", .equal, Bytes.ofString "|", false⟩, 11) := by decide +kernel
  have hsplit : Pipe.split (Bytes.ofString "#(a\\)==\"|\")|0") =
      (Bytes.ofString "#(a\\)==\"", some (Bytes.ofString "\")|0")) := by decide +kernel
  have hbody : IsLoose [bar] := .plain (by decide) (by decide) .nil
  have htame : Tame [0x61, equal, equal, quote, bar, quote] :=
    .plain (by decide) (by decide) (by decide) (by decide) (.plain (by decide) (by decide)
      (by decide) (by decide) (.plain (by decide) (by decide) (by decide) (by decide)
        (.quoted hbody .nil)))
  refine ⟨((split_behind hplain).2.2 htame).2 [0x30], hescaped, hsplit, fun hbarless => ?_⟩
  have hright := (split_behind hescaped).1.2 hbarless [0x30]
  cases (congrArg (fun found => found.1.length) (hsplit.symm.trans hright))

end Filter

end JsonQuery
