import JsonQuery.Path.Component
import JsonQuery.Path.Invocation
import JsonQuery.Path.Literal
import JsonQuery.Path.Pipe
import JsonQuery.Path.Selector
import Mathlib.Data.List.TakeDrop

/-!
# Excerpts of paths

Every path that is resolved on behalf of a path stands in it byte by byte: the reader of a component
leaves the path behind it, a filter and a sub-selector hold paths of their own, and a pipe, a call
and a literal are followed by what is left.  None of the readers takes an escape off before a path
is handed on.

## Layers

- **Components**: the tails of components, and what selections resolve in the elements.
- **Filters**: the path inside of a filter, and the two parts of a path at its pipe.
- **Sub-selectors**: the paths of the parts, which are read byte by byte.
- **Calls and literals**: what is left behind them, and the name of a call.
-/

namespace JsonQuery

open Ascii

/-! ## Components -/

/-- The path that is left behind a component is cut out of a whole path. -/
def Tail.Within (whole : Bytes) : Tail → Prop
  | .done => True
  | .deeper path | .pipe path => path <:+: whole

/-- The path that a selection resolves in the elements is cut out of a whole path. -/
def Selection.Within (whole : Bytes) : Selection → Prop
  | .each path => path <:+: whole
  | .filter f => f.path <:+: whole
  | .position _ | .count => True

section Excerpts

variable {whole path : Bytes}

theorem infix_of_cons {c : UInt8} (h : c :: path <:+: whole) : path <:+: whole :=
  (List.suffix_cons c path).isInfix.trans h

theorem Dialect.within_afterDot (dialect : Dialect) (h : path <:+: whole) :
    (dialect.afterDot path).Within whole := by
  unfold afterDot
  split
  · exact h
  · exact h

theorem KeyComponent.within_parseFrom (dialect : Dialect) (before : Bytes) (wild : Bool)
    (h : path <:+: whole) : (parseFrom dialect before wild path).tail.Within whole := by
  fun_induction parseFrom dialect before wild path with
  | case1 => trivial
  | case2 => trivial
  | case3 before wild d rest ih => exact ih (infix_of_cons (infix_of_cons h))
  | case4 before wild rest => exact infix_of_cons h
  | case5 before wild rest => exact dialect.within_afterDot (infix_of_cons h)
  | case6 before wild c rest hslash hbar hdot ih => exact ih (infix_of_cons h)

theorem ElementComponent.within_partFrom (dialect : Dialect) (before : Bytes) (counting : Bool)
    (h : path <:+: whole) : (partFrom dialect before counting path).tail.Within whole := by
  fun_induction partFrom dialect before counting path with
  | case1 => trivial
  | case2 before counting rest => exact infix_of_cons h
  | case3 before counting rest =>
    dsimp only
    split
    · exact infix_of_cons h
    · exact dialect.within_afterDot (infix_of_cons h)
  | case4 before counting c rest hbar hdot ih => exact ih (infix_of_cons h)

/-! ## Filters -/

theorem Filter.trim_isInfix (text : Bytes) : trim text <:+: text := by
  have hback : trim text <+: text.dropWhile isSpace := by
    rw [trim, ← List.reverse_suffix, List.reverse_reverse]
    exact List.dropWhile_suffix isSpace
  exact hback.isInfix.trans (List.dropWhile_suffix isSpace).isInfix

theorem Filter.path_ofInside (inside : Inside) (text : Bytes) :
    (ofInside inside text).path <:+: text := by
  have hbody : text.take inside.length <:+: text := (List.take_prefix _ _).isInfix
  unfold ofInside
  dsimp only
  split
  · exact (trim_isInfix _).trans hbody
  · exact ((trim_isInfix _).trans (List.take_prefix _ _).isInfix).trans hbody

theorem Filter.path_of_parse? {f : Filter} {length : Nat} (h : parse? path = some (f, length)) :
    f.path <:+: path := by
  unfold parse? at h
  split at h
  · obtain ⟨inside, -, hpair⟩ := Option.map_eq_some_iff.1 h
    cases hpair
    exact (path_ofInside inside _).trans (List.drop_suffix 2 path).isInfix
  · cases h

theorem ElementComponent.within_parse? (dialect : Dialect) {component : ElementComponent}
    (hparse : parse? dialect path = some component) (h : path <:+: whole) :
    component.selection.Within whole ∧ component.tail.Within whole := by
  unfold parse? at hparse
  split at hparse
  · obtain ⟨⟨f, length⟩, hfilter, rfl⟩ := Option.map_eq_some_iff.1 hparse
    exact ⟨(Filter.path_of_parse? hfilter).trans h,
      within_partFrom dialect [] true ((List.drop_suffix length path).isInfix.trans h)⟩
  · obtain rfl := Option.some.inj hparse
    have htail := within_partFrom dialect [] false h
    refine ⟨?_, htail⟩
    -- Only a lone hash sign hands the path behind it on
    dsimp only
    unfold Part.selection
    split
    · split
      · split
        · rename_i hdeeper
          rw [hdeeper] at htail
          exact htail
        · trivial
      · trivial
    · trivial

theorem Pipe.infix_split (path : Bytes) :
    (split path).1 <:+: path ∧ ∀ pipe ∈ (split path).2, pipe <:+: path := by
  unfold split
  split
  · rename_i offset _
    refine ⟨(List.take_prefix offset path).isInfix, fun pipe hpipe => ?_⟩
    obtain rfl := Option.some.inj hpipe
    exact (List.drop_suffix (offset + 1) path).isInfix
  · refine ⟨List.infix_rfl, fun pipe hpipe => ?_⟩
    cases hpipe

/-! ## Sub-selectors -/

/-- The part that is being read goes on with the bytes ahead. -/
theorem Selector.Draft.push_isInfix {draft : Draft} {c : UInt8}
    (h : draft.text.reverse ++ c :: path <:+: whole) :
    (draft.push c).text.reverse ++ path <:+: whole := by
  simpa [push] using h

/-- Parts are cut out of a sub-selector, and so is the path behind it. -/
theorem Selector.infix_parseFrom {inString : Bool} {depth : Nat} {draft : Draft}
    {found : List Selector} (hdraft : draft.text.reverse ++ path <:+: whole)
    (hfound : ∀ part ∈ found, part.path <:+: whole) {parts : List Selector} {rest : Bytes}
    (hparse : parseFrom inString depth draft found path = some (parts, rest)) :
    (∀ part ∈ parts, part.path <:+: whole) ∧ rest <:+: whole := by
  have hfinish : ∀ {draft : Draft} {text : Bytes}, draft.text.reverse ++ text <:+: whole →
      draft.finish.path <:+: whole :=
    fun h => (List.prefix_append _ _).isInfix.trans h
  have hahead : ∀ {draft : Draft} {text : Bytes}, draft.text.reverse ++ text <:+: whole →
      text <:+: whole :=
    fun h => (List.suffix_append _ _).isInfix.trans h
  fun_induction parseFrom inString depth draft found path with
  | case1 => cases hparse
  | case2 => cases hparse
  | case3 inString depth draft found d rest ih =>
    -- An escape stays in the part as it is written
    exact ih (Draft.push_isInfix (Draft.push_isInfix hdraft)) hfound hparse
  | case4 depth draft found c rest hslash ih =>
    exact ih (Draft.push_isInfix hdraft) hfound hparse
  | case5 depth draft found c rest hslash hmodifier ih =>
    exact ih (Draft.push_isInfix hdraft) hfound hparse
  | case6 depth draft found c rest hslash hmodifier hname ih =>
    -- Behind the colon of its name a part begins anew
    exact ih (infix_of_cons (hahead hdraft)) hfound hparse
  | case7 depth draft found c rest hslash hmodifier hname hcomma ih =>
    have hparts : ∀ part ∈ draft.finish :: found, part.path <:+: whole :=
      List.forall_mem_cons.2 ⟨hfinish hdraft, hfound⟩
    exact ih (infix_of_cons (hahead hdraft)) hparts hparse
  | case8 depth draft found c rest hslash hmodifier hname hcomma hopener ih =>
    exact ih (Draft.push_isInfix hdraft) hfound hparse
  | case9 draft found c rest =>
    obtain ⟨rfl, rfl⟩ := Prod.mk.inj (Option.some.inj hparse)
    have hparts : ∀ part ∈ draft.finish :: found, part.path <:+: whole :=
      List.forall_mem_cons.2 ⟨hfinish hdraft, hfound⟩
    exact ⟨fun part hpart => hparts part (List.mem_reverse.1 hpart),
      infix_of_cons (hahead hdraft)⟩
  | case10 draft found c rest hslash hmodifier hopener hcloser depth hname hcomma ih =>
    exact ih (Draft.push_isInfix hdraft) hfound hparse
  | case11 depth draft found c rest hslash hmodifier hname hcomma hopener hcloser ih =>
    exact ih (Draft.push_isInfix hdraft) hfound hparse

theorem Selector.infix_parse? {parts : List Selector} {rest : Bytes}
    (hparse : parse? path = some (parts, rest)) :
    (∀ part ∈ parts, part.path <:+: path) ∧ rest <:+: path :=
  infix_parseFrom (List.drop_suffix 1 path).isInfix (List.forall_mem_nil _) hparse

/-! ## Calls and literals -/

theorem Literal.infix_parse? {text rest : Bytes} (hparse : parse? path = some (text, rest)) :
    rest <:+: path := by
  unfold parse? at hparse
  have hbody : ∀ {c : UInt8} {body : Bytes}, path.drop 1 = c :: body → c :: body <:+: path :=
    fun h => h ▸ (List.drop_suffix 1 path).isInfix
  split at hparse
  · cases hparse
  · rename_i c body hdrop
    dsimp only at hparse
    split at hparse
    · obtain ⟨length, -, hpair⟩ := Option.map_eq_some_iff.1 hparse
      cases hpair
      exact (List.drop_suffix _ _).isInfix.trans (hbody hdrop)
    · split at hparse
      · cases hparse
        exact (List.drop_suffix _ _).isInfix.trans (hbody hdrop)
      · rw [List.span_eq_takeWhile_dropWhile] at hparse
        dsimp only at hparse
        split at hparse
        · cases hparse
          exact (List.dropWhile_suffix _).isInfix.trans (hbody hdrop)
        · cases hparse

theorem Path.infix_continuation? {rest next : Bytes} (h : continuation? rest = some next) :
    next <:+: rest := by
  cases rest with
  | nil => cases h
  | cons c rest =>
    rw [continuation?] at h
    split at h
    · exact Option.some.inj h ▸ (List.suffix_cons c rest).isInfix
    · cases h

/-- The name of a call stands behind the at sign, and in front of what is left. -/
theorem Invocation.parse_isInfix (path : Bytes) :
    (parse path).name <+: path.drop 1 ∧ (parse path).rest <:+: path := by
  unfold parse
  rw [List.span_eq_takeWhile_dropWhile]
  have hdrop := (List.dropWhile_suffix (!endsModifierName ·)).isInfix.trans
    (List.drop_suffix 1 path).isInfix
  dsimp only
  split
  · exact ⟨List.takeWhile_prefix _, List.nil_infix⟩
  · rename_i c behind hrest
    split
    · rw [hrest] at hdrop
      exact ⟨List.takeWhile_prefix _, infix_of_cons hdrop⟩
    · exact ⟨List.takeWhile_prefix _, hdrop⟩

theorem Invocation.behind_isInfix (call : Invocation) : call.behind <:+: call.rest := by
  unfold behind
  split
  · exact (List.drop_suffix _ _).isInfix
  · exact List.infix_rfl

end Excerpts

end JsonQuery
