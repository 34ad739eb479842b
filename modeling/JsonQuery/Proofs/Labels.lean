import JsonQuery.Proofs.Levels
import JsonQuery.Proofs.Unnamed
import Mathlib.Data.List.DropRight

/-!
# Labels of parts without names

Where an object is built, a part without a name is labelled by its last key.  The path is read from
its end for it: up to a dot that no backslash stands in front of.  An escaped dot has its backslash
there, but a dot between two keys has one, too, if the first of them ends in a backslash, which is
written as two of them.  Such a key runs into the next one, so that the label is made of both.

## Layers

- **Keys**: what the escapes of a path hold, and what they stand for.
- **The end of a path**: reading a path of escaped keys from its end.
- **Labels**: the label of a path, and when it is the last key.
- **Queries**: what is built from one part.
-/

namespace JsonQuery

open Ascii Grammar

namespace Selector

/-! ## Keys -/

section Keys

variable {key : Bytes} {keys : List Bytes}

/-- A backslash does not make a text unfit for a label. -/
theorem any_unfitForLabel_escape (key : Bytes) :
    (Path.escape key).any unfitForLabel = key.any unfitForLabel := by
  have hslash : unfitForLabel backslash = false := by decide
  induction key with
  | nil => rfl
  | cons c key ih =>
    rw [Path.escape_cons, List.any_append, ih, List.any_cons]
    split <;> simp [hslash]

theorem escape_ne_nil (hne : key ≠ []) : Path.escape key ≠ [] := by
  intro hnil
  have hlast := Filter.getLast?_escape key
  rw [hnil] at hlast
  exact hne (List.getLast?_eq_none_iff.1 hlast.symm)

/-- A path is unfit for a label if one of its keys is. -/
theorem any_unfitForLabel_keyPath (keys : List Bytes) :
    (keyPath keys).any unfitForLabel = keys.any (·.any unfitForLabel) := by
  have hdot : unfitForLabel dot = false := by decide
  induction keys with
  | nil => rfl
  | cons key keys ih =>
    by_cases hne : keys = []
    · simp [hne, keyPath_singleton, any_unfitForLabel_escape]
    · simp [keyPath_cons key hne, any_unfitForLabel_escape, hdot, ih]

theorem unescape_escape_append (key rest : Bytes) :
    Path.unescape (Path.escape key ++ rest) = key ++ Path.unescape rest := by
  induction key with
  | nil => rfl
  | cons c key ih =>
    rw [Path.escape_cons, List.append_assoc]
    split
    · rename_i hsafe
      have hslash : c ≠ backslash := by
        rintro rfl
        exact absurd hsafe (by decide)
      rw [List.singleton_append, unescape_cons hslash, ih, List.cons_append]
    · simp [Path.unescape, ih]

/-- Without its backslashes a path of escaped keys is the keys with dots between them. -/
theorem unescape_keyPath (keys : List Bytes) :
    Path.unescape (keyPath keys) = Path.ofComponents keys := by
  induction keys with
  | nil => rfl
  | cons key keys ih =>
    by_cases hne : keys = []
    · have hkey := unescape_escape_append key []
      simpa [hne, keyPath_singleton, Path.ofComponents_singleton, Path.unescape] using hkey
    · obtain ⟨next, others, rfl⟩ := List.exists_cons_of_ne_nil hne
      rw [keyPath_cons key hne, unescape_escape_append, unescape_cons (by decide), ih,
        Path.ofComponents_cons_cons]

end Keys

/-! ## The end of a path -/

section End

/-- A key whose escapes leave a backslash in front of the dot behind it. -/
def endsInBackslash (key : Bytes) : Bool :=
  key.getLast? == some backslash

/-- The keys that are taken for the last one: those in front of it that run into it, and itself. -/
def lastKeys (front : List Bytes) (last : Bytes) : List Bytes :=
  front.rtakeWhile endsInBackslash ++ [last]

/-- Keys with a dot behind each of them. -/
def dotted (keys : List Bytes) : Bytes :=
  keys.flatMap fun key => Path.escape key ++ [dot]

theorem keyPath_append (front : List Bytes) {behind : List Bytes} (hne : behind ≠ []) :
    keyPath (front ++ behind) = dotted front ++ keyPath behind := by
  induction front with
  | nil => rfl
  | cons key front ih =>
    have hkeys : front ++ behind ≠ [] := by simp [hne]
    rw [List.cons_append, keyPath_cons key hkeys, ih]
    simp [dotted]

/-- The escapes of a key are passed over: a dot or a bar in them has its backslash in front. -/
theorem lastFrom_escape (key found before : Bytes) :
    lastFrom found ((Path.escape key).reverse ++ before) =
      lastFrom (Path.escape key ++ found) before := by
  -- From the last byte of the key on
  induction key using List.reverseRecOn generalizing found with
  | nil => rfl
  | append_singleton key c ih =>
    have hconcat : Path.escape (key ++ [c]) =
        Path.escape key ++ if Path.isSafe c then [c] else [backslash, c] := by
      simp [Path.escape]
    rw [hconcat, List.reverse_append, List.append_assoc]
    split
    · rename_i hsafe
      have hpass : (c = dot || c = bar) = false := by
        by_contra hmark
        simp only [Bool.not_eq_false, Bool.or_eq_true, decide_eq_true_eq] at hmark
        rcases hmark with rfl | rfl <;> exact absurd hsafe (by decide)
      rw [List.reverse_singleton, List.singleton_append, lastFrom, hpass, Bool.false_and,
        if_neg Bool.false_ne_true, ih, List.append_assoc, List.singleton_append]
    · have hslash : ([backslash, c] : Bytes).reverse = [c, backslash] := rfl
      have hescaped : ∀ rest : Bytes, ((backslash :: rest).head? != some backslash) = false :=
        fun _ => rfl
      have hpass : (decide (backslash = dot) || decide (backslash = bar)) = false := rfl
      rw [hslash, List.cons_append, List.singleton_append, lastFrom, hescaped, Bool.and_false,
        if_neg Bool.false_ne_true, lastFrom, hpass, Bool.false_and, if_neg Bool.false_ne_true, ih,
        List.append_assoc]
      rfl

/-- The byte in front of a dot between keys is the last one of the key there, or another dot. -/
theorem head?_reverse_escape (key : Bytes) (front : List Bytes) :
    (((Path.escape key).reverse ++ (dotted front).reverse).head? != some backslash) =
      !endsInBackslash key := by
  have hdotted : ((dotted front).getLast? != some backslash) = true := by
    rcases List.eq_nil_or_concat front with rfl | ⟨front, other, rfl⟩
    · rfl
    · simp [dotted, dot, backslash]
  rw [List.head?_append, List.head?_reverse, List.head?_reverse, Filter.getLast?_escape,
    endsInBackslash]
  cases key.getLast? with
  | none => exact hdotted
  | some b => rfl

/-- Keys that end in a backslash are read as one with the next key. -/
theorem lastFrom_dotted (front : List Bytes) {behind : List Bytes} (hne : behind ≠ []) :
    lastFrom (keyPath behind) (dotted front).reverse =
      keyPath (front.rtakeWhile endsInBackslash ++ behind) := by
  -- From the last key on, as the path is read
  induction front using List.reverseRecOn generalizing behind with
  | nil => rfl
  | append_singleton front key ih =>
    have hconcat : (dotted (front ++ [key])).reverse =
        dot :: ((Path.escape key).reverse ++ (dotted front).reverse) := by
      simp [dotted]
    rw [hconcat, lastFrom, head?_reverse_escape]
    cases hends : endsInBackslash key with
    | true =>
      rw [Bool.not_true, Bool.and_false, if_neg Bool.false_ne_true, lastFrom_escape,
        ← keyPath_cons key hne, ih (List.cons_ne_nil _ _), List.rtakeWhile_concat_pos _ _ _ hends]
      simp
    | false =>
      rw [List.rtakeWhile_concat_neg _ _ _ (by simp [hends])]
      rfl

/-- What is taken for the last component of a path. -/
theorem lastComponent_keyPath (front : List Bytes) (last : Bytes) :
    lastComponent (keyPath (front ++ [last])) = keyPath (lastKeys front last) := by
  have hlast := lastFrom_escape last [] (dotted front).reverse
  rw [List.append_nil] at hlast
  rw [lastComponent, keyPath_append front (List.cons_ne_nil _ _), keyPath_singleton,
    List.reverse_append, hlast, ← keyPath_singleton, lastFrom_dotted _ (List.cons_ne_nil _ _),
    lastKeys]

end End

/-! ## Labels -/

section Labels

/-- The key that stands for the last one of a path. -/
def labelOf (keys : List Bytes) : Bytes :=
  if keys.any (·.any unfitForLabel) then blankLabel else Path.ofComponents keys

/-- A part without a name is labelled by the keys that are taken for its last one. -/
theorem label_keyPath (front : List Bytes) (last : Bytes) :
    label ⟨none, keyPath (front ++ [last])⟩ =
      Quoted.encode (labelOf (lastKeys front last)) := by
  rw [label]
  dsimp only
  rw [lastComponent_keyPath, any_unfitForLabel_keyPath, unescape_keyPath, labelOf]

theorem length_lt_ofComponents {keys : List Bytes} (hne : keys ≠ []) (last : Bytes) :
    last.length < (Path.ofComponents (keys ++ [last])).length := by
  induction keys with
  | nil => exact absurd rfl hne
  | cons key keys ih =>
    cases keys with
    | nil =>
      rw [List.singleton_append, Path.ofComponents_cons_cons, Path.ofComponents_singleton,
        List.length_append, List.length_cons]
      omega
    | cons next keys =>
      have ih := ih (List.cons_ne_nil _ _)
      rw [List.cons_append] at ih
      rw [List.cons_append, List.cons_append, Path.ofComponents_cons_cons, List.length_append,
        List.length_cons]
      omega

/-- Bytes of simple keys: letters, digits, underscores and minus signs. -/
def isSimple (c : UInt8) : Bool :=
  isAlphanumeric c || c == underscore || c == minus

variable {front : List Bytes} {last : Bytes} (hsimple : ∀ c ∈ last, isSimple c = true)

include hsimple

theorem colon_notMem_of_isSimple : colon ∉ last :=
  fun hmem => absurd (hsimple colon hmem) (by decide)

theorem any_unfitForLabel_of_isSimple : last.any unfitForLabel = false := by
  rw [List.any_eq_false]
  intro c hc
  have hc := hsimple c hc
  grind [isSimple, isAlphanumeric, isDigit, isLower, isUpper, unfitForLabel, isOpener, isCloser]

/-- A simple last key is the label exactly if the key in front of it does not end in a backslash, or
if it is the label that unfit keys are given. -/
theorem labelOf_lastKeys_iff :
    labelOf (lastKeys front last) = last ↔
      (∀ key ∈ front.getLast?, endsInBackslash key = false) ∨
        (last = blankLabel ∧
          ∃ key ∈ front.rtakeWhile endsInBackslash, key.any unfitForLabel = true) := by
  have hlast := any_unfitForLabel_of_isSimple hsimple
  have hself : labelOf [last] = last := by
    simp [labelOf, hlast, Path.ofComponents_singleton]
  rcases List.eq_nil_or_concat front with rfl | ⟨front, key, rfl⟩
  · exact iff_of_true hself (.inl nofun)
  rw [List.concat_eq_append, List.getLast?_concat, lastKeys]
  cases hends : endsInBackslash key with
  | false =>
    rw [List.rtakeWhile_concat_neg _ _ _ (by simp [hends])]
    refine iff_of_true hself (.inl fun other hother => ?_)
    obtain rfl := Option.some.inj hother
    exact hends
  | true =>
    rw [List.rtakeWhile_concat_pos _ _ _ hends]
    generalize hrun : front.rtakeWhile endsInBackslash ++ [key] = run
    have hne : run ≠ [] := by simp [← hrun]
    have hclear : ¬∀ other ∈ some key, endsInBackslash other = false := by simp [hends]
    have hany : (run ++ [last]).any (·.any unfitForLabel) = run.any (·.any unfitForLabel) := by
      simp [hlast]
    rw [labelOf, hany, or_iff_right hclear]
    split
    · rename_i hunfit
      exact ⟨fun heq => ⟨heq.symm, List.any_eq_true.1 hunfit⟩, fun h => h.1.symm⟩
    · -- The dot makes the label longer than the last key
      rename_i hfit
      refine iff_of_false (fun heq => ?_) fun h => hfit (List.any_eq_true.2 h.2)
      have hlonger := length_lt_ofComponents hne last
      rw [heq] at hlonger
      exact Nat.lt_irrefl _ hlonger

end Labels

end Selector

/-! ## Queries -/

namespace Grammar

open Selector

section Queries

/-- The sub-selector that builds an object from what a path of escaped keys finds. -/
def memberPath (keys : List Bytes) : Bytes :=
  openBrace :: keyPath keys ++ [closeBrace]

variable {keys : List Bytes}

/-- With one level less than the depth of a query, a path of escaped keys finds what the query finds
if there are no more keys than levels. -/
theorem value_nested_keyPath {engine : Engine} {depth : Nat}
    (hmax : engine.config.maxDepth = depth + 1) (hne : keys ≠ []) (hkeys : ∀ key ∈ keys, key ≠ [])
    (text : Bytes) :
    (engine.resolve 127 text (keyPath keys) depth).value =
      if keys.length < engine.config.maxDepth then (engine.get text (keyPath keys)).value
      else .missing := by
  obtain ⟨first, rest, rfl⟩ := List.exists_cons_of_ne_nil hne
  obtain ⟨-, hrest⟩ := List.forall_mem_cons.1 hkeys
  have htexts : ∀ c ∈ rest.map Component.ofName, c.text ≠ [] := by
    intro c hc
    obtain ⟨key, hkey, rfl⟩ := List.mem_map.1 hc
    rw [Component.text_ofName]
    exact escape_ne_nil (hrest key hkey)
  have hlevels : (rest.map Component.ofName).length < depth ↔
      (first :: rest).length < engine.config.maxDepth := by
    rw [List.length_map, List.length_cons, hmax, Nat.succ_lt_succ_iff]
  rw [keyPath_eq_pathOf, List.map_cons, engine.value_nested_levels hmax text htexts]
  simp only [hlevels]

/-- A path without a colon is one part without a name. -/
theorem parse?_memberPath (hcolon : ∀ key ∈ keys, colon ∉ key) :
    Selector.parse? (memberPath keys) = some ([⟨none, keyPath keys⟩], []) := by
  have hread : parseFrom false 0 {} [] (Bytes.commaJoin ([keys].map keyPath) ++ [closeBrace]) =
      some ([keys].map fun keys => ofPath (keyPath keys), []) :=
    parseFrom_parts readsAs_keyPath rfl (List.cons_ne_nil keys []) [] []
  rw [List.map_singleton, List.map_singleton, Bytes.commaJoin_singleton,
    ofPath_of_notMem (colon_notMem_keyPath hcolon)] at hread
  exact hread

/-- What one path finds is the only member of the object that is built from it, if there is depth
for it behind the object. -/
theorem value_memberPath {engine : Engine} (hcolon : ∀ key ∈ keys, colon ∉ key)
    (hne : keys ≠ []) (hkeys : ∀ key ∈ keys, key ≠ []) (document : Bytes)
    (hfound : (engine.get document (keyPath keys)).value.found = true) :
    (engine.get document (memberPath keys)).value = .built (.json (Modifier.objectOf
      (if keys.length < engine.config.maxDepth then
        [Modifier.member (label ⟨none, keyPath keys⟩)
          (engine.get document (keyPath keys)).value.raw]
      else []))) := by
  cases hmax : engine.config.maxDepth with
  | zero =>
    -- Without any depth nothing is found
    rw [Engine.get, hmax] at hfound
    exact absurd hfound Bool.false_ne_true
  | succ depth =>
    have hlink := link_selector engine (engine.resolve 127) 127 depth document rfl
      (parse?_memberPath hcolon)
    have hvalue := value_nested_keyPath hmax hne hkeys document
    have hget : (engine.get document (memberPath keys)).value =
        (Engine.selectParts (engine.resolve 127) true depth document [] .zero
          [⟨none, keyPath keys⟩]).value.rebase (some 0) := by
      rw [Engine.get, hmax, Engine.resolve_pathNesting]
      exact congrArg Counted.value (Engine.chain_selected _ _ _ _ _ hlink)
    rw [hmax] at hvalue
    rw [hget]
    split at hvalue
    · rename_i hdepth
      rw [if_pos hdepth]
      simp only [Engine.selectParts, hvalue, hfound, if_true]
      rfl
    · rename_i hdepth
      rw [if_neg hdepth]
      simp only [Engine.selectParts, hvalue]
      rfl

/-- Objects of one member with the same value differ in their labels, and from the empty object. -/
theorem objectOf_member_iff (raw : Bytes) {a b : Bytes} {p : Prop} [Decidable p] :
    Modifier.objectOf (if p then [Modifier.member (Quoted.encode a) raw] else []) =
        Modifier.objectOf [Modifier.member (Quoted.encode b) raw] ↔ p ∧ a = b := by
  by_cases hp : p
  · simp [hp, Modifier.objectOf, Modifier.member, Quoted.encode_inj, Bytes.commaJoin_singleton]
  · rw [if_neg hp]
    refine iff_of_false (fun heq => ?_) fun h => hp h.1
    have hlength := congrArg List.length heq
    rw [Modifier.objectOf, Modifier.objectOf, Bytes.commaJoin_nil, Bytes.commaJoin_singleton]
      at hlength
    simp only [Modifier.member, List.length_append, List.length_cons, List.length_nil] at hlength
    omega

/-- **Parts without names are labelled by their last key, unless another one runs into it.**  Take
keys that are not empty and hold no colons, with a last one of letters, digits, underscores and
minus signs, such that their path finds a value in the document.  If there are fewer keys than there
is depth, the object that is built from the path alone has one member with the source text of the
value, and otherwise none.  The label of the member is the last key if the key in front of that does
not end in a backslash.  If it does, the label is made of all such keys up to the last key, and is
the last key only if that is the label of what is unfit for labels.  The document may be any
text. -/
theorem get_memberPath {engine : Engine} {front : List Bytes} {last : Bytes}
    (hkeys : ∀ key ∈ front ++ [last], key ≠ []) (hcolon : ∀ key ∈ front, colon ∉ key)
    (hsimple : ∀ c ∈ last, isSimple c = true) (document : Bytes)
    (hfound : (engine.get document (keyPath (front ++ [last]))).value.found = true) :
    let raw := (engine.get document (keyPath (front ++ [last]))).value.raw
    let built := (engine.get document (memberPath (front ++ [last]))).value
    let hasDepth := (front ++ [last]).length < engine.config.maxDepth
    built = .built (.json (Modifier.objectOf (if hasDepth then
        [Modifier.member (Quoted.encode (labelOf (lastKeys front last))) raw] else []))) ∧
      (built.raw = Modifier.objectOf [Modifier.member (Quoted.encode last) raw] ↔
        hasDepth ∧ ((∀ key ∈ front.getLast?, endsInBackslash key = false) ∨
          (last = blankLabel ∧
            ∃ key ∈ front.rtakeWhile endsInBackslash, key.any unfitForLabel = true))) := by
  intro raw built hasDepth
  have hcolons : ∀ key ∈ front ++ [last], colon ∉ key :=
    List.forall_mem_append.2
      ⟨hcolon, List.forall_mem_singleton.2 (colon_notMem_of_isSimple hsimple)⟩
  have hbuilt : built = _ := value_memberPath hcolons (by simp) hkeys document hfound
  rw [label_keyPath] at hbuilt
  refine ⟨hbuilt, ?_⟩
  rw [hbuilt, ← labelOf_lastKeys_iff hsimple]
  exact objectOf_member_iff raw

/-- A key with dots and bars in front of the last one, and a key that ends in a backslash. -/
theorem get_memberPath_samples :
    let document := Bytes.ofString "\x7b\".|\":\x7b\"b\":1\x7d,\"a\\\\\":\x7b\"b\":[2]\x7d\x7d"
    let clear := [Bytes.ofString ".|", Bytes.ofString "b"]
    let merged := [Bytes.ofString "a\\", Bytes.ofString "b"]
    (Engine.standard.get document (memberPath clear)).value =
        .built (.json (Bytes.ofString "\x7b\"b\":1\x7d")) ∧
      (Engine.standard.get document (keyPath merged)).value.raw = Bytes.ofString "[2]" ∧
      (Engine.standard.get document (memberPath merged)).value =
        .built (.json (Bytes.ofString "\x7b\"a\\\\.b\":[2]\x7d")) := by
  intro document clear merged
  have hclear := @get_memberPath .standard [Bytes.ofString ".|"] (Bytes.ofString "b")
    (by decide +kernel) (by decide +kernel) (by decide +kernel) document (by decide +kernel)
  have hmerged := @get_memberPath .standard [Bytes.ofString "a\\"] (Bytes.ofString "b")
    (by decide +kernel) (by decide +kernel) (by decide +kernel) document (by decide +kernel)
  refine ⟨hclear.1.trans ?_, by decide +kernel, hmerged.1.trans ?_⟩
  · decide +kernel
  · decide +kernel

end Queries

end Grammar

end JsonQuery
