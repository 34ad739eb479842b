import JsonQuery.Proofs.Selections

/-!
# Parts without names

In a sub-selector a path of escaped names may stand without a name of its own.  The escapes of paths
hide all bytes from the reader that it looks for, except for colons: the first colon of a part ends
a name, also where an array is built and names are of no use.  So the part is the path up to its
end, or what is behind its first colon.

## Layers

- **Colons**: the first colon of a path of escaped names.
- **Parts**: what is read where such a path stands.
- **Arrays**: what array sub-selectors collect.
-/

namespace JsonQuery

open Ascii Grammar

namespace Selector

/-! ## Colons -/

section Colons

variable {name : Bytes} {names : List Bytes}

/-- The path of keys, each of them escaped. -/
def keyPath (names : List Bytes) : Bytes :=
  Path.ofComponents (names.map Path.escape)

theorem keyPath_singleton (name : Bytes) : keyPath [name] = Path.escape name :=
  Path.ofComponents_singleton _

theorem keyPath_cons (name : Bytes) (hne : names ≠ []) :
    keyPath (name :: names) = Path.escape name ++ dot :: keyPath names := by
  obtain ⟨next, names, rfl⟩ := List.exists_cons_of_ne_nil hne
  exact Path.ofComponents_cons_cons _ _ _

/-- Escaping leaves colons as they are. -/
theorem escape_append_colon (before behind : Bytes) :
    Path.escape (before ++ colon :: behind) =
      Path.escape before ++ colon :: Path.escape behind := by
  have hsafe : Path.isSafe colon = true := by decide
  simp [Path.escape, hsafe]

theorem colon_notMem_escape (h : colon ∉ name) : colon ∉ Path.escape name := by
  intro hmem
  obtain ⟨c, hc, hcolon⟩ := List.mem_flatMap.1 hmem
  have hne : c ≠ colon := fun heq => h (heq ▸ hc)
  split at hcolon
  · exact hne (List.mem_singleton.1 hcolon).symm
  · rcases List.mem_pair.1 hcolon with hslash | hcolon
    · exact absurd hslash (by decide)
    · exact hne hcolon.symm

theorem colon_notMem_keyPath (h : ∀ name ∈ names, colon ∉ name) : colon ∉ keyPath names := by
  induction names with
  | nil => exact List.not_mem_nil
  | cons name names ih =>
    obtain ⟨hname, hnames⟩ := List.forall_mem_cons.1 h
    by_cases hne : names = []
    · rw [hne, keyPath_singleton]
      exact colon_notMem_escape hname
    · rw [keyPath_cons name hne, List.mem_append, List.mem_cons, not_or, not_or]
      exact ⟨colon_notMem_escape hname, by decide, ih hnames⟩

/-- The first colon of a path stands between two paths, and there is none in the first one. -/
theorem exists_keyPath_colon (h : ∃ name ∈ names, colon ∈ name) :
    ∃ front behind, front ≠ [] ∧ (∀ name ∈ front, colon ∉ name) ∧
      keyPath names = keyPath front ++ colon :: keyPath behind := by
  induction names with
  | nil => simp at h
  | cons name names ih =>
    by_cases hname : colon ∈ name
    · -- The first key with a colon is cut in two
      obtain ⟨before, behind, rfl, hbefore⟩ := List.eq_append_cons_of_mem hname
      refine ⟨[before], behind :: names, List.cons_ne_nil _ _, by simpa using hbefore, ?_⟩
      by_cases hne : names = []
      · simp [hne, keyPath_singleton, escape_append_colon]
      · simp [keyPath_cons _ hne, keyPath_singleton, escape_append_colon]
    · have hrest : ∃ name ∈ names, colon ∈ name := by simpa [hname] using h
      have hne : names ≠ [] := by
        rintro rfl
        simp at hrest
      obtain ⟨front, behind, hfront, hnone, hpath⟩ := ih hrest
      refine ⟨name :: front, behind, List.cons_ne_nil _ _, ?_, ?_⟩
      · exact List.forall_mem_cons.2 ⟨hname, hnone⟩
      · simp [keyPath_cons _ hne, keyPath_cons _ hfront, hpath]

end Colons

/-! ## Parts -/

section Parts

/-- The part that a path without quotes is read as: its first colon ends a name. -/
def ofPath (path : Bytes) : Selector :=
  match path.span (· != colon) with
  | (_, []) => ⟨none, path⟩
  | (name, _ :: behind) => ⟨some name, behind⟩

theorem ofPath_of_notMem {path : Bytes} (h : colon ∉ path) : ofPath path = ⟨none, path⟩ := by
  have hgoes : ∀ c ∈ path, (c != colon) = true := fun c hc => bne_iff_ne.2 fun heq => h (heq ▸ hc)
  have hdrop : (path ++ []).dropWhile (· != colon) = [] := List.dropWhile_append_of_pos hgoes
  rw [List.append_nil] at hdrop
  rw [ofPath, List.span_eq_takeWhile_dropWhile, hdrop]

theorem ofPath_colon {name : Bytes} (h : colon ∉ name) (behind : Bytes) :
    ofPath (name ++ colon :: behind) = ⟨some name, behind⟩ := by
  have hgoes : ∀ c ∈ name, (c != colon) = true := fun c hc => bne_iff_ne.2 fun heq => h (heq ▸ hc)
  rw [ofPath, List.span_eq_takeWhile_dropWhile, List.takeWhile_append_of_pos hgoes,
    List.dropWhile_append_of_pos hgoes]
  simp

/-- A path of escaped names is taken as it is up to its first colon, and behind it. -/
theorem readsAs_keyPath (names : List Bytes) :
    ReadsAs (keyPath names) (ofPath (keyPath names)) := by
  intro found rest
  by_cases hcolon : ∃ name ∈ names, colon ∈ name
  · obtain ⟨front, behind, -, hnone, hpath⟩ := exists_keyPath_colon hcolon
    refine ⟨Draft.more ⟨some (keyPath front), [], false⟩ (keyPath behind), ?_, ?_⟩
    · rw [hpath, ofPath_colon (colon_notMem_keyPath hnone)]
      simp [Draft.finish, Draft.more]
    · have hfront := parseFrom_names {} found (colon :: (keyPath behind ++ rest)) front
        (.inr hnone) 0
      have hbehind := parseFrom_names ⟨some (keyPath front), [], false⟩ found rest behind
        (.inl rfl) 0
      rw [hpath, List.append_assoc, List.cons_append]
      exact hfront.trans ((parseFrom_colon _ _ _).trans hbehind)
  · have hnone : ∀ name ∈ names, colon ∉ name := by simpa using hcolon
    refine ⟨Draft.more {} (keyPath names), ?_, parseFrom_names {} found rest names (.inr hnone) 0⟩
    rw [ofPath_of_notMem (colon_notMem_keyPath hnone)]
    simp [Draft.finish, Draft.more]

/-- The components of a path of escaped keys. -/
theorem keyPath_eq_pathOf (names : List Bytes) :
    keyPath names = pathOf (names.map Component.ofName) := by
  simp only [pathOf, keyPath, List.map_map, Function.comp_def, Component.text_ofName]

theorem isPlain_keyPath (names : List Bytes) : IsPlain (keyPath names) :=
  ⟨names.map Component.ofName, keyPath_eq_pathOf names⟩

theorem isPlain_ofPath (names : List Bytes) : IsPlain (ofPath (keyPath names)).path := by
  by_cases hcolon : ∃ name ∈ names, colon ∈ name
  · obtain ⟨front, behind, -, hnone, hpath⟩ := exists_keyPath_colon hcolon
    rw [hpath, ofPath_colon (colon_notMem_keyPath hnone)]
    exact isPlain_keyPath behind
  · have hnone : ∀ name ∈ names, colon ∉ name := by simpa using hcolon
    rw [ofPath_of_notMem (colon_notMem_keyPath hnone)]
    exact isPlain_keyPath names

end Parts

end Selector

/-! ## Arrays -/

namespace Grammar

open Selector

/-- The source text of a result, if it exists. -/
def existing? (r : Result) : Option Bytes :=
  if r.found then some r.raw else none

/-- The sub-selector that collects what paths of escaped keys find. -/
def arrayPath (paths : List (List Bytes)) : Bytes :=
  openBracket :: Bytes.commaJoin (paths.map keyPath) ++ [closeBracket]

/-- A sub-selector whose parts are plain paths builds what these find in queries of their own. -/
theorem value_selector (engine : Engine) {opener : UInt8} (hopener : opensContainer opener = true)
    {inside : Bytes} {parts : List Selector}
    (hparse : Selector.parse? (opener :: inside) = some (parts, []))
    (hplain : ∀ part ∈ parts, IsPlain part.path) (document : Bytes)
    (hhits : (engine.get document (opener :: inside)).counts.depthHits = 0) :
    (engine.get document (opener :: inside)).value =
      .built (.json ((if opener == openBrace then openBrace else openBracket) ::
        Bytes.commaJoin (parts.filterMap fun part =>
          Engine.item? (opener == openBrace) part (engine.get document part.path).value) ++
            [if opener == openBrace then closeBrace else closeBracket])) := by
  cases hmax : engine.config.maxDepth with
  | zero =>
    -- Without any depth the query itself is a hit
    rw [Engine.get, hmax, Engine.resolve_pathNesting, Engine.chain] at hhits
    cases hhits
  | succ depth =>
    have hlink := link_selector engine (engine.resolve 127) 127 depth document hopener hparse
    have hfind : ∀ part ∈ parts, (engine.resolve 127 document part.path depth).hits = 0 →
        (engine.resolve 127 document part.path depth).value =
          (engine.get document part.path).value :=
      fun part hpart => value_nested engine hmax document (hplain part hpart)
    have hget : engine.get document (opener :: inside) =
        ((Engine.selectParts (engine.resolve 127) (opener == openBrace) depth document [] .zero
          parts).map (·.rebase (some 0))).after .oneGet := by
      rw [Engine.get, hmax, Engine.resolve_pathNesting, Engine.chain_selected _ _ _ _ _ hlink,
        Counted.after_after, Counters.add_zero]
    rw [hget] at hhits ⊢
    have hvalue := Engine.value_selectParts (engine.resolve 127) (opener == openBrace) depth
      document hfind [] .zero ((Nat.zero_add _).symm.trans hhits)
    show Result.rebase (some 0) _ = _
    rw [hvalue]
    rfl

variable {paths : List (List Bytes)} (hne : paths ≠ [])

include hne

theorem parse?_arrayPath :
    Selector.parse? (arrayPath paths) =
      some (paths.map fun names => ofPath (keyPath names), []) :=
  parseFrom_parts readsAs_keyPath rfl hne [] []

/-- **Array sub-selectors collect what is behind the first colons of their paths.**  If the query of
an array sub-selector for paths of escaped keys hits no bound, it finds an array of the source texts
that the parts find by themselves.  The part for a path is the path itself if none of its keys holds
a colon, and what is behind its first colon otherwise.  The document may be any text. -/
theorem get_arrayPath (engine : Engine) (document : Bytes)
    (hhits : (engine.get document (arrayPath paths)).counts.depthHits = 0) :
    (engine.get document (arrayPath paths)).value =
        .built (.json (Modifier.arrayOf (paths.filterMap fun names =>
          existing? (engine.get document (ofPath (keyPath names)).path).value))) ∧
      ((∀ names ∈ paths, ∀ name ∈ names, colon ∉ name) →
        (engine.get document (arrayPath paths)).value =
          .built (.json (Modifier.arrayOf (paths.filterMap fun names =>
            existing? (engine.get document (keyPath names)).value)))) := by
  have hplain : ∀ part ∈ paths.map (fun names => ofPath (keyPath names)), IsPlain part.path := by
    intro part hpart
    obtain ⟨names, -, rfl⟩ := List.mem_map.1 hpart
    exact isPlain_ofPath names
  have hvalue := value_selector engine rfl (parse?_arrayPath hne) hplain document hhits
  rw [List.filterMap_map] at hvalue
  refine ⟨hvalue, fun hcolon => hvalue.trans ?_⟩
  -- Without a colon the part is the path
  have hpart : ∀ names ∈ paths, (ofPath (keyPath names)).path = keyPath names := by
    intro names hnames
    rw [ofPath_of_notMem (colon_notMem_keyPath (hcolon names hnames))]
  have hsame : paths.filterMap (fun names =>
      existing? (engine.get document (ofPath (keyPath names)).path).value) =
        paths.filterMap fun names => existing? (engine.get document (keyPath names)).value :=
    List.filterMap_congr fun names hnames => by rw [hpart names hnames]
  exact congrArg (fun items => Result.built (.json (Modifier.arrayOf items))) hsame

omit hne in
/-- Keys with commas and brackets are found, but a colon takes away what is in front of it. -/
theorem get_arrayPath_samples :
    let document := Bytes.ofString "\x7b\"a:b\":1,\"],[\":2,\"b\":3\x7d"
    let plain := [[Bytes.ofString "],["], [Bytes.ofString "none"], [Bytes.ofString "b"]]
    let colons := [[Bytes.ofString "a:b"]]
    (Engine.standard.get document (arrayPath plain)).value =
        .built (.json (Bytes.ofString "[2,3]")) ∧
      (Engine.standard.get document (keyPath [Bytes.ofString "a:b"])).value =
        .located (.number [0x31]) 7 ∧
      (Engine.standard.get document (arrayPath colons)).value =
        .built (.json (Bytes.ofString "[3]")) := by
  intro document plain colons
  obtain ⟨-, hplain⟩ := @get_arrayPath plain (List.cons_ne_nil _ _) .standard document
    (by decide +kernel)
  obtain ⟨hcolons, -⟩ := @get_arrayPath colons (List.cons_ne_nil _ _) .standard document
    (by decide +kernel)
  refine ⟨(hplain (by decide +kernel)).trans ?_, by decide +kernel, hcolons.trans ?_⟩
  · decide +kernel
  · decide +kernel

end Grammar

end JsonQuery
