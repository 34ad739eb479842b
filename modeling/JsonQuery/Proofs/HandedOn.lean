import JsonQuery.Proofs.Chaining
import JsonQuery.Proofs.Passage
import Mathlib.Data.List.TakeDrop

/-!
# Calls that hand their input on

A call of a modifier hands a text on to the path behind its pipe.  Two kinds of calls hand on the
very text they stand in front of: those of a modifier that fails or keeps its input, and those of a
name that no modifier has.

The first kind costs the offsets and nothing else.  The second kind is tried as a key before, and
what is behind the pipe is applied to whatever that finds, also to nothing.  A path that makes
something out of nothing, as a sub-selector does, then never gets to see the text.

## Layers

- **Calls**: a name with a pipe behind it is a call without an argument.
- **Handing on**: the call of a modifier that fails or keeps its input.
- **Names as keys**: the components that a name without a modifier is read as.
- **Unknown names**: no member has the name, so the walk for it passes over the root.
-/

namespace JsonQuery

open Ascii

/-! ## Calls -/

/-- No byte of a name ends the name of a modifier. -/
def IsCallName (name : Bytes) : Prop :=
  ∀ c ∈ name, endsModifierName c = false

instance (name : Bytes) : Decidable (IsCallName name) :=
  inferInstanceAs (Decidable (∀ c ∈ name, endsModifierName c = false))

/-- A call of a modifier, with a path behind its pipe. -/
abbrev callThen (name next : Bytes) : Bytes :=
  piped (atSign :: name) next

/-- A call without an argument goes up to the pipe behind it. -/
theorem Invocation.parse_callThen {name : Bytes} (hname : IsCallName name) (next : Bytes) :
    Invocation.parse (callThen name next) = ⟨name, bar :: next, false⟩ := by
  have hbar : endsModifierName bar = true := rfl
  have hgoes : ∀ c ∈ name, (!endsModifierName c) = true := by simpa [IsCallName] using hname
  have hspan : (name ++ bar :: next).span (!endsModifierName ·) = (name, bar :: next) := by
    rw [List.span_eq_takeWhile_dropWhile, List.takeWhile_append_of_pos hgoes,
      List.dropWhile_append_of_pos hgoes]
    simp [hbar]
  have hdrop : (callThen name next).drop 1 = name ++ bar :: next := rfl
  rw [parse, hdrop, hspan]
  rfl

/-- Behind a call without an argument the path goes on behind the pipe. -/
theorem continuation?_bar (next : Bytes) : Path.continuation? (bar :: next) = some next :=
  rfl

namespace Engine

section Calls

variable {engine : Engine} {name : Bytes} (hmodifiers : engine.config.modifiers = true)
  (hname : IsCallName name)

include hmodifiers hname

/-- A call is the first link of its path. -/
theorem link_callThen (nested : Nested) (room depth : Nat) (text next : Bytes) :
    (∀ modifier, engine.registry.find? name = some modifier →
        engine.link nested room depth text (callThen name next) =
          .output (runModifier modifier room text ⟨name, bar :: next, false⟩)) ∧
      (engine.registry.find? name = none →
        engine.link nested room depth text (callThen name next) = .unknown (bar :: next)) := by
  -- The pipe makes the path longer than the at sign
  obtain ⟨c, rest, hrest⟩ : ∃ c rest, name ++ bar :: next = c :: rest := by
    cases name <;> exact ⟨_, _, rfl⟩
  have hpath : callThen name next = atSign :: c :: rest := congrArg (atSign :: ·) hrest
  have hparse := Invocation.parse_callThen hname next
  rw [hpath] at hparse ⊢
  simp only [link, hmodifiers, hparse, Bool.and_true, decide_true, if_true]
  exact ⟨fun modifier hfind => by rw [hfind], fun hfind => by rw [hfind]⟩

end Calls

end Engine

/-! ## Handing on -/

/-- A modifier that fails or keeps its input, whatever UTF-8 text it is given. -/
def Modifier.HandsOn (modifier : Modifier) : Prop :=
  ∀ room text argument, Utf8.isValid text = true →
    modifier room text argument = .ok text ∨ ∃ fault, modifier room text argument = .error fault

namespace Engine

/-- What such a modifier hands on is its input, failing or not. -/
theorem text_runModifier {modifier : Modifier} (hkeeps : modifier.HandsOn) (room : Nat)
    {text : Bytes} (hvalid : Utf8.isValid text = true) (call : Invocation) :
    (runModifier modifier room text call).text = text ∧
      (runModifier modifier room text call).rest = call.behind := by
  have hlossy : Utf8.lossy text = text := if_pos hvalid
  rw [runModifier, hlossy]
  rcases hkeeps room text call.argument hvalid with hok | ⟨fault, herror⟩
  · simp only [hok, and_self]
  · simp only [herror, and_self]

/-- A chain that hits no bound finds what a query of its path does, which begins with more depth. -/
theorem value_chain_of_no_hit (engine : Engine) {text path : Bytes} {depth : Nat}
    (hmax : engine.config.maxDepth = depth + 1)
    (hhits : (engine.chain (engine.resolve 127) 127 text path (some 0) .zero depth).hits = 0) :
    (engine.chain (engine.resolve 127) 127 text path (some 0) .zero depth).value =
      (engine.get text path).value := by
  have hsteady := engine.chain_steady (engine.resolve_steady 1 127) 127 text path (some 0) .zero
    depth
  rw [get, hmax, resolve_pathNesting, hsteady.same hhits]
  rfl

/-- **A modifier that hands its input on costs the offsets alone.**  The path behind the call finds
in a UTF-8 text what it finds without the call, malformed or not, but without a place in it. -/
theorem get_handedOn {engine : Engine} {name : Bytes} (hmodifiers : engine.config.modifiers = true)
    (hname : IsCallName name) {modifier : Modifier}
    (hfind : engine.registry.find? name = some modifier) (hkeeps : modifier.HandsOn)
    {text : Bytes} (hvalid : Utf8.isValid text = true) (next : Bytes)
    (hhits : (engine.get text (callThen name next)).counts.depthHits = 0) :
    (engine.get text (callThen name next)).value = (engine.get text next).value.detached := by
  cases hmax : engine.config.maxDepth with
  | zero =>
    -- Without any depth a hit is counted
    rw [get, hmax] at hhits
    cases hhits
  | succ depth =>
    have hlink := (link_callThen hmodifiers hname (engine.resolve 127) 127 depth text next).1
      modifier hfind
    obtain ⟨htext, hrest⟩ := text_runModifier hkeeps 127 hvalid ⟨name, bar :: next, false⟩
    have hbehind : Invocation.behind ⟨name, bar :: next, false⟩ = bar :: next := rfl
    rw [get, hmax, resolve_pathNesting, chain_output _ _ _ _ _ hlink, hrest, htext, hbehind,
      continuation?_bar] at hhits ⊢
    dsimp only at hhits ⊢
    -- The chain goes on as the query does, only without a place to begin at
    rw [chain_eq_rebase] at hhits ⊢
    have hnone := (Nat.add_eq_zero_iff.1 (Nat.add_eq_zero_iff.1 hhits).2).2
    exact congrArg Result.detached (engine.value_chain_of_no_hit hmax hnone)

/-- A modifier that only takes arrays: it hands on other texts, and fails on arrays. -/
def refusing : Registry :=
  Registry.empty.register (Bytes.ofString "same") fun _ text _ =>
    if text.head? = some openBracket then .error .failed else .ok text

/-- The value keeps its bytes and loses its place. -/
theorem get_handedOn_sample :
    let engine := Engine.new {} refusing
    let text := Bytes.ofString "[\x7b\"a\":7"
    (engine.get text (callThen (Bytes.ofString "same") (Bytes.ofString "0.a"))).value =
        ⟨.number [0x37], none, none⟩ ∧
      (engine.get text (Bytes.ofString "0.a")).value = .located (.number [0x37]) 6 := by
  have hkeeps : Modifier.HandsOn fun _ text _ =>
      if text.head? = some openBracket then .error .failed else .ok text := by
    intro room text argument _
    dsimp only
    split
    · exact .inr ⟨_, rfl⟩
    · exact .inl rfl
  have hfound : ((Engine.new {} refusing).get (Bytes.ofString "[\x7b\"a\":7")
      (Bytes.ofString "0.a")).value = .located (.number [0x37]) 6 := by decide +kernel
  have hvalid : Utf8.isValid (Bytes.ofString "[\x7b\"a\":7") = true := by decide +kernel
  have hname : IsCallName (Bytes.ofString "same") := by decide +kernel
  have hfind := Registry.empty.find?_register_self (Bytes.ofString "same") fun _ text _ =>
    if text.head? = some openBracket then .error .failed else .ok text
  have hhanded := @get_handedOn (.new {} refusing) _ rfl hname _ hfind hkeeps _ hvalid
    (Bytes.ofString "0.a") (by decide +kernel)
  rw [hfound] at hhanded
  exact ⟨hhanded, hfound⟩

end Engine

/-! ## Names as keys -/

namespace Grammar

open Walk

/-- No byte of a name has a meaning in a component, or ends the name of a modifier. -/
def IsPlainName (name : Bytes) : Prop :=
  ∀ c ∈ name, endsModifierName c = false ∧ c ≠ star ∧ c ≠ question ∧ c ≠ backslash

instance (name : Bytes) : Decidable (IsPlainName name) :=
  inferInstanceAs (Decidable
    (∀ c ∈ name, endsModifierName c = false ∧ c ≠ star ∧ c ≠ question ∧ c ≠ backslash))

theorem IsPlainName.isCallName {name : Bytes} (hname : IsPlainName name) : IsCallName name :=
  fun c hc => (hname c hc).1

section Keys

variable (dialect : Dialect) {name : Bytes}

/-- A plain name with an at sign in front is as plain. -/
theorem IsPlainName.cons_atSign (hname : IsPlainName name) : IsPlainName (atSign :: name) :=
  List.forall_mem_cons.2 ⟨by decide, hname⟩

theorem ne_of_endsModifierName {b c : UInt8} (hb : endsModifierName b = true)
    (hc : endsModifierName c = false) : c ≠ b := by
  rintro rfl
  rw [hb] at hc
  cases hc

theorem parseFrom_plainName {text : Bytes} (htext : IsPlainName text) (before next : Bytes) :
    KeyComponent.parseFrom dialect before false (piped text next) =
      ⟨before.reverse ++ text, false, .pipe next⟩ := by
  induction text generalizing before with
  | nil =>
    have hpiped : piped [] next = bar :: next := rfl
    rw [hpiped, parseFrom_cons dialect (by decide), if_pos rfl, List.append_nil]
  | cons c rest ih =>
    obtain ⟨⟨hends, hstar, hquestion, hslash⟩, hrest⟩ := List.forall_mem_cons.1 htext
    have hpiped : piped (c :: rest) next = c :: piped rest next := rfl
    rw [hpiped, parseFrom_cons dialect hslash, if_neg (ne_of_endsModifierName rfl hends),
      if_neg (ne_of_endsModifierName rfl hends), beq_eq_false_iff_ne.2 hstar,
      beq_eq_false_iff_ne.2 hquestion, Bool.or_false, Bool.or_false, ih hrest]
    simp

theorem partFrom_plainName {text : Bytes} (htext : IsPlainName text) (before : Bytes)
    (counting : Bool) (next : Bytes) :
    ElementComponent.partFrom dialect before counting (piped text next) =
      ⟨before.reverse ++ text, counting || text.contains hash, .pipe next⟩ := by
  induction text generalizing before counting with
  | nil =>
    have hpiped : piped [] next = bar :: next := rfl
    rw [hpiped, ElementComponent.partFrom, if_pos rfl]
    simp
  | cons c rest ih =>
    obtain ⟨⟨hends, -⟩, hrest⟩ := List.forall_mem_cons.1 htext
    have hpiped : piped (c :: rest) next = c :: piped rest next := rfl
    rw [hpiped, partFrom_cons dialect (ne_of_endsModifierName rfl hends)
      (ne_of_endsModifierName rfl hends), ih hrest, List.contains_cons, BEq.comm (a := hash),
      ← Bool.or_assoc]
    simp

theorem unescape_plainName {text : Bytes} (htext : IsPlainName text) :
    Path.unescape text = text := by
  induction text with
  | nil => rfl
  | cons c rest ih =>
    obtain ⟨⟨-, -, -, hslash⟩, hrest⟩ := List.forall_mem_cons.1 htext
    rw [unescape_cons hslash, ih hrest]

/-- A name with an at sign in front names no position, however it is escaped. -/
theorem position?_ofName_atSign (name : Bytes) :
    Number.position? (Component.ofName (atSign :: name)).text = none := by
  rw [Component.text_ofName]
  exact position?_eq_none List.mem_cons_self rfl

variable (hname : IsPlainName name) (next : Bytes)

include hname

/-- A call meets an object as the key that it spells. -/
theorem keyComponent_callThen :
    KeyComponent.parse dialect (callThen name next) = ⟨atSign :: name, false, .pipe next⟩ :=
  parseFrom_plainName dialect hname.cons_atSign [] next

theorem selects_callThen (tail : Tail) (body : Body) :
    KeyComponent.selects ⟨atSign :: name, false, tail⟩ body.text (body.text.contains backslash) =
      (Component.ofName (atSign :: name)).selects (.key body.name) := by
  rw [Component.selects_ofName, name_eq]
  simp only [KeyComponent.selects, KeyComponent.key, unescape_plainName hname.cons_atSign]
  cases body.text.contains backslash <;> rfl

/-- A call meets an array as no position. -/
theorem elementComponent_callThen :
    ElementComponent.parse? dialect (callThen name next) =
      some ⟨.position none, .pipe next⟩ := by
  have hstarts : Filter.starts (callThen name next) = false := by
    cases name <;> rfl
  have hposition : Number.position? (atSign :: name) = none :=
    position?_eq_none List.mem_cons_self rfl
  have hone : atSign :: name ≠ [hash] := fun h => absurd (List.cons.inj h).1 (by decide)
  rw [ElementComponent.parse?, hstarts, if_neg Bool.false_ne_true,
    partFrom_plainName dialect hname.cons_atSign]
  simp only [ElementComponent.Part.selection, List.reverse_nil, List.nil_append, hone, if_false,
    hposition, ite_self]

end Keys

/-! ## Unknown names -/

section Unknown

variable {name : Bytes} (hname : IsPlainName name) (next : Bytes)

include hname

/-- A container without a member of the name is scanned for the name, and the pipe is kept. -/
theorem exists_tour_callThen (env : Surroundings) {s : Spot} (hs : s.node.isContainer = true)
    (rest : Bytes) (n : Nat) {room : Nat} (hroom : room ≠ 0) :
    ∃ scan,
      (∀ walk, openAt env (s.node.lead == .object) (s.inside n rest) (callThen name next) room
          walk = (walk.withPipe (some next), .scan ⟨scan, room⟩)) ∧
      Tour n (.pipe next) scan ((Cursor.mk s.offset (s.node.text ++ rest)).advance 1)
        (s.branches.map (Branch.stop (.ofName (atSign :: name)))) ⟨s.after, rest⟩ := by
  obtain ⟨offset, node⟩ := s
  cases node with
  | word w => cases hs
  | number n => cases hs
  | string body => cases hs
  | object gap members =>
    refine ⟨.members ⟨atSign :: name, false, .pipe next⟩, fun walk => ?_,
      tour_keys (selects_callThen hname _) (members_object offset gap members rest) n⟩
    have hobject : ((Node.object gap members).lead == .object) = true := rfl
    rw [openAt, if_neg hroom, hobject, if_pos rfl, openObject, keyComponent_callThen _ hname]
    rfl
  | array gap items =>
    have htour : Tour n (.pipe next) _ _ _ _ :=
      tour_elements (.ofName (atSign :: name)) (fun _ => rfl) (items_array offset gap items rest) n
    rw [position?_ofName_atSign] at htour
    refine ⟨.elements none (.pipe next) 0, fun walk => ?_, htour⟩
    have hobject : ((Node.array gap items).lead == .object) = false := rfl
    rw [openAt, if_neg hroom, hobject, if_neg Bool.false_ne_true, openArray,
      elementComponent_callThen _ hname]
    rfl

variable {d : Document} (hroot : d.root.isContainer = true)
  (hkey : ∀ b ∈ d.spot.branches, b.label ≠ .key (atSign :: name))

include hroot hkey

/-- A walk for a name that no member of the root has finds nothing, and keeps the pipe. -/
theorem start_callThen (env : Surroundings) {room : Nat} (hroom : room ≠ 0) :
    start env d.text (callThen name next) room = { pipe := some next } := by
  have hlines : lines? (callThen name next) = none := by
    cases name <;> rfl
  have hs : d.spot.node.isContainer = true := hroot
  obtain ⟨scan, hopen, htour⟩ :=
    exists_tour_callThen hname next env hs d.after.text d.text.length hroom
  -- A name starts with an at sign, so it is no position either
  have hnone : (d.spot.branches.filter fun b =>
      (Component.ofName (atSign :: name)).selects b.label) = [] := by
    rw [List.filter_eq_nil_iff]
    intro b hb
    have hlabel := hkey b hb
    cases hkind : b.label with
    | key key =>
      rw [hkind] at hlabel
      simpa [Component.selects_ofName] using hlabel
    | position n => simp [Component.selects_position, position?_ofName_atSign]
  have hpassed := entered_passed hopen htour hnone {} []
  rw [start_eq_inside hroot env hlines]
  exact hpassed.trans (run_nil env _ _)

/-- The chain tries the name as a key first: what is behind the pipe finds in nothing is the result,
unless that is nothing, too. -/
theorem chain_callThen {engine : Engine} (hmodifiers : engine.config.modifiers = true)
    (hfind : engine.registry.find? name = none) (nested : Engine.Nested) (room depth : Nat) :
    engine.chain nested room d.text (callThen name next) (some 0) .zero (depth + 1) =
      let found := Surroundings.descend ⟨engine.dialect, nested⟩ .missing next depth
      if found.value.found then found
      else (engine.chain nested room d.text next (some 0) .zero depth).after found.counts := by
  have hlink := (engine.link_callThen hmodifiers hname.isCallName nested room depth d.text next).2
    hfind
  have hwalk := start_callThen hname next hroot hkey ⟨engine.dialect, nested⟩
    (Nat.succ_ne_zero depth)
  have happlied : Surroundings.applied ⟨engine.dialect, nested⟩ { pipe := some next } depth =
      Surroundings.descend ⟨engine.dialect, nested⟩ .missing next depth := rfl
  rw [Engine.chain_unknown _ _ _ _ _ hlink, continuation?_bar]
  dsimp only
  rw [hwalk, happlied]
  generalize Surroundings.descend ⟨engine.dialect, nested⟩ .missing next depth = found
  dsimp only
  rw [Engine.chain_eq_rebase]
  simp [Counted.map, Counted.after, rebase_zero]

/-- **A name that no modifier has hands its input on only where nothing comes of nothing.**  In a
document whose root is a container without a member of the name, the path behind the call is applied
to nothing first.  What that finds is the result, and only if it finds nothing the path is applied
to the document. -/
theorem get_unknown {engine : Engine} (hmodifiers : engine.config.modifiers = true)
    (hfind : engine.registry.find? name = none)
    (hhits : (engine.get d.text (callThen name next)).counts.depthHits = 0) :
    let nothing := (engine.descend 127 .missing next).value
    (engine.get d.text (callThen name next)).value =
      if nothing.found then nothing else (engine.get d.text next).value := by
  dsimp only
  cases hmax : engine.config.maxDepth with
  | zero =>
    -- Without any depth a hit is counted
    rw [Engine.get, hmax] at hhits
    cases hhits
  | succ depth =>
    have hsteady := @Walk.descend_steady ⟨engine.dialect, engine.resolve 127⟩ 1
      (engine.resolve_steady 1 127) .missing next depth
    rw [Engine.get, hmax, Engine.resolve_pathNesting,
      chain_callThen hname next hroot hkey hmodifiers hfind] at hhits ⊢
    have hdescend : engine.descend 127 .missing next =
        Surroundings.descend ⟨engine.dialect, engine.resolve 127⟩ .missing next (depth + 1) := by
      rw [Engine.descend, hmax]
      rfl
    dsimp only at hhits ⊢
    rw [hdescend]
    generalize Surroundings.descend _ .missing next depth = found at hsteady hhits ⊢
    -- Either way nothing was hit where the path met nothing
    cases hfound : found.value.found with
    | true =>
      rw [hfound, if_pos rfl] at hhits
      have hnone : found.hits = 0 := (Nat.add_eq_zero_iff.1 hhits).2
      rw [hsteady.same hnone, hfound]
      rfl
    | false =>
      rw [hfound, if_neg Bool.false_ne_true] at hhits
      have hnone := Nat.add_eq_zero_iff.1 (Nat.add_eq_zero_iff.1 hhits).2
      rw [hsteady.same hnone.1, hfound]
      exact engine.value_chain_of_no_hit hmax hnone.2

end Unknown

/-- A sub-selector makes an empty object out of nothing, so it never gets to see the document.  A
key that is in the document finds nothing in nothing. -/
theorem get_unknown_samples :
    let text := Bytes.ofString "\x7b\"a\":[null]\x7d"
    let nosuch := Bytes.ofString "nosuch"
    (Engine.standard.get text (callThen nosuch (Bytes.ofString "\x7ba\x7d"))).value =
        .built (.json (Bytes.ofString "\x7b\x7d")) ∧
      (Engine.standard.get text (Bytes.ofString "\x7ba\x7d")).value = .built (.json text) ∧
      (Engine.standard.get text (callThen nosuch [0x61])).value =
        .located (.json (Bytes.ofString "[null]")) 5 := by
  have hkey : ∀ b ∈ Document.sample.spot.branches,
      b.label ≠ .key (atSign :: Bytes.ofString "nosuch") := by
    simp only [Document.spot, Document.sample, Spot.branches, branchesFrom]
    decide
  have hname : IsPlainName (Bytes.ofString "nosuch") := by decide +kernel
  have hfind : Engine.standard.registry.find? (Bytes.ofString "nosuch") = none :=
    Option.isNone_iff_eq_none.1 (by decide +kernel)
  have hunknown : ∀ next, _ → _ := fun next =>
    @get_unknown _ hname next .sample rfl hkey .standard rfl hfind
  rw [Document.text_sample] at hunknown
  have hbraces := hunknown (Bytes.ofString "\x7ba\x7d") (by decide +kernel)
  have hmember := hunknown [0x61] (by decide +kernel)
  refine ⟨hbraces.trans ?_, by decide +kernel, hmember.trans ?_⟩
  · decide +kernel
  · decide +kernel

end Grammar

end JsonQuery
