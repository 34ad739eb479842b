import JsonQuery.Proofs.Accessors
import JsonQuery.Proofs.Construction
import JsonQuery.Proofs.Gathered
import JsonQuery.Proofs.Numerals
import Mathlib.Data.Option.Basic

/-!
# Trees of documents

A value of the grammar stands for a tree: its strings and keys are read, its integers are exact, its
other numbers are the doubles nearest to them, and the members of an object are listed by name, the
first one of each name.  Reading a document as a tree yields that one tree, down to the last level
that is read; what is below it reads as null.

## Layers

- **Denotation**: the tree that a value stands for, of which there is only one.
- **Levels**: values without the containers below some level.
- **Reading**: the tree of a result, level by level, and the tree that building a document yields.
-/

namespace JsonQuery

/-! ## Denotation -/

namespace Result

section Ascending

variable {α : Type} {members others : List (Bytes × α)}

theorem Ascends.foldl_insertMember (h : Ascends members) (entries : List (Bytes × α)) :
    Ascends (entries.foldl (fun found e => Result.insertMember e.1 e.2 found) members) := by
  induction entries generalizing members with
  | nil => exact h
  | cons e entries ih => exact ih (h.insertMember e.1 e.2)

/-- The first name of an ascending list is in front of every name that is listed. -/
theorem Ascends.not_lt_of_lookup {name key : Bytes} {value found : α}
    (h : Ascends ((name, value) :: members)) (hkey : members.lookup key = some found) :
    name < key := by
  obtain ⟨before, behind, rfl, -⟩ := List.lookup_eq_some_iff.1 hkey
  exact (List.pairwise_cons.1 h).1 (key, found) (by simp)

/-- Ascending lists that list the same under every name are the same. -/
theorem Ascends.ext (hmembers : Ascends members) (hothers : Ascends others)
    (h : ∀ name, members.lookup name = others.lookup name) : members = others := by
  induction members generalizing others with
  | nil =>
    cases others with
    | nil => rfl
    | cons o others =>
      have hfirst := h o.1
      rw [lookup_cons_ite, if_pos rfl] at hfirst
      cases hfirst
  | cons m members ih =>
    cases others with
    | nil =>
      have hfirst := h m.1
      rw [lookup_cons_ite, if_pos rfl] at hfirst
      cases hfirst
    | cons o others =>
      obtain ⟨name, value⟩ := m
      obtain ⟨other, kept⟩ := o
      -- Either first name is listed by the other list, where it is not in front of the first
      have hname := h name
      have hother := h other
      rw [lookup_cons_ite, lookup_cons_ite] at hname hother
      dsimp only at hname hother
      by_cases hsame : name = other
      · subst hsame
        rw [if_pos rfl, if_pos rfl, Option.some.injEq] at hname
        subst hname
        refine congrArg _ (ih (List.pairwise_cons.1 hmembers).2 (List.pairwise_cons.1 hothers).2 ?_)
        intro key
        by_cases hkey : key = name
        · subst hkey
          rw [lookup_eq_none_of_lt (List.pairwise_cons.1 hmembers).1,
            lookup_eq_none_of_lt (List.pairwise_cons.1 hothers).1]
        · have hrest := h key
          rwa [lookup_cons_ite, lookup_cons_ite, if_neg hkey, if_neg hkey] at hrest
      · rw [if_pos rfl, if_neg hsame] at hname
        rw [if_neg (Ne.symm hsame), if_pos rfl] at hother
        have hlt := hothers.not_lt_of_lookup hname.symm
        exact absurd (List.lt_trans hlt (hmembers.not_lt_of_lookup hother)) (List.lt_irrefl _)

end Ascending

end Result

namespace Grammar

open Ascii

/-- A value stands for a tree.  A number that is not an integer of 64 bits stands for the double
nearest to it, and for null if that is infinite; under each name an object lists the first member of
the name. -/
inductive Denotes : Node → Tree → Prop where
  | null : Denotes (.word .null) .null
  | boolean (b : Bool) : Denotes (.word (.boolean b)) (.boolean b)
  | string (body : Body) : Denotes (.string body) (.string body.name)
  | integer {n : Numeral} (h : n.IsWord) : Denotes (.number n) (.integer n.integer)
  | float {n : Numeral} {negative : Bool} {units : Nat} (hword : ¬n.IsWord)
      (h : Double.RoundsTo n.negative n.magnitude (.finite negative units)) :
      Denotes (.number n) (.float (.finite negative units))
  | overflow {n : Numeral} {negative : Bool} (hword : ¬n.IsWord)
      (h : Double.RoundsTo n.negative n.magnitude (.infinite negative)) : Denotes (.number n) .null
  | array {gap : Gap} {items : List (Entry Gap Node)} {trees : List Tree}
      (h : List.Forall₂ (fun e t => Denotes e.value t) items trees) :
      Denotes (.array gap items) (.array trees)
  | object {gap : Gap} {members : List (Entry Tag Node)} {entries : List (Bytes × Tree)}
      (hascends : Result.Ascends entries)
      (h : ∀ name, Option.Rel (fun e t => Denotes e.value t)
        (members.find? fun e => e.front.key.name == name) (entries.lookup name)) :
      Denotes (.object gap members) (.object entries)

section Denotation

/-- A list is matched by one list only if what matches its elements is unique. -/
theorem forall₂_unique {α β : Type} {r : α → β → Prop} {as : List α} {bs cs : List β}
    (hunique : ∀ a ∈ as, ∀ b c, r a b → r a c → b = c) (hb : List.Forall₂ r as bs)
    (hc : List.Forall₂ r as cs) : bs = cs := by
  induction hb generalizing cs with
  | nil =>
    cases hc
    rfl
  | @cons a b as bs hab _ ih =>
    cases hc with
    | @cons _ c _ cs hac hcs =>
      rw [List.forall_mem_cons] at hunique
      rw [hunique.1 b c hab hac, ih hunique.2 hcs]

/-- A choice is matched by one choice only if what matches it is unique. -/
theorem optionRel_unique {α β : Type} {r : α → β → Prop} {a : Option α} {b c : Option β}
    (hunique : ∀ x ∈ a, ∀ y z, r x y → r x z → y = z) (hb : Option.Rel r a b)
    (hc : Option.Rel r a c) : b = c := by
  cases hb with
  | none =>
    cases hc
    rfl
  | @some x y hxy =>
    cases hc with
    | @some _ z hxz => rw [hunique x rfl y z hxy hxz]

/-- A value stands for one tree only. -/
theorem Denotes.unique {n : Node} {t u : Tree} (ht : Denotes n t) (hu : Denotes n u) : t = u := by
  induction n generalizing t u with
  | word w => cases ht <;> cases hu <;> rfl
  | number n =>
    -- Readings of one number are of one kind, and the nearest double is unique
    cases ht with
    | integer h =>
      cases hu with
      | integer => rfl
      | float hword => exact absurd h hword
      | overflow hword => exact absurd h hword
    | float hword h =>
      cases hu with
      | integer h => exact absurd h hword
      | float _ h' => rw [h.unique h']
      | overflow _ h' => cases h.unique h'
    | overflow hword h =>
      cases hu with
      | integer h => exact absurd h hword
      | float _ h' => cases h.unique h'
      | overflow => rfl
  | string body =>
    cases ht
    cases hu
    rfl
  | array gap items ih =>
    cases ht with
    | array ht =>
      cases hu with
      | array hu => rw [forall₂_unique (fun e he _ _ => ih e he) ht hu]
  | object gap members ih =>
    cases ht with
    | @object _ _ entries hascends ht =>
      cases hu with
      | @object _ _ others hascends' hu =>
        refine congrArg Tree.object (hascends.ext hascends' fun name => ?_)
        have hmember : ∀ e ∈ members.find? fun e => e.front.key.name == name, e ∈ members :=
          fun e he => List.mem_of_find?_eq_some he
        exact optionRel_unique (fun e he _ _ => ih e (hmember e he)) (ht name) (hu name)

end Denotation

/-! ## Levels -/

namespace Node

/-- Containers are inside one another in at most some levels. -/
def NestsWithin : (levels : Nat) → Node → Prop
  | _, .word _ | _, .number _ | _, .string _ => True
  | 0, .array _ _ | 0, .object _ _ => False
  | levels + 1, .array _ items => ∀ e ∈ items, e.value.NestsWithin levels
  | levels + 1, .object _ members => ∀ e ∈ members, e.value.NestsWithin levels

/-- A value with null in place of every container below some levels of containers. -/
def cut : (levels : Nat) → Node → Node
  | _, .word w => .word w
  | _, .number n => .number n
  | _, .string body => .string body
  | 0, .array _ _ | 0, .object _ _ => .word .null
  | levels + 1, .array gap items =>
    .array gap (items.map fun e => { e with value := e.value.cut levels })
  | levels + 1, .object gap members =>
    .object gap (members.map fun e => { e with value := e.value.cut levels })

/-- Nothing is below the levels that the containers of a value take up. -/
theorem cut_eq_self {levels : Nat} {n : Node} (h : n.NestsWithin levels) : n.cut levels = n := by
  have hentries : ∀ {Front : Type} {levels : Nat} {entries : List (Entry Front Node)},
      (∀ e ∈ entries, e.value.cut levels = e.value) →
      (entries.map fun e => { e with value := e.value.cut levels }) = entries := by
    intro Front levels entries hcut
    rw [List.map_congr_left (g := id) fun e he => by rw [hcut e he]; rfl, List.map_id]
  induction levels generalizing n with
  | zero =>
    cases n with
    | word | number | string => rfl
    | array | object => cases h
  | succ levels ih =>
    cases n with
    | word | number | string => rfl
    | array gap items => rw [cut, hentries fun e he => ih (h e he)]
    | object gap members => rw [cut, hentries fun e he => ih (h e he)]

end Node

/-! ## Reading -/

section Reading

/-- A list of named values that are read further lists what is read of them. -/
theorem lookup_map_snd {α β : Type} (f : α → β) (members : List (Bytes × α)) (name : Bytes) :
    (members.map fun m => (m.1, f m.2)).lookup name = (members.lookup name).map f := by
  induction members with
  | nil => rfl
  | cons m members ih =>
    rw [List.map_cons, Result.lookup_cons_ite, Result.lookup_cons_ite, ih]
    by_cases hname : name = m.1 <;> simp [hname]

theorem optionRel_map_left {α β γ : Type} {f : α → γ} {r : γ → β → Prop} {a : Option α}
    {b : Option β} (h : Option.Rel (fun x y => r (f x) y) a b) : Option.Rel r (a.map f) b := by
  cases h with
  | some h => exact .some h
  | none => exact .none

/-- A value that is no container is read as the tree that it stands for. -/
theorem denotes_scalar {n : Node} (hscalar : n.isContainer = false) (offset levels : Nat) :
    Denotes (n.cut levels) ((Result.located n.value offset).treeWithin levels) := by
  cases n with
  | word w =>
    cases w with
    | null =>
      rw [Result.treeWithin.eq_def, Node.cut]
      exact .null
    | boolean b =>
      rw [Result.treeWithin.eq_def, Node.cut]
      exact .boolean b
  | number n =>
    rw [Result.treeWithin.eq_def, Node.cut]
    show Denotes _ ((Tree.ofNumber? n.text).getD .null)
    rw [Tree.ofNumber?, integer?_text]
    have hnearest := roundsTo_double n
    by_cases hword : n.IsWord
    · rw [if_pos hword]
      exact .integer hword
    · rw [if_neg hword]
      -- The nearest double is a number or infinite
      cases hdouble : Number.double n.text with
      | finite negative units => exact .float hword (hdouble ▸ hnearest)
      | infinite negative => exact .overflow hword (hdouble ▸ hnearest)
      | nan => exact absurd hdouble hnearest.ne_nan
  | string body =>
    rw [Result.treeWithin.eq_def, Node.cut]
    exact .string body
  | array | object => cases hscalar

variable {text : Bytes} (hutf8 : Utf8.isValid text = true) {s : Spot} (hstands : s.StandsIn text)
  {levels : Nat}
  (hdeeper : ∀ {b : Branch}, b ∈ s.branches →
    Denotes (b.node.cut levels) (b.toSpot.result.treeWithin levels))

include hutf8 hstands hdeeper

/-- The elements of an array are read one by one. -/
theorem denotes_elements {gap : Gap} {items : List (Entry Gap Node)}
    (hnode : s.node = .array gap items) (rest : Bytes) :
    List.Forall₂ (fun e t => Denotes (e.value.cut levels) t) items
      ((Result.located (.json (s.node.text ++ rest)) s.offset).children.map fun c =>
        c.value.treeWithin levels) := by
  have hcontainer : s.node.isContainer = true := by
    rw [hnode]
    rfl
  have htrees : (Result.located (.json (s.node.text ++ rest)) s.offset).values.map
      (Result.treeWithin levels) = s.branches.map fun b => b.toSpot.result.treeWithin levels := by
    rw [values_container s.node hcontainer rest s.offset, List.map_map]
    exact List.map_congr_left fun b hb =>
      congrArg (Result.treeWithin levels) ((hstands.branch hb).reading_eq_result hutf8)
  have hnodes : items.map Entry.value = s.branches.map fun b => b.node := by
    rw [Spot.branches, hnode]
    exact (nodes_branchesFrom _ _ _ _ _).symm
  have hmatched : List.Forall₂ (fun n t => Denotes (n.cut levels) t) (items.map Entry.value)
      (s.branches.map fun b => b.toSpot.result.treeWithin levels) := by
    rw [hnodes, List.forall₂_map_left_iff, List.forall₂_map_right_iff, List.forall₂_same]
    exact fun b hb => hdeeper hb
  rw [Result.values, List.map_map] at htrees
  rw [show (fun c : Child => c.value.treeWithin levels) =
    Result.treeWithin levels ∘ Child.value from rfl, htrees]
  exact (List.forall₂_map_left_iff (R := fun (n : Node) t => Denotes (n.cut levels) t)).1 hmatched

/-- The members of an object are read under their names, the first one of each name. -/
theorem denotes_members {gap : Gap} {members : List (Entry Tag Node)}
    (hnode : s.node = .object gap members) {rest : Bytes}
    (hvalid : Utf8.isValid (s.node.text ++ rest) = true) (name : Bytes) :
    Option.Rel (fun e t => Denotes (e.value.cut levels) t)
      (members.find? fun e => e.front.key.name == name)
      (((Result.located (.json (s.node.text ++ rest)) s.offset).children.map fun c =>
        (c.key.text, c.value.treeWithin levels)).lookup name) := by
  have hnamed : List.Forall₂ Named
      (Result.located (.json (s.node.text ++ rest)) s.offset).children s.branches :=
    named_container (by rw [hnode]; rfl) hvalid s.offset
  have hlookup := lookup_of_named hnamed name
  have hfind : (s.branches.find? fun b => (Component.ofName name).selects b.label).map
      (fun b => b.node) = (members.find? fun e => e.front.key.name == name).map Entry.value := by
    rw [Spot.branches, hnode]
    exact find?_branchesFrom name members _ _
  have hsplit : ((Result.located (.json (s.node.text ++ rest)) s.offset).children.map fun c =>
      (c.key.text, c.value.treeWithin levels)) =
      ((Result.located (.json (s.node.text ++ rest)) s.offset).children.map fun c =>
        (c.key.text, c.value)).map fun m => (m.1, m.2.treeWithin levels) := by
    rw [List.map_map]
    rfl
  rw [hsplit, lookup_map_snd, hlookup]
  cases hbranch : s.branches.find? fun b => (Component.ofName name).selects b.label with
  | none =>
    rw [hbranch, Option.map_none, eq_comm, Option.map_eq_none_iff] at hfind
    rw [hfind]
    exact .none
  | some b =>
    rw [hbranch, Option.map_some, eq_comm, Option.map_eq_some_iff] at hfind
    obtain ⟨e, he, hvalue⟩ := hfind
    have hb : b ∈ s.branches := List.mem_of_find?_eq_some hbranch
    rw [he, Option.map_some, Option.map_some, (hstands.branch hb).reading_eq_result hutf8]
    refine .some ?_
    rw [hvalue]
    exact hdeeper hb

/-- A container is read one level deeper than its children. -/
theorem denotes_container (hcontainer : s.node.isContainer = true) {rest : Bytes}
    (hvalid : Utf8.isValid (s.node.text ++ rest) = true) :
    Denotes (s.node.cut (levels + 1))
      ((Result.located (.json (s.node.text ++ rest)) s.offset).treeWithin (levels + 1)) := by
  have hopens := (opens_container (r := .located (.json (s.node.text ++ rest)) s.offset)
    hcontainer rfl).1
  rw [Result.treeWithin, show (Result.located (.json (s.node.text ++ rest)) s.offset).value =
    .json (s.node.text ++ rest) from rfl]
  dsimp only
  rw [hopens]
  cases hnode : s.node with
  | word | number | string =>
    rw [hnode] at hcontainer
    cases hcontainer
  | array gap items =>
    have hitems := denotes_elements hutf8 hstands hdeeper hnode rest
    rw [hnode] at hitems
    rw [Node.cut, if_neg (by rw [Node.lead]; decide)]
    exact .array (List.forall₂_map_left_iff.2 hitems)
  | object gap members =>
    have hentries := denotes_members hutf8 hstands hdeeper hnode hvalid
    rw [hnode] at hentries
    rw [Node.cut, if_pos (by rw [Node.lead]; rfl), Tree.ofMembers]
    refine .object (Result.Ascends.foldl_insertMember List.Pairwise.nil _) fun name => ?_
    rw [Result.lookup_foldl_insertMember _ List.Pairwise.nil, List.lookup_nil, Option.none_or,
      List.find?_map]
    -- The first member of a name is the same one with its value cut
    exact optionRel_map_left (hentries name)

omit hdeeper in
/-- A value in a UTF-8 text is read as the tree that it stands for, down to the last level. -/
theorem denotes_treeWithin (levels : Nat) :
    Denotes (s.node.cut levels) (s.result.treeWithin levels) := by
  induction levels generalizing s with
  | zero =>
    obtain ⟨offset, n⟩ := s
    cases n with
    | word | number | string => exact denotes_scalar rfl offset 0
    | array | object =>
      rw [Result.treeWithin.eq_def, Node.cut]
      exact .null
  | succ levels ih =>
    cases hcontainer : s.node.isContainer with
    | false => exact denotes_scalar hcontainer s.offset (levels + 1)
    | true =>
      have hvalue : s.node.value = .json (s.node.text ++ []) := by
        rw [List.append_nil, ← s.node.raw_value]
        cases hnode : s.node with
        | word | number | string =>
          rw [hnode] at hcontainer
          cases hcontainer
        | array | object => rfl
      have hvalid : Utf8.isValid (s.node.text ++ []) = true := by
        rw [List.append_nil]
        exact hstands.isValid hutf8
      rw [Spot.result, hvalue]
      exact denotes_container hutf8 hstands (fun hb => ih (hstands.branch hb)) hcontainer hvalid

omit hutf8 hstands hdeeper

/-- The value of a document is read as the tree that it stands for, whatever gap follows it. -/
theorem denotes_document {d : Document} (hutf8 : Utf8.isValid d.text = true) (levels : Nat) :
    Denotes (d.root.cut (levels + 1)) ((parse d.text).treeWithin (levels + 1)) := by
  cases hroot : d.root.isContainer with
  | false =>
    rw [parse_scalar d hroot, d.standsIn_spot.reading_eq_result hutf8]
    exact denotes_scalar hroot d.spot.offset (levels + 1)
  | true =>
    rw [parse_document d hutf8 hroot]
    exact denotes_container hutf8 d.standsIn_spot
      (fun hb => denotes_treeWithin hutf8 (d.standsIn_spot.branch hb) levels) hroot
      (d.isValid_root hutf8)

/-- **A document is read as the tree that it stands for.**  Let a UTF-8 document have containers
inside one another in at most 1024 levels.  Reading it as a tree yields the one tree that its value
stands for.  When there are more levels, it yields the tree of the value with null in place of
every container below level 1024. -/
theorem denotes_iff_tree (d : Document) (hvalid : isWellFormedUtf8 d.text = true) :
    (d.root.NestsWithin 1024 → ∀ t, Denotes d.root t ↔ t = (parse d.text).tree) ∧
      ∀ t, Denotes (d.root.cut 1024) t ↔ t = (parse d.text).tree := by
  rw [isWellFormedUtf8, Bool.and_eq_true] at hvalid
  have hcut : ∀ t, Denotes (d.root.cut 1024) t ↔ t = (parse d.text).tree := by
    intro t
    have htree : Denotes (d.root.cut 1024) (parse d.text).tree := by
      rw [Result.tree_eq]
      exact denotes_document hvalid.1 1023
    exact ⟨fun h => h.unique htree, fun h => h ▸ htree⟩
  refine ⟨fun hnests t => ?_, hcut⟩
  rw [← hcut, Node.cut_eq_self hnests]

theorem isWhole_one : IsWhole (Bytes.ofString "1") :=
  .inr ⟨rfl, by decide⟩

theorem isBody_unit_a : IsBody (Bytes.ofString "\\u0061") :=
  .unit rfl rfl rfl rfl .nil

/-- The number `1e400`, which is past all doubles. -/
def Numeral.vast : Numeral :=
  ⟨false, Bytes.ofString "1", [], Bytes.ofString "e400", isWhole_one, isFraction_nil,
    .inr ⟨lowerE, [], Bytes.ofString "400", .inl rfl, .inl rfl, rfl, rfl⟩⟩

/-- The document `{"a":[-0,1e400],"\u0061":true}`, with two members of one name. -/
def Document.assorted : Document :=
  let unit : Body := ⟨Bytes.ofString "\\u0061", isBody_unit_a⟩
  let naught : Numeral := ⟨true, [zero], [], [], .inl rfl, isFraction_nil, isExponent_nil⟩
  let numbers : Node := .array .none [⟨.none, .number naught, .none⟩, ⟨.none, .number .vast, .none⟩]
  ⟨.none, .object .none [⟨⟨.none, ⟨[0x61], isBody_a⟩, .none, .none⟩, numbers, .none⟩,
    ⟨⟨.none, unit, .none, .none⟩, .word (.boolean true), .none⟩], .none⟩

theorem Document.text_assorted : Document.assorted.text =
    Bytes.ofString "\x7b\"a\":[-0,1e400],\"\\u0061\":true\x7d" := by
  simp only [Document.text, Document.assorted, Node.text_object, Node.text_array, inside_cons,
    inside_nil, separator, Gap.none, Node.text]
  rfl

theorem denotes_iff_tree_sample : Document.assorted.root.NestsWithin 1024 ∧
    (parse Document.assorted.text).tree = .object [([0x61], .array [.integer 0, .null])] := by
  have hvalid : isWellFormedUtf8 Document.assorted.text = true := by
    rw [Document.text_assorted]
    rfl
  have hnests : Document.assorted.root.NestsWithin 1024 := by
    simp [Document.assorted, Node.NestsWithin]
  refine ⟨hnests, (((denotes_iff_tree .assorted hvalid).1 hnests _).1 ?_).symm⟩
  have hvast : Denotes (.number .vast) .null := by
    have hinfinite : Number.double Numeral.vast.text = .infinite false := by decide +kernel
    have hrounds := roundsTo_double .vast
    rw [hinfinite] at hrounds
    exact .overflow (by decide) hrounds
  refine .object (List.pairwise_singleton _ _) fun name => ?_
  by_cases hname : name = [0x61]
  · subst hname
    -- The first member counts
    exact .some (.array (.cons (.integer (by decide)) (.cons hvast .nil)))
  · have hother : ([0x61] == name) = false := beq_eq_false_iff_ne.2 (Ne.symm hname)
    rw [Result.lookup_cons_ite, if_neg hname, List.lookup_nil, List.find?_eq_none.2]
    · exact .none
    · intro e he
      rcases List.mem_cons.1 he with rfl | he
      · exact Bool.eq_false_iff.1 hother
      · obtain rfl := List.mem_singleton.1 he
        exact Bool.eq_false_iff.1 hother

end Reading

end Grammar

end JsonQuery
