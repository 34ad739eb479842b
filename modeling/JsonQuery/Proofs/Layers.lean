import JsonQuery.Document.Merge
import JsonQuery.Proofs.Values
import Mathlib.Data.List.DropRight

/-!
# Layers key by key

Layers are put on one another in place, one after the other, member by member.  What comes out can
be said of all layers at once.  The last layer counts if it is no object.  Otherwise the objects
count that no other value stands behind, and under each name that any of them has, the values that
they give it are layers in turn.

## Layers

- **Reading**: `Tree.IsOrdered` tells the trees that documents are read as, whose names ascend.
- **Resolution**: `Tree.ofLayers` is the tree that layers come to, key by key.
- **Members**: what merging does to the value of one name.
- **Stacks**: `Tree.stacked` puts layers on one another; its values are stacks of the values of its
  layers, by induction over these.
-/

namespace JsonQuery.Tree

open Result

/-! ## Reading -/

/-- Objects list their names in ascending order, on all levels. -/
inductive IsOrdered : Tree → Prop where
  | null : IsOrdered null
  | boolean (b : Bool) : IsOrdered (boolean b)
  | integer (n : Int) : IsOrdered (integer n)
  | float (d : Double) : IsOrdered (float d)
  | string (text : Bytes) : IsOrdered (string text)
  | array {items : List Tree} (h : ∀ t ∈ items, IsOrdered t) : IsOrdered (array items)
  | object {members : List (Bytes × Tree)} (hascends : Ascends members)
      (h : ∀ m ∈ members, IsOrdered m.2) : IsOrdered (object members)

section Reading

theorem mem_foldl_insertMember {α : Type} {entry : Bytes × α} (entries : List (Bytes × α))
    {members : List (Bytes × α)}
    (h : entry ∈ entries.foldl (fun found e => insertMember e.1 e.2 found) members) :
    entry ∈ members ∨ entry ∈ entries := by
  induction entries generalizing members with
  | nil => exact .inl h
  | cons e entries ih =>
    rcases ih h with h | h
    · rcases mem_insertMember h with rfl | h
      · exact .inr List.mem_cons_self
      · exact .inl h
    · exact .inr (List.mem_cons_of_mem _ h)

/-- An object is made of members in any order. -/
theorem IsOrdered.ofMembers {members : List (Bytes × Tree)} (h : ∀ m ∈ members, IsOrdered m.2) :
    IsOrdered (ofMembers members) := by
  refine .object (Ascends.foldl_insertMember List.Pairwise.nil members) fun m hm => ?_
  rcases mem_foldl_insertMember members hm with hm | hm
  · cases hm
  · exact h m hm

theorem exists_of_mem_mapM {α β : Type} {f : α → Option β} {as : List α} {bs : List β}
    (h : as.mapM f = some bs) {b : β} (hb : b ∈ bs) : ∃ a ∈ as, f a = some b := by
  induction as generalizing bs with
  | nil =>
    cases h
    cases hb
  | cons a as ih =>
    rw [List.mapM_cons] at h
    obtain ⟨first, hfirst, h⟩ := Option.bind_eq_some_iff.1 h
    obtain ⟨others, hothers, h⟩ := Option.bind_eq_some_iff.1 h
    cases h
    rcases List.mem_cons.1 hb with rfl | hb
    · exact ⟨a, List.mem_cons_self, hfirst⟩
    · obtain ⟨a', ha', hfound⟩ := ih hothers hb
      exact ⟨a', List.mem_cons_of_mem _ ha', hfound⟩

theorem isOrdered_of_numberTree? {raw : Bytes} {t : Tree} (h : Outline.numberTree? raw = some t) :
    t.IsOrdered := by
  unfold Outline.numberTree? at h
  dsimp only at h
  split at h
  · cases h
    exact .integer _
  · obtain ⟨d, -, rfl⟩ := Option.map_eq_some_iff.1 h
    exact .float d

theorem isOrdered_of_outline {levels : Nat} {value : Outline} {t : Tree}
    (h : Outline.tree? levels value = some t) : t.IsOrdered := by
  -- Only containers have values inside of them, which are read with a level less
  induction levels using Nat.strong_induction_on generalizing value t with
  | _ levels ih =>
    unfold Outline.tree? at h
    cases value with
    | null =>
      cases h
      exact .null
    | boolean b =>
      cases h
      exact .boolean b
    | number raw => exact isOrdered_of_numberTree? h
    | string text =>
      obtain ⟨text, -, rfl⟩ := Option.map_eq_some_iff.1 h
      exact .string text
    | array items =>
      cases levels with
      | zero => cases h
      | succ levels =>
        obtain ⟨trees, htrees, rfl⟩ := Option.map_eq_some_iff.1 h
        refine .array fun t ht => ?_
        obtain ⟨item, -, hitem⟩ := exists_of_mem_mapM htrees ht
        exact ih levels (Nat.lt_succ_self levels) hitem
    | object members =>
      cases levels with
      | zero => cases h
      | succ levels =>
        obtain ⟨trees, htrees, rfl⟩ := Option.map_eq_some_iff.1 h
        refine .ofMembers fun m hm => ?_
        obtain ⟨member, -, hmember⟩ := exists_of_mem_mapM htrees (List.mem_reverse.1 hm)
        obtain ⟨name, -, hmember⟩ := Option.bind_eq_some_iff.1 hmember
        obtain ⟨value, hvalue, hmember⟩ := Option.bind_eq_some_iff.1 hmember
        obtain ⟨outline, -, hvalue⟩ := Option.bind_eq_some_iff.1 hvalue
        cases hmember
        exact ih levels (Nat.lt_succ_self levels) hvalue

/-- Documents are read as trees whose names ascend. -/
theorem isOrdered_of_ofText? {text : Bytes} {t : Tree} (h : ofText? text = some t) :
    t.IsOrdered := by
  unfold ofText? Outline.Document.tree? at h
  split at h
  · obtain ⟨value, -, hvalue⟩ := Option.bind_eq_some_iff.1 h
    exact isOrdered_of_outline hvalue
  · cases h

end Reading

/-! ## Resolution -/

/-- Whether a tree is an object. -/
def isObject : Tree → Bool
  | object _ => true
  | _ => false

/-- The names that an object has. -/
def names : Tree → List Bytes
  | object members => members.map Prod.fst
  | _ => []

/-- The value that an object has under a name. -/
def member? (name : Bytes) : Tree → Option Tree
  | object members => members.lookup name
  | _ => none

/-- The values that trees have under a name, in order. -/
def given (name : Bytes) (trees : List Tree) : List Tree :=
  trees.filterMap (member? name)

theorem sizeOf_lt_of_member? {name : Bytes} {t value : Tree} (h : t.member? name = some value) :
    sizeOf value < sizeOf t := by
  cases t with
  | object members =>
    obtain ⟨before, behind, rfl, -⟩ := List.lookup_eq_some_iff.1 h
    have hlt : sizeOf (name, value) < sizeOf (before ++ (name, value) :: behind) :=
      List.sizeOf_lt_of_mem (by simp)
    simp only [Prod.mk.sizeOf_spec] at hlt
    simp only [object.sizeOf_spec]
    omega
  | _ => cases h

/-- What trees have under a name is smaller than the trees, unless there are none. -/
theorem sizeOf_given_le (name : Bytes) (trees : List Tree) :
    sizeOf (given name trees) ≤ sizeOf trees := by
  induction trees with
  | nil => exact Nat.le_refl _
  | cons t trees ih =>
    rw [given] at ih ⊢
    cases hmember : t.member? name with
    | none =>
      rw [List.filterMap_cons_none hmember, List.cons.sizeOf_spec]
      omega
    | some value =>
      have hlt := sizeOf_lt_of_member? hmember
      rw [List.filterMap_cons_some hmember, List.cons.sizeOf_spec, List.cons.sizeOf_spec]
      omega

theorem sizeOf_given_lt (name : Bytes) {trees layers : List Tree} (hsuffix : trees <:+ layers)
    (hne : layers ≠ []) : sizeOf (given name trees) < sizeOf layers := by
  induction layers with
  | nil => exact absurd rfl hne
  | cons layer layers ih =>
    rw [List.cons.sizeOf_spec]
    rcases List.suffix_cons_iff.1 hsuffix with rfl | hsuffix
    · have hle := sizeOf_given_le name layers
      rw [given] at hle ⊢
      cases hmember : layer.member? name with
      | none =>
        rw [List.filterMap_cons_none hmember]
        omega
      | some value =>
        have hlt := sizeOf_lt_of_member? hmember
        rw [List.filterMap_cons_some hmember, List.cons.sizeOf_spec]
        omega
    · by_cases hlayers : layers = []
      · subst hlayers
        rw [List.suffix_nil.1 hsuffix, given, List.filterMap_nil]
        omega
      · have hlt := ih hsuffix hlayers
        omega

/-- The tree that layers come to.  The last of them counts if it is no object; of the objects behind
the last other value, each name is given what its values come to. -/
def ofLayers (layers : List Tree) : Tree :=
  match _hlast : layers.getLast? with
  | none => null
  | some last =>
    if last.isObject then
      let objects := layers.rtakeWhile isObject
      ofMembers ((objects.flatMap names).map fun name => (name, ofLayers (given name objects)))
    else last
termination_by sizeOf layers
decreasing_by
  refine sizeOf_given_lt name (List.rtakeWhile_suffix isObject layers) ?_
  rintro rfl
  cases _hlast

section Resolution

variable {layers : List Tree} {last : Tree}

theorem ofLayers_of_getLast? (h : layers.getLast? = some last) :
    ofLayers layers = if last.isObject then
      ofMembers (((layers.rtakeWhile isObject).flatMap names).map fun name =>
        (name, ofLayers (given name (layers.rtakeWhile isObject)))) else last := by
  rw [ofLayers]
  split
  · rename_i hnone
    cases h.symm.trans hnone
  · rename_i hsome
    cases h.symm.trans hsome
    rfl

/-- Where each name is listed with what belongs to it, that is found under the name. -/
theorem lookup_map_self {α : Type} (f : Bytes → α) (names : List Bytes) (name : Bytes) :
    (names.map fun name => (name, f name)).lookup name =
      if name ∈ names then some (f name) else none := by
  induction names with
  | nil => rfl
  | cons other names ih =>
    rw [List.map_cons, lookup_cons_ite, ih]
    by_cases hname : name = other <;> simp [hname]

/-- A name that is given to no object is not listed. -/
theorem given_eq_nil_iff {name : Bytes} {trees : List Tree} :
    given name trees = [] ↔ name ∉ trees.flatMap names := by
  rw [given, List.filterMap_eq_nil_iff, List.mem_flatMap, not_exists]
  refine forall_congr' fun t => ?_
  rw [not_and]
  refine imp_congr_right fun _ => ?_
  cases t with
  | object members =>
    rw [member?, names, List.lookup_eq_none_iff]
    grind
  | _ => simp [member?, names]

end Resolution

/-! ## Members -/

section Members

variable {layer base : Tree} {members others : List (Bytes × Tree)} {name key : Bytes}

/-- A tree that is no object takes the place of what is there. -/
theorem mergeOver_of_not_isObject (h : layer.isObject = false) (base : Option Tree) :
    mergeOver layer base = layer := by
  cases base with
  | none => rw [mergeOver]
  | some base =>
    rw [mergeOver, merge.eq_2]
    rintro members others rfl -
    cases h

/-- What is there makes way if it is no object. -/
theorem mergeOver_some_of_not_isObject (layer : Tree) (h : base.isObject = false) :
    mergeOver layer (some base) = layer := by
  rw [mergeOver, merge.eq_2]
  rintro members others - rfl
  cases h

/-- A value on what is there under its name, if anything is on either side. -/
def putOn (value base : Option Tree) : Option Tree :=
  (value.map fun value => mergeOver value base).or base

theorem mem_alter {f : Option Tree → Tree} {entry : Bytes × Tree}
    (h : entry ∈ alter name f members) : entry.1 = name ∨ entry ∈ members := by
  induction members with
  | nil => exact .inl (congrArg Prod.fst (List.mem_singleton.1 h))
  | cons other members ih =>
    rw [alter] at h
    split at h
    · rename_i hsame
      rcases List.mem_cons.1 h with rfl | h
      · exact .inl hsame.symm
      · exact .inr (List.mem_cons_of_mem _ h)
    · split at h
      · rcases List.mem_cons.1 h with rfl | h
        · exact .inl rfl
        · exact .inr h
      · rcases List.mem_cons.1 h with rfl | h
        · exact .inr List.mem_cons_self
        · exact (ih h).imp_right (List.mem_cons_of_mem _)

theorem ascends_alter (h : Ascends members) (name : Bytes) (f : Option Tree → Tree) :
    Ascends (alter name f members) := by
  induction members with
  | nil => exact List.pairwise_singleton _ _
  | cons other members ih =>
    obtain ⟨hother, hmembers⟩ := List.pairwise_cons.1 h
    rw [alter]
    split
    · exact List.pairwise_cons.2 ⟨hother, hmembers⟩
    · rename_i hne
      split
      · rename_i hlt
        refine List.pairwise_cons.2 ⟨fun entry hentry => ?_, h⟩
        rcases List.mem_cons.1 hentry with rfl | hentry
        · exact hlt
        · exact List.lt_trans hlt (hother entry hentry)
      · rename_i hnlt
        refine List.pairwise_cons.2 ⟨fun entry hentry => ?_, ih hmembers⟩
        rcases mem_alter hentry with hname | hentry
        · rw [hname]
          exact Std.lt_of_le_of_ne hnlt (Ne.symm hne)
        · exact hother entry hentry

/-- Only the member of the name changes. -/
theorem lookup_alter (h : Ascends members) (name : Bytes) (f : Option Tree → Tree) (key : Bytes) :
    (alter name f members).lookup key =
      if key = name then some (f (members.lookup name)) else members.lookup key := by
  induction members with
  | nil => exact lookup_cons_ite (name, f none) [] key
  | cons other members ih =>
    obtain ⟨hother, hmembers⟩ := List.pairwise_cons.1 h
    rw [alter]
    split
    · rename_i hsame
      rw [lookup_cons_ite, lookup_cons_ite, lookup_cons_ite, hsame]
      by_cases hkey : key = other.1 <;> simp [hkey]
    · rename_i hne
      split
      · rename_i hlt
        have hnone : (other :: members).lookup name = none := by
          apply lookup_eq_none_of_lt
          rw [List.forall_mem_cons]
          exact ⟨hlt, fun entry hentry => List.lt_trans hlt (hother entry hentry)⟩
        rw [lookup_cons_ite, hnone]
      · rw [lookup_cons_ite, lookup_cons_ite, lookup_cons_ite, ih hmembers, if_neg hne]
        by_cases hkey : key = other.1
        · rw [if_pos hkey, if_pos hkey, if_neg fun h => hne (h.symm.trans hkey)]
        · rw [if_neg hkey, if_neg hkey]

theorem ascends_mergeMembers (hbase : Ascends others) (members : List (Bytes × Tree)) :
    Ascends (mergeMembers members others) := by
  induction members generalizing others with
  | nil => rwa [mergeMembers]
  | cons m members ih =>
    rw [mergeMembers]
    exact ih (ascends_alter hbase _ _)

/-- Under each name stands what the layer has there, put on what the base has. -/
theorem lookup_mergeMembers (hmembers : Ascends members) (hbase : Ascends others) (key : Bytes) :
    (mergeMembers members others).lookup key = putOn (members.lookup key) (others.lookup key) := by
  induction members generalizing others with
  | nil => simp [mergeMembers, putOn]
  | cons m members ih =>
    obtain ⟨name, value⟩ := m
    obtain ⟨hlater, hmembers⟩ := List.pairwise_cons.1 hmembers
    rw [mergeMembers, ih hmembers (ascends_alter hbase _ _), lookup_alter hbase, lookup_cons_ite]
    by_cases hkey : key = name
    · -- No member behind has the name once more
      have hnone : members.lookup name = none := lookup_eq_none_of_lt hlater
      simp [hkey, hnone, putOn]
    · rw [if_neg hkey, if_neg hkey]

end Members

/-! ## Stacks -/

/-- Layers put on one another, if there are any. -/
def stacked (layers : List Tree) : Option Tree :=
  layers.foldl (fun base layer => some (mergeOver layer base)) none

section Stacks

variable {layers objects : List Tree}

theorem stacked_concat (layers : List Tree) (layer : Tree) :
    stacked (layers ++ [layer]) = some (mergeOver layer (stacked layers)) := by
  rw [stacked, List.foldl_append]
  rfl

/-- A stack of layers that begins with the empty object is what all of them are merged to. -/
theorem stacked_cons (first : Tree) (layers : List Tree) :
    stacked (first :: layers) =
      some (layers.foldl (fun base layer => merge layer base) first) := by
  induction layers using List.reverseRecOn with
  | nil => simp [stacked, mergeOver]
  | append_singleton layers layer ih =>
    rw [← List.cons_append, stacked_concat, ih, List.foldl_append, mergeOver]
    rfl

theorem stacked_eq_none_iff : stacked layers = none ↔ layers = [] := by
  cases layers with
  | nil => simp [stacked]
  | cons first layers => simp [stacked_cons]

/-- A value more, if there is one, is put on the values before. -/
theorem stacked_append_toList (layers : List Tree) (layer : Option Tree) :
    stacked (layers ++ layer.toList) = putOn layer (stacked layers) := by
  cases layer with
  | none => simp [putOn]
  | some layer => simp [putOn, stacked_concat]

/-- Objects hide what they are put on, if it is no object. -/
theorem stacked_append (hne : objects ≠ []) (hlayers : ∀ t ∈ layers.getLast?, t.isObject = false) :
    stacked (layers ++ objects) = stacked objects := by
  induction objects using List.reverseRecOn with
  | nil => exact absurd rfl hne
  | append_singleton objects last ih =>
    rw [← List.append_assoc, stacked_concat, stacked_concat]
    by_cases hobjects : objects = []
    · subst hobjects
      rcases List.eq_nil_or_concat layers with rfl | ⟨front, hidden, rfl⟩
      · rfl
      · have hhidden : hidden.isObject = false := hlayers hidden (by simp)
        rw [List.concat_eq_append, List.append_nil, stacked_concat,
          mergeOver_of_not_isObject hhidden, mergeOver_some_of_not_isObject last hhidden]
        simp [stacked, mergeOver]
    · rw [ih hobjects]

/-- What objects come to is an object, and under each name stands what their values come to. -/
theorem stacked_objects (hobjects : ∀ t ∈ objects, t.isObject = true ∧ t.IsOrdered)
    (hne : objects ≠ []) :
    ∃ members, stacked objects = some (object members) ∧ Ascends members ∧
      ∀ name, members.lookup name = stacked (given name objects) := by
  induction objects using List.reverseRecOn with
  | nil => exact absurd rfl hne
  | append_singleton objects last ih =>
    obtain ⟨⟨hlast, hordered⟩, hfront⟩ :
        (last.isObject = true ∧ last.IsOrdered) ∧ ∀ t ∈ objects, t.isObject = true ∧ t.IsOrdered :=
      ⟨hobjects last (by simp), fun t ht => hobjects t (by simp [ht])⟩
    cases hordered with
    | @object members hascends hvalues =>
      have hgiven : ∀ name, given name (objects ++ [object members]) =
          given name objects ++ (members.lookup name).toList := by
        intro name
        rw [given, List.filterMap_append]
        cases hmember : members.lookup name <;> simp [given, member?, hmember]
      by_cases hempty : objects = []
      · subst hempty
        refine ⟨members, by simp [stacked, mergeOver], hascends, fun name => ?_⟩
        rw [hgiven, stacked_append_toList]
        cases members.lookup name <;> simp [putOn, given, stacked, mergeOver]
      · obtain ⟨base, hbase, hbaseAscends, hlookup⟩ := ih hfront hempty
        refine ⟨mergeMembers members base, ?_, ascends_mergeMembers hbaseAscends members,
          fun name => ?_⟩
        · rw [stacked_concat, hbase, mergeOver, merge]
        · rw [lookup_mergeMembers hascends hbaseAscends, hgiven, stacked_append_toList,
            hlookup name]
    | _ => cases hlast

theorem IsOrdered.member? {t value : Tree} {name : Bytes} (h : t.IsOrdered)
    (hvalue : t.member? name = some value) : value.IsOrdered := by
  cases h with
  | object hascends hmembers =>
    obtain ⟨before, behind, rfl, -⟩ := List.lookup_eq_some_iff.1 hvalue
    exact hmembers (name, value) (by simp)
  | _ => cases hvalue

/-- Layers put on one another come to what they come to key by key. -/
theorem stacked_eq_ofLayers (hordered : ∀ t ∈ layers, t.IsOrdered) (hne : layers ≠ []) :
    stacked layers = some (ofLayers layers) := by
  -- On the size of all layers, which the values under a name are smaller than
  induction hsize : sizeOf layers using Nat.strong_induction_on generalizing layers with
  | _ size ih =>
    subst hsize
    obtain ⟨last, hlast⟩ : ∃ last, layers.getLast? = some last :=
      ⟨layers.getLast hne, List.getLast?_eq_some_getLast hne⟩
    rw [ofLayers_of_getLast? hlast]
    cases hobject : last.isObject with
    | false =>
      obtain ⟨front, rfl⟩ := List.getLast?_eq_some_iff.1 hlast
      rw [stacked_concat, mergeOver_of_not_isObject hobject]
      rfl
    | true =>
      set objects := layers.rtakeWhile isObject with hobjects
      have hsuffix : objects <:+ layers := List.rtakeWhile_suffix _ _
      have hobjectsNe : objects ≠ [] := by
        rw [hobjects, Ne, List.rtakeWhile_eq_nil_iff, not_forall]
        refine ⟨hne, not_not.2 ?_⟩
        rwa [Option.some.inj ((List.getLast?_eq_some_getLast hne).symm.trans hlast)]
      -- What stands in front of the objects ends in a layer that is none
      have hsplit : stacked layers = stacked objects := by
        conv_lhs => rw [← List.rdropWhile_append_rtakeWhile (p := isObject) (l := layers)]
        refine stacked_append hobjectsNe fun t ht => ?_
        obtain ⟨hfront, rfl⟩ := List.mem_getLast?_eq_getLast ht
        simpa using List.rdropWhile_last_not isObject layers hfront
      have hobjectsAll : ∀ t ∈ objects, t.isObject = true ∧ t.IsOrdered :=
        fun t ht => ⟨List.mem_rtakeWhile_imp ht, hordered t (hsuffix.subset ht)⟩
      obtain ⟨members, hmembers, hascends, hlookup⟩ := stacked_objects hobjectsAll hobjectsNe
      rw [hsplit, hmembers, if_pos rfl, ofMembers]
      refine congrArg (fun members => some (object members)) ?_
      refine hascends.ext (Ascends.foldl_insertMember List.Pairwise.nil _) fun name => ?_
      rw [hlookup, lookup_foldl_insertMember _ List.Pairwise.nil, List.lookup_nil, Option.none_or,
        lookup_map_self]
      split
      · rename_i hname
        have hgiven : given name objects ≠ [] := fun h => given_eq_nil_iff.1 h hname
        refine ih _ (sizeOf_given_lt name hsuffix hne) (fun t ht => ?_) hgiven rfl
        obtain ⟨parent, hparent, hmember⟩ := List.mem_filterMap.1 ht
        exact (hordered parent (hsuffix.subset hparent)).member? hmember
      · rename_i hname
        exact stacked_eq_none_iff.2 (given_eq_nil_iff.2 hname)

/-- **Layers resolve key by key.**  All layers put on one another, starting from the empty object,
come to the last of them if it is no object, and otherwise to the object that gives each name of the
last objects what the values of the name among them come to in turn. -/
theorem mergeAll_eq_ofLayers (hordered : ∀ t ∈ layers, t.IsOrdered) :
    mergeAll layers = ofLayers (object [] :: layers) := by
  have hall : ∀ t ∈ object [] :: layers, t.IsOrdered :=
    List.forall_mem_cons.2 ⟨.object List.Pairwise.nil (List.forall_mem_nil _), hordered⟩
  have hstack := stacked_eq_ofLayers hall (List.cons_ne_nil _ _)
  rw [stacked_cons] at hstack
  exact Option.some.inj hstack

/-- An object that a number hides, and an object again. -/
theorem mergeAll_eq_ofLayers_sample :
    let layers := [object [([0x61], object [([0x78], integer 1)]), ([0x62], array [])],
      object [([0x61], integer 5)], object [([0x61], object [([0x79], integer 2)])]]
    (∀ t ∈ layers, t.IsOrdered) ∧ mergeAll layers = ofLayers (object [] :: layers) ∧
      mergeAll layers = object [([0x61], object [([0x79], integer 2)]), ([0x62], array [])] := by
  intro layers
  have hmember : ∀ {name : Bytes} {value : Tree}, value.IsOrdered →
      (object [(name, value)]).IsOrdered :=
    fun h => .object (List.pairwise_singleton _ _) (List.forall_mem_singleton.2 h)
  have hfirst :
      (object [([0x61], object [([0x78], integer 1)]), ([0x62], array [])]).IsOrdered := by
    refine .object ?_ ?_
    · exact List.pairwise_pair.2 (show ([0x61] : Bytes) < [0x62] by decide)
    · simp only [List.forall_mem_cons]
      exact ⟨hmember (.integer 1), .array (List.forall_mem_nil _), List.forall_mem_nil _⟩
  have hordered : ∀ t ∈ layers, t.IsOrdered := by
    simp only [layers, List.forall_mem_cons]
    exact ⟨hfirst, hmember (.integer 5), hmember (hmember (.integer 2)), List.forall_mem_nil _⟩
  refine ⟨hordered, mergeAll_eq_ofLayers hordered, ?_⟩
  have hnames : ¬([0x62] : Bytes) < [0x61] := by decide
  simp [layers, mergeAll, merge, mergeMembers, alter, mergeOver, hnames]

end Stacks

end JsonQuery.Tree
