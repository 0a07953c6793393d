import Lionagi.Libs.Nested

/-!
# Nested values by their paths

A value is known by what stands at each of its paths. Flattening stores every leaf under its joined path, and assigning
a leaf changes a tree of dicts along one path.
-/

namespace Lionagi.Libs.Nested

variable {S : Type}

/-! ## What stands at a path -/

def child (v : Nested Text S) (key : Text) : Option (Nested Text S) := OrderedDict.lookup key v.children

def nodeAt : Nested Text S → List Text → Option (Nested Text S)
  | v, [] => some v
  | v, key :: path => (v.child key).bind fun child ↦ nodeAt child path

inductive Kind (S : Type) where
  | scalar (s : S)
  | list (length : ℕ)
  | dict

def kind : Nested Text S → Kind S
  | .scalar s => .scalar s
  | .list items => .list items.length
  | .dict _ => .dict

def kindAt (v : Nested Text S) (path : List Text) : Option (Kind S) := (v.nodeAt path).map kind

/-- `x == y`: the same scalars, lengths and keys at every path. -/
def Same (x y : Nested Text S) : Prop := ∀ path, x.kindAt path = y.kindAt path

def LeafAt (v : Nested Text S) (path : List Text) (s : S) : Prop := v.nodeAt path = some (.scalar s)

/-- No value has two children under one key. -/
def Distinct (v : Nested Text S) : Prop :=
  ∀ path w, v.nodeAt path = some w → (w.children.map Prod.fst).Nodup

variable {v w : Nested Text S} {key : Text} {path q : List Text} {s : S} {sep : Text}

theorem nodeAt_append (v : Nested Text S) (path q : List Text) :
    v.nodeAt (path ++ q) = (v.nodeAt path).bind fun w ↦ w.nodeAt q := by
  induction path generalizing v with
  | nil => rfl
  | cons key path ih =>
    rw [List.cons_append, nodeAt, nodeAt, Option.bind_assoc]
    exact congrArg (Option.bind _) (funext ih)

theorem nodeAt_concat (v : Nested Text S) (path : List Text) (key : Text) :
    v.nodeAt (path ++ [key]) = (v.nodeAt path).bind fun w ↦ w.child key := by
  rw [nodeAt_append]
  congr 1
  funext w
  rw [nodeAt]
  cases w.child key <;> rfl

theorem nodeAt_eq_some_iff : v.nodeAt (key :: path) = some w ↔ ∃ c, v.child key = some c ∧ c.nodeAt path = some w :=
  Option.bind_eq_some_iff

theorem Distinct.nodup (h : v.Distinct) : (v.children.map Prod.fst).Nodup := h [] v rfl

theorem Distinct.child_eq_some_iff (h : v.Distinct) : v.child key = some w ↔ (key, w) ∈ v.children :=
  OrderedDict.lookup_eq_some_iff_mem h.nodup key w

theorem Distinct.of_child (h : v.Distinct) (hchild : v.child key = some w) : w.Distinct := fun path u hu ↦
  h (key :: path) u (nodeAt_eq_some_iff.2 ⟨w, hchild, hu⟩)

theorem kindAt_eq_scalar_iff : v.kindAt path = some (.scalar s) ↔ LeafAt v path s := by
  rw [kindAt, Option.map_eq_some_iff, LeafAt]
  constructor
  · rintro ⟨w, hw, hkind⟩
    cases w <;> cases hkind
    exact hw
  · exact fun h ↦ ⟨_, h, rfl⟩

theorem kindAt_eq_none_iff : v.kindAt path = none ↔ v.nodeAt path = none := Option.map_eq_none_iff

theorem child_of_not_isContainer (h : v.isContainer = false) (key : Text) : v.child key = none := by
  cases v with
  | scalar s => rfl
  | list items => cases h
  | dict members => cases h

theorem nodup_children_list (items : List (Nested Text S)) : ((list items).children.map Prod.fst).Nodup := by
  have hfst : (list items).children.map Prod.fst = (items.zipIdx.map Prod.snd).map numeral := by
    rw [children, List.map_map, List.map_map]
    rfl
  rw [hfst, List.zipIdx_map_snd]
  exact List.Nodup.map Text.toDigits_injective List.nodup_range'

/-- The items of a list stand under their numerals. -/
theorem child_list_eq_some_iff {items : List (Nested Text S)} :
    (list items).child key = some w ↔ ∃ i, items[i]? = some w ∧ numeral i = key := by
  refine (OrderedDict.lookup_eq_some_iff_mem (nodup_children_list items) key w).trans ?_
  rw [children, List.mem_map]
  constructor
  · rintro ⟨item, hmem, heq⟩
    cases heq
    exact ⟨item.2, List.mem_zipIdx_iff_getElem?.1 hmem, rfl⟩
  · rintro ⟨i, hi, rfl⟩
    exact ⟨(w, i), List.mem_zipIdx_iff_getElem?.2 hi, rfl⟩

/-! ## Flattening -/

section Flatten

variable (sep) {obj : Nested Text S} {parentKey : List Text} {depth : ℕ} {queue : FlattenQueue S} {result : Flat S}

/-- The children that wait for their turn. -/
def waiting (obj : Nested Text S) (parentKey : List Text) (depth : ℕ) : FlattenQueue S :=
  (obj.children.filter fun c ↦ c.2.isContainer).map fun c ↦ (c.2, parentKey ++ [c.1], depth + 1)

/-- The children that are leaves, under their joined paths. -/
def leaves (obj : Nested Text S) (parentKey : List Text) : List (Text × Nested Text S) :=
  (obj.children.filter fun c ↦ !c.2.isContainer).map fun c ↦ (Text.join sep (parentKey ++ [c.1]), c.2)

theorem flattenTurn_eq (h : obj.isContainer = true) : flattenTurn sep none obj parentKey depth queue result =
    (queue ++ obj.waiting parentKey depth,
      (obj.leaves sep parentKey).foldl (fun flat entry ↦ flat.set entry.1 entry.2) result) := by
  have hfold (l : List (Text × Nested Text S)) (queue : FlattenQueue S) (result : Flat S) :
      l.foldl (flattenChild sep parentKey depth) (queue, result) =
        (queue ++ (l.filter fun c ↦ c.2.isContainer).map fun c ↦ (c.2, parentKey ++ [c.1], depth + 1),
          ((l.filter fun c ↦ !c.2.isContainer).map fun c ↦ (Text.join sep (parentKey ++ [c.1]), c.2)).foldl
            (fun flat entry ↦ flat.set entry.1 entry.2) result) := by
    induction l generalizing queue result with
    | nil => simp
    | cons c l ih =>
      rw [List.foldl_cons, flattenChild]
      cases hc : c.2.isContainer <;> simp [hc, ih]
  rw [flattenTurn, if_neg (by simp), if_pos h, hfold]
  rfl

/-- The queue holds the leaf: it stands at a path below one of its values. -/
def Holds (queue : FlattenQueue S) (key : Text) (v : Nested Text S) : Prop :=
  ∃ item ∈ queue, ∃ path s, LeafAt item.1 path s ∧ key = Text.join sep (item.2.1 ++ path) ∧ v = .scalar s

/-- The values of the queue are containers. -/
def Queued (queue : FlattenQueue S) : Prop := ∀ item ∈ queue, item.1.isContainer = true ∧ item.1.Distinct

theorem Queued.turn (h : Queued ((obj, parentKey, depth) :: queue)) :
    Queued (queue ++ obj.waiting parentKey depth) := by
  intro item hitem
  rcases List.mem_append.1 hitem with hmem | hmem
  · exact h item (List.mem_cons_of_mem _ hmem)
  · obtain ⟨c, hc, rfl⟩ := List.mem_map.1 hmem
    have hdistinct := (h _ List.mem_cons_self).2
    obtain ⟨hchild, hcontainer⟩ := List.mem_filter.1 hc
    exact ⟨hcontainer, hdistinct.of_child (hdistinct.child_eq_some_iff.2 hchild)⟩

/-- A turn stores the leaves among the children and leaves the others to the queue. -/
theorem holds_cons_iff (h : Queued ((obj, parentKey, depth) :: queue)) {v : Nested Text S} :
    Holds sep ((obj, parentKey, depth) :: queue) key v ↔
      (key, v) ∈ obj.leaves sep parentKey ∨ Holds sep (queue ++ obj.waiting parentKey depth) key v := by
  obtain ⟨hcontainer, hdistinct⟩ := h _ List.mem_cons_self
  constructor
  · rintro ⟨item, hitem, path, s, hleaf, rfl, rfl⟩
    rcases List.mem_cons.1 hitem with rfl | hmem
    · cases path with
      | nil =>
        cases hleaf
        cases hcontainer
      | cons k path =>
        obtain ⟨c, hc, hleaf⟩ := nodeAt_eq_some_iff.1 hleaf
        have hmem := hdistinct.child_eq_some_iff.1 hc
        cases hc : c.isContainer with
        | true =>
          refine .inr ⟨(c, parentKey ++ [k], depth + 1), List.mem_append_right _ ?_, path, s, hleaf, by simp, rfl⟩
          exact List.mem_map.2 ⟨(k, c), List.mem_filter.2 ⟨hmem, hc⟩, rfl⟩
        | false =>
          cases path with
          | nil =>
            cases hleaf
            exact .inl (List.mem_map.2 ⟨(k, .scalar s), List.mem_filter.2 ⟨hmem, by simp [hc]⟩, rfl⟩)
          | cons k' path =>
            obtain ⟨c', hc', -⟩ := nodeAt_eq_some_iff.1 hleaf
            rw [child_of_not_isContainer hc] at hc'
            cases hc'
    · exact .inr ⟨item, List.mem_append_left _ hmem, path, s, hleaf, rfl, rfl⟩
  · rintro (hmem | ⟨item, hitem, path, s, hleaf, rfl, rfl⟩)
    · obtain ⟨⟨k, c⟩, hc, heq⟩ := List.mem_map.1 hmem
      obtain ⟨hchild, hscalar⟩ := List.mem_filter.1 hc
      cases heq
      cases c with
      | scalar s =>
        refine ⟨_, List.mem_cons_self, [k], s, ?_, rfl, rfl⟩
        exact nodeAt_eq_some_iff.2 ⟨_, hdistinct.child_eq_some_iff.2 hchild, rfl⟩
      | list items => cases hscalar
      | dict members => cases hscalar
    · rcases List.mem_append.1 hitem with hmem | hmem
      · exact ⟨item, List.mem_cons_of_mem _ hmem, path, s, hleaf, rfl, rfl⟩
      · obtain ⟨⟨k, c⟩, hc, rfl⟩ := List.mem_map.1 hmem
        have hchild := hdistinct.child_eq_some_iff.2 (List.mem_filter.1 hc).1
        exact ⟨_, List.mem_cons_self, k :: path, s, nodeAt_eq_some_iff.2 ⟨c, hchild, hleaf⟩, by simp, rfl⟩

/-- What the loop stores was there before or is a leaf of the queue. -/
theorem holds_of_mem_flattenLoop {turns : ℕ} (h : Queued queue) {v : Nested Text S}
    (hget : (flattenLoop sep none turns queue result).get? key = some v) :
    result.get? key = some v ∨ Holds sep queue key v := by
  induction turns generalizing queue result with
  | zero => exact .inl hget
  | succ turns ih =>
    cases queue with
    | nil => exact .inl hget
    | cons item queue =>
      obtain ⟨obj, parentKey, depth⟩ := item
      rw [flattenLoop, flattenTurn_eq sep (h _ List.mem_cons_self).1] at hget
      rw [holds_cons_iff sep h]
      rcases ih h.turn hget with hstored | hholds
      · exact (OrderedDict.get?_foldl_set _ _ _ _ hstored).elim (fun h ↦ .inr (.inl h)) fun h ↦ .inl h.2
      · exact .inr (.inr hholds)

/-- The number of values in the queue. -/
def load (queue : FlattenQueue S) : ℕ := (queue.map fun item ↦ item.1.weight).sum

theorem sum_weight_children (v : Nested Text S) : (v.children.map fun c ↦ c.2.weight).sum < v.weight := by
  cases v with
  | scalar s => simp [children, weight]
  | list items =>
    have hitems (items : List (Nested Text S)) : (items.map weight).sum = weightItems items := by
      induction items with
      | nil => rfl
      | cons item items ih => rw [List.map_cons, List.sum_cons, ih, weightItems]
    have hfst : (items.zipIdx.map Prod.fst) = items := List.zipIdx_map_fst 0 items
    rw [children, List.map_map, weight, ← hitems, ← congrArg (List.map weight) hfst, List.map_map]
    exact Nat.lt_succ_self _
  | dict members =>
    have hmembers (members : List (Text × Nested Text S)) :
        (members.map fun c ↦ c.2.weight).sum = weightMembers members := by
      induction members with
      | nil => rfl
      | cons member members ih => rw [List.map_cons, List.sum_cons, ih, weightMembers]
    rw [children, weight, hmembers]
    exact Nat.lt_succ_self _

theorem load_turn (obj : Nested Text S) (parentKey : List Text) (depth : ℕ) (queue : FlattenQueue S) :
    load (queue ++ obj.waiting parentKey depth) < load ((obj, parentKey, depth) :: queue) := by
  have hle : load (obj.waiting parentKey depth) ≤ (obj.children.map fun c ↦ c.2.weight).sum := by
    rw [load, waiting, List.map_map]
    exact (List.filter_sublist.map _).sum_le_sum fun _ _ ↦ Nat.zero_le _
  have hlt := sum_weight_children obj
  have hsum : load (queue ++ obj.waiting parentKey depth) = load queue + load (obj.waiting parentKey depth) := by
    rw [load, List.map_append, List.sum_append]
    rfl
  have hcons : load ((obj, parentKey, depth) :: queue) = obj.weight + load queue := by
    rw [load, List.map_cons, List.sum_cons]
    rfl
  omega

/-- With a turn for every value, all leaves of the queue are stored. -/
theorem mem_flattenLoop {turns : ℕ} (h : Queued queue) (hload : load queue ≤ turns)
    (hkey : key ∈ result ∨ ∃ v, Holds sep queue key v) : key ∈ flattenLoop sep none turns queue result := by
  induction turns generalizing queue result with
  | zero =>
    cases queue with
    | nil => exact hkey.elim id fun ⟨_, item, hitem, _⟩ ↦ absurd hitem List.not_mem_nil
    | cons item queue =>
      obtain ⟨obj, parentKey, depth⟩ := item
      have hlt := load_turn obj parentKey depth queue
      omega
  | succ turns ih =>
    cases queue with
    | nil => exact hkey.elim id fun ⟨_, item, hitem, _⟩ ↦ absurd hitem List.not_mem_nil
    | cons item queue =>
      obtain ⟨obj, parentKey, depth⟩ := item
      have hlt := load_turn obj parentKey depth queue
      have hle : load (queue ++ obj.waiting parentKey depth) ≤ turns := by omega
      rw [flattenLoop, flattenTurn_eq sep (h _ List.mem_cons_self).1]
      refine ih h.turn hle ?_
      rw [OrderedDict.mem_foldl_set]
      rcases hkey with hmem | ⟨v, hholds⟩
      · exact .inl (.inl hmem)
      · rcases (holds_cons_iff sep h).1 hholds with hleaf | hholds
        · exact .inl (.inr (List.mem_map.2 ⟨_, hleaf, rfl⟩))
        · exact .inr ⟨v, hholds⟩

theorem queued_root (h : obj.Distinct) (hcontainer : obj.isContainer = true) : Queued [(obj, [], 0)] := by
  intro item hitem
  cases List.mem_singleton.1 hitem
  exact ⟨hcontainer, h⟩

/-- Every entry of the flat dict is a leaf under its joined path. -/
theorem leafAt_of_get?_flatten (h : obj.Distinct) (hcontainer : obj.isContainer = true) {v : Nested Text S}
    (hget : (flatten sep obj none).get? key = some v) :
    ∃ path s, LeafAt obj path s ∧ key = Text.join sep path ∧ v = .scalar s := by
  rcases holds_of_mem_flattenLoop sep (queued_root h hcontainer) hget with hempty | ⟨item, hitem, hleaf⟩
  · cases hempty
  · cases List.mem_singleton.1 hitem
    exact hleaf

theorem join_mem_flatten (h : obj.Distinct) (hcontainer : obj.isContainer = true) (hleaf : LeafAt obj path s) :
    Text.join sep path ∈ flatten sep obj none :=
  mem_flattenLoop sep (queued_root h hcontainer) (by simp [load])
    (.inr ⟨_, _, List.mem_singleton.2 rfl, path, s, hleaf, rfl, rfl⟩)

end Flatten

/-! ## Assigning a leaf -/

section Assign

variable {tree tree' : List (Text × Nested Text S)}

theorem kindAt_nil (v : Nested Text S) : v.kindAt [] = some v.kind := rfl

theorem kindAt_cons (v : Nested Text S) (key : Text) (path : List Text) :
    v.kindAt (key :: path) = (v.child key).bind fun c ↦ c.kindAt path := by
  rw [kindAt, nodeAt, Option.map_bind]
  rfl

theorem child_setEntries (key k : Text) (v : Nested Text S) (tree : List (Text × Nested Text S)) :
    (dict (OrderedDict.setEntries key v tree)).child k = if k = key then some v else (dict tree).child k :=
  OrderedDict.lookup_setEntries key k v tree

/-- The dict into which the rest of a path leads, if it does. -/
theorem assign_cons_ok {part : Text} (hpath : path ≠ []) (h : assign tree (part :: path) v = .ok tree') :
    ∃ inner inner', assign inner path v = .ok inner' ∧
      tree' = OrderedDict.setEntries part (.dict inner') tree ∧
        ((dict tree).child part = none ∧ inner = [] ∨ (dict tree).child part = some (.dict inner)) := by
  obtain ⟨next, path, rfl⟩ := List.exists_cons_of_ne_nil hpath
  rw [assign] at h
  · cases hlookup : OrderedDict.lookup part tree with
    | none =>
      rw [hlookup] at h
      cases hinner : assign [] (next :: path) v with
      | error e =>
        rw [hinner] at h
        cases h
      | ok inner' =>
        rw [hinner] at h
        cases h
        exact ⟨[], inner', hinner, rfl, .inl ⟨hlookup, rfl⟩⟩
    | some found =>
      rw [hlookup] at h
      cases found with
      | scalar s => cases h
      | list items => cases h
      | dict inner =>
        cases hinner : assign inner (next :: path) v with
        | error e =>
          simp only [hinner] at h
          cases h
        | ok inner' =>
          simp only [hinner] at h
          cases h
          exact ⟨inner, inner', hinner, rfl, .inr hlookup⟩
  · simp

/-- A leaf is added at its path, dicts stand on the way to it, and nothing stands below it. -/
theorem kindAt_assign (hpath : path ≠ []) (h : assign tree path (.scalar s) = .ok tree') (q : List Text) :
    (dict tree').kindAt q = if q = path then some (.scalar s) else if path <+: q then none
      else if q <+: path then some .dict else (dict tree).kindAt q := by
  induction path generalizing tree tree' q with
  | nil => exact absurd rfl hpath
  | cons part path ih =>
    cases q with
    | nil => simp [kindAt_nil, kind]
    | cons k q =>
      by_cases hrest : path = []
      · subst hrest
        cases h
        rw [kindAt_cons, kindAt_cons, child_setEntries]
        by_cases hk : k = part
        · subst hk
          cases q with
          | nil => simp [kindAt_nil, kind]
          | cons k' q =>
            have hnone : (scalar s : Nested Text S).kindAt (k' :: q) = none := rfl
            simp [hnone]
        · simp [hk, Ne.symm hk, List.cons_prefix_cons]
      · obtain ⟨inner, inner', hinner, rfl, hpart⟩ := assign_cons_ok hrest h
        rw [kindAt_cons, kindAt_cons, child_setEntries]
        by_cases hk : k = part
        · subst hk
          simp only [if_true, Option.bind_some, ih hrest hinner, List.cons.injEq, true_and, List.cons_prefix_cons]
          rcases hpart with ⟨hnone, rfl⟩ | hsome
          · rw [hnone, Option.bind_none]
            cases q with
            | nil => simp [Ne.symm hrest, hrest]
            | cons k' q => rfl
          · rw [hsome, Option.bind_some]
        · simp [hk, Ne.symm hk, List.cons_prefix_cons]

/-- A path can be taken when only dicts stand on the way. -/
theorem assign_total (hpath : path ≠ []) (v : Nested Text S)
    (h : ∀ q w, q <+: path → q ≠ path → (dict tree).nodeAt q = some w → w.kind = .dict) :
    ∃ tree', assign tree path v = .ok tree' := by
  induction path generalizing tree with
  | nil => exact absurd rfl hpath
  | cons part path ih =>
    by_cases hrest : path = []
    · subst hrest
      exact ⟨_, rfl⟩
    · obtain ⟨next, path', heq⟩ := List.exists_cons_of_ne_nil hrest
      have hinner (inner : List (Text × Nested Text S))
          (hpart : ∀ q w, (dict inner).nodeAt q = some w → q = [] ∨ (dict tree).nodeAt (part :: q) = some w) :
          ∃ inner', assign inner path v = .ok inner' := by
        refine ih hrest fun q w hq hne hw ↦ ?_
        rcases hpart q w hw with rfl | hw'
        · cases hw
          rfl
        · exact h _ w (List.cons_prefix_cons.2 ⟨rfl, hq⟩) (fun h ↦ hne (List.cons.inj h).2) hw'
      cases hlookup : OrderedDict.lookup part tree with
      | none =>
        obtain ⟨inner', hok⟩ := hinner [] fun q w hw ↦ by
          cases q with
          | nil => exact .inl rfl
          | cons k q => cases hw
        subst heq
        exact ⟨_, by rw [assign, hlookup] <;> simp [hok]; rfl⟩
      | some found =>
        have hnode : (dict tree).nodeAt [part] = some found := nodeAt_eq_some_iff.2 ⟨found, hlookup, rfl⟩
        have hkind := h [part] found (List.cons_prefix_cons.2 ⟨rfl, List.nil_prefix⟩)
          (fun h ↦ hrest (List.cons.inj h).2.symm) hnode
        cases found with
        | scalar s => cases hkind
        | list items => cases hkind
        | dict inner =>
          obtain ⟨inner', hok⟩ := hinner inner fun q w hw ↦ .inr (nodeAt_eq_some_iff.2 ⟨_, hlookup, hw⟩)
          subst heq
          exact ⟨_, by rw [assign, hlookup] <;> simp [hok]; rfl⟩

/-- A tree of dicts with distinct keys and of scalars. -/
def Grown (v : Nested Text S) : Prop :=
  ∀ path w, v.nodeAt path = some w → (∃ s, w = .scalar s) ∨ ∃ members, w = .dict members ∧ (members.map Prod.fst).Nodup

theorem grown_dict_iff : Grown (dict tree) ↔
    (tree.map Prod.fst).Nodup ∧ ∀ key c, (dict tree).child key = some c → Grown c := by
  constructor
  · refine fun h ↦ ⟨?_, fun key c hc path w hw ↦ h (key :: path) w (nodeAt_eq_some_iff.2 ⟨c, hc, hw⟩)⟩
    obtain ⟨s, hs⟩ | ⟨members, hmembers, hnodup⟩ := h [] _ rfl
    · cases hs
    · cases hmembers
      exact hnodup
  · rintro ⟨hnodup, hchildren⟩ path w hw
    cases path with
    | nil =>
      cases hw
      exact .inr ⟨tree, rfl, hnodup⟩
    | cons key path =>
      obtain ⟨c, hc, hw⟩ := nodeAt_eq_some_iff.1 hw
      exact hchildren key c hc path w hw

theorem grown_scalar (s : S) : Grown (.scalar s) := by
  intro path w hw
  cases path with
  | nil =>
    cases hw
    exact .inl ⟨s, rfl⟩
  | cons key path => cases hw

theorem grown_setEntries (h : Grown (dict tree)) (hv : Grown v) : Grown (dict (OrderedDict.setEntries key v tree)) := by
  rw [grown_dict_iff] at h ⊢
  refine ⟨?_, fun k c hc ↦ ?_⟩
  · rw [OrderedDict.map_fst_setEntries]
    split
    · exact h.1
    · next hmem => exact List.nodup_append.2 ⟨h.1, by simp, by rintro a ha b hb rfl; simp_all⟩
  · rw [child_setEntries] at hc
    split at hc
    · cases hc
      exact hv
    · exact h.2 k c hc

theorem grown_assign (hpath : path ≠ []) (h : Grown (dict tree)) (hok : assign tree path (.scalar s) = .ok tree') :
    Grown (dict tree') := by
  induction path generalizing tree tree' with
  | nil => exact absurd rfl hpath
  | cons part path ih =>
    by_cases hrest : path = []
    · subst hrest
      cases hok
      exact grown_setEntries h (grown_scalar s)
    · obtain ⟨inner, inner', hinner, rfl, hpart⟩ := assign_cons_ok hrest hok
      refine grown_setEntries h (ih hrest ?_ hinner)
      rcases hpart with ⟨-, rfl⟩ | hsome
      · exact grown_dict_iff.2 ⟨List.nodup_nil, fun key c hc ↦ by cases hc⟩
      · exact (grown_dict_iff.1 h).2 part _ hsome

end Assign

end Lionagi.Libs.Nested
