import Lionagi.Library.Checks
import Lionagi.Libs.NestedPaths

/-!
# Flattening and reading back

The tree that is read back has its leaves at the split keys of the flat dict. It is the flattened value exactly when
every container of the value has a leaf and every path is what its joined key splits into.
-/

namespace Lionagi.Libs.Nested

open Checks

variable {S : Type} {v w : Nested Text S} {key sep : Text} {path q : List Text} {s : S}
  {tree tree' : List (Text × Nested Text S)}

/-! ## Containers and the leaves below them -/

def NoneEmpty (v : Nested Text S) : Prop :=
  ∀ path w, v.nodeAt path = some w → w.isContainer = true → w.children ≠ []

theorem NoneEmpty.of_nodeAt (h : v.NoneEmpty) (hnode : v.nodeAt path = some w) : w.NoneEmpty := fun q u hu ↦
  h (path ++ q) u (by rw [nodeAt_append, hnode]; exact hu)

theorem exists_child_iff : v.children ≠ [] ↔ ∃ key c, v.child key = some c := by
  constructor
  · intro h
    obtain ⟨⟨key, c⟩, rest, hchildren⟩ := List.exists_cons_of_ne_nil h
    exact ⟨key, c, by rw [child, hchildren, OrderedDict.lookup, if_pos rfl]⟩
  · rintro ⟨key, c, hc⟩ hnil
    rw [child, hnil] at hc
    cases hc

theorem weight_child_lt (h : v.child key = some w) : w.weight < v.weight := by
  have hmem (l : List (Text × Nested Text S)) (h : OrderedDict.lookup key l = some w) :
      w.weight ≤ (l.map fun c ↦ c.2.weight).sum := by
    induction l with
    | nil => cases h
    | cons c l ih =>
      rw [List.map_cons, List.sum_cons]
      rw [OrderedDict.lookup] at h
      split at h
      · cases h
        exact Nat.le_add_right _ _
      · exact (ih h).trans (Nat.le_add_left _ _)
  exact (hmem _ h).trans_lt (sum_weight_children v)

/-- A value without empty containers has a leaf. -/
theorem NoneEmpty.exists_leaf (h : v.NoneEmpty) : ∃ path s, LeafAt v path s := by
  induction hn : v.weight using Nat.strong_induction_on generalizing v with
  | _ n ih =>
    cases hcontainer : v.isContainer with
    | false =>
      cases v with
      | scalar s => exact ⟨[], s, rfl⟩
      | list items => cases hcontainer
      | dict members => cases hcontainer
    | true =>
      obtain ⟨key, c, hc⟩ := exists_child_iff.1 (h [] v rfl hcontainer)
      have hnode : v.nodeAt [key] = some c := nodeAt_eq_some_iff.2 ⟨c, hc, rfl⟩
      obtain ⟨path, s, hleaf⟩ := ih c.weight (hn ▸ weight_child_lt hc) (h.of_nodeAt hnode) rfl
      exact ⟨key :: path, s, nodeAt_eq_some_iff.2 ⟨c, hc, hleaf⟩⟩

/-- Where one value stands, so does another one that has its leaves. -/
theorem NoneEmpty.nodeAt_isSome (h : v.NoneEmpty) (hleaves : ∀ path s, LeafAt v path s → LeafAt w path s)
    (hq : (v.nodeAt q).isSome = true) : (w.nodeAt q).isSome = true := by
  obtain ⟨u, hu⟩ := Option.isSome_iff_exists.1 hq
  obtain ⟨path, s, hleaf⟩ := (h.of_nodeAt hu).exists_leaf
  have hlong : LeafAt v (q ++ path) s := by
    rw [LeafAt, nodeAt_append, hu]
    exact hleaf
  have hw := hleaves _ _ hlong
  rw [LeafAt, nodeAt_append] at hw
  cases hnode : w.nodeAt q with
  | none =>
    rw [hnode] at hw
    cases hw
  | some x => rfl

/-- A leaf above another leaf is that leaf. -/
theorem LeafAt.eq_of_prefix {r : S} (h : LeafAt v path s) (hq : LeafAt v q r) (hpre : path <+: q) : path = q := by
  obtain ⟨rest, rfl⟩ := hpre
  rw [LeafAt, nodeAt_append, h] at hq
  cases rest with
  | nil => exact (List.append_nil path).symm
  | cons k rest => cases hq

/-! ## The tree of the split keys -/

/-- Dicts and scalars, and no dict below the root is empty. -/
structure Sprouted (tree : List (Text × Nested Text S)) : Prop where
  grown : Grown (dict tree)
  nonempty : ∀ path w, path ≠ [] → (dict tree).nodeAt path = some w → w.isContainer = true → w.children ≠ []

theorem sprouted_nil : Sprouted ([] : List (Text × Nested Text S)) where
  grown := grown_dict_iff.2 ⟨List.nodup_nil, fun key c hc ↦ by cases hc⟩
  nonempty := fun path w hpath hw ↦ by
    obtain ⟨key, path, rfl⟩ := List.exists_cons_of_ne_nil hpath
    cases hw

theorem Grown.kindAt_eq_dict (h : Grown v) (hw : v.nodeAt path = some w) (hcontainer : w.isContainer = true) :
    v.kindAt path = some .dict := by
  obtain ⟨s, rfl⟩ | ⟨members, rfl, -⟩ := h path w hw
  · cases hcontainer
  · rw [kindAt, hw]
    rfl

theorem exists_child_of_kindAt (key : Text) (hw : v.nodeAt path = some w) (h : v.kindAt (path ++ [key]) ≠ none) :
    w.children ≠ [] := by
  rw [ne_eq, kindAt_eq_none_iff, nodeAt_concat, hw, Option.bind_some] at h
  obtain ⟨c, hc⟩ := Option.ne_none_iff_exists'.1 h
  exact exists_child_iff.2 ⟨key, c, hc⟩

theorem Sprouted.assign (h : Sprouted tree) (hpath : path ≠ []) (hok : assign tree path (.scalar s) = .ok tree') :
    Sprouted tree' where
  grown := grown_assign hpath h.grown hok
  nonempty := fun q w hq hw hcontainer ↦ by
    have hkind := (grown_assign hpath h.grown hok).kindAt_eq_dict hw hcontainer
    by_cases hpre : q <+: path ∧ q ≠ path
    · obtain ⟨⟨rest, rfl⟩, hne⟩ := hpre
      obtain ⟨key, rest, rfl⟩ := List.exists_cons_of_ne_nil fun hnil : rest = [] ↦ hne (by simp [hnil])
      refine exists_child_of_kindAt key hw ?_
      rw [kindAt_assign hpath hok]
      split
      · simp
      · next hne' =>
        have hbelow : q ++ [key] <+: q ++ key :: rest := ⟨rest, by simp⟩
        rw [if_neg fun habove ↦ hne' (hbelow.eq_of_length_le habove.length_le), if_pos hbelow]
        simp
    · rw [kindAt_assign hpath hok] at hkind
      split at hkind
      · cases hkind
      · next hne =>
        split at hkind
        · cases hkind
        · next habove =>
          rw [if_neg fun hq ↦ hpre ⟨hq, hne⟩] at hkind
          obtain ⟨old, hold, hdict⟩ := Option.map_eq_some_iff.1 hkind
          have hcontainer : old.isContainer = true := by cases old <;> cases hdict; rfl
          obtain ⟨key, c, hc⟩ := exists_child_iff.1 (h.nonempty q old hq hold hcontainer)
          refine exists_child_of_kindAt key hw ?_
          have hnode : (dict tree).kindAt (q ++ [key]) ≠ none := by
            rw [ne_eq, kindAt_eq_none_iff, nodeAt_concat, hold, Option.bind_some, hc]
            simp
          rw [kindAt_assign hpath hok]
          split
          · simp
          · next hne' =>
            split
            · next habove' =>
              rcases List.prefix_concat_iff.1 habove' with heq | hle
              · exact absurd heq.symm hne'
              · exact absurd hle habove
            · split
              · simp
              · exact hnode

/-- What the loop over the flat dict leaves, from some tree on. -/
theorem foldlM_assign_spec {entries : List (Text × Nested Text S)} (hscalars : ∀ e ∈ entries, ∃ s, e.2 = .scalar s)
    (h : Sprouted tree)
    (hok : entries.foldlM (fun tree e ↦ assign tree (Text.split sep e.1) e.2) tree = .ok tree') :
    Sprouted tree' ∧ ∀ path s, LeafAt (dict tree') path s →
      LeafAt (dict tree) path s ∨ ∃ e ∈ entries, path = Text.split sep e.1 := by
  induction entries generalizing tree with
  | nil =>
    cases hok
    exact ⟨h, fun _ _ ↦ .inl⟩
  | cons e entries ih =>
    obtain ⟨t, ht, hok⟩ := bind_eq_ok_iff.1 hok
    obtain ⟨s, hs⟩ := hscalars e List.mem_cons_self
    have ht : assign tree (Text.split sep e.1) (.scalar s) = .ok t := by
      rw [← hs]
      exact ht
    have hpath := Text.split_ne_nil sep e.1
    obtain ⟨hsprouted, hleaves⟩ := ih (fun e he ↦ hscalars e (List.mem_cons_of_mem _ he)) (h.assign hpath ht) hok
    refine ⟨hsprouted, fun path r hleaf ↦ ?_⟩
    rcases hleaves path r hleaf with hold | ⟨e', he', hpath'⟩
    · rw [← kindAt_eq_scalar_iff, kindAt_assign hpath ht] at hold
      split at hold
      · next heq => exact .inr ⟨e, List.mem_cons_self, heq⟩
      · split at hold
        · cases hold
        · split at hold
          · cases hold
          · exact .inl (kindAt_eq_scalar_iff.1 hold)
    · exact .inr ⟨e', List.mem_cons_of_mem _ he', hpath'⟩

/-- Paths of which none is above another one are all entered. -/
theorem foldlM_assign_total {entries : List (Text × Nested Text S)} (hscalars : ∀ e ∈ entries, ∃ s, e.2 = .scalar s)
    (h : Sprouted tree) (hfree : entries.Pairwise fun e e' ↦
      ¬ Text.split sep e.1 <+: Text.split sep e'.1 ∧ ¬ Text.split sep e'.1 <+: Text.split sep e.1)
    (hapart : ∀ path s, LeafAt (dict tree) path s → ∀ e ∈ entries,
      ¬ path <+: Text.split sep e.1 ∧ ¬ Text.split sep e.1 <+: path) :
    ∃ tree', entries.foldlM (fun tree e ↦ assign tree (Text.split sep e.1) e.2) tree = .ok tree' ∧
      (∀ path s, LeafAt (dict tree) path s → LeafAt (dict tree') path s) ∧
      ∀ e ∈ entries, (dict tree').nodeAt (Text.split sep e.1) = some e.2 := by
  induction entries generalizing tree with
  | nil => exact ⟨tree, rfl, fun _ _ ↦ id, fun e he ↦ absurd he List.not_mem_nil⟩
  | cons e entries ih =>
    obtain ⟨hfirst, hfree⟩ := List.pairwise_cons.1 hfree
    obtain ⟨s, hs⟩ := hscalars e List.mem_cons_self
    have hpath := Text.split_ne_nil sep e.1
    obtain ⟨t, ht⟩ : ∃ t, assign tree (Text.split sep e.1) (.scalar s) = .ok t :=
      assign_total hpath (.scalar s) fun q w hq _ hw ↦ by
        obtain ⟨r, rfl⟩ | ⟨members, rfl, -⟩ := h.grown q w hw
        · exact absurd hq (hapart q r hw e List.mem_cons_self).1
        · rfl
    have hkept (path : List Text) (r : S) (hleaf : LeafAt (dict tree) path r) : LeafAt (dict t) path r := by
      obtain ⟨habove, hbelow⟩ := hapart path r hleaf e List.mem_cons_self
      rw [← kindAt_eq_scalar_iff, kindAt_assign hpath ht,
        if_neg fun heq : path = Text.split sep e.1 ↦ habove (heq ▸ List.prefix_rfl), if_neg hbelow, if_neg habove]
      exact kindAt_eq_scalar_iff.2 hleaf
    have hnew : LeafAt (dict t) (Text.split sep e.1) s := by
      rw [← kindAt_eq_scalar_iff, kindAt_assign hpath ht]
      exact if_pos rfl
    obtain ⟨tree', hok, hkept', hentered⟩ := ih (fun e he ↦ hscalars e (List.mem_cons_of_mem _ he))
      (h.assign hpath ht) hfree fun path r hleaf e' he' ↦ by
        rw [← kindAt_eq_scalar_iff, kindAt_assign hpath ht] at hleaf
        split at hleaf
        · next heq => exact heq ▸ hfirst e' he'
        · split at hleaf
          · cases hleaf
          · split at hleaf
            · cases hleaf
            · exact hapart path r (kindAt_eq_scalar_iff.1 hleaf) e' (List.mem_cons_of_mem _ he')
    have hstep : assign tree (Text.split sep e.1) e.2 = .ok t := by
      rw [hs]
      exact ht
    refine ⟨tree', bind_eq_ok_iff.2 ⟨t, hstep, hok⟩, fun path r hleaf ↦ hkept' path r (hkept path r hleaf),
      fun e' he' ↦ ?_⟩
    rcases List.mem_cons.1 he' with rfl | hmem
    · exact hs ▸ hkept' _ _ hnew
    · exact hentered e' hmem

/-! ## Lists among the dicts -/

section Convert

variable (py : CharTable) {members : List (Text × Nested Text S)}

theorem lookup_convertMembers (key : Text) (members : List (Text × Nested Text S)) :
    OrderedDict.lookup key (convertMembers py members) = (OrderedDict.lookup key members).map (convert py) := by
  induction members with
  | nil => rfl
  | cons member members ih =>
    obtain ⟨k, v⟩ := member
    rw [convertMembers, OrderedDict.lookup, OrderedDict.lookup, ih]
    split <;> rfl

theorem isDigitKey_numeral (i : ℕ) : isDigitKey py (numeral i) = true := by
  have hdigits : ∀ c ∈ numeral i, py.isdigit c = true := by
    intro c hc
    have hdigit : c.isDigit = true := Nat.isDigit_of_mem_toDigits (by decide) (by decide) hc
    rw [py.ascii_isdigit c ((Char.isDigit_iff_toNat.1 hdigit).2.trans_lt (by decide)), hdigit]
  have hne : numeral i ≠ [] := Nat.toDigits_ne_nil
  rw [isDigitKey, Bool.and_eq_true, List.all_eq_true]
  exact ⟨by simp [hne], hdigits⟩

/-- The keys are the numerals below their number, in some order. -/
theorem readsAsList_iff (h : (members.map Prod.fst).Nodup) : readsAsList py members = true ↔
    members ≠ [] ∧ (members.map Prod.fst).Perm ((List.range members.length).map numeral) := by
  have hlookup (key : Text) : (OrderedDict.lookup key members).isSome = true ↔ key ∈ members.map Prod.fst :=
    (OrderedDict.mem_iff_isSome ⟨members, h⟩ key).symm
  rw [readsAsList, Bool.and_eq_true, Bool.and_eq_true, List.all_eq_true, List.all_eq_true]
  constructor
  · rintro ⟨⟨hne, -⟩, hall⟩
    refine ⟨by simpa using hne, (List.Subperm.perm_of_length_le ?_ (by simp)).symm⟩
    refine List.subperm_of_subset (List.Nodup.map Text.toDigits_injective List.nodup_range) fun key hkey ↦ ?_
    obtain ⟨i, hi, rfl⟩ := List.mem_map.1 hkey
    exact (hlookup _).1 (hall i hi)
  · rintro ⟨hne, hperm⟩
    refine ⟨⟨by simp [hne], fun member hmember ↦ ?_⟩, fun i hi ↦ ?_⟩
    · obtain ⟨i, -, hi⟩ := List.mem_map.1 (hperm.subset (List.mem_map_of_mem hmember))
      exact hi ▸ isDigitKey_numeral py i
    · exact (hlookup _).2 (hperm.mem_iff.2 (List.mem_map_of_mem hi))

theorem kind_convert_dict (members : List (Text × Nested Text S)) : (convert py (.dict members)).kind =
    if readsAsList py members = true then .list members.length else .dict := by
  rw [convert]
  split
  · simp [kind]
  · rfl

/-- Converting changes no key. -/
theorem child_convert (h : Grown v) (key : Text) : (convert py v).child key = (v.child key).map (convert py) := by
  obtain ⟨s, rfl⟩ | ⟨members, rfl, hnodup⟩ := h [] v rfl
  · rfl
  · rw [convert]
    split
    · next hlist =>
      obtain ⟨-, hperm⟩ := (readsAsList_iff py hnodup).1 hlist
      have hkey (i : ℕ) (hi : i < members.length) : ∃ v, OrderedDict.lookup (numeral i) members = some v :=
        (OrderedDict.mem_iff_exists_get? ⟨members, hnodup⟩ (numeral i)).1
          (hperm.mem_iff.2 (List.mem_map_of_mem (List.mem_range.2 hi)))
      ext c
      rw [child_list_eq_some_iff, Option.map_eq_some_iff]
      constructor
      · rintro ⟨i, hi, rfl⟩
        obtain ⟨hlt, hc⟩ := List.getElem?_eq_some_iff.1 hi
        obtain ⟨v, hv⟩ := hkey i (by simpa using hlt)
        rw [List.getElem_map, List.getElem_range, lookup_convertMembers, hv] at hc
        exact ⟨v, hv, hc⟩
      · rintro ⟨v, hv, rfl⟩
        have hmem : key ∈ members.map Prod.fst := OrderedDict.mem_of_get? (d := ⟨members, hnodup⟩) hv
        obtain ⟨i, hi, rfl⟩ := List.mem_map.1 (hperm.mem_iff.1 hmem)
        refine ⟨i, ?_, rfl⟩
        rw [List.getElem?_map, List.getElem?_range (List.mem_range.1 hi), Option.map_some, lookup_convertMembers,
          show OrderedDict.lookup (numeral i) members = some v from hv]
        rfl
    · exact lookup_convertMembers py key members

theorem nodeAt_convert (h : Grown v) (path : List Text) :
    (convert py v).nodeAt path = (v.nodeAt path).map (convert py) := by
  induction path generalizing v with
  | nil => rfl
  | cons key path ih =>
    rw [nodeAt, nodeAt, child_convert py h]
    cases hc : v.child key with
    | none => rfl
    | some c => exact ih fun q w hw ↦ h (key :: q) w (nodeAt_eq_some_iff.2 ⟨c, hc, hw⟩)

theorem kindAt_convert_eq_scalar_iff (h : Grown v) :
    (convert py v).kindAt path = some (.scalar s) ↔ LeafAt v path s := by
  rw [kindAt, nodeAt_convert py h, LeafAt]
  cases hw : v.nodeAt path with
  | none => simp
  | some w =>
    obtain ⟨r, rfl⟩ | ⟨members, rfl, -⟩ := h path w hw
    · simp [convert, kind]
    · rw [Option.map_some, Option.map_some, kind_convert_dict]
      split <;> simp

end Convert

/-! ## The round trip -/

/-- A dict that is not empty, of dicts, lists and scalars. The keys of its dicts are not empty and do not hold the
separator, and those of a dict are not the numerals of a list. -/
structure NestedDict (S : Type) (sep : Text) where
  value : Nested Text S
  root : ∃ members, value = .dict members ∧ members ≠ []
  keys : ∀ path members, value.nodeAt path = some (.dict members) →
    (members.map Prod.fst).Nodup ∧ (∀ key ∈ members.map Prod.fst, key ≠ [] ∧ ¬ sep <:+: key) ∧
      ∀ n, 0 < n → ¬ (members.map Prod.fst).Perm ((List.range n).map numeral)

section RoundTrip

variable (py : CharTable) (x : NestedDict S sep)

/-- `unflatten(flatten(x, sep=s), sep=s) == x` -/
def RoundTrips : Prop := ∃ y, unflatten py sep (flatten sep x.value none) = .ok y ∧ Same y x.value

/-- The joined key of every leaf splits into its path. -/
def PathsSplit : Prop := ∀ path s, LeafAt x.value path s → Text.split sep (Text.join sep path) = path

variable {x}

theorem NestedDict.distinct (x : NestedDict S sep) : x.value.Distinct := by
  intro path w hw
  cases w with
  | scalar s => exact List.nodup_nil
  | list items => exact nodup_children_list items
  | dict members => exact (x.keys path members hw).1

theorem NestedDict.isContainer (x : NestedDict S sep) : x.value.isContainer = true := by
  obtain ⟨members, hroot, -⟩ := x.root
  rw [hroot]
  rfl

theorem NestedDict.sep_ne_nil (x : NestedDict S sep) : sep ≠ [] := by
  rintro rfl
  obtain ⟨members, hroot, hne⟩ := x.root
  obtain ⟨member, members, rfl⟩ := List.exists_cons_of_ne_nil hne
  exact ((x.keys [] _ (congrArg some hroot)).2.1 member.1 List.mem_cons_self).2 List.nil_infix

/-- The tree of the flat dict, when there is one. -/
theorem sprouted_intermediate (h : intermediate sep (flatten sep x.value none) = .ok tree) :
    Sprouted tree ∧ ∀ path s, LeafAt (dict tree) path s →
      ∃ p r, LeafAt x.value p r ∧ path = Text.split sep (Text.join sep p) := by
  have hentry (e : Text × Nested Text S) (he : e ∈ (flatten sep x.value none).entries) :=
    leafAt_of_get?_flatten sep x.distinct x.isContainer ((OrderedDict.get?_eq_some_iff _ _ _).2 he)
  obtain ⟨hsprouted, hleaves⟩ := foldlM_assign_spec (fun e he ↦ by
    obtain ⟨_, s, -, -, hs⟩ := hentry e he
    exact ⟨s, hs⟩) sprouted_nil h
  refine ⟨hsprouted, fun path s hleaf ↦ ?_⟩
  rcases hleaves path s hleaf with hold | ⟨e, he, rfl⟩
  · cases path with
    | nil => cases hold
    | cons key path => cases hold
  · obtain ⟨p, r, hp, hkey, -⟩ := hentry e he
    exact ⟨p, r, hp, by rw [hkey]⟩

/-- When the paths split, the tree is there and has the leaves of the value. -/
theorem intermediate_of_pathsSplit (h : PathsSplit x) :
    ∃ tree, intermediate sep (flatten sep x.value none) = .ok tree ∧
      ∀ path s, LeafAt (dict tree) path s ↔ LeafAt x.value path s := by
  have hentry (e : Text × Nested Text S) (he : e ∈ (flatten sep x.value none).entries) :
      ∃ s, LeafAt x.value (Text.split sep e.1) s ∧ e.1 = Text.join sep (Text.split sep e.1) ∧ e.2 = .scalar s := by
    obtain ⟨path, s, hleaf, hkey, hs⟩ :=
      leafAt_of_get?_flatten sep x.distinct x.isContainer ((OrderedDict.get?_eq_some_iff _ _ _).2 he)
    rw [hkey, h path s hleaf]
    exact ⟨s, hleaf, rfl, hs⟩
  have hfree : (flatten sep x.value none).entries.Pairwise fun e e' ↦
      ¬ Text.split sep e.1 <+: Text.split sep e'.1 ∧ ¬ Text.split sep e'.1 <+: Text.split sep e.1 := by
    refine (List.pairwise_map.1 (flatten sep x.value none).nodup_keys).imp_of_mem fun {e e'} he he' hne ↦ ?_
    obtain ⟨s, hs, hkey, -⟩ := hentry e he
    obtain ⟨r, hr, hkey', -⟩ := hentry e' he'
    constructor
    · exact fun hpre ↦ hne (by rw [hkey, hkey', hs.eq_of_prefix hr hpre])
    · exact fun hpre ↦ hne (by rw [hkey, hkey', hr.eq_of_prefix hs hpre])
  have hscalars : ∀ e ∈ (flatten sep x.value none).entries, ∃ s, e.2 = .scalar s := by
    intro e he
    obtain ⟨s, -, -, hs⟩ := hentry e he
    exact ⟨s, hs⟩
  have hnothing (path : List Text) (s : S) : ¬ LeafAt (dict []) path s := by
    cases path <;> exact nofun
  obtain ⟨tree, hok, -, hentered⟩ := foldlM_assign_total hscalars sprouted_nil hfree
    fun path s hleaf ↦ absurd hleaf (hnothing path s)
  have hleaf_of (path : List Text) (s : S) (hleaf : LeafAt x.value path s) : LeafAt (dict tree) path s := by
    obtain ⟨v, hv⟩ := (OrderedDict.mem_iff_exists_get? _ _).1
      (join_mem_flatten sep x.distinct x.isContainer hleaf)
    have he := (OrderedDict.get?_eq_some_iff _ _ _).1 hv
    obtain ⟨r, hr, -, rfl⟩ := hentry _ he
    have hnode := hentered _ he
    rw [h path s hleaf] at hr hnode
    cases hleaf.symm.trans hr
    exact hnode
  refine ⟨tree, hok, fun path s ↦ ⟨fun hleaf ↦ ?_, hleaf_of path s⟩⟩
  obtain ⟨p, r, hp, rfl⟩ := (sprouted_intermediate hok).2 path s hleaf
  rw [h p r hp] at hleaf ⊢
  cases (hleaf_of p r hp).symm.trans hleaf
  exact hp

theorem Sprouted.noneEmpty (h : Sprouted tree) (hne : tree ≠ []) : NoneEmpty (dict tree) := by
  intro path w hw hcontainer
  by_cases hpath : path = []
  · subst hpath
    cases hw
    exact hne
  · exact h.nonempty path w hpath hw hcontainer

/-- A tree with the leaves of the value is converted to the value. -/
theorem same_convert (hsprouted : Sprouted tree) (hempty : NoneEmpty x.value)
    (hleaves : ∀ path s, LeafAt (dict tree) path s ↔ LeafAt x.value path s) :
    Same (convert py (dict tree)) x.value := by
  have hne : tree ≠ [] := by
    rintro rfl
    obtain ⟨path, s, hleaf⟩ := hempty.exists_leaf
    have hnil := (hleaves path s).2 hleaf
    cases path with
    | nil => cases hnil
    | cons key path => cases hnil
  have hsome (q : List Text) : ((dict tree).nodeAt q).isSome = true ↔ (x.value.nodeAt q).isSome = true :=
    ⟨(hsprouted.noneEmpty hne).nodeAt_isSome fun path s ↦ (hleaves path s).1,
      hempty.nodeAt_isSome fun path s ↦ (hleaves path s).2⟩
  intro q
  rw [kindAt, kindAt, nodeAt_convert py hsprouted.grown]
  cases hw : x.value.nodeAt q with
  | none =>
    have hnone : (dict tree).nodeAt q = none := by
      rw [← Option.not_isSome_iff_eq_none, hsome, hw]
      simp
    rw [hnone]
    rfl
  | some w =>
    obtain ⟨t, ht⟩ := Option.isSome_iff_exists.1 ((hsome q).2 (by rw [hw]; rfl))
    rw [ht, Option.map_some, Option.map_some, Option.map_some, Option.some.injEq]
    obtain ⟨s, rfl⟩ | ⟨members, rfl, hnodup⟩ := hsprouted.grown q t ht
    · cases hw.symm.trans ((hleaves q s).1 ht)
      rfl
    · have hkeys : (members.map Prod.fst).Perm (w.children.map Prod.fst) := by
        refine (List.perm_ext_iff_of_nodup hnodup (x.distinct q w hw)).2 fun key ↦ ?_
        have hiff := hsome (q ++ [key])
        rw [nodeAt_concat, nodeAt_concat, ht, hw, Option.bind_some, Option.bind_some] at hiff
        exact (OrderedDict.mem_iff_isSome ⟨members, hnodup⟩ key).trans
          (hiff.trans (OrderedDict.mem_iff_isSome ⟨w.children, x.distinct q w hw⟩ key).symm)
      have hmembers : members ≠ [] := (hsprouted.noneEmpty hne) q _ ht rfl
      rw [kind_convert_dict]
      cases w with
      | scalar s => exact absurd (List.map_eq_nil_iff.1 hkeys.eq_nil) hmembers
      | list items =>
        have hlist : (members.map Prod.fst).Perm ((List.range items.length).map numeral) := by
          refine hkeys.trans (List.Perm.of_eq ?_)
          rw [children, List.map_map, List.range_eq_range', ← List.zipIdx_map_snd 0 items, List.map_map]
          rfl
        have hlength : members.length = items.length := by simpa using hlist.length_eq
        rw [if_pos ((readsAsList_iff py hnodup).2 ⟨hmembers, hlength ▸ hlist⟩), hlength]
        rfl
      | dict members' =>
        rw [if_neg fun hlist ↦ ?_]
        · rfl
        · have hperm := ((readsAsList_iff py hnodup).1 hlist).2
          exact (x.keys q members' hw).2.2 _ (List.length_pos_iff.2 hmembers) (hkeys.symm.trans hperm)

/-- A dict comes back from its flat form exactly when it holds no empty dict or list and no key runs into a
separator. -/
theorem roundTrips_iff (x : NestedDict S sep) : RoundTrips py x ↔ NoneEmpty x.value ∧ PathsSplit x := by
  constructor
  · rintro ⟨y, hy, hsame⟩
    obtain ⟨tree, htree, rfl⟩ := map_eq_ok_iff.1 hy
    obtain ⟨hsprouted, hleaves⟩ := sprouted_intermediate htree
    constructor
    · intro q w hw hcontainer hnil
      have hkind := hsame q
      rw [kindAt, kindAt, hw, nodeAt_convert py hsprouted.grown, Option.map_some] at hkind
      obtain ⟨c, hc, hkind⟩ := Option.map_eq_some_iff.1 hkind
      obtain ⟨t, ht, rfl⟩ := Option.map_eq_some_iff.1 hc
      have hq : q ≠ [] := by
        rintro rfl
        obtain ⟨members, hroot, hne⟩ := x.root
        cases hw
        rw [hroot] at hnil
        exact hne hnil
      obtain ⟨s, rfl⟩ | ⟨members, rfl, -⟩ := hsprouted.grown q t ht
      · cases w with
        | scalar r => cases hcontainer
        | list items => cases hkind
        | dict members => cases hkind
      · obtain ⟨key, c, hc⟩ := exists_child_iff.1 (hsprouted.nonempty q _ hq ht rfl)
        have hbelow := hsame (q ++ [key])
        rw [kindAt, kindAt, nodeAt_convert py hsprouted.grown, nodeAt_concat, nodeAt_concat, ht, hw,
          Option.bind_some, Option.bind_some, hc, child, hnil] at hbelow
        cases hbelow
    · intro path s hleaf
      have hkind : (convert py (dict tree)).kindAt path = some (.scalar s) :=
        (hsame path).trans (kindAt_eq_scalar_iff.2 hleaf)
      obtain ⟨p, r, -, hp⟩ := hleaves path s ((kindAt_convert_eq_scalar_iff py hsprouted.grown).1 hkind)
      exact Text.split_join_of_split_join x.sep_ne_nil hp.symm
  · rintro ⟨hempty, hsplit⟩
    obtain ⟨tree, htree, hleaves⟩ := intermediate_of_pathsSplit hsplit
    refine ⟨_, map_eq_ok_iff.2 ⟨tree, htree, rfl⟩, ?_⟩
    exact same_convert py (sprouted_intermediate htree).1 hempty hleaves

end RoundTrip

/-! ## An empty dict inside -/

/-- `{"a": {}}` -/
def emptyInside : NestedDict Unit ['|'] where
  value := .dict [(['a'], .dict [])]
  root := ⟨_, rfl, by simp⟩
  keys := fun path members hmembers ↦ by
    have hempty : (([] : List (Text × Nested Text Unit)).map Prod.fst).Nodup ∧
        (∀ key ∈ ([] : List (Text × Nested Text Unit)).map Prod.fst, key ≠ [] ∧ ¬ ['|'] <:+: key) ∧
        ∀ n, 0 < n → ¬ (([] : List (Text × Nested Text Unit)).map Prod.fst).Perm ((List.range n).map numeral) := by
      refine ⟨List.nodup_nil, by simp, fun n hn hperm ↦ ?_⟩
      have hlength := hperm.length_eq
      simp at hlength
      omega
    match path with
    | [] =>
      cases hmembers
      refine ⟨by decide, by decide, fun n hn hperm ↦ ?_⟩
      have hmem := hperm.mem_iff.2 (List.mem_map_of_mem (List.mem_range.2 hn))
      exact absurd (List.mem_singleton.1 hmem) (by decide)
    | [key] =>
      obtain ⟨c, hc, hmembers⟩ := nodeAt_eq_some_iff.1 hmembers
      cases hmembers
      rw [child, children, OrderedDict.lookup] at hc
      split at hc
      · cases hc
        exact hempty
      · cases hc
    | key :: key' :: path =>
      obtain ⟨c, hc, hmembers⟩ := nodeAt_eq_some_iff.1 hmembers
      obtain ⟨c', hc', -⟩ := nodeAt_eq_some_iff.1 hmembers
      rw [child, children, OrderedDict.lookup] at hc
      split at hc
      · cases hc
        cases hc'
      · cases hc

/-- `flatten` drops the empty dict, so `unflatten` gives `{}`. -/
theorem not_roundTrips_emptyInside : ¬ ∀ (S : Type) (sep : Text) (x : NestedDict S sep), RoundTrips .ascii x := by
  intro h
  obtain ⟨y, hy, hsame⟩ := h Unit _ emptyInside
  have hnothing : unflatten .ascii ['|'] (flatten ['|'] emptyInside.value none) = .ok (.dict []) := rfl
  cases hnothing.symm.trans hy
  cases hsame [['a']]

end Lionagi.Libs.Nested
