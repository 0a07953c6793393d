import Mathlib.Data.List.Nodup
import Mathlib.Data.List.Perm.Subperm

/-!
# Insertion-ordered dictionaries

A finite map that remembers the order in which its keys were first inserted. Assigning to a
present key keeps the key's position, assigning to an absent key appends it, and deletion keeps
the order of what is left. Distinctness of the keys is carried by the type, so lookups are
characterised by membership of the entry list.
-/

universe u v w

/-- An entry list with pairwise distinct keys, in insertion order. -/
structure OrderedDict (κ : Type u) (ν : Type v) where
  entries : List (κ × ν)
  nodup_keys : (entries.map Prod.fst).Nodup

namespace OrderedDict

variable {κ : Type u} {ν : Type v}

@[ext] theorem ext {d e : OrderedDict κ ν} (h : d.entries = e.entries) : d = e := by
  cases d
  cases e
  simpa using h

instance [DecidableEq κ] [DecidableEq ν] : DecidableEq (OrderedDict κ ν) := fun d e ↦
  decidable_of_iff (d.entries = e.entries) ⟨ext, fun h ↦ h ▸ rfl⟩

def empty : OrderedDict κ ν := ⟨[], List.nodup_nil⟩

instance : Inhabited (OrderedDict κ ν) := ⟨empty⟩

def keys (d : OrderedDict κ ν) : List κ := d.entries.map Prod.fst

def values (d : OrderedDict κ ν) : List ν := d.entries.map Prod.snd

instance : Membership κ (OrderedDict κ ν) := ⟨fun d k ↦ k ∈ d.keys⟩

variable {k k' : κ}

theorem mem_def {d : OrderedDict κ ν} : k ∈ d ↔ k ∈ d.keys := Iff.rfl

variable (d : OrderedDict κ ν)

theorem keys_nodup : d.keys.Nodup := d.nodup_keys

@[simp] theorem keys_empty : (empty : OrderedDict κ ν).keys = [] := rfl

@[simp] theorem values_empty : (empty : OrderedDict κ ν).values = [] := rfl

@[simp] theorem not_mem_empty (k : κ) : k ∉ (empty : OrderedDict κ ν) := by simp [mem_def]

variable [DecidableEq κ]

instance (d : OrderedDict κ ν) (k : κ) : Decidable (k ∈ d) :=
  inferInstanceAs (Decidable (k ∈ d.keys))

/-! ## Lookup -/

/-- The value of the first entry under `k`. -/
def lookup (k : κ) : List (κ × ν) → Option ν
  | [] => none
  | (k', v) :: rest => if k' = k then some v else lookup k rest

def get? (d : OrderedDict κ ν) (k : κ) : Option ν := lookup k d.entries

@[simp] theorem get?_empty (k : κ) : (empty : OrderedDict κ ν).get? k = none := rfl

variable {l : List (κ × ν)}

theorem lookup_eq_some_iff_mem (h : (l.map Prod.fst).Nodup) (k : κ) (v : ν) :
    lookup k l = some v ↔ (k, v) ∈ l := by
  induction l with
  | nil => simp [lookup]
  | cons entry rest ih =>
    obtain ⟨k', v'⟩ := entry
    simp only [List.map_cons, List.nodup_cons] at h
    by_cases hk : k' = k
    · subst hk
      have habsent : (k', v) ∉ rest := fun hmem ↦ h.1 (List.mem_map_of_mem (f := Prod.fst) hmem)
      simp [lookup, habsent, eq_comm]
    · have hk' : ¬ k = k' := fun h ↦ hk h.symm
      simp [lookup, hk, hk', ih h.2]

theorem get?_eq_some_iff (k : κ) (v : ν) : d.get? k = some v ↔ (k, v) ∈ d.entries :=
  lookup_eq_some_iff_mem d.nodup_keys k v

theorem mem_iff_exists_get? (k : κ) : k ∈ d ↔ ∃ v, d.get? k = some v := by
  simp [mem_def, keys, get?_eq_some_iff]

theorem mem_iff_isSome (k : κ) : k ∈ d ↔ (d.get? k).isSome = true := by
  rw [mem_iff_exists_get?, Option.isSome_iff_exists]

theorem get?_eq_none_iff (k : κ) : d.get? k = none ↔ k ∉ d := by
  rw [mem_iff_isSome]
  simp

variable {v : ν}

theorem mem_of_get? {d : OrderedDict κ ν} (h : d.get? k = some v) : k ∈ d :=
  (mem_iff_exists_get? d k).2 ⟨v, h⟩

theorem mem_values_iff (v : ν) : v ∈ d.values ↔ ∃ k, d.get? k = some v := by
  simp [values, get?_eq_some_iff]

theorem mem_values_of_get? {d : OrderedDict κ ν} (h : d.get? k = some v) : v ∈ d.values :=
  (mem_values_iff d v).2 ⟨k, h⟩

/-! ## Assignment -/

/-- Replace the value of a present key in place; append an absent one. -/
def setEntries (k : κ) (v : ν) : List (κ × ν) → List (κ × ν)
  | [] => [(k, v)]
  | (k', v') :: rest => if k' = k then (k, v) :: rest else (k', v') :: setEntries k v rest

theorem map_fst_setEntries (k : κ) (v : ν) (l : List (κ × ν)) :
    (setEntries k v l).map Prod.fst =
      if k ∈ l.map Prod.fst then l.map Prod.fst else l.map Prod.fst ++ [k] := by
  induction l with
  | nil => simp [setEntries]
  | cons entry rest ih =>
    obtain ⟨k', v'⟩ := entry
    by_cases hk : k' = k
    · simp [setEntries, hk]
    · have hk' : ¬ k = k' := fun h ↦ hk h.symm
      simp only [setEntries, if_neg hk, List.map_cons, ih, List.mem_cons, hk', false_or]
      split <;> rfl

def set (d : OrderedDict κ ν) (k : κ) (v : ν) : OrderedDict κ ν where
  entries := setEntries k v d.entries
  nodup_keys := by
    rw [map_fst_setEntries]
    split
    · exact d.nodup_keys
    · next h => exact List.nodup_append.2 ⟨d.nodup_keys, by simp, by rintro a ha b hb rfl; simp_all⟩

theorem keys_set (k : κ) (v : ν) : (d.set k v).keys = if k ∈ d then d.keys else d.keys ++ [k] :=
  map_fst_setEntries k v d.entries

theorem keys_set_of_mem {d : OrderedDict κ ν} (h : k ∈ d) (v : ν) : (d.set k v).keys = d.keys := by
  rw [keys_set, if_pos h]

theorem keys_set_of_not_mem {d : OrderedDict κ ν} (h : k ∉ d) (v : ν) : (d.set k v).keys = d.keys ++ [k] := by
  rw [keys_set, if_neg h]

@[simp] theorem mem_set (k k' : κ) (v : ν) : k' ∈ d.set k v ↔ k' = k ∨ k' ∈ d := by
  rw [mem_def, keys_set]
  split
  · next h => exact ⟨Or.inr, fun h' ↦ h'.elim (fun e ↦ e ▸ h) id⟩
  · simp [mem_def, or_comm]

theorem lookup_setEntries (k k' : κ) (v : ν) (l : List (κ × ν)) :
    lookup k' (setEntries k v l) = if k' = k then some v else lookup k' l := by
  induction l with
  | nil => simp [setEntries, lookup, eq_comm]
  | cons entry rest ih =>
    obtain ⟨j, w⟩ := entry
    by_cases hj : j = k
    · subst hj
      by_cases h : j = k'
      · simp [setEntries, lookup, h]
      · have h' : ¬ k' = j := fun e ↦ h e.symm
        simp [setEntries, lookup, h, h']
    · by_cases h : j = k'
      · subst h
        simp [setEntries, lookup, hj]
      · simp [setEntries, lookup, hj, h, ih]

theorem get?_set (k k' : κ) (v : ν) : (d.set k v).get? k' = if k' = k then some v else d.get? k' :=
  lookup_setEntries k k' v d.entries

@[simp] theorem get?_set_self (k : κ) (v : ν) : (d.set k v).get? k = some v := by
  rw [get?_set, if_pos rfl]

theorem get?_set_of_ne (h : k' ≠ k) (v : ν) : (d.set k v).get? k' = d.get? k' := by
  rw [get?_set, if_neg h]

/-- Store a value under a key that has none. -/
def setdefault (d : OrderedDict κ ν) (k : κ) (v : ν) : OrderedDict κ ν := if k ∈ d then d else d.set k v

theorem get?_setdefault_of_ne (h : k' ≠ k) (v : ν) : (d.setdefault k v).get? k' = d.get? k' := by
  unfold setdefault
  split
  · rfl
  · exact get?_set_of_ne d h v

theorem get?_setdefault_self (k : κ) (v : ν) : (d.setdefault k v).get? k = some ((d.get? k).getD v) := by
  unfold setdefault
  split
  · next h =>
    obtain ⟨w, hw⟩ := (mem_iff_exists_get? d k).1 h
    rw [hw, Option.getD_some]
  · next h => rw [get?_set_self, (get?_eq_none_iff d k).2 h, Option.getD_none]

/-! ## Deletion -/

def erase (d : OrderedDict κ ν) (k : κ) : OrderedDict κ ν where
  entries := d.entries.filter fun entry ↦ entry.1 ≠ k
  nodup_keys := (List.filter_sublist.map Prod.fst).nodup d.nodup_keys

theorem entries_erase (k : κ) :
    (d.erase k).entries = d.entries.filter fun entry ↦ entry.1 ≠ k := rfl

theorem keys_erase (k : κ) : (d.erase k).keys = d.keys.filter fun k' ↦ k' ≠ k := by
  simp only [keys, entries_erase, List.filter_map]
  rfl

@[simp] theorem mem_erase (k k' : κ) : k' ∈ d.erase k ↔ k' ≠ k ∧ k' ∈ d := by
  simp [mem_def, keys_erase, and_comm]

theorem get?_erase (k k' : κ) : (d.erase k).get? k' = if k' = k then none else d.get? k' := by
  split
  · next h => exact (get?_eq_none_iff _ _).2 (by simp [h])
  · next h =>
    ext v
    simp only [get?_eq_some_iff, entries_erase, List.mem_filter]
    simp [h]

@[simp] theorem get?_erase_self (k : κ) : (d.erase k).get? k = none := by
  rw [get?_erase, if_pos rfl]

theorem get?_erase_of_ne (h : k' ≠ k) : (d.erase k).get? k' = d.get? k' := by
  rw [get?_erase, if_neg h]

theorem get?_foldl_erase (ks : List κ) (k' : κ) : (ks.foldl erase d).get? k' = if k' ∈ ks then none else d.get? k' := by
  induction ks generalizing d with
  | nil => simp
  | cons k ks ih =>
    rw [List.foldl_cons, ih, get?_erase]
    by_cases hmem : k' ∈ ks
    · simp [hmem]
    · simp [hmem]

/-- Delete every entry that fails a test. -/
def filter (d : OrderedDict κ ν) (keep : κ → ν → Bool) : OrderedDict κ ν where
  entries := d.entries.filter fun entry ↦ keep entry.1 entry.2
  nodup_keys := (List.filter_sublist.map Prod.fst).nodup d.nodup_keys

theorem get?_filter_eq_some_iff (keep : κ → ν → Bool) (k : κ) (v : ν) :
    (d.filter keep).get? k = some v ↔ d.get? k = some v ∧ keep k v = true := by
  simp [get?_eq_some_iff, filter, List.mem_filter]

/-! ## Merging -/

def update (d : OrderedDict κ ν) (other : OrderedDict κ ν) : OrderedDict κ ν :=
  other.entries.foldl (fun acc entry ↦ acc.set entry.1 entry.2) d

def ofList (l : List (κ × ν)) : OrderedDict κ ν :=
  l.foldl (fun acc entry ↦ acc.set entry.1 entry.2) empty

theorem mem_foldl_set (l : List (κ × ν)) (d : OrderedDict κ ν) (k : κ) :
    k ∈ l.foldl (fun acc entry ↦ acc.set entry.1 entry.2) d ↔ k ∈ d ∨ k ∈ l.map Prod.fst := by
  induction l generalizing d with
  | nil => simp
  | cons entry rest ih =>
    simp only [List.foldl_cons, ih, mem_set, List.map_cons, List.mem_cons]
    tauto

theorem get?_foldl_set (l : List (κ × ν)) (d : OrderedDict κ ν) (k : κ) (v : ν)
    (h : (l.foldl (fun acc entry ↦ acc.set entry.1 entry.2) d).get? k = some v) :
    (k, v) ∈ l ∨ (k ∉ l.map Prod.fst ∧ d.get? k = some v) := by
  induction l generalizing d with
  | nil => exact Or.inr ⟨by simp, h⟩
  | cons entry rest ih =>
    rcases ih _ h with hmem | ⟨hnot, hget⟩
    · exact Or.inl (List.mem_cons_of_mem _ hmem)
    · by_cases hk : k = entry.1
      · subst hk
        rw [get?_set_self, Option.some.injEq] at hget
        exact Or.inl (by simp [← hget])
      · rw [get?_set_of_ne _ hk] at hget
        exact Or.inr ⟨by simp [hk, hnot], hget⟩

@[simp] theorem mem_update (other : OrderedDict κ ν) (k : κ) : k ∈ d.update other ↔ k ∈ d ∨ k ∈ other :=
  mem_foldl_set other.entries d k

theorem get?_update {d other : OrderedDict κ ν} (h : (d.update other).get? k = some v) :
    other.get? k = some v ∨ (k ∉ other ∧ d.get? k = some v) := by
  rw [get?_eq_some_iff other]
  exact get?_foldl_set other.entries d k v h

/-- An entry of the merged dictionary comes from the second one where that has the key. -/
theorem get?_update_eq (other : OrderedDict κ ν) (k : κ) : (d.update other).get? k = (other.get? k).or (d.get? k) := by
  cases h : (d.update other).get? k with
  | none =>
    rw [get?_eq_none_iff, mem_update, not_or, ← get?_eq_none_iff, ← get?_eq_none_iff] at h
    rw [h.1, h.2, Option.none_or]
  | some v =>
    rcases get?_update h with hother | ⟨hnone, hd⟩
    · rw [hother, Option.some_or]
    · rw [(get?_eq_none_iff other k).2 hnone, hd, Option.none_or]

@[simp] theorem mem_ofList (l : List (κ × ν)) (k : κ) : k ∈ ofList l ↔ k ∈ l.map Prod.fst := by
  simp [ofList, mem_foldl_set]

theorem mem_of_get?_ofList (h : (ofList l).get? k = some v) : (k, v) ∈ l := by
  rcases get?_foldl_set l empty k v h with hmem | ⟨-, hget⟩
  · exact hmem
  · simp at hget

theorem setEntries_of_notMem (h : k ∉ l.map Prod.fst) (v : ν) : setEntries k v l = l ++ [(k, v)] := by
  induction l with
  | nil => rfl
  | cons entry l ih =>
    obtain ⟨k', v'⟩ := entry
    rw [List.map_cons, List.mem_cons, not_or] at h
    rw [setEntries, if_neg (Ne.symm h.1), ih h.2, List.cons_append]

theorem entries_foldl_set {d : OrderedDict κ ν} (h : (d.keys ++ l.map Prod.fst).Nodup) :
    (l.foldl (fun acc entry ↦ acc.set entry.1 entry.2) d).entries = d.entries ++ l := by
  induction l generalizing d with
  | nil => exact (List.append_nil _).symm
  | cons entry l ih =>
    rw [List.map_cons] at h
    have hnew : entry.1 ∉ d.keys := fun hmem ↦
      List.disjoint_of_nodup_append h hmem List.mem_cons_self
    have hset : (d.set entry.1 entry.2).entries = d.entries ++ [entry] := setEntries_of_notMem hnew entry.2
    have hkeys : (d.set entry.1 entry.2).keys = d.keys ++ [entry.1] := keys_set_of_not_mem hnew entry.2
    rw [List.foldl_cons, ih, hset, List.append_assoc, List.singleton_append]
    rwa [hkeys, List.append_assoc, List.singleton_append]

/-- Entries under distinct keys are all kept. -/
theorem entries_ofList (h : (l.map Prod.fst).Nodup) : (ofList l).entries = l :=
  entries_foldl_set h

/-- There are as many entries as were given only if their keys are distinct. -/
theorem nodup_of_length_ofList (h : (ofList l).entries.length = l.length) : (l.map Prod.fst).Nodup := by
  have hsub : (ofList l).keys.Subperm (l.map Prod.fst) :=
    List.subperm_of_subset (ofList l).keys_nodup fun k hk ↦ (mem_ofList l k).1 hk
  have hlength : (l.map Prod.fst).length ≤ (ofList l).keys.length := by
    have hentries : (ofList l).keys.length = l.length := (List.length_map _).trans h
    exact Nat.le_of_eq ((List.length_map _).trans hentries.symm)
  exact (hsub.perm_of_length_le hlength).nodup_iff.1 (ofList l).keys_nodup

/-! ## In-place change of a stored value -/

/-- Apply a function to the value stored under a key, as when a stored object is mutated. -/
def modify (d : OrderedDict κ ν) (k : κ) (f : ν → ν) : OrderedDict κ ν where
  entries := d.entries.map fun entry ↦ if entry.1 = k then (entry.1, f entry.2) else entry
  nodup_keys := by
    have hfst : (d.entries.map fun entry ↦ if entry.1 = k then (entry.1, f entry.2) else entry).map
        Prod.fst = d.entries.map Prod.fst := by
      rw [List.map_map]
      refine List.map_congr_left fun entry _ ↦ ?_
      simp only [Function.comp_apply]
      split <;> rfl
    rw [hfst]
    exact d.nodup_keys

@[simp] theorem keys_modify (k : κ) (f : ν → ν) : (d.modify k f).keys = d.keys := by
  simp only [keys, modify, List.map_map]
  refine List.map_congr_left fun entry _ ↦ ?_
  simp only [Function.comp_apply]
  split <;> rfl

@[simp] theorem mem_modify (k k' : κ) (f : ν → ν) : k' ∈ d.modify k f ↔ k' ∈ d := by
  rw [mem_def, keys_modify, mem_def]

theorem get?_modify (k k' : κ) (f : ν → ν) :
    (d.modify k f).get? k' = if k' = k then (d.get? k').map f else d.get? k' := by
  ext v
  rw [get?_eq_some_iff]
  split
  · next h =>
    subst h
    simp only [modify, List.mem_map, Option.map_eq_some_iff, get?_eq_some_iff]
    constructor
    · rintro ⟨⟨k₁, v₁⟩, hmem, heq⟩
      by_cases hk : k₁ = k'
      · subst hk
        simp only [if_true, Prod.mk.injEq, true_and] at heq
        exact ⟨v₁, hmem, heq⟩
      · simp only [if_neg hk, Prod.mk.injEq] at heq
        exact absurd heq.1 hk
    · rintro ⟨v₁, hmem, heq⟩
      exact ⟨(k', v₁), hmem, by simp [heq]⟩
  · next h =>
    simp only [modify, List.mem_map, get?_eq_some_iff]
    constructor
    · rintro ⟨⟨k₁, v₁⟩, hmem, heq⟩
      by_cases hk : k₁ = k
      · simp only [if_pos hk, Prod.mk.injEq] at heq
        exact absurd (heq.1.symm.trans hk) h
      · simp only [if_neg hk] at heq
        exact heq ▸ hmem
    · intro hmem
      exact ⟨(k', v), hmem, by simp [h]⟩

/-! ## Values as functions of the stored ones -/

/-- A dictionary comprehension over the entries that keeps the keys. -/
def mapValues {ν' : Type w} (d : OrderedDict κ ν) (f : ν → ν') : OrderedDict κ ν' where
  entries := d.entries.map fun entry ↦ (entry.1, f entry.2)
  nodup_keys := by
    rw [List.map_map]
    exact d.nodup_keys

omit [DecidableEq κ] in
@[simp] theorem keys_mapValues {ν' : Type w} (f : ν → ν') : (d.mapValues f).keys = d.keys := by
  rw [keys, mapValues, List.map_map]
  rfl

theorem get?_mapValues {ν' : Type w} (f : ν → ν') (k : κ) : (d.mapValues f).get? k = (d.get? k).map f := by
  apply Option.ext
  intro v
  rw [get?_eq_some_iff, Option.map_eq_some_iff, mapValues, List.mem_map]
  constructor
  · rintro ⟨⟨k', w⟩, hmem, heq⟩
    cases heq
    exact ⟨w, (get?_eq_some_iff _ _ _).2 hmem, rfl⟩
  · rintro ⟨w, hget, rfl⟩
    exact ⟨(k, w), (get?_eq_some_iff _ _ _).1 hget, rfl⟩

/-- Keys selected by their values. -/
theorem keys_filter_entries (p : ν → Bool) :
    (d.entries.filter fun entry ↦ p entry.2).map Prod.fst =
      d.keys.filter fun k ↦ ((d.get? k).map p).getD false := by
  rw [keys, List.filter_map]
  congr 1
  apply List.filter_congr
  intro entry hmem
  rw [Function.comp_apply, (get?_eq_some_iff d entry.1 entry.2).2 hmem, Option.map_some,
    Option.getD_some]

/-! ## Equality -/

theorem entries_eq_filterMap : d.entries = d.keys.filterMap fun k ↦ (d.get? k).map fun v ↦ (k, v) := by
  have hself : ∀ entry ∈ d.entries, (d.get? entry.1).map (fun v ↦ (entry.1, v)) = some entry := by
    intro entry hmem
    rw [(get?_eq_some_iff d entry.1 entry.2).2 hmem, Option.map_some]
  calc
    d.entries = d.entries.filterMap some := List.filterMap_some.symm
    _ = d.entries.filterMap fun entry ↦ (d.get? entry.1).map fun v ↦ (entry.1, v) :=
      (List.filterMap_congr hself).symm
    _ = d.keys.filterMap fun k ↦ (d.get? k).map fun v ↦ (k, v) := by
      rw [keys, List.filterMap_map]
      rfl

/-- Dictionaries are equal when they have the same keys in the same order with the same values. -/
theorem ext_get? {d e : OrderedDict κ ν} (hkeys : d.keys = e.keys)
    (hget : ∀ k, d.get? k = e.get? k) : d = e := by
  apply ext
  rw [entries_eq_filterMap d, entries_eq_filterMap e, hkeys]
  simp only [hget]

/-- A new key is set and deleted again. -/
theorem erase_set_of_not_mem {d : OrderedDict κ ν} (h : k ∉ d) (v : ν) : (d.set k v).erase k = d := by
  apply ext_get?
  · rw [keys_erase, keys_set_of_not_mem h, List.filter_append, List.filter_eq_self.2]
    · simp
    · intro k' hk'
      rw [decide_eq_true_eq]
      exact fun heq ↦ h (heq ▸ hk')
  · intro k'
    rw [get?_erase, get?_set]
    split
    · next heq => rw [heq, (get?_eq_none_iff d k).2 h]
    · rfl

end OrderedDict
