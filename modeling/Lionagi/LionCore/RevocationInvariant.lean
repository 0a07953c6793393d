import Lionagi.LionCore.Revocation

/-!
# Both transitive revocations revoke the same capabilities

The invariant says that the table is sorted and keyed by the identifiers of its capabilities, and that
the children index lists exactly the parent links of the table. Under it the fast path revokes the
capabilities whose parent chain meets the given one. The slow path revokes those that meet it within
as many links as their identifier says, which is all of them when parents are smaller than children.
-/

namespace Lionagi.LionCore

open SortedTable ParentForest

namespace RevocationState

variable {rs : RevocationState}

/-! ## Lookups in the table -/

theorem get_eq_map_lookup (rs : RevocationState) (k : CapId) :
    rs.get k = (lookup Prod.fst k rs.caps).map Prod.snd := by
  unfold get findIndex lookup
  split <;> simp_all

variable {c k : CapId}

theorem findIndex_eq_some_iff {idx : ℕ} :
    rs.findIndex k = some idx ↔ binarySearchByKey Prod.fst k rs.caps = .ok idx := by
  unfold findIndex
  split <;> simp_all

theorem findIndex_eq_none_iff : rs.findIndex k = none ↔ ∃ pos, binarySearchByKey Prod.fst k rs.caps = .error pos := by
  unfold findIndex
  split <;> simp_all

theorem findIndex_isSome_iff (k : CapId) :
    (rs.findIndex k).isSome = true ↔ (rs.get k).isSome = true := by
  rw [get_eq_map_lookup]
  unfold findIndex lookup
  cases h : binarySearchByKey Prod.fst k rs.caps with
  | ok idx =>
    obtain ⟨entry, hentry, -⟩ := getElem?_of_search_ok h
    simp [hentry]
  | error pos => simp

theorem contains_iff (k : CapId) : rs.contains k = true ↔ ∃ cap, rs.get k = some cap := by
  rw [contains, findIndex_isSome_iff, Option.isSome_iff_exists]

theorem isValid_iff (k : CapId) :
    rs.isValid k = true ↔ ∃ cap, rs.get k = some cap ∧ cap.isValid = true := by
  simp [isValid, Option.any_eq_true]

/-- The parent that the table stores for `k`. -/
def parentOf (rs : RevocationState) (k : CapId) : Option CapId := (rs.get k).bind Capability.parent

/-- The parent chain of `k` through present capabilities reaches `a`, or `k` is `a`. -/
def Descends (rs : RevocationState) (k a : CapId) : Prop := Meets rs.parentOf k a

theorem parentOf_eq_some_iff {p : CapId} :
    rs.parentOf k = some p ↔ ∃ cap, rs.get k = some cap ∧ cap.parent = some p := by
  simp [parentOf, Option.bind_eq_some_iff]

/-! ## The invariant -/

/-- Sorted without duplicates, keyed by the capabilities' own identifiers, with an index that lists
exactly the parent links, each once. -/
structure Indexed (rs : RevocationState) : Prop where
  sorted : Sorted Prod.fst rs.caps
  keyed : ∀ entry ∈ rs.caps, entry.2.id = entry.1
  index_sorted : Sorted Prod.fst rs.childrenIndex
  lists : Lists rs.childrenIndex rs.parentOf
  children_nodup : ∀ a, (rs.getChildren a).Nodup

/-- Parents are smaller than their children. -/
def ParentLt (rs : RevocationState) : Prop := ∀ k p, rs.parentOf k = some p → p < k

theorem Indexed.get_eq_some_iff (h : rs.Indexed) {cap : Capability} : rs.get k = some cap ↔ (k, cap) ∈ rs.caps := by
  rw [get_eq_map_lookup, Option.map_eq_some_iff]
  constructor
  · rintro ⟨⟨k', cap'⟩, hlookup, rfl⟩
    rw [lookup_eq_some_iff h.sorted] at hlookup
    obtain ⟨hmem, rfl⟩ := hlookup
    exact hmem
  · intro hmem
    exact ⟨(k, cap), (lookup_eq_some_iff h.sorted).2 ⟨hmem, rfl⟩, rfl⟩

theorem Indexed.id_of_get (h : rs.Indexed) {cap : Capability} (hget : rs.get k = some cap) : cap.id = k :=
  h.keyed (k, cap) (h.get_eq_some_iff.1 hget)

theorem indexed_empty : empty.Indexed where
  sorted := sorted_nil
  keyed := by simp [empty]
  index_sorted := sorted_nil
  lists := by
    intro a k
    simp [childrenOf, empty, lookup, binarySearchByKey, parentOf, get, findIndex]
  children_nodup := by
    intro a
    simp [getChildren, childrenOf, empty, lookup, binarySearchByKey]

/-! ## The children index -/

section Index

variable {index : ChildrenIndex} {p c : CapId}

theorem sorted_addChildToIndex (hsorted : Sorted Prod.fst index) (p c : CapId) :
    Sorted Prod.fst (addChildToIndex index p c) := by
  unfold addChildToIndex
  split
  · next idx h =>
    rw [modify_eq_map hsorted _ h]
    apply hsorted.map
    intro entry
    split <;> rfl
  · next pos h => exact hsorted.insertIdx rfl h

theorem childrenOf_addChildToIndex (hsorted : Sorted Prod.fst index) (p c a : CapId) :
    childrenOf (addChildToIndex index p c) a =
      if a = p then childrenOf index p ++ [c] else childrenOf index a := by
  unfold addChildToIndex
  split
  · next idx h =>
    obtain ⟨entry, hentry, hkey⟩ := getElem?_of_search_ok h
    have hlookup : lookup Prod.fst p index = some entry := by simp [lookup, h, hentry]
    rw [modify_eq_map hsorted _ h]
    simp only [childrenOf]
    rw [lookup_map (by intro entry; split <;> rfl)]
    split
    · next heq =>
      subst heq
      simp [hlookup, hkey]
    · next hne =>
      cases hother : lookup Prod.fst a index with
      | none => rfl
      | some other =>
        have hother' : other.1 ≠ p := by
          rw [key_of_lookup hother]
          exact hne
        simp [hother']
  · next pos h =>
    simp only [childrenOf]
    rw [lookup_insertIdx hsorted rfl h]
    have habsent : lookup Prod.fst p index = none :=
      (lookup_eq_none_iff hsorted).2 (not_mem_of_search_error hsorted h)
    split
    · simp [habsent]
    · rfl

end Index

/-! ## Insertion -/

/-- The state that a successful insertion builds. -/
def inserted (rs : RevocationState) (cap : Capability) (pos : ℕ) : RevocationState :=
  { caps := rs.caps.insertIdx pos (cap.id, cap)
    epoch := rs.epoch
    childrenIndex := cap.parent.elim rs.childrenIndex fun p ↦ addChildToIndex rs.childrenIndex p cap.id }

theorem insertMut_eq (rs : RevocationState) (cap : Capability) :
    rs.insertMut cap =
      match binarySearchByKey Prod.fst cap.id rs.caps with
      | .ok _ => (.error (.capIdCollision cap.id), rs)
      | .error pos => (.ok (), rs.inserted cap pos) := by
  simp only [insertMut, findInsertPos]
  cases binarySearchByKey Prod.fst cap.id rs.caps with
  | ok pos => rfl
  | error pos => cases hparent : cap.parent <;> simp [inserted, hparent]

theorem insert_eq (rs : RevocationState) (cap : Capability) :
    rs.insert cap =
      match binarySearchByKey Prod.fst cap.id rs.caps with
      | .ok _ => .error (.capIdCollision cap.id)
      | .error pos => .ok (rs.inserted cap pos) := by
  simp only [insert, findInsertPos]
  cases hsearch : binarySearchByKey Prod.fst cap.id rs.caps with
  | ok pos => rfl
  | error pos =>
    simp only [inserted, insertIdx_eq_append (search_error_le hsearch)]
    cases cap.parent <;> rfl

section Inserted

variable {cap : Capability} {pos : ℕ}

theorem Indexed.get_inserted (h : rs.Indexed)
    (hsearch : binarySearchByKey Prod.fst cap.id rs.caps = .error pos) (k : CapId) :
    (rs.inserted cap pos).get k = if k = cap.id then some cap else rs.get k := by
  rw [get_eq_map_lookup, get_eq_map_lookup, inserted, lookup_insertIdx h.sorted rfl hsearch]
  split <;> rfl

theorem Indexed.get_eq_none (h : rs.Indexed)
    (hsearch : binarySearchByKey Prod.fst cap.id rs.caps = .error pos) : rs.get cap.id = none := by
  rw [get_eq_map_lookup, (lookup_eq_none_iff h.sorted).2 (not_mem_of_search_error h.sorted hsearch)]
  rfl

theorem Indexed.parentOf_inserted (h : rs.Indexed)
    (hsearch : binarySearchByKey Prod.fst cap.id rs.caps = .error pos) (k : CapId) :
    (rs.inserted cap pos).parentOf k = if k = cap.id then cap.parent else rs.parentOf k := by
  unfold parentOf
  rw [h.get_inserted hsearch]
  split <;> rfl

/-- A capability that the table does not hold is listed under no parent. -/
theorem Indexed.not_mem_getChildren (h : rs.Indexed) (hnone : rs.get k = none) (a : CapId) : k ∉ rs.getChildren a := by
  intro hmem
  obtain ⟨cap, hget, -⟩ := parentOf_eq_some_iff.1 ((h.lists a k).1 hmem)
  rw [hnone] at hget
  cases hget

theorem Indexed.getChildren_inserted (h : rs.Indexed) (cap : Capability) (pos : ℕ) (a : CapId) :
    (rs.inserted cap pos).getChildren a =
      if cap.parent = some a then rs.getChildren a ++ [cap.id] else rs.getChildren a := by
  unfold getChildren inserted
  cases hparent : cap.parent with
  | none => simp
  | some p =>
    simp only [Option.elim_some, childrenOf_addChildToIndex h.index_sorted, Option.some.injEq]
    by_cases hap : a = p
    · rw [if_pos hap, if_pos hap.symm, hap]
    · rw [if_neg hap, if_neg (Ne.symm hap)]

theorem Indexed.inserted (h : rs.Indexed)
    (hsearch : binarySearchByKey Prod.fst cap.id rs.caps = .error pos) :
    (rs.inserted cap pos).Indexed := by
  have hnone := h.get_eq_none hsearch
  have hfresh := h.not_mem_getChildren hnone
  constructor
  · exact h.sorted.insertIdx rfl hsearch
  · intro entry hentry
    rcases (mem_insertIdx_of_search hsearch).1 hentry with rfl | hentry
    · rfl
    · exact h.keyed entry hentry
  · unfold RevocationState.inserted
    cases cap.parent with
    | none => exact h.index_sorted
    | some p => exact sorted_addChildToIndex h.index_sorted p cap.id
  · intro a k
    change k ∈ (rs.inserted cap pos).getChildren a ↔ _
    have hold : k ∈ rs.getChildren a ↔ rs.parentOf k = some a := h.lists a k
    rw [h.getChildren_inserted, h.parentOf_inserted hsearch]
    by_cases hk : k = cap.id
    · subst hk
      rw [if_pos rfl]
      split
      · next hparent => simp [hparent]
      · next hparent => simp [hparent, hfresh a]
    · rw [if_neg hk, ← hold]
      split <;> simp [hk]
  · intro a
    rw [h.getChildren_inserted]
    split
    · rw [List.nodup_append]
      refine ⟨h.children_nodup a, List.nodup_singleton _, ?_⟩
      intro b hb c hc hbc
      rw [List.mem_singleton] at hc
      rw [hbc, hc] at hb
      exact hfresh a hb
    · exact h.children_nodup a

theorem Indexed.parentLt_inserted (h : rs.Indexed) (hlt : rs.ParentLt)
    (hsearch : binarySearchByKey Prod.fst cap.id rs.caps = .error pos)
    (hcap : ∀ p, cap.parent = some p → p < cap.id) : (rs.inserted cap pos).ParentLt := by
  intro k p hparent
  rw [h.parentOf_inserted hsearch] at hparent
  split at hparent
  · next hk =>
    rw [hk]
    exact hcap p hparent
  · exact hlt k p hparent

end Inserted

/-! ## Revocation of a set of capabilities -/

/-- The table with the capabilities of a set revoked. -/
def revokeWhere (rs : RevocationState) (P : CapId → Bool) : RevocationState :=
  { rs with caps := rs.caps.map fun entry ↦ if P entry.1 then revokeEntry entry else entry }

theorem get_revokeWhere (rs : RevocationState) (P : CapId → Bool) (k : CapId) :
    (rs.revokeWhere P).get k =
      (rs.get k).map fun cap ↦ if P k then cap.revoke else cap := by
  rw [get_eq_map_lookup, get_eq_map_lookup, revokeWhere, lookup_map]
  · cases hlookup : lookup Prod.fst k rs.caps with
    | none => rfl
    | some entry =>
      have hkey : entry.1 = k := key_of_lookup hlookup
      simp only [Option.map_some, hkey]
      split <;> rfl
  · intro entry
    split <;> rfl

theorem isValid_revokeWhere (rs : RevocationState) (P : CapId → Bool) (k : CapId) :
    (rs.revokeWhere P).isValid k = (rs.isValid k && !P k) := by
  unfold isValid
  rw [get_revokeWhere]
  cases rs.get k with
  | none => rfl
  | some cap => cases hP : P k <;> simp

theorem parentOf_revokeWhere (rs : RevocationState) (P : CapId → Bool) (k : CapId) :
    (rs.revokeWhere P).parentOf k = rs.parentOf k := by
  unfold parentOf
  rw [get_revokeWhere]
  cases rs.get k with
  | none => rfl
  | some cap =>
    simp only [Option.map_some, Option.bind_some]
    split <;> rfl

theorem Indexed.revokeWhere (h : rs.Indexed) (P : CapId → Bool) : (rs.revokeWhere P).Indexed where
  sorted := h.sorted.map fun entry ↦ by split <;> rfl
  keyed := by
    intro entry hentry
    obtain ⟨entry', hentry', rfl⟩ := List.mem_map.1 hentry
    have hkey := h.keyed entry' hentry'
    split
    · exact hkey
    · exact hkey
  index_sorted := h.index_sorted
  lists := by
    intro a k
    rw [parentOf_revokeWhere]
    exact h.lists a k
  children_nodup := h.children_nodup

theorem ParentLt.revokeWhere (hlt : rs.ParentLt) (P : CapId → Bool) :
    (rs.revokeWhere P).ParentLt := by
  intro k p hparent
  rw [parentOf_revokeWhere] at hparent
  exact hlt k p hparent

variable (entry : CapId × Capability)

@[simp] theorem revokeEntry_fst : (revokeEntry entry).1 = entry.1 := rfl

@[simp] theorem revokeEntry_revokeEntry :
    revokeEntry (revokeEntry entry) = revokeEntry entry := rfl

/-- Revoking a second set revokes the union. -/
theorem revokeWhere_revokeWhere (rs : RevocationState) (P Q : CapId → Bool) :
    (rs.revokeWhere P).revokeWhere Q = rs.revokeWhere fun k ↦ P k || Q k := by
  simp only [RevocationState.revokeWhere, List.map_map]
  congr 2
  funext entry
  by_cases hP : P entry.1 <;> by_cases hQ : Q entry.1 <;> simp [hP, hQ]

variable {P : CapId → Bool}

theorem revokeWhere_congr (rs : RevocationState) {Q : CapId → Bool} (h : ∀ entry ∈ rs.caps, P entry.1 = Q entry.1) :
    rs.revokeWhere P = rs.revokeWhere Q := by
  unfold RevocationState.revokeWhere
  congr 1
  apply List.map_congr_left
  intro entry hentry
  rw [h entry hentry]

/-! ## The four transitive revocations -/

theorem revokeTransitive_eq (rs : RevocationState) (c : CapId) :
    rs.revokeTransitive c = rs.revokeWhere fun k ↦ rs.inRevokeSet k c := rfl

theorem mem_positions {entries : CapTable} {j : ℕ} :
    (j ∈ entries.zipIdx.filterMap fun entry ↦ if P entry.1.1 then some entry.2 else none) ↔
      ∃ entry, entries[j]? = some entry ∧ P entry.1 = true := by
  simp only [List.mem_filterMap, Option.ite_none_right_eq_some, Prod.exists,
    List.mk_mem_zipIdx_iff_getElem?, Option.some.injEq]
  constructor
  · rintro ⟨k, cap, i, hentry, hP, rfl⟩
    exact ⟨k, cap, hentry, hP⟩
  · rintro ⟨k, cap, hentry, hP⟩
    exact ⟨k, cap, j, hentry, hP, rfl⟩

theorem revokeTransitiveMut_eq (rs : RevocationState) (c : CapId) :
    rs.revokeTransitiveMut c = rs.revokeTransitive c := by
  unfold revokeTransitiveMut revokeTransitive
  simp only
  congr 1
  apply List.ext_getElem?
  intro j
  rw [getElem?_foldl_modify revokeEntry_revokeEntry, List.getElem?_map]
  simp only [mem_positions (P := fun k ↦ rs.inRevokeSet k c)]
  cases hentry : rs.caps[j]? with
  | none => simp
  | some entry => by_cases hin : rs.inRevokeSet entry.1 c = true <;> simp [hin]

theorem sorted_mergeSort_collectDescendants (rs : RevocationState) (c : CapId) :
    Sorted id ((rs.collectDescendants c).mergeSort (· ≤ ·)) :=
  sorted_mergeSort_of_nodup (nodup_collect rs.childrenIndex [c] [])

theorem revokeTransitiveFast_eq (rs : RevocationState) (c : CapId) :
    rs.revokeTransitiveFast c = rs.revokeWhere fun k ↦ decide (k ∈ rs.collectDescendants c) := by
  have hsorted := rs.sorted_mergeSort_collectDescendants c
  unfold revokeTransitiveFast RevocationState.revokeWhere
  simp only
  congr 2
  funext entry
  have hiff := search_isOk_iff hsorted (k := entry.1)
  simp only [id_eq, exists_eq_right, List.mem_mergeSort] at hiff
  cases hsearch : binarySearchByKey id entry.1 ((rs.collectDescendants c).mergeSort (· ≤ ·)) with
  | ok i => simp [hiff.1 ⟨i, hsearch⟩]
  | error i =>
    have hnot : entry.1 ∉ rs.collectDescendants c := by
      rw [← hiff, hsearch]
      simp
    simp [hnot]

theorem revokeWhere_of_forall_ne (h : ∀ entry ∈ rs.caps, P entry.1 = false) : rs.revokeWhere P = rs := by
  have hmap : rs.caps.map (fun entry ↦ if P entry.1 then revokeEntry entry else entry) = rs.caps := by
    calc
      _ = rs.caps.map id := by
        apply List.map_congr_left
        intro entry hentry
        simp [h entry hentry]
      _ = rs.caps := List.map_id rs.caps
  rw [RevocationState.revokeWhere, hmap]

/-- One turn of the fast mutating loop. -/
def revokeOne (rs : RevocationState) (id : CapId) : RevocationState :=
  match rs.findIndex id with
  | some idx => { rs with caps := rs.caps.modify idx revokeEntry }
  | none => rs

theorem Indexed.revokeOne_eq (h : rs.Indexed) (k : CapId) :
    rs.revokeOne k = rs.revokeWhere fun k' ↦ decide (k' = k) := by
  unfold revokeOne
  cases hfind : rs.findIndex k with
  | some idx =>
    have hsearch := findIndex_eq_some_iff.1 hfind
    simp only [modify_eq_map h.sorted _ hsearch, RevocationState.revokeWhere, decide_eq_true_eq]
  | none =>
    obtain ⟨pos, hsearch⟩ := findIndex_eq_none_iff.1 hfind
    have habsent := not_mem_of_search_error h.sorted hsearch
    exact (revokeWhere_of_forall_ne fun entry hentry ↦ decide_eq_false (habsent entry hentry)).symm

theorem Indexed.foldl_revokeOne (h : rs.Indexed) (ids : List CapId) :
    ids.foldl revokeOne rs = rs.revokeWhere fun k ↦ decide (k ∈ ids) := by
  induction ids generalizing rs with
  | nil => exact (revokeWhere_of_forall_ne fun _ _ ↦ by simp).symm
  | cons k ids ih =>
    rw [List.foldl_cons, h.revokeOne_eq, ih (h.revokeWhere _), revokeWhere_revokeWhere]
    apply revokeWhere_congr
    intro entry _
    simp [List.mem_cons]

theorem Indexed.revokeTransitiveFastMut_eq (h : rs.Indexed) (c : CapId) :
    rs.revokeTransitiveFastMut c =
      if rs.contains c then (.ok (), rs.revokeTransitiveFast c)
      else (.error (.capNotFound c), rs) := by
  unfold revokeTransitiveFastMut contains
  cases rs.findIndex c with
  | none => rfl
  | some idx =>
    simp only [Option.isSome_some, if_true, Prod.mk.injEq, true_and]
    change List.foldl revokeOne rs _ = _
    rw [h.foldl_revokeOne, revokeTransitiveFast_eq]
    simp only [List.mem_mergeSort]

/-! ## Which capabilities each path revokes -/

theorem Indexed.mem_collectDescendants (h : rs.Indexed) : k ∈ rs.collectDescendants c ↔ rs.Descends k c :=
  h.lists.mem_collect_iff_meets

theorem hasAncestorWithFuel_iff {k a fuel : ℕ} :
    rs.hasAncestorWithFuel k a fuel = true ↔
      ∃ n < fuel, climb rs.parentOf (n + 1) k = some a := by
  induction fuel generalizing k with
  | zero => simp [hasAncestorWithFuel]
  | succ fuel ih =>
    have hclimb : (∃ n < fuel + 1, climb rs.parentOf (n + 1) k = some a) ↔
        ∃ p, rs.parentOf k = some p ∧ (p = a ∨ ∃ n < fuel, climb rs.parentOf (n + 1) p = some a) := by
      constructor
      · rintro ⟨n, hn, hk⟩
        obtain ⟨p, hlink, hp⟩ := climb_succ_eq_some_iff.1 hk
        refine ⟨p, hlink, ?_⟩
        cases n with
        | zero => exact Or.inl (Option.some.inj hp)
        | succ n => exact Or.inr ⟨n, by omega, hp⟩
      · rintro ⟨p, hlink, rfl | ⟨n, hn, hp⟩⟩
        · exact ⟨0, by omega, climb_succ_eq_some_iff.2 ⟨p, hlink, rfl⟩⟩
        · exact ⟨n + 1, by omega, climb_succ_eq_some_iff.2 ⟨p, hlink, hp⟩⟩
    rw [hclimb]
    simp only [hasAncestorWithFuel, parentOf]
    cases rs.get k with
    | none => simp
    | some cap =>
      cases hparent : cap.parent with
      | none => simp [hparent]
      | some p =>
        by_cases hpa : p = a
        · simp [hparent, hpa]
        · simp [hparent, hpa, ih]

/-- The slow path sees the walks that are no longer than the identifier they start from. -/
theorem inRevokeSet_iff : rs.inRevokeSet k c = true ↔ ∃ n ≤ k, climb rs.parentOf n k = some c := by
  simp only [inRevokeSet, hasAncestor, Bool.or_eq_true, beq_iff_eq, hasAncestorWithFuel_iff]
  constructor
  · rintro (rfl | ⟨n, hn, hclimb⟩)
    · exact ⟨0, Nat.zero_le k, rfl⟩
    · exact ⟨n + 1, hn, hclimb⟩
  · rintro ⟨n, hn, hclimb⟩
    cases n with
    | zero => exact Or.inl (Option.some.inj hclimb)
    | succ n => exact Or.inr ⟨n, hn, hclimb⟩

theorem descends_of_inRevokeSet (h : rs.inRevokeSet k c = true) : rs.Descends k c := by
  obtain ⟨n, -, hn⟩ := inRevokeSet_iff.1 h
  exact ⟨n, hn⟩

theorem ParentLt.inRevokeSet_iff_descends (hlt : rs.ParentLt) : rs.inRevokeSet k c = true ↔ rs.Descends k c := by
  constructor
  · exact descends_of_inRevokeSet
  · rintro ⟨n, hn⟩
    have hle := climb_add_le hlt hn
    exact inRevokeSet_iff.2 ⟨n, le_trans (Nat.le_add_left n c) hle, hn⟩

theorem Indexed.revokeTransitiveFast_eq_of_parentLt (h : rs.Indexed) (hlt : rs.ParentLt) (c : CapId) :
    rs.revokeTransitiveFast c = rs.revokeTransitive c := by
  rw [revokeTransitiveFast_eq, revokeTransitive_eq]
  apply revokeWhere_congr
  intro entry _
  rw [Bool.eq_iff_iff, decide_eq_true_eq, h.mem_collectDescendants, hlt.inRevokeSet_iff_descends]

/-! ## Tables built by insertions -/

/-- Built from the empty table by insertions, some of which may fail, of capabilities whose parents
are smaller than they are. -/
inductive Built : RevocationState → Prop
  | empty : Built empty
  | insert {rs rs' : RevocationState} {cap : Capability} (h : Built rs)
      (hlt : ∀ p, cap.parent = some p → p < cap.id) (hinsert : rs.insert cap = .ok rs') : Built rs'
  | insertMut {rs rs' : RevocationState} {cap : Capability} {result : Except KernelError Unit}
      (h : Built rs) (hlt : ∀ p, cap.parent = some p → p < cap.id)
      (hinsert : rs.insertMut cap = (result, rs')) : Built rs'

theorem Built.indexed (h : Built rs) : rs.Indexed ∧ rs.ParentLt := by
  induction h with
  | empty =>
    refine ⟨indexed_empty, ?_⟩
    intro k p hparent
    cases hparent
  | insert _ hlt hinsert ih =>
    rw [insert_eq] at hinsert
    split at hinsert
    · cases hinsert
    · next pos hsearch =>
      cases hinsert
      exact ⟨ih.1.inserted hsearch, ih.1.parentLt_inserted ih.2 hsearch hlt⟩
  | insertMut _ hlt hinsert ih =>
    rw [insertMut_eq] at hinsert
    split at hinsert
    · cases hinsert
      exact ih
    · next pos hsearch =>
      cases hinsert
      exact ⟨ih.1.inserted hsearch, ih.1.parentLt_inserted ih.2 hsearch hlt⟩

/-- All four transitive revocations of a present capability build the same table, in which exactly
the capability and its descendants are revoked. -/
theorem revokeTransitive_agree (h : Built rs) {c : CapId} {cap : Capability}
    (hget : rs.get c = some cap) :
    rs.revokeTransitiveMut c = rs.revokeTransitive c ∧
      rs.revokeTransitiveFast c = rs.revokeTransitive c ∧
      rs.revokeTransitiveFastMut c = (.ok (), rs.revokeTransitive c) ∧
      (∀ k, rs.get k = none → (rs.revokeTransitive c).get k = none) ∧
      ∀ k cap', rs.get k = some cap' →
        (rs.Descends k c → (rs.revokeTransitive c).get k = some cap'.revoke) ∧
        (¬ rs.Descends k c → (rs.revokeTransitive c).get k = some cap') := by
  obtain ⟨hindexed, hlt⟩ := h.indexed
  have hfast := hindexed.revokeTransitiveFast_eq_of_parentLt hlt c
  refine ⟨revokeTransitiveMut_eq rs c, hfast, ?_, ?_, ?_⟩
  · rw [hindexed.revokeTransitiveFastMut_eq, if_pos ((contains_iff c).2 ⟨cap, hget⟩), hfast]
  · intro k hnone
    rw [revokeTransitive_eq, get_revokeWhere, hnone]
    rfl
  · intro k cap' hk
    rw [revokeTransitive_eq, get_revokeWhere, hk, ← hlt.inRevokeSet_iff_descends]
    constructor
    · intro hin
      simp [hin]
    · intro hout
      simp [hout]

/-- A readable capability of plugin 1 on resource 7. -/
def readCap (id : CapId) (parent : Option CapId) : Capability where
  id := id
  holder := 1
  target := 7
  rights := Rights.singleton .read
  parent := parent
  epoch := 0
  valid := true
  signature := SealedTag.empty
  holder_ne_zero := by decide
  rights_nonempty := by decide

/-- Capability 2 was delegated to capability 5, which delegated it further to capability 9; the
parent of capability 6 is missing. -/
def delegations : RevocationState where
  caps := [(2, readCap 2 none), (5, readCap 5 (some 2)), (6, readCap 6 (some 3)), (9, readCap 9 (some 5))]
  epoch := 0
  childrenIndex := [(2, [5]), (3, [6]), (5, [9])]

theorem built_delegations : Built delegations := by
  have h₀ : Built _ := @Built.insert _ _ (readCap 9 (some 5)) Built.empty (by decide) rfl
  have h₁ : Built _ := @Built.insert _ _ (readCap 2 none) h₀ (by decide) rfl
  have h₂ : Built _ := @Built.insertMut _ _ (readCap 6 (some 3)) _ h₁ (by decide) rfl
  exact @Built.insertMut _ _ (readCap 5 (some 2)) _ h₂ (by decide) rfl

theorem revokeTransitive_agree_delegations :
    delegations.revokeTransitiveFastMut 2 = (.ok (), delegations.revokeTransitive 2) ∧
      (delegations.revokeTransitive 2).get 9 = some (readCap 9 (some 5)).revoke := by
  have h := @revokeTransitive_agree _ built_delegations 2 (readCap 2 none) rfl
  have hdescends : delegations.Descends 9 2 := ⟨2, rfl⟩
  exact ⟨h.2.2.1, (h.2.2.2.2 9 (readCap 9 (some 5)) rfl).1 hdescends⟩

end RevocationState

end Lionagi.LionCore
