import Mathlib.Data.Finset.Basic
import Mathlib.Data.List.Rotate
import Lionagi.Library.PySequence

/-!
# The membership-keeping deque

`_MembersDeque` overrides the mutators of a deque so that each also updates a set bound to it. An
operation is described by the new elements and by its effect on that set. On a set that holds
exactly the elements the effect is exact, and a set of some of the elements stays one.
-/

universe u

namespace Lionagi.Protocols

open PySequence

/-- The mutators of a deque. Item assignment and deletion with a slice always raise. -/
inductive DequeOp (U : Type u) where
  | append (x : U)
  | appendleft (x : U)
  | pop
  | popleft
  | insert (index : Int) (x : U)
  | remove (value : U)
  | extend (iterable : List U)
  | extendleft (iterable : List U)
  | clear
  | setitem (index : Int) (value : U)
  | delitem (index : Int)
  | setslice (key : Slice) (value : List U)
  | delslice (key : Slice)
  | iadd (other : List U)
  | imul (n : Int)
  | rotate (n : Int)
  | reverse

namespace DequeOp

variable {U : Type u} [DecidableEq U]

/-- `if value not in self: members.discard(value)` -/
def discardGone (value : U) (elems : List U) (members : Finset U) : Finset U :=
  if value ∈ elems then members else members.erase value

def rotated (n : Int) (elems : List U) : List U :=
  elems.rotate (elems.length - (n % elems.length).toNat)

def repeated (n : Int) (elems : List U) : List U :=
  (List.replicate n.toNat elems).flatten

/-- The elements after the operation and what it does to the bound set; `none` when it raises. -/
def effect : DequeOp U → List U → Option (List U × (Finset U → Finset U))
  | append x, elems => some (elems ++ [x], fun members ↦ Insert.insert x members)
  | appendleft x, elems => some (x :: elems, fun members ↦ Insert.insert x members)
  | pop, elems =>
    elems.getLast?.map fun value ↦ (elems.dropLast, discardGone value elems.dropLast)
  | popleft, elems => elems.head?.map fun value ↦ (elems.tail, discardGone value elems.tail)
  | insert index x, elems => some (insertAt elems index x, fun members ↦ Insert.insert x members)
  | remove value, elems =>
    if value ∈ elems then some (elems.erase value, discardGone value (elems.erase value))
    else none
  | extend iterable, elems => some (elems ++ iterable, fun members ↦ members ∪ iterable.toFinset)
  | extendleft iterable, elems =>
    some (iterable.reverse ++ elems, fun members ↦ members ∪ iterable.toFinset)
  | clear, _ => some ([], fun _ ↦ ∅)
  | setitem index value, elems =>
    match getItem elems index, setItem elems index value with
    | some old, some elems' =>
      some (elems', fun members ↦ Insert.insert value (discardGone old elems' members))
    | _, _ => none
  | delitem index, elems =>
    match getItem elems index, delItem elems index with
    | some old, some elems' => some (elems', discardGone old elems')
    | _, _ => none
  | setslice _ _, _ => none
  | delslice _, _ => none
  | iadd other, elems => some (elems ++ other, fun members ↦ members ∪ other.toFinset)
  | imul n, elems => if n ≤ 0 then some ([], fun _ ↦ ∅) else some (repeated n elems, id)
  | rotate n, elems => some (rotated n elems, id)
  | reverse, elems => some (elems.reverse, id)

/-- A change of elements together with a change of the bound set keeps the set exact if it was
exact, and a part of the elements if it was one. -/
def Faithful (elems elems' : List U) (f : Finset U → Finset U) : Prop :=
  f elems.toFinset = elems'.toFinset ∧
    ∀ members, members ⊆ elems.toFinset → f members ⊆ elems'.toFinset

variable {elems elems' : List U}

theorem faithful_insert {x : U} (h : ∀ y, y ∈ elems' ↔ y = x ∨ y ∈ elems) :
    Faithful elems elems' fun members ↦ Insert.insert x members := by
  have heq : Insert.insert x elems.toFinset = elems'.toFinset := by
    ext y
    simp [h]
  exact ⟨heq, fun members hsub ↦ heq ▸ Finset.insert_subset_insert x hsub⟩

theorem faithful_union {added : List U} (h : ∀ y, y ∈ elems' ↔ y ∈ elems ∨ y ∈ added) :
    Faithful elems elems' fun members ↦ members ∪ added.toFinset := by
  have heq : elems.toFinset ∪ added.toFinset = elems'.toFinset := by
    ext y
    simp [h]
  exact ⟨heq, fun members hsub ↦ heq ▸ Finset.union_subset_union hsub (Finset.Subset.refl _)⟩

variable {old value : U}

theorem faithful_discardGone (hsub : ∀ y ∈ elems', y ∈ elems)
    (hgone : ∀ y ∈ elems, y = value ∨ y ∈ elems') :
    Faithful elems elems' (discardGone value elems') := by
  refine ⟨?_, fun members hmembers y hy ↦ ?_⟩
  · ext y
    unfold discardGone
    split <;> simp only [Finset.mem_erase, List.mem_toFinset]
    · next hvalue => exact ⟨fun hy ↦ (hgone y hy).elim (fun heq ↦ heq ▸ hvalue) id, hsub y⟩
    · next hvalue =>
      exact ⟨fun hy ↦ (hgone y hy.2).resolve_left hy.1,
        fun hy ↦ ⟨fun heq ↦ hvalue (heq ▸ hy), hsub y hy⟩⟩
  · rw [List.mem_toFinset]
    unfold discardGone at hy
    split at hy
    · next hvalue =>
      exact (hgone y (List.mem_toFinset.1 (hmembers hy))).elim (fun heq ↦ heq ▸ hvalue) id
    · rw [Finset.mem_erase] at hy
      exact (hgone y (List.mem_toFinset.1 (hmembers hy.2))).resolve_left hy.1

/-- Discarding the overwritten element, if it is gone, and then adding the new one. -/
theorem faithful_overwrite (hvalue : value ∈ elems') (hsub : ∀ y ∈ elems', y = value ∨ y ∈ elems)
    (hgone : ∀ y ∈ elems, y = old ∨ y ∈ elems') :
    Faithful elems elems' fun members ↦ Insert.insert value (discardGone old elems' members) := by
  refine ⟨?_, fun members hmembers y hy ↦ ?_⟩
  · ext y
    rw [Finset.mem_insert, List.mem_toFinset]
    unfold discardGone
    constructor
    · rintro (rfl | hy)
      · exact hvalue
      · split at hy
        · next hold => exact (hgone y (List.mem_toFinset.1 hy)).elim (fun heq ↦ heq ▸ hold) id
        · rw [Finset.mem_erase, List.mem_toFinset] at hy
          exact (hgone y hy.2).resolve_left hy.1
    · intro hy
      refine (hsub y hy).imp_right fun hmem ↦ ?_
      split
      · exact List.mem_toFinset.2 hmem
      · next hold =>
        exact Finset.mem_erase.2 ⟨fun heq ↦ hold (heq ▸ hy), List.mem_toFinset.2 hmem⟩
  · rw [List.mem_toFinset]
    rcases Finset.mem_insert.1 hy with rfl | hy
    · exact hvalue
    · unfold discardGone at hy
      split at hy
      · next hold =>
        exact (hgone y (List.mem_toFinset.1 (hmembers hy))).elim (fun heq ↦ heq ▸ hold) id
      · rw [Finset.mem_erase] at hy
        exact (hgone y (List.mem_toFinset.1 (hmembers hy.2))).resolve_left hy.1

theorem faithful_id (h : ∀ y, y ∈ elems' ↔ y ∈ elems) : Faithful elems elems' id := by
  have heq : elems.toFinset = elems'.toFinset := by
    ext y
    simp [h]
  exact ⟨heq, fun members hsub ↦ heq ▸ hsub⟩

theorem faithful_clear (elems : List U) : Faithful elems [] fun _ ↦ ∅ :=
  ⟨rfl, fun _ _ ↦ Finset.empty_subset _⟩

omit [DecidableEq U] in
/-- Overwriting the position of `old` keeps every other element and adds the new one. -/
theorem mem_of_setItem {index : Int} (hold : getItem elems index = some old)
    (hset : setItem elems index value = some elems') :
    value ∈ elems' ∧ (∀ y ∈ elems', y = value ∨ y ∈ elems) ∧
      ∀ y ∈ elems, y = old ∨ y ∈ elems' := by
  obtain ⟨j, hj, hget⟩ := getItem_eq_some_iff.1 hold
  simp only [setItem, hj, Option.map_some, Option.some.injEq] at hset
  subst hset
  obtain ⟨hlt, rfl⟩ := List.getElem?_eq_some_iff.1 hget
  refine ⟨List.mem_set hlt value, fun y hy ↦ (List.mem_or_eq_of_mem_set hy).symm, fun y hy ↦ ?_⟩
  obtain ⟨i, hi⟩ := List.mem_iff_getElem?.1 hy
  by_cases hij : i = j
  · subst hij
    rw [List.getElem?_eq_getElem hlt, Option.some.injEq] at hi
    exact Or.inl hi.symm
  · refine Or.inr (List.mem_iff_getElem?.2 ⟨i, ?_⟩)
    rw [List.getElem?_set_ne (Ne.symm hij), hi]

omit [DecidableEq U] in
theorem mem_of_delItem {index : Int} (hold : getItem elems index = some old)
    (hdel : delItem elems index = some elems') :
    (∀ y ∈ elems', y ∈ elems) ∧ ∀ y ∈ elems, y = old ∨ y ∈ elems' := by
  obtain ⟨j, hj, hget⟩ := getItem_eq_some_iff.1 hold
  simp only [delItem, hj, Option.map_some, Option.some.injEq] at hdel
  subst hdel
  obtain ⟨hlt, rfl⟩ := List.getElem?_eq_some_iff.1 hget
  refine ⟨fun y ↦ List.mem_of_mem_eraseIdx, fun y hy ↦ ?_⟩
  obtain ⟨i, hi, rfl⟩ := List.mem_iff_getElem.1 hy
  by_cases hij : i = j
  · exact Or.inl (by simp [hij])
  · exact Or.inr (List.mem_eraseIdx_iff_getElem.2 ⟨i, hi, hij, rfl⟩)

omit [DecidableEq U] in
theorem mem_repeated {n : Int} (hn : ¬ n ≤ 0) (elems : List U) (y : U) :
    y ∈ repeated n elems ↔ y ∈ elems := by
  have hpos : n.toNat ≠ 0 := by omega
  simp [repeated, List.mem_flatten, List.mem_replicate, hpos]

/-- Every mutator updates the bound set faithfully. -/
theorem faithful_effect {op : DequeOp U} {f : Finset U → Finset U}
    (h : op.effect elems = some (elems', f)) : Faithful elems elems' f := by
  cases op with
  | append x =>
    cases h
    exact faithful_insert fun y ↦ by simp [or_comm]
  | appendleft x =>
    cases h
    exact faithful_insert fun y ↦ by simp
  | pop =>
    simp only [effect, Option.map_eq_some_iff, Prod.mk.injEq] at h
    obtain ⟨value, hlast, rfl, rfl⟩ := h
    obtain ⟨rest, rfl⟩ := List.getLast?_eq_some_iff.1 hlast
    rw [List.dropLast_concat]
    exact faithful_discardGone (fun y hy ↦ List.mem_append_left _ hy) fun y hy ↦ by
      simpa [or_comm] using hy
  | popleft =>
    simp only [effect, Option.map_eq_some_iff, Prod.mk.injEq] at h
    obtain ⟨value, hhead, rfl, rfl⟩ := h
    cases elems with
    | nil => cases hhead
    | cons x rest =>
      cases hhead
      exact faithful_discardGone (fun y hy ↦ List.mem_cons_of_mem _ hy) fun y hy ↦
        List.mem_cons.1 hy
  | insert index x =>
    cases h
    exact faithful_insert fun y ↦ mem_insertAt elems index x y
  | remove value =>
    rw [effect] at h
    split at h
    · cases h
      refine faithful_discardGone (fun y ↦ List.mem_of_mem_erase) fun y hy ↦ ?_
      by_cases hy' : y = value
      · exact Or.inl hy'
      · exact Or.inr ((List.mem_erase_of_ne hy').2 hy)
    · cases h
  | extend iterable =>
    cases h
    exact faithful_union fun y ↦ List.mem_append
  | extendleft iterable =>
    cases h
    exact faithful_union fun y ↦ by simp [or_comm]
  | clear =>
    cases h
    exact faithful_clear elems
  | setitem index value =>
    rw [effect] at h
    split at h
    · next old elems₁ hold hset =>
      cases h
      obtain ⟨hvalue, hsub, hgone⟩ := mem_of_setItem hold hset
      exact faithful_overwrite hvalue hsub hgone
    · cases h
  | delitem index =>
    rw [effect] at h
    split at h
    · next old elems₁ hold hdel =>
      cases h
      obtain ⟨hsub, hgone⟩ := mem_of_delItem hold hdel
      exact faithful_discardGone hsub hgone
    · cases h
  | setslice key value => cases h
  | delslice key => cases h
  | iadd other =>
    cases h
    exact faithful_union fun y ↦ List.mem_append
  | imul n =>
    rw [effect] at h
    split at h
    · cases h
      exact faithful_clear elems
    · next hn =>
      cases h
      exact faithful_id (mem_repeated hn elems)
  | rotate n =>
    cases h
    exact faithful_id fun y ↦ List.mem_rotate
  | reverse =>
    cases h
    exact faithful_id fun y ↦ List.mem_reverse

end DequeOp

end Lionagi.Protocols
