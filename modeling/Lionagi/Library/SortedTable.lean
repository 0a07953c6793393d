import Mathlib.Data.List.InsertIdx
import Mathlib.Data.List.Destutter
import Mathlib.Data.List.Sort

/-!
# Vectors sorted by a key

A table is a list whose entries have strictly increasing keys. Lookups, updates and insertions go
through one binary search, which answers with the position of the key or with the position at which
the key belongs.
-/

universe u v

namespace SortedTable

variable {α : Type u} {κ : Type v} [LinearOrder κ]

/-- `.ok` with the position of the key `k`, or `.error` with the position at which it belongs. -/
def binarySearchByKey (key : α → κ) (k : κ) : List α → Except ℕ ℕ
  | [] => .error 0
  | a :: rest =>
    if key a < k then
      match binarySearchByKey key k rest with
      | .ok i => .ok (i + 1)
      | .error i => .error (i + 1)
    else if key a = k then .ok 0
    else .error 0

def Sorted (key : α → κ) (l : List α) : Prop := l.Pairwise fun a b ↦ key a < key b

def lookup (key : α → κ) (k : κ) (l : List α) : Option α :=
  match binarySearchByKey key k l with
  | .ok i => l[i]?
  | .error _ => none

section Search

variable {key : α → κ} {k : κ}

theorem sorted_nil : Sorted key [] := List.Pairwise.nil

variable {a : α} {l : List α}

theorem sorted_cons : Sorted key (a :: l) ↔ (∀ b ∈ l, key a < key b) ∧ Sorted key l :=
  List.pairwise_cons

theorem Sorted.eq_of_key_eq (hsorted : Sorted key l) {b : α} (ha : a ∈ l) (hb : b ∈ l) (heq : key a = key b) :
    a = b := by
  induction l with
  | nil => simp at ha
  | cons c l ih =>
    rw [sorted_cons] at hsorted
    rcases List.mem_cons.1 ha with hac | ha <;> rcases List.mem_cons.1 hb with hbc | hb
    · rw [hac, hbc]
    · rw [hac] at heq
      exact absurd heq (hsorted.1 b hb).ne
    · rw [hbc] at heq
      exact absurd heq.symm (hsorted.1 a ha).ne
    · exact ih hsorted.2 ha hb

theorem getElem?_of_search_ok {i : ℕ} (h : binarySearchByKey key k l = .ok i) : ∃ a, l[i]? = some a ∧ key a = k := by
  induction l generalizing i with
  | nil => simp [binarySearchByKey] at h
  | cons a l ih =>
    unfold binarySearchByKey at h
    split at h
    · split at h
      · next j hj =>
        cases h
        simpa using ih hj
      · cases h
    · split at h
      · next heq =>
        cases h
        exact ⟨a, rfl, heq⟩
      · cases h

theorem not_mem_of_search_error (hsorted : Sorted key l) {i : ℕ} (h : binarySearchByKey key k l = .error i) :
    ∀ a ∈ l, key a ≠ k := by
  induction l generalizing i with
  | nil => simp
  | cons a l ih =>
    rw [sorted_cons] at hsorted
    unfold binarySearchByKey at h
    intro b hb
    split at h
    · next hlt =>
      split at h
      · cases h
      · next j hj =>
        rcases List.mem_cons.1 hb with rfl | hb
        · exact hlt.ne
        · exact ih hsorted.2 hj b hb
    · next hlt =>
      split at h
      · cases h
      · next hne =>
        rcases List.mem_cons.1 hb with rfl | hb
        · exact hne
        · have hgt : k < key a := lt_of_le_of_ne (not_lt.1 hlt) (Ne.symm hne)
          exact (hgt.trans (hsorted.1 b hb)).ne'

theorem lookup_eq_some_iff (hsorted : Sorted key l) : lookup key k l = some a ↔ a ∈ l ∧ key a = k := by
  unfold lookup
  cases h : binarySearchByKey key k l with
  | ok i =>
    obtain ⟨b, hb, hkey⟩ := getElem?_of_search_ok h
    have hmem : b ∈ l := List.mem_of_getElem? hb
    simp only [hb, Option.some.injEq]
    constructor
    · rintro rfl
      exact ⟨hmem, hkey⟩
    · intro ha
      exact hsorted.eq_of_key_eq hmem ha.1 (hkey.trans ha.2.symm)
  | error i =>
    have habsent := not_mem_of_search_error hsorted h
    constructor
    · intro hnone
      cases hnone
    · intro ha
      exact absurd ha.2 (habsent a ha.1)

theorem key_of_lookup (h : lookup key k l = some a) : key a = k := by
  unfold lookup at h
  split at h
  · next i hi =>
    obtain ⟨b, hb, hkey⟩ := getElem?_of_search_ok hi
    rw [hb] at h
    cases h
    exact hkey
  · cases h

theorem mem_of_lookup (h : lookup key k l = some a) : a ∈ l := by
  unfold lookup at h
  split at h
  · exact List.mem_of_getElem? h
  · cases h

theorem lookup_eq_none_iff (hsorted : Sorted key l) : lookup key k l = none ↔ ∀ a ∈ l, key a ≠ k := by
  rw [Option.eq_none_iff_forall_ne_some]
  constructor
  · intro h a ha hkey
    exact h a ((lookup_eq_some_iff hsorted).2 ⟨ha, hkey⟩)
  · intro h a ha
    rw [lookup_eq_some_iff hsorted] at ha
    exact h a ha.1 ha.2

theorem search_isOk_iff (hsorted : Sorted key l) : (∃ i, binarySearchByKey key k l = .ok i) ↔ ∃ a ∈ l, key a = k := by
  constructor
  · rintro ⟨i, hi⟩
    obtain ⟨a, ha, hkey⟩ := getElem?_of_search_ok hi
    exact ⟨a, List.mem_of_getElem? ha, hkey⟩
  · rintro ⟨a, ha, hkey⟩
    cases h : binarySearchByKey key k l with
    | ok i => exact ⟨i, rfl⟩
    | error i => exact absurd hkey (not_mem_of_search_error hsorted h a ha)

end Search

/-! ## Updates -/

section Updates

variable {key : α → κ} {k : κ}
variable {l : List α} {i : ℕ}

theorem search_error_le (h : binarySearchByKey key k l = .error i) : i ≤ l.length := by
  induction l generalizing i with
  | nil =>
    cases h
    rfl
  | cons a l ih =>
    unfold binarySearchByKey at h
    split at h
    · split at h
      · cases h
      · next j hj =>
        cases h
        simpa using ih hj
    · split at h
      · cases h
      · cases h
        exact Nat.zero_le _

variable {x : α}

omit [LinearOrder κ] in
theorem insertIdx_eq_append (h : i ≤ l.length) : l.insertIdx i x = l.take i ++ x :: l.drop i := by
  induction l generalizing i with
  | nil =>
    obtain rfl : i = 0 := by simpa using h
    rfl
  | cons a l ih =>
    cases i with
    | zero => rfl
    | succ i =>
      rw [List.insertIdx_succ_cons, ih (by simpa using h)]
      rfl

theorem mem_insertIdx_of_search (h : binarySearchByKey key k l = .error i) {a : α} :
    a ∈ l.insertIdx i x ↔ a = x ∨ a ∈ l :=
  List.mem_insertIdx (search_error_le h)

theorem Sorted.insertIdx (hsorted : Sorted key l) (hx : key x = k) (h : binarySearchByKey key k l = .error i) :
    Sorted key (l.insertIdx i x) := by
  induction l generalizing i with
  | nil =>
    cases h
    exact List.pairwise_singleton _ x
  | cons a l ih =>
    rw [sorted_cons] at hsorted
    unfold binarySearchByKey at h
    split at h
    · next hlt =>
      split at h
      · cases h
      · next j hj =>
        cases h
        rw [List.insertIdx_succ_cons, sorted_cons]
        refine ⟨?_, ih hsorted.2 hj⟩
        intro b hb
        rcases (mem_insertIdx_of_search hj).1 hb with rfl | hb
        · rw [hx]
          exact hlt
        · exact hsorted.1 b hb
    · next hlt =>
      split at h
      · cases h
      · next hne =>
        cases h
        have hgt : key x < key a := by
          rw [hx]
          exact lt_of_le_of_ne (not_lt.1 hlt) (Ne.symm hne)
        rw [List.insertIdx_zero, sorted_cons, sorted_cons]
        refine ⟨?_, hsorted⟩
        intro b hb
        rcases List.mem_cons.1 hb with rfl | hb
        · exact hgt
        · exact hgt.trans (hsorted.1 b hb)

variable {f : α → α}

/-- An update that keeps the keys keeps the order. -/
theorem Sorted.map (hsorted : Sorted key l) (hf : ∀ a, key (f a) = key a) : Sorted key (l.map f) := by
  unfold Sorted
  rw [List.pairwise_map]
  exact hsorted.imp fun hlt ↦ by rwa [hf, hf]

/-- Replacing the entry that the search found is replacing every entry with that key. -/
theorem modify_eq_map (hsorted : Sorted key l) (f : α → α) (h : binarySearchByKey key k l = .ok i) :
    l.modify i f = l.map fun a ↦ if key a = k then f a else a := by
  obtain ⟨b, hb, hkey⟩ := getElem?_of_search_ok h
  apply List.ext_getElem?
  intro j
  rw [List.getElem?_modify, List.getElem?_map]
  cases ha : l[j]? with
  | none => simp
  | some a =>
    by_cases hij : i = j
    · subst hij
      rw [hb] at ha
      cases ha
      simp [hkey]
    · have hne : key a ≠ k := by
        intro heq
        have hab : a = b := hsorted.eq_of_key_eq (List.mem_of_getElem? ha)
          (List.mem_of_getElem? hb) (heq.trans hkey.symm)
        subst hab
        have hnodup : l.Nodup := hsorted.imp fun hlt heq ↦ hlt.ne (congrArg key heq)
        have hi := (List.getElem?_eq_some_iff.1 hb).1
        exact hij ((List.getElem?_inj hi hnodup).1 (hb.trans ha.symm))
      simp [hij, hne]

theorem lookup_insertIdx (hsorted : Sorted key l) (hx : key x = k) (h : binarySearchByKey key k l = .error i) (k' : κ) :
    lookup key k' (l.insertIdx i x) = if k' = k then some x else lookup key k' l := by
  have hsorted' := hsorted.insertIdx hx h
  apply Option.ext
  intro a
  rw [lookup_eq_some_iff hsorted', mem_insertIdx_of_search h]
  split
  · next heq =>
    subst heq
    have habsent := not_mem_of_search_error hsorted h
    constructor
    · rintro ⟨rfl | ha, hkey⟩
      · rfl
      · exact absurd hkey (habsent a ha)
    · intro heq
      cases heq
      exact ⟨Or.inl rfl, hx⟩
  · next hne =>
    rw [lookup_eq_some_iff hsorted]
    constructor
    · rintro ⟨rfl | ha, hkey⟩
      · exact absurd (hkey.symm.trans hx) hne
      · exact ⟨ha, hkey⟩
    · rintro ⟨ha, hkey⟩
      exact ⟨Or.inr ha, hkey⟩

theorem search_map (hf : ∀ a, key (f a) = key a) (l : List α) :
    binarySearchByKey key k (l.map f) = binarySearchByKey key k l := by
  induction l with
  | nil => rfl
  | cons a l ih => simp only [List.map_cons, binarySearchByKey, hf, ih]

/-- An update that keeps the keys commutes with lookups. -/
theorem lookup_map (hf : ∀ a, key (f a) = key a) (l : List α) : lookup key k (l.map f) = (lookup key k l).map f := by
  unfold lookup
  rw [search_map hf]
  cases binarySearchByKey key k l with
  | ok i => exact List.getElem?_map
  | error i => rfl

theorem search_modify (hf : ∀ a, key (f a) = key a) (l : List α) (i : ℕ) :
    binarySearchByKey key k (l.modify i f) = binarySearchByKey key k l := by
  induction l generalizing i with
  | nil => simp
  | cons a l ih =>
    cases i with
    | zero => simp only [List.modify_zero_cons, binarySearchByKey, hf]
    | succ i => simp only [List.modify_succ_cons, binarySearchByKey, ih]

/-- An update of the entry that the search found changes the lookup of its key alone. -/
theorem lookup_modify (hf : ∀ a, key (f a) = key a) (h : binarySearchByKey key k l = .ok i) (k' : κ) :
    lookup key k' (l.modify i f) = if k' = k then (lookup key k l).map f else lookup key k' l := by
  unfold lookup
  rw [search_modify hf, h]
  by_cases hk : k' = k
  · subst hk
    simp [h]
  · rw [if_neg hk]
    cases h' : binarySearchByKey key k' l with
    | error j => rfl
    | ok j =>
      have hij : i ≠ j := by
        rintro rfl
        obtain ⟨a, ha, hkey⟩ := getElem?_of_search_ok h
        obtain ⟨b, hb, hkey'⟩ := getElem?_of_search_ok h'
        rw [ha, Option.some.injEq] at hb
        exact hk (hkey'.symm.trans (hb ▸ hkey))
      simp [hij]

theorem lookup_eq_none_of_search (h : binarySearchByKey key k l = .error i) : lookup key k l = none := by
  rw [lookup, h]

theorem Sorted.modify (hsorted : Sorted key l) (hf : ∀ a, key (f a) = key a) (i : ℕ) : Sorted key (l.modify i f) := by
  induction l generalizing i with
  | nil => simpa using hsorted
  | cons a l ih =>
    rw [sorted_cons] at hsorted
    cases i with
    | zero =>
      rw [List.modify_zero_cons, sorted_cons, hf]
      exact hsorted
    | succ i =>
      rw [List.modify_succ_cons, sorted_cons]
      refine ⟨fun b hb ↦ ?_, ih hsorted.2 i⟩
      obtain ⟨j, hj⟩ := List.mem_iff_getElem?.1 hb
      rw [List.getElem?_modify] at hj
      cases hc : l[j]? with
      | none => simp [hc] at hj
      | some c =>
        rw [hc] at hj
        have hkey : key b = key c := by
          by_cases hij : i = j
          · simp only [hij, if_true, Option.map_eq_map, Option.map_some, Option.some.injEq] at hj
            rw [← hj, hf]
          · simp only [hij, if_false, Option.map_eq_map, Option.map_some, Option.some.injEq] at hj
            rw [← hj]
        rw [hkey]
        exact hsorted.1 c (List.mem_of_getElem? hc)

omit [LinearOrder κ] in
/-- Updating a list of positions, one after the other, with an idempotent update. -/
theorem getElem?_foldl_modify (hf : ∀ a, f (f a) = f a) (positions : List ℕ) (l : List α) (j : ℕ) :
    (positions.foldl (fun l i ↦ l.modify i f) l)[j]? =
      if j ∈ positions then l[j]?.map f else l[j]? := by
  induction positions generalizing l with
  | nil => simp
  | cons i positions ih =>
    rw [List.foldl_cons, ih, List.getElem?_modify]
    by_cases hij : i = j
    · subst hij
      cases l[i]? <;> simp [hf]
    · have hji : j ≠ i := Ne.symm hij
      simp [hij, hji]

end Updates

/-! ## Sorting and removing repetitions -/

section Normalise

variable (l : List κ)

theorem pairwise_le_mergeSort : (l.mergeSort (· ≤ ·)).Pairwise (· ≤ ·) := by
  have h : (l.mergeSort (· ≤ ·)).Pairwise fun a b ↦ decide (a ≤ b) = true := by
    apply List.pairwise_mergeSort
    · intro a b c hab hbc
      exact decide_eq_true ((of_decide_eq_true hab).trans (of_decide_eq_true hbc))
    · intro a b
      simpa using le_total a b
  exact h.imp of_decide_eq_true

variable {l} in
theorem sorted_mergeSort_of_nodup (h : l.Nodup) : Sorted id (l.mergeSort (· ≤ ·)) := by
  have hnodup : (l.mergeSort (· ≤ ·)).Nodup := (List.mergeSort_perm l _).nodup_iff.2 h
  exact (pairwise_le_mergeSort l).imp₂ (fun _ _ hle hne ↦ lt_of_le_of_ne hle hne) hnodup

/-- Sorted, and without the repetitions that sorting brings together. -/
def sortDedup : List κ := (l.mergeSort (· ≤ ·)).destutter (· ≠ ·)

theorem sorted_sortDedup : Sorted id (sortDedup l) := by
  have hsub : (sortDedup l).Pairwise (· ≤ ·) := (pairwise_le_mergeSort l).sublist (List.destutter_sublist _ _)
  have hne : (sortDedup l).IsChain (· ≠ ·) := List.isChain_destutter _ _
  have hlt : (sortDedup l).IsChain (· < ·) := by
    have hchain := hsub.isChain
    rw [List.isChain_iff_getElem] at hchain hne ⊢
    intro i hi
    exact lt_of_le_of_ne (hchain i hi) (hne i hi)
  exact hlt.pairwise

end Normalise

/-! ## Stable sorting -/

section StableSort

variable (key : α → κ)

/-- Elements with equal keys keep their order. -/
def sortBy (l : List α) : List α := l.insertionSort fun a b ↦ key a ≤ key b

variable {key} {a : α} {l : List α} {p : α → Bool}

theorem mem_sortBy : a ∈ sortBy key l ↔ a ∈ l := List.mem_insertionSort _

theorem pairwise_sortBy : (sortBy key l).Pairwise fun a b ↦ key a ≤ key b := by
  have : Std.Total fun a b : α ↦ key a ≤ key b := ⟨fun a b ↦ le_total (key a) (key b)⟩
  have : IsTrans α fun a b ↦ key a ≤ key b := ⟨fun _ _ _ hab hbc ↦ hab.trans hbc⟩
  exact List.pairwise_insertionSort _ _

theorem filter_orderedInsert (h : l.Pairwise fun a b ↦ key a ≤ key b) :
    (l.orderedInsert (fun a b ↦ key a ≤ key b) a).filter p =
      if p a then (l.filter p).orderedInsert (fun a b ↦ key a ≤ key b) a else l.filter p := by
  induction l with
  | nil => cases hp : p a <;> simp [hp]
  | cons b l ih =>
    rw [List.pairwise_cons] at h
    by_cases hab : key a ≤ key b
    · rw [List.orderedInsert_cons_of_le (fun a b ↦ key a ≤ key b) _ hab, List.filter_cons]
      split
      · -- every element that is left has a key that is not smaller
        cases hfilter : (b :: l).filter p with
        | nil => rfl
        | cons c rest =>
          have hc : c ∈ b :: l := List.mem_of_mem_filter (hfilter ▸ List.mem_cons_self)
          have hac : key a ≤ key c := by
            obtain rfl | hmem := List.mem_cons.1 hc
            · exact hab
            · exact hab.trans (h.1 c hmem)
          exact (List.orderedInsert_cons_of_le (fun a b ↦ key a ≤ key b) _ hac).symm
      · rfl
    · rw [List.orderedInsert_of_not_le (fun a b ↦ key a ≤ key b) _ hab, List.filter_cons, ih h.2, List.filter_cons]
      cases hb : p b with
      | false => simp
      | true =>
        cases ha : p a with
        | false => simp
        | true => simp [List.orderedInsert_of_not_le (fun a b ↦ key a ≤ key b) _ hab]

/-- What is filtered out does not matter for the order of the rest. -/
theorem filter_sortBy : (sortBy key l).filter p = sortBy key (l.filter p) := by
  induction l with
  | nil => rfl
  | cons a l ih =>
    calc (sortBy key (a :: l)).filter p
      _ = ((sortBy key l).orderedInsert (fun a b ↦ key a ≤ key b) a).filter p := rfl
      _ = if p a then ((sortBy key l).filter p).orderedInsert (fun a b ↦ key a ≤ key b) a
          else (sortBy key l).filter p := filter_orderedInsert pairwise_sortBy
      _ = sortBy key ((a :: l).filter p) := by
        rw [ih, List.filter_cons]
        split
        · rfl
        · rfl

end StableSort

end SortedTable
