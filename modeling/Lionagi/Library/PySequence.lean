import Mathlib.Data.List.InsertIdx
import Mathlib.Data.List.Nodup
import Mathlib.Tactic.Linarith
import Mathlib.Tactic.Ring

/-!
# Python sequence indexing

Positions, insertion points and extended slices of a mutable sequence, following the index
arithmetic of the language: a negative index counts from the end, an insertion point is clamped,
and a slice is first adjusted to the length. An operation that would raise returns `none`.
-/

universe u

namespace PySequence

variable {α : Type u}

/-! ## Single positions -/

/-- The position denoted by an index in a sequence of length `n`, if it is in range. -/
def normIndex (n : Nat) (i : Int) : Option Nat :=
  if 0 ≤ i then
    if i < n then some i.toNat else none
  else
    if 0 ≤ i + n then some (i + n).toNat else none

variable {j k n : Nat} {i step : Int}

theorem normIndex_lt (h : normIndex n i = some j) : j < n := by
  unfold normIndex at h
  split at h <;> split at h <;> simp only [Option.some.injEq, reduceCtorEq] at h <;> omega

/-- The insertion point denoted by an index: out-of-range indices are clamped. -/
def insertPos (n : Nat) (i : Int) : Nat :=
  if i < 0 then (i + n).toNat else min i.toNat n

theorem insertPos_le (n : Nat) (i : Int) : insertPos n i ≤ n := by
  unfold insertPos
  split <;> omega

def getItem (xs : List α) (i : Int) : Option α :=
  (normIndex xs.length i).bind fun j ↦ xs[j]?

def setItem (xs : List α) (i : Int) (x : α) : Option (List α) :=
  (normIndex xs.length i).map fun j ↦ xs.set j x

def delItem (xs : List α) (i : Int) : Option (List α) :=
  (normIndex xs.length i).map fun j ↦ xs.eraseIdx j

def insertAt (xs : List α) (i : Int) (x : α) : List α :=
  xs.insertIdx (insertPos xs.length i) x

variable {sel xs : List α} {x : α}

theorem getItem_eq_some_iff :
    getItem xs i = some x ↔ ∃ j, normIndex xs.length i = some j ∧ xs[j]? = some x := by
  simp [getItem, Option.bind_eq_some_iff]

theorem mem_of_getItem (h : getItem xs i = some x) : x ∈ xs := by
  obtain ⟨j, -, hj⟩ := getItem_eq_some_iff.1 h
  exact List.mem_of_getElem? hj

@[simp] theorem mem_insertAt (xs : List α) (i : Int) (x y : α) :
    y ∈ insertAt xs i x ↔ y = x ∨ y ∈ xs :=
  List.mem_insertIdx (insertPos_le _ _)

theorem nodup_insertAt (hxs : xs.Nodup) (hx : x ∉ xs) (i : Int) : (insertAt xs i x).Nodup :=
  (List.perm_insertIdx x xs (insertPos_le _ _)).nodup_iff.2 (List.nodup_cons.2 ⟨hx, hxs⟩)

/-- Overwriting one position of a duplicate-free list trades the old element for the new one. -/
theorem mem_set_iff {old y : α} (hxs : xs.Nodup) (hold : xs[j]? = some old) :
    y ∈ xs.set j x ↔ (y ∈ xs ∧ y ≠ old) ∨ y = x := by
  obtain ⟨hj, rfl⟩ := List.getElem?_eq_some_iff.1 hold
  simp only [List.mem_iff_getElem?, List.getElem?_set]
  constructor
  · rintro ⟨i, hi⟩
    by_cases hij : j = i
    · rw [if_pos hij, if_pos (hij ▸ hj), Option.some.injEq] at hi
      exact Or.inr hi.symm
    · rw [if_neg hij] at hi
      refine Or.inl ⟨⟨i, hi⟩, ?_⟩
      rintro rfl
      obtain ⟨hi', heq⟩ := List.getElem?_eq_some_iff.1 hi
      exact hij ((hxs.getElem_inj_iff).1 heq).symm
  · rintro (⟨⟨i, hi⟩, hne⟩ | rfl)
    · refine ⟨i, ?_⟩
      have hij : j ≠ i := by
        rintro rfl
        rw [List.getElem?_eq_getElem hj, Option.some.injEq] at hi
        exact hne hi.symm
      rw [if_neg hij, hi]
    · exact ⟨j, by simp [hj]⟩

/-! ## Slices -/

structure Slice where
  start : Option Int
  stop : Option Int
  step : Option Int
deriving DecidableEq

/-- A slice adjusted to a length: both ends lie in the range its direction allows. -/
structure Bounds (n : Nat) where
  start : Int
  stop : Int
  step : Int
  step_ne : step ≠ 0
  forward : 0 < step → (0 ≤ start ∧ start ≤ n) ∧ 0 ≤ stop ∧ stop ≤ n
  backward : step < 0 → (-1 ≤ start ∧ start < n) ∧ -1 ≤ stop ∧ stop < n

/-- One end of a slice, clamped to a sequence of length `n`. -/
def clampEnd (n : Nat) (step x : Int) : Int :=
  if x < 0 then max (x + n) (if step < 0 then -1 else 0)
  else min x (if step < 0 then n - 1 else n)

theorem clampEnd_forward (h : 0 < step) (x : Int) :
    0 ≤ clampEnd n step x ∧ clampEnd n step x ≤ n := by
  have hneg : ¬ step < 0 := by omega
  unfold clampEnd
  simp only [hneg, if_false]
  split <;> omega

theorem clampEnd_natCast (n k : Nat) : clampEnd n 1 k = (min k n : Nat) := by
  simp [clampEnd]

theorem clampEnd_neg (n : Nat) (hk : 0 < k) : clampEnd n 1 (-k) = (n - k : Nat) := by
  unfold clampEnd
  rw [if_pos (by omega), if_neg (by decide)]
  omega

theorem clampEnd_backward (h : step < 0) (x : Int) :
    -1 ≤ clampEnd n step x ∧ clampEnd n step x < n := by
  unfold clampEnd
  simp only [h, if_true]
  split <;> omega

def Slice.startFor (s : Slice) (n : Nat) (step : Int) : Int :=
  match s.start with
  | some x => clampEnd n step x
  | none => if step < 0 then n - 1 else 0

def Slice.stopFor (s : Slice) (n : Nat) (step : Int) : Int :=
  match s.stop with
  | some x => clampEnd n step x
  | none => if step < 0 then -1 else n

/-- Adjust a slice to a length; a zero step is an error. -/
def Slice.bounds (s : Slice) (n : Nat) : Option (Bounds n) :=
  let step := s.step.getD 1
  if h : step = 0 then none
  else some {
    start := s.startFor n step
    stop := s.stopFor n step
    step
    step_ne := h
    forward := fun hstep ↦ by
      have hneg : ¬ step < 0 := by omega
      refine ⟨?_, ?_⟩
      · unfold Slice.startFor
        split
        · exact clampEnd_forward hstep _
        · simp only [hneg, if_false]; omega
      · unfold Slice.stopFor
        split
        · exact clampEnd_forward hstep _
        · simp only [hneg, if_false]; omega
    backward := fun hstep ↦ by
      refine ⟨?_, ?_⟩
      · unfold Slice.startFor
        split
        · exact clampEnd_backward hstep _
        · simp only [hstep, if_true]; omega
      · unfold Slice.stopFor
        split
        · exact clampEnd_backward hstep _
        · simp only [hstep, if_true]; omega }

namespace Bounds

variable {n : Nat}

def count (b : Bounds n) : Nat :=
  if b.step < 0 then
    if b.stop < b.start then ((b.start - b.stop - 1) / (-b.step) + 1).toNat else 0
  else
    if b.start < b.stop then ((b.stop - b.start - 1) / b.step + 1).toNat else 0

/-- The positions a slice selects, in the order it visits them. -/
def indices (b : Bounds n) : List Nat :=
  (List.range b.count).map fun k : Nat ↦ (b.start + k * b.step).toNat

variable (b : Bounds n)

@[simp] theorem length_indices : b.indices.length = b.count := by
  simp [indices]

/-- The `k`-th selected position is never clamped. -/
theorem index_bounds (hk : k < b.count) : 0 ≤ b.start + k * b.step ∧ b.start + k * b.step < n := by
  unfold count at hk
  rcases lt_or_gt_of_ne b.step_ne with hneg | hpos
  · obtain ⟨⟨hs, hs'⟩, ht, ht'⟩ := b.backward hneg
    rw [if_pos hneg] at hk
    split at hk
    · next hlt =>
      have hk' : (k : Int) ≤ (b.start - b.stop - 1) / (-b.step) := by omega
      have hmul : (k : Int) * (-b.step) ≤ b.start - b.stop - 1 :=
        (Int.le_ediv_iff_mul_le (by omega)).1 hk'
      have hnonneg : 0 ≤ (k : Int) * (-b.step) := mul_nonneg (by omega) (by omega)
      have heq : (k : Int) * (-b.step) = -(k * b.step) := by ring
      constructor <;> linarith
    · omega
  · obtain ⟨⟨hs, hs'⟩, ht, ht'⟩ := b.forward hpos
    rw [if_neg (by omega)] at hk
    split at hk
    · next hlt =>
      have hk' : (k : Int) ≤ (b.stop - b.start - 1) / b.step := by omega
      have hmul : (k : Int) * b.step ≤ b.stop - b.start - 1 :=
        (Int.le_ediv_iff_mul_le hpos).1 hk'
      have hnonneg : 0 ≤ (k : Int) * b.step := mul_nonneg (by omega) (by omega)
      constructor <;> linarith
    · omega

theorem index_lt {i : Nat} (hi : i ∈ b.indices) : i < n := by
  obtain ⟨k, hk, rfl⟩ := List.mem_map.1 hi
  have hbounds := b.index_bounds (List.mem_range.1 hk)
  omega

theorem indices_nodup : b.indices.Nodup := by
  refine List.Nodup.map_on ?_ List.nodup_range
  intro k hk k' hk' heq
  have hbounds := b.index_bounds (List.mem_range.1 hk)
  have hbounds' := b.index_bounds (List.mem_range.1 hk')
  have hsum : b.start + k * b.step = b.start + k' * b.step := by omega
  have hmul : (k : Int) * b.step = k' * b.step := by linarith
  exact_mod_cast mul_right_cancel₀ b.step_ne hmul

/-- A unit step selects exactly the positions between the two ends. -/
theorem mem_indices_of_step_one {b : Bounds n} (hstep : b.step = 1) (i : Nat) :
    i ∈ b.indices ↔ b.start ≤ i ∧ (i : Int) < b.stop := by
  obtain ⟨⟨hs, -⟩, ht, -⟩ := b.forward (by omega)
  have hcount : b.count = (b.stop - b.start).toNat := by
    unfold count
    rw [if_neg (by omega), hstep, Int.ediv_one]
    split <;> omega
  simp only [indices, List.mem_map, List.mem_range, hcount, hstep, mul_one]
  constructor
  · rintro ⟨k, hk, rfl⟩
    omega
  · rintro ⟨hlo, hhi⟩
    exact ⟨i - b.start.toNat, by omega, by omega⟩

end Bounds

/-! ## Reading, deleting and assigning a slice -/

def getSlice (xs : List α) (s : Slice) : Option (List α) :=
  (s.bounds xs.length).map fun b ↦ b.indices.filterMap fun i ↦ xs[i]?

theorem filterMap_getElem?_range (xs : List α) (n : Nat) :
    ((List.range n).filterMap fun i ↦ xs[i]?) = xs.take n := by
  induction n with
  | zero => rfl
  | succ n ih =>
    rw [List.range_succ, List.filterMap_append, ih, List.take_add_one]
    cases h : xs[n]? <;> simp [h]

variable {s : Slice}

/-- A slice without a step is what lies between its two ends. -/
theorem getSlice_of_step_none (xs : List α) (hstep : s.step = none) :
    getSlice xs s = some ((xs.drop (s.startFor xs.length 1).toNat).take
      (s.stopFor xs.length 1 - s.startFor xs.length 1).toNat) := by
  obtain ⟨b, hb, hone, hstart, hstop⟩ : ∃ b, s.bounds xs.length = some b ∧ b.step = 1 ∧
      b.start = s.startFor xs.length 1 ∧ b.stop = s.stopFor xs.length 1 := by
    cases s with
    | mk start stop step =>
      obtain rfl : step = none := hstep
      exact ⟨_, rfl, rfl, rfl, rfl⟩
  have hforward := b.forward (by omega)
  have hcount : b.count = (b.stop - b.start).toNat := by
    unfold Bounds.count
    rw [if_neg (by omega), hone, Int.ediv_one]
    split <;> omega
  rw [getSlice, hb, Option.map_some, ← hstart, ← hstop, ← filterMap_getElem?_range, Bounds.indices,
    List.filterMap_map, hcount]
  congr 2
  funext k
  rw [List.getElem?_drop, Function.comp, hone, mul_one]
  congr 1
  omega

def delSlice (xs : List α) (s : Slice) : Option (List α) :=
  (s.bounds xs.length).map fun b ↦
    (xs.zipIdx.filter fun entry ↦ entry.2 ∉ b.indices).map Prod.fst

/-- Overwrite several positions, one after the other. -/
def setMany (xs : List α) (writes : List (Nat × α)) : List α :=
  writes.foldl (fun acc write ↦ acc.set write.1 write.2) xs

/-- A unit-step slice is replaced by any number of elements, any other by exactly as many as it
selects. -/
def setSlice (xs : List α) (s : Slice) (ys : List α) : Option (List α) :=
  match s.bounds xs.length with
  | none => none
  | some b =>
    if b.step = 1 then
      some (xs.take b.start.toNat ++ ys ++ xs.drop (max b.start b.stop).toNat)
    else if ys.length = b.count then some (setMany xs (b.indices.zip ys))
    else none

theorem mem_getSlice_iff {b : Bounds xs.length} (hb : s.bounds xs.length = some b)
    (hsel : getSlice xs s = some sel) (x : α) : x ∈ sel ↔ ∃ i ∈ b.indices, xs[i]? = some x := by
  simp only [getSlice, hb, Option.map_some, Option.some.injEq] at hsel
  simp [← hsel, List.mem_filterMap]

theorem mem_of_mem_getSlice (hsel : getSlice xs s = some sel) (hx : x ∈ sel) : x ∈ xs := by
  cases hb : s.bounds xs.length with
  | none => simp [getSlice, hb] at hsel
  | some b =>
    obtain ⟨i, -, hi⟩ := (mem_getSlice_iff hb hsel x).1 hx
    exact List.mem_of_getElem? hi

theorem nodup_getSlice (hxs : xs.Nodup) (hsel : getSlice xs s = some sel) : sel.Nodup := by
  cases hb : s.bounds xs.length with
  | none => simp [getSlice, hb] at hsel
  | some b =>
    simp only [getSlice, hb, Option.map_some, Option.some.injEq] at hsel
    rw [← hsel]
    refine List.Nodup.filterMap ?_ b.indices_nodup
    intro i i' x hi hi'
    rw [Option.mem_def] at hi hi'
    obtain ⟨hlt, rfl⟩ := List.getElem?_eq_some_iff.1 hi
    obtain ⟨hlt', heq⟩ := List.getElem?_eq_some_iff.1 hi'
    exact (hxs.getElem_inj_iff.1 heq).symm

/-- In a duplicate-free list the elements a slice leaves out are those at the other positions. -/
theorem mem_and_not_mem_getSlice_iff {b : Bounds xs.length} (hb : s.bounds xs.length = some b)
    (hsel : getSlice xs s = some sel) (hxs : xs.Nodup) (x : α) :
    (x ∈ xs ∧ x ∉ sel) ↔ ∃ i, i ∉ b.indices ∧ xs[i]? = some x := by
  rw [mem_getSlice_iff hb hsel]
  constructor
  · rintro ⟨hmem, hnot⟩
    obtain ⟨i, hi⟩ := List.mem_iff_getElem?.1 hmem
    exact ⟨i, fun hidx ↦ hnot ⟨i, hidx, hi⟩, hi⟩
  · rintro ⟨i, hnot, hi⟩
    refine ⟨List.mem_of_getElem? hi, ?_⟩
    rintro ⟨i', hidx, hi'⟩
    obtain ⟨hlt, rfl⟩ := List.getElem?_eq_some_iff.1 hi
    obtain ⟨hlt', heq⟩ := List.getElem?_eq_some_iff.1 hi'
    exact hnot (hxs.getElem_inj_iff.1 heq ▸ hidx)

variable {writes : List (Nat × α)}

theorem mem_setMany_iff (hidx : (writes.map Prod.fst).Nodup)
    (hlt : ∀ write ∈ writes, write.1 < xs.length) (x : α) :
    x ∈ setMany xs writes ↔
      (∃ i, i ∉ writes.map Prod.fst ∧ xs[i]? = some x) ∨ x ∈ writes.map Prod.snd := by
  induction writes generalizing xs with
  | nil => simp [setMany, List.mem_iff_getElem?]
  | cons write rest ih =>
    obtain ⟨j, v⟩ := write
    simp only [List.map_cons, List.nodup_cons, List.mem_cons, forall_eq_or_imp] at hidx hlt
    have hrest : ∀ write ∈ rest, write.1 < (xs.set j v).length := by
      simpa using hlt.2
    have hstep : setMany xs ((j, v) :: rest) = setMany (xs.set j v) rest := rfl
    rw [hstep, ih hidx.2 hrest]
    simp only [List.map_cons, List.mem_cons, not_or, List.getElem?_set]
    constructor
    · rintro (⟨i, hi, hget⟩ | hmem)
      · by_cases hij : j = i
        · rw [if_pos hij, if_pos (hij ▸ hlt.1), Option.some.injEq] at hget
          exact Or.inr (Or.inl hget.symm)
        · rw [if_neg hij] at hget
          exact Or.inl ⟨i, ⟨fun h ↦ hij h.symm, hi⟩, hget⟩
      · exact Or.inr (Or.inr hmem)
    · rintro (⟨i, ⟨hij, hi⟩, hget⟩ | rfl | hmem)
      · exact Or.inl ⟨i, hi, by rw [if_neg fun h ↦ hij h.symm, hget]⟩
      · exact Or.inl ⟨j, hidx.1, by rw [if_pos rfl, if_pos hlt.1]⟩
      · exact Or.inr hmem

theorem nodup_setMany (hxs : xs.Nodup) (hvalues : (writes.map Prod.snd).Nodup)
    (hfresh : ∀ x ∈ writes.map Prod.snd, x ∉ xs) : (setMany xs writes).Nodup := by
  induction writes generalizing xs with
  | nil => exact hxs
  | cons write rest ih =>
    obtain ⟨j, v⟩ := write
    simp only [List.map_cons, List.nodup_cons, List.mem_cons, forall_eq_or_imp] at hvalues hfresh
    have hset : (xs.set j v).Nodup := hxs.set hfresh.1
    refine ih hset hvalues.2 fun x hx hmem ↦ ?_
    rcases List.mem_or_eq_of_mem_set hmem with hold | rfl
    · exact hfresh.2 x hx hold
    · exact hvalues.1 hx

theorem nodup_splice {ys : List α} {lo hi : Nat} (hlohi : lo ≤ hi) (hxs : xs.Nodup) (hys : ys.Nodup)
    (hfresh : ∀ y ∈ ys, y ∉ xs) : (xs.take lo ++ ys ++ xs.drop hi).Nodup := by
  have hsub : (xs.take lo ++ xs.drop hi).Sublist xs := by
    have happend : (xs.take lo ++ xs.drop hi).Sublist (xs.take lo ++ xs.drop lo) :=
      List.Sublist.append_left (List.drop_sublist_drop_left xs hlohi) _
    rwa [List.take_append_drop] at happend
  obtain ⟨htake, hdrop, hdisj⟩ := List.nodup_append.1 (hsub.nodup hxs)
  rw [List.append_assoc]
  refine List.nodup_append.2 ⟨htake, List.nodup_append.2 ⟨hys, hdrop, ?_⟩, ?_⟩
  · rintro y hy z hz rfl
    exact hfresh y hy (List.mem_of_mem_drop hz)
  · rintro x hx z hz rfl
    rcases List.mem_append.1 hz with hmem | hmem
    · exact hfresh x hmem (List.mem_of_mem_take hx)
    · exact hdisj x hx x hmem rfl

theorem mem_splice_iff (xs ys : List α) (lo hi : Nat) (x : α) :
    x ∈ xs.take lo ++ ys ++ xs.drop hi ↔
      (∃ i, (i < lo ∨ hi ≤ i) ∧ xs[i]? = some x) ∨ x ∈ ys := by
  simp only [List.mem_append, List.mem_iff_getElem? (l := xs.take lo),
    List.mem_iff_getElem? (l := xs.drop hi), List.getElem?_take, List.getElem?_drop]
  constructor
  · rintro ((⟨i, hi'⟩ | hmem) | ⟨i, hi'⟩)
    · split at hi'
      · next hlt => exact Or.inl ⟨i, Or.inl hlt, hi'⟩
      · cases hi'
    · exact Or.inr hmem
    · exact Or.inl ⟨hi + i, Or.inr (by omega), hi'⟩
  · rintro (⟨i, hlt | hge, hget⟩ | hmem)
    · exact Or.inl (Or.inl ⟨i, by rw [if_pos hlt, hget]⟩)
    · exact Or.inr ⟨i - hi, by rw [Nat.add_sub_cancel' hge, hget]⟩
    · exact Or.inl (Or.inr hmem)

/-- Assigning fresh, distinct elements to a slice of a duplicate-free list keeps it
duplicate-free and trades exactly the selected elements for the assigned ones. -/
theorem setSlice_spec {ys zs : List α} (hxs : xs.Nodup) (hys : ys.Nodup) (hfresh : ∀ y ∈ ys, y ∉ xs)
    (hsel : getSlice xs s = some sel) (hset : setSlice xs s ys = some zs) :
    zs.Nodup ∧ ∀ x, x ∈ zs ↔ (x ∈ xs ∧ x ∉ sel) ∨ x ∈ ys := by
  cases hb : s.bounds xs.length with
  | none => simp [getSlice, hb] at hsel
  | some b =>
    simp only [setSlice, hb] at hset
    split at hset
    · next hstep =>
      simp only [Option.some.injEq] at hset
      subst hset
      obtain ⟨⟨hs, -⟩, ht, -⟩ := b.forward (by omega)
      refine ⟨nodup_splice (by omega) hxs hys hfresh, fun x ↦ ?_⟩
      rw [mem_splice_iff, mem_and_not_mem_getSlice_iff hb hsel hxs]
      refine or_congr (exists_congr fun i ↦ and_congr_left fun _ ↦ ?_) Iff.rfl
      rw [Bounds.mem_indices_of_step_one hstep]
      omega
    · split at hset
      · next hlen =>
        simp only [Option.some.injEq] at hset
        subst hset
        have hfst : (b.indices.zip ys).map Prod.fst = b.indices :=
          List.map_fst_zip (by simp [hlen])
        have hsnd : (b.indices.zip ys).map Prod.snd = ys := List.map_snd_zip (by simp [hlen])
        refine ⟨nodup_setMany hxs (by rwa [hsnd]) (by rwa [hsnd]), fun x ↦ ?_⟩
        rw [mem_setMany_iff (by rw [hfst]; exact b.indices_nodup), hfst, hsnd,
          mem_and_not_mem_getSlice_iff hb hsel hxs]
        intro write hwrite
        exact b.index_lt (List.of_mem_zip hwrite).1
      · cases hset

/-! ## Filters -/

/-- An element that a filter drops may be put in anywhere. -/
theorem filter_insertIdx (keep : α → Bool) (hx : keep x = false) (l : List α) (n : ℕ) :
    (l.insertIdx n x).filter keep = l.filter keep := by
  induction n generalizing l with
  | zero => simp [hx]
  | succ n ih =>
    cases l with
    | nil => rfl
    | cons y l => simp [List.filter_cons, ih]

theorem insertAt_append {before after : List α}
    (h : insertPos (before ++ after).length i = before.length) (x : α) :
    insertAt (before ++ after) i x = before ++ x :: after := by
  rw [insertAt, h]
  clear h
  induction before with
  | nil => rfl
  | cons y before ih => rw [List.cons_append, List.length_cons, List.insertIdx_succ_cons, ih,
      List.cons_append]

/-- An element that is taken out goes back to its place at the index it had. -/
theorem insertAt_filter_ne [DecidableEq α] {l : List α} (h : l.Nodup) (hx : x ∈ l) :
    insertAt (l.filter (· ≠ x)) (l.idxOf x : ℕ) x = l := by
  have hidx : l.idxOf x < l.length := List.idxOf_lt_length_of_mem hx
  have herase : l.filter (· ≠ x) = l.eraseIdx (l.idxOf x) := by
    rw [← List.erase_eq_eraseIdx_of_idxOf rfl, h.erase_eq_filter]
    exact List.filter_congr fun y _ ↦ by rw [Bool.eq_iff_iff, decide_eq_true_eq, bne_iff_ne]
  have hpos : insertPos (l.eraseIdx (l.idxOf x)).length (l.idxOf x : ℕ) = l.idxOf x := by
    rw [List.length_eraseIdx_of_lt hidx, insertPos, if_neg (by omega)]
    omega
  calc insertAt (l.filter (· ≠ x)) (l.idxOf x : ℕ) x
      = (l.eraseIdx (l.idxOf x)).insertIdx (l.idxOf x) l[l.idxOf x] := by
        rw [herase, insertAt, hpos, List.getElem_idxOf hidx]
    _ = l := List.insertIdx_eraseIdx_getElem hidx

end PySequence
