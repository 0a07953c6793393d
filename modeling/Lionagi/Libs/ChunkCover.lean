import Mathlib.Data.List.Range
import Mathlib.Tactic.Ring
import Lionagi.Libs.Chunk

/-!
# What the chunks cover

The chunks of either implementation are windows of the size of a chunk, widened by the overlap, and a last
one that reaches to the end. They cover the content unless there is nothing to cut, or a short tail of a
token list is appended where it is not what is missing.
-/

namespace Lionagi.Libs

open Spans

variable {α : Type}

/-! ## Slices -/

section Slices

variable (xs : List α)
variable (start : ℕ)

theorem drop_min_take (stop : ℕ) :
    (xs.drop (min start xs.length)).take (min stop xs.length - min start xs.length) =
      slice xs (start, stop) := by
  apply List.ext_getElem?
  intro i
  rw [slice, List.getElem?_take, List.getElem?_take, List.getElem?_drop, List.getElem?_drop]
  by_cases hlt : start + i < xs.length
  · rw [show min start xs.length = start by omega]
    congr 1
    simp only
    exact propext (by omega)
  · rw [List.getElem?_eq_none (i := start + i) (by omega), ite_self, if_neg (by omega)]

theorem sliced_nat (stop : ℕ) : sliced xs (some start) (some stop) = slice xs (start, stop) := by
  rw [sliced, PySequence.getSlice_of_step_none xs rfl, Option.getD_some]
  simp only [PySequence.Slice.startFor, PySequence.Slice.stopFor, PySequence.clampEnd_natCast]
  rw [← drop_min_take]
  congr 1
  omega

theorem sliced_none_left (stop : ℕ) : sliced xs none (some stop) = slice xs (0, stop) := by
  rw [sliced, PySequence.getSlice_of_step_none xs rfl, Option.getD_some]
  simp only [PySequence.Slice.startFor, PySequence.Slice.stopFor, PySequence.clampEnd_natCast]
  rw [← drop_min_take, Nat.zero_min]
  rfl

theorem sliced_none_right : sliced xs (some start) none = xs.drop start := by
  rw [sliced, PySequence.getSlice_of_step_none xs rfl, Option.getD_some]
  simp only [PySequence.Slice.startFor, PySequence.Slice.stopFor, PySequence.clampEnd_natCast]
  have hslice : slice xs (start, xs.length) = xs.drop start := slice_of_length_le xs le_rfl
  rw [← hslice, ← drop_min_take]
  congr 1
  omega

theorem sliced_neg_right {count : ℕ} (h : 0 < count) :
    sliced xs (some (-count)) none = xs.drop (xs.length - count) := by
  rw [sliced, PySequence.getSlice_of_step_none xs rfl, Option.getD_some]
  simp only [PySequence.Slice.startFor, PySequence.Slice.stopFor, PySequence.clampEnd_neg _ h]
  rw [List.take_of_length_le]
  · rfl
  · rw [List.length_drop]
    omega

end Slices

/-! ## Windows -/

section Windows

variable (size o len : ℕ)

/-- The ends of the chunk at a position. -/
def window (i : ℕ) : ℕ × ℕ := (size * i - o, min (size * (i + 1) + o) len)

/-- So many chunks, and a last one that starts behind them and reaches to the end. -/
def windows (m : ℕ) : List (ℕ × ℕ) := (List.range m).map (window size o len) ++ [(size * m - o, len)]

variable {size o len}

theorem covering_windows (hsize : 1 ≤ size) (ho : 2 * o ≤ size) {m : ℕ} (hm : m = 0 ∨ size * m < len) :
    Covering len (2 * o) (windows size o len m) where
  within span hspan := by
    rw [windows, List.mem_append, List.mem_map, List.mem_singleton] at hspan
    obtain ⟨i, hi, rfl⟩ | rfl := hspan
    · have hi := List.mem_range.1 hi
      have hstart : size * i ≤ size * m := Nat.mul_le_mul_left _ hi.le
      have hend : size * m < len := hm.resolve_left (by omega)
      simp only [window, Nat.mul_add, Nat.mul_one]
      omega
    · obtain rfl | hm := hm
      · simp
      · simp only
        omega
  first := by
    cases m with
    | zero => simp [windows]
    | succ m => simp [windows, window, List.range_succ_eq_map]
  last := by simp [windows]
  follows := by
    have hnext {i : ℕ} (hi : i < m) (next : ℕ) :
        Follows (2 * o) (window size o len i) (size * (i + 1) - o, next) := by
      have hmul : size * (i + 1) ≤ size * m := Nat.mul_le_mul_left _ hi
      have hend : size * m < len := hm.resolve_left (by omega)
      rw [Nat.mul_add, Nat.mul_one] at hmul ⊢
      constructor
      · simp only [window]
        omega
      · simp only [window, Nat.mul_add, Nat.mul_one]
        omega
      · simp only [window, Nat.mul_add, Nat.mul_one]
        omega
    rw [windows, List.isChain_append]
    refine ⟨?_, .singleton _, ?_⟩
    · rw [List.isChain_map, List.isChain_range]
      intro i hi
      exact hnext (by omega) _
    · cases m with
      | zero => simp
      | succ m =>
        intro span hspan next hlast
        rw [List.range_succ, List.map_append, List.map_singleton, List.getLast?_concat, Option.mem_some_iff] at hspan
        rw [List.head?_singleton, Option.mem_some_iff] at hlast
        rw [← hspan, ← hlast]
        exact hnext (Nat.lt_succ_self m) _

theorem map_slice_windows (xs : List α) (m : ℕ) : (windows size o xs.length m).map (slice xs) =
    (List.range m).map (fun i ↦ slice xs (window size o xs.length i)) ++ [xs.drop (size * m - o)] := by
  rw [windows, List.map_append, List.map_map, List.map_singleton, slice_of_length_le xs le_rfl]
  rfl

theorem covers_windows (hsize : 1 ≤ size) (ho : 2 * o ≤ size) (xs : List α) {m : ℕ}
    (hm : m = 0 ∨ size * m < xs.length) :
    Covers xs (2 * o) ((windows size o xs.length m).map (slice xs)) :=
  covers_of_covering (covering_windows hsize ho hm)

theorem slice_min (xs : List α) (start stop : ℕ) :
    slice xs (start, min stop xs.length) = slice xs (start, stop) := by
  rw [← drop_min_take, ← drop_min_take xs start stop, Nat.min_assoc, Nat.min_self]

end Windows

/-! ## The chunks as windows -/

section Chunks

variable (xs : List α) {size o n : ℕ}

theorem innerChunks_eq (ho : o ≤ size) (hn : 2 ≤ n) : innerChunks xs size o n =
    (List.range (n - 1)).map fun i ↦ slice xs (window size o xs.length i) := by
  obtain ⟨k, rfl⟩ := Nat.exists_eq_add_of_le' hn
  rw [innerChunks, Nat.add_sub_cancel, show k + 2 - 1 = k + 1 by omega, List.range_succ_eq_map, List.map_cons,
    List.range'_eq_map_range, List.map_map, List.map_map]
  congr 1
  · rw [← Nat.cast_add, sliced_none_left, window, slice_min, Nat.mul_zero, Nat.zero_sub, Nat.zero_add, Nat.mul_one]
  · refine List.map_congr_left fun i _ ↦ ?_
    have hle : o ≤ size * (i + 1) := ho.trans (Nat.le_mul_of_pos_right _ (Nat.succ_pos i))
    have hstart : (size * ((1 + i : ℕ) : ℤ) - o) = (size * (i + 1) - o : ℕ) := by
      push_cast [hle]
      ring
    have hstop : (size * (((1 + i : ℕ) : ℤ) + 1) + o) = (size * (i + 1 + 1) + o : ℕ) := by
      push_cast
      ring
    simp only [Function.comp, hstart, hstop, sliced_nat, window, slice_min, Nat.succ_eq_add_one]

theorem sliced_last (ho : o ≤ size) (hn : 2 ≤ n) :
    sliced xs (some (size * (n - 1) - o)) none = xs.drop (size * (n - 1) - o) := by
  have hle : o ≤ size * (n - 1) := ho.trans (Nat.le_mul_of_pos_right _ (by omega))
  have hstart : ((size : ℤ) * (n - 1) - o) = (size * (n - 1) - o : ℕ) := by
    push_cast [hle, show 1 ≤ n by omega]
    ring
  rw [hstart, sliced_none_right]

/-- The chunks with a last one of their own. -/
theorem innerChunks_append (ho : o ≤ size) (hn : 2 ≤ n) :
    innerChunks xs size o n ++ [sliced xs (some (size * (n - 1) - o)) none] =
      (windows size o xs.length (n - 1)).map (slice xs) := by
  rw [map_slice_windows, innerChunks_eq xs ho hn, sliced_last xs ho hn]

/-- The chunks with something appended to the last of them. -/
theorem modifyLast_innerChunks (ho : o ≤ size) (hn : 2 ≤ n) (tail : List α) :
    (innerChunks xs size o n).modifyLast (· ++ tail) =
      (List.range (n - 2)).map (fun i ↦ slice xs (window size o xs.length i)) ++
        [slice xs (window size o xs.length (n - 2)) ++ tail] := by
  obtain ⟨k, rfl⟩ := Nat.exists_eq_add_of_le' hn
  rw [innerChunks_eq xs ho hn, show k + 2 - 1 = k + 1 by omega, Nat.add_sub_cancel, List.range_succ,
    List.map_append, List.map_singleton, List.modifyLast_concat]

/-- What is behind the last window completes it. -/
theorem modifyLast_innerChunks_drop (ho : o ≤ size) (hn : 2 ≤ n) :
    (innerChunks xs size o n).modifyLast (· ++ xs.drop (size * (n - 1) + o)) =
      (windows size o xs.length (n - 2)).map (slice xs) := by
  rw [modifyLast_innerChunks xs ho hn, map_slice_windows]
  congr 2
  obtain ⟨k, rfl⟩ := Nat.exists_eq_add_of_le' hn
  rw [window, slice_min, Nat.add_sub_cancel, show k + 2 - 1 = k + 1 by omega]
  apply slice_append_drop
  rw [Nat.mul_add]
  omega

end Chunks

/-! ## The number of chunks -/

section Count

variable {len size : ℕ}

theorem underflow_pos : 0 < underflow := by
  rw [underflow]
  positivity

theorem chunkCount_eq_zero_iff (hsize : 1 ≤ size) : chunkCount len size = 0 ↔ len * underflow ≤ size := by
  rw [chunkCount]
  split_ifs with h
  · exact iff_of_true rfl h
  · have hlen : 0 < len := Nat.pos_of_ne_zero fun h0 ↦ h (by rw [h0, Nat.zero_mul]; exact Nat.zero_le _)
    refine iff_of_false (Nat.ne_of_gt ?_) h
    exact Nat.div_pos (by omega) hsize

/-- All chunks but the last are full. -/
theorem mul_chunkCount (hsize : 1 ≤ size) (h : chunkCount len size ≠ 0) :
    size * (chunkCount len size - 1) < len ∧ len ≤ size * chunkCount len size := by
  have hcount : chunkCount len size = (len + size - 1) / size :=
    if_neg fun h0 ↦ h ((chunkCount_eq_zero_iff hsize).2 h0)
  have hlow := Nat.div_mul_le_self (len + size - 1) size
  have hhigh := Nat.lt_mul_div_succ (len + size - 1) hsize
  rw [← hcount, Nat.mul_comm] at hlow
  rw [← hcount, Nat.mul_add, Nat.mul_one] at hhigh
  have hpos : size ≤ size * chunkCount len size := Nat.le_mul_of_pos_right _ (Nat.pos_of_ne_zero h)
  rw [Nat.mul_sub, Nat.mul_one]
  omega

end Count

namespace FloatProduct

variable {float : FloatProduct} {size o : ℕ} {overlap : ℚ}

theorem cast_floor_half_le {p : ℚ} {n : ℕ} (h : p ≤ n) : 2 * ⌊p / 2⌋₊ ≤ n := by
  by_cases hp : 0 ≤ p
  · have hfloor : (⌊p / 2⌋₊ : ℚ) ≤ p / 2 := Nat.floor_le (by linarith)
    have hcast : ((2 * ⌊p / 2⌋₊ : ℕ) : ℚ) ≤ n := by
      push_cast
      linarith
    exact_mod_cast hcast
  · rw [Nat.floor_of_nonpos (by linarith)]
    exact Nat.zero_le _

theorem two_mul_overlapSize_le (h0 : 0 ≤ overlap) (h1 : overlap ≤ 1)
    (ho : float.overlapSize size overlap = some o) (hsize : size < 2 ^ 53) : 2 * o ≤ size := by
  obtain ⟨p, hp, rfl⟩ := Option.map_eq_some_iff.1 ho
  exact cast_floor_half_le (float.mul_le hsize h0 h1 hp)

theorem overlapSize_le (h0 : 0 ≤ overlap) (h1 : overlap ≤ 1) (ho : float.overlapSize size overlap = some o) :
    o ≤ size := by
  obtain ⟨p, hp, rfl⟩ := Option.map_eq_some_iff.1 ho
  have hle : p ≤ (2 * size : ℕ) := by exact_mod_cast float.mul_le_two h0 h1 hp
  have htwo := cast_floor_half_le hle
  omega

end FloatProduct

/-! ## Nothing to cut -/

section Zero

variable {xs : List α} {size o : ℕ}

theorem innerChunks_zero (h : xs.length ≤ size) : innerChunks xs size o 0 = [xs] := by
  rw [innerChunks, ← Nat.cast_add, sliced_none_left, slice_of_length_le xs (by simp only; omega)]
  rfl

/-- Before the beginning, a slice starts at the beginning. -/
theorem sliced_before (h : xs.length ≤ size) (hsize : 1 ≤ size) :
    sliced xs (some (size * ((0 : ℕ) - 1) - o)) none = xs := by
  have hstart : ((size : ℤ) * ((0 : ℕ) - 1) - o) = -((size + o : ℕ) : ℤ) := by
    push_cast
    ring
  rw [hstart, sliced_neg_right xs (by omega), Nat.sub_eq_zero_of_le (by omega), List.drop_zero]

theorem sliced_tail_eq_nil_iff (ho : o ≤ size) :
    sliced xs (some (size * ((0 : ℕ) - 1) + o)) none = [] ↔ xs = [] := by
  have hstart : ((size : ℤ) * ((0 : ℕ) - 1) + o) = -((size - o : ℕ) : ℤ) := by
    push_cast [ho]
    ring
  rw [hstart]
  by_cases hzero : size - o = 0
  · rw [hzero, show -((0 : ℕ) : ℤ) = ((0 : ℕ) : ℤ) from rfl, sliced_none_right, List.drop_zero]
  · rw [sliced_neg_right xs (Nat.pos_of_ne_zero hzero), List.drop_eq_nil_iff, ← List.length_eq_zero_iff]
    omega

theorem covers_append_iff {overlap : ℕ} {tail : List α} : Covers xs overlap [xs ++ tail] ↔ tail = [] := by
  constructor
  · intro h
    have hsum := h.sum_length_le
    rw [← List.length_eq_zero_iff]
    simp only [List.map_cons, List.map_nil, List.sum_cons, List.sum_nil, List.length_append, List.length_singleton,
      Nat.sub_self, Nat.mul_zero] at hsum
    omega
  · intro h
    rw [h, List.append_nil]
    exact covers_singleton xs overlap

end Zero

/-- There is something to cut, or the one empty chunk is not followed by another, and the size is not out of
all proportion to the length. -/
def WorthCutting (len size o threshold : ℕ) : Prop :=
  if len = 0 then size + o ≤ threshold else size < len * underflow

variable {threshold : ℕ}

theorem worthCutting_of_chunkCount {len size o : ℕ} (hsize : 1 ≤ size) (h : chunkCount len size ≠ 0) :
    WorthCutting len size o threshold := by
  rw [Ne, chunkCount_eq_zero_iff hsize] at h
  rw [WorthCutting, if_neg fun hzero ↦ h (by rw [hzero, Nat.zero_mul]; exact Nat.zero_le _)]
  omega

variable {xs : List α}

/-- What the two branches of either implementation make of a count of zero. -/
theorem covers_zero_iff {tail : List α} {size o : ℕ} (hlen : xs.length * underflow ≤ size) (htail : tail = [] ↔ xs = [])
    :
    Covers xs (2 * o) (if (threshold : ℤ) < xs.length - (size * ((0 : ℕ) - 1) - o : ℤ) then [xs, xs]
      else [xs ++ tail]) ↔ WorthCutting xs.length size o threshold := by
  rw [WorthCutting]
  split_ifs with hlong hzero hzero
  · refine iff_of_false not_covers_pair ?_
    push_cast at hlong
    omega
  · exact iff_of_false not_covers_pair (Nat.not_lt.2 hlen)
  · rw [covers_append_iff, htail, ← List.length_eq_zero_iff]
    refine iff_of_true hzero ?_
    push_cast at hlong
    omega
  · rw [covers_append_iff, htail, ← List.length_eq_zero_iff]
    exact iff_of_false hzero (Nat.not_lt.2 hlen)

/-! ## Several chunks -/

section Several

variable {size o : ℕ}

theorem covers_pair (hsize : 1 ≤ size) (ho : 2 * o ≤ size) (hlen : size < xs.length) :
    Covers xs (2 * o) [sliced xs none (some (size + o)), sliced xs (some (size - o)) none] := by
  have hstart : (size - o : ℤ) = (size - o : ℕ) := by
    push_cast [show o ≤ size by omega]
    rfl
  have hcovers := covers_windows hsize ho xs (m := 1) (.inr (by omega))
  rw [map_slice_windows, List.range_one, List.map_singleton, window, slice_min] at hcovers
  rw [← Nat.cast_add, sliced_none_left, hstart, sliced_none_right]
  simpa using hcovers

theorem covers_chunkTwoParts (hsize : 1 ≤ size) (ho : 2 * o ≤ size) {text : Text} (hlen : size < text.length)
    (threshold : ℕ) :
    Covers text (2 * o) (chunkTwoParts text size o threshold) := by
  rw [chunkTwoParts]
  split_ifs
  · exact covers_pair hsize ho hlen
  · exact covers_singleton text _

variable {n : ℕ}

theorem covers_chunkMultipleParts (hsize : 1 ≤ size) (ho : 2 * o ≤ size) {text : Text} (hn : 2 ≤ n)
    (hlen : size * (n - 1) < text.length) (threshold : ℕ) :
    Covers text (2 * o) (chunkMultipleParts text size o n threshold) := by
  have hcast : ((n : ℤ) - 1) = (n - 1 : ℕ) := by
    push_cast [show 1 ≤ n by omega]
    rfl
  have hle : size * (n - 2) ≤ size * (n - 1) := Nat.mul_le_mul_left _ (by omega)
  simp only [chunkMultipleParts]
  split_ifs
  · rw [innerChunks_append text (by omega) hn]
    exact covers_windows hsize ho text (.inr hlen)
  · rw [hcast, ← Nat.cast_mul, ← Nat.cast_add, sliced_none_right,
      modifyLast_innerChunks_drop text (by omega) hn]
    exact covers_windows hsize ho text (.inr (hle.trans_lt hlen))

/-- The lengths of the first chunks that are not cut off. -/
theorem sum_length_windows (ho : 2 * o ≤ size) (xs : List α) {m : ℕ} (hm : size * (m + 1) + o ≤ xs.length) :
    (((List.range (m + 1)).map fun i ↦ slice xs (window size o xs.length i)).map List.length).sum =
      size * (m + 1) + o + 2 * o * m := by
  induction m with
  | zero =>
    rw [Nat.zero_add, List.range_one, List.map_singleton, List.map_singleton, List.sum_singleton, window, slice_min,
      length_slice]
    simp only
    omega
  | succ m ih =>
    rw [Nat.mul_add, Nat.mul_one] at hm
    have hstart : o ≤ size * (m + 1) := by
      rw [Nat.mul_add]
      omega
    rw [List.range_succ, List.map_append, List.map_append, List.sum_append, ih (by omega), List.map_singleton,
      List.map_singleton, List.sum_singleton, window, slice_min, length_slice]
    simp only [Nat.mul_add, Nat.mul_one] at hm hstart ⊢
    omega

/-- The tail that a token list gets appended is the part that is missing. -/
def TailMissing (len size o threshold : ℕ) : Prop :=
  3 ≤ chunkCount len size → len + o ≤ threshold + size * (chunkCount len size - 1) → o = 0 ∧ len % size ≠ 0

/-- The tail by its length. -/
theorem sliced_residue (xs : List α) : sliced xs (some (-(xs.length % size : ℕ))) none =
    if xs.length % size = 0 then xs else xs.drop (xs.length - xs.length % size) := by
  split_ifs with h
  · rw [h, show -((0 : ℕ) : ℤ) = ((0 : ℕ) : ℤ) from rfl, sliced_none_right, List.drop_zero]
  · rw [sliced_neg_right xs (Nat.pos_of_ne_zero h)]

theorem sliced_residue_of_le (h : xs.length ≤ size) : sliced xs (some (-(xs.length % size : ℕ))) none = xs := by
  rw [sliced_residue]
  split_ifs with hzero
  · rfl
  · rw [Nat.mod_eq_of_lt (Nat.lt_of_le_of_ne h fun heq ↦ hzero (by rw [heq, Nat.mod_self])), Nat.sub_self,
      List.drop_zero]

theorem length_residue {m r : ℕ} (hlen : xs.length = size * m + r) (hr : r ≤ size) :
    xs.length % size = if r = size then 0 else r := by
  rw [hlen, Nat.mul_add_mod]
  split_ifs with h
  · rw [h, Nat.mod_self]
  · exact Nat.mod_eq_of_lt (Nat.lt_of_le_of_ne hr h)

/-- The merged chunks cover exactly when the tail is what is missing: otherwise their lengths add up to more
than the tokens and the overlaps. -/
theorem covers_modifyLast_iff (hsize : 1 ≤ size) (ho : 2 * o ≤ size) (hn : 3 ≤ n) (hlen : size * (n - 1) < xs.length)
    (hlen' : xs.length ≤ size * n) :
    Covers xs (2 * o) ((innerChunks xs size o n).modifyLast
      (· ++ sliced xs (some (-(xs.length % size : ℕ))) none)) ↔ o = 0 ∧ xs.length % size ≠ 0 := by
  obtain ⟨m, rfl⟩ := Nat.exists_eq_add_of_le' hn
  obtain ⟨r, hr⟩ := Nat.exists_eq_add_of_le hlen.le
  rw [show m + 3 - 1 = m + 2 by omega] at hlen hr
  have hexpand : size * (m + 3) = size * (m + 2) + size := Nat.mul_succ _ _
  have hexpand' : size * (m + 2) = size * (m + 1) + size := Nat.mul_succ _ _
  have hresidue := length_residue hr (by omega)
  have htail : (sliced xs (some (-(xs.length % size : ℕ))) none).length =
      if xs.length % size = 0 then xs.length else r := by
    rw [sliced_residue]
    split_ifs with hzero
    · rfl
    · rw [if_neg fun hsame ↦ hzero (hresidue.trans (if_pos hsame))] at hresidue
      rw [List.length_drop, hresidue]
      omega
  constructor
  · intro h
    have hsum := h.sum_length_le
    rw [modifyLast_innerChunks xs (by omega) (by omega), List.map_append, List.sum_append, List.map_singleton,
      List.sum_singleton, show m + 3 - 2 = m + 1 by omega, sum_length_windows ho xs (by omega),
      List.length_append, List.length_append, htail, window, slice_min, length_slice, List.length_map,
      List.length_range, List.length_singleton, Nat.add_sub_cancel] at hsum
    simp only [Nat.mul_add, Nat.mul_one] at hsum hr hlen
    split_ifs at hsum with hzero
    · omega
    · refine ⟨?_, hzero⟩
      omega
  · intro h
    obtain ⟨rfl, hzero⟩ := h
    have hdrop : sliced xs (some (-(xs.length % size : ℕ))) none = xs.drop (size * (m + 3 - 1) + 0) := by
      rw [if_neg fun hsame ↦ hzero (hresidue.trans (if_pos hsame))] at hresidue
      rw [sliced_residue, if_neg hzero, hresidue, hr, Nat.add_sub_cancel]
      rfl
    rw [hdrop, modifyLast_innerChunks_drop xs (Nat.zero_le _) (by omega)]
    refine covers_windows hsize ho xs (.inr ?_)
    rw [show m + 3 - 2 = m + 1 by omega]
    rw [Nat.mul_add] at hlen ⊢
    omega

end Several

/-! ## The two implementations -/

section Implementations

variable {float : FloatProduct} {size o threshold : ℕ} {overlap : ℚ}

/-- Neither of the implementations raises once the overlap is computed. -/
theorem chunkByChars_eq (text : Text) (hsize : 1 ≤ size) (ho : float.overlapSize size overlap = some o) :
    chunkByChars float text size overlap threshold = .ok
      (match chunkCount text.length size with
      | 1 => [text]
      | 2 => chunkTwoParts text size o threshold
      | nChunks => chunkMultipleParts text size o nChunks threshold) := by
  rw [chunkByChars, if_neg (by omega), ho]
  generalize chunkCount text.length size = n
  match n with
  | 0 => rfl
  | 1 => rfl
  | 2 => rfl
  | n + 3 => rfl

theorem chunkByChars_covers_iff (text : Text) (hsize : 1 ≤ size) (h0 : 0 ≤ overlap) (h1 : overlap ≤ 1)
    (ho : float.overlapSize size overlap = some o) (hlen : text.length < 2 ^ 53) :
    (∃ chunks, chunkByChars float text size overlap threshold = .ok chunks ∧ Covers text (2 * o) chunks) ↔
      WorthCutting text.length size o threshold := by
  have hworth : chunkCount text.length size ≠ 0 → WorthCutting text.length size o threshold :=
    worthCutting_of_chunkCount hsize
  rw [chunkByChars_eq text hsize ho]
  simp only [Except.ok.injEq, exists_eq_left']
  split
  · next hcount => exact iff_of_true (covers_singleton text _) (hworth (by omega))
  · next hcount =>
    have hne : chunkCount text.length size ≠ 0 := by omega
    have hlast := (mul_chunkCount hsize hne).1
    rw [hcount] at hlast
    have ho' := FloatProduct.two_mul_overlapSize_le h0 h1 ho (by omega)
    exact iff_of_true (covers_chunkTwoParts hsize ho' (by omega) threshold) (hworth (by omega))
  · next hone htwo =>
    by_cases hzero : chunkCount text.length size = 0
    · have hlen' := (chunkCount_eq_zero_iff hsize).1 hzero
      have hfits : text.length ≤ size := (Nat.le_mul_of_pos_right _ underflow_pos).trans hlen'
      have hle := FloatProduct.overlapSize_le h0 h1 ho
      rw [← covers_zero_iff hlen' (sliced_tail_eq_nil_iff hle), hzero, chunkMultipleParts, innerChunks_zero hfits,
        sliced_before hfits hsize]
      rfl
    · have hlast := (mul_chunkCount hsize hzero).1
      have hthree : 3 ≤ chunkCount text.length size := by
        have hne_one : chunkCount text.length size ≠ 1 := hone
        have hne_two : chunkCount text.length size ≠ 2 := htwo
        omega
      have hle : size ≤ size * (chunkCount text.length size - 1) :=
        Nat.le_mul_of_pos_right _ (by omega)
      have ho' := FloatProduct.two_mul_overlapSize_le h0 h1 ho (by omega)
      exact iff_of_true (covers_chunkMultipleParts hsize ho' (by omega) hlast threshold) (hworth hzero)

/-- The token lists that the implementation hands to the formatting. -/
theorem chunkByTokens_eq (py : CharTable) (tokens : List Text) (hsize : 1 ≤ size)
    (ho : float.overlapSize size overlap = some o) :
    chunkByTokens py float tokens size overlap threshold true = .ok (List.map .inr
      (match chunkCount tokens.length size with
      | 1 => [tokens]
      | 2 =>
        if tokens.length % size = 0 ∨ threshold < tokens.length % size then
          [sliced tokens none (some (size + o)), sliced tokens (some (size - o)) none]
        else [tokens]
      | nChunks =>
        if (threshold : ℤ) < tokens.length - (size * (nChunks - 1) - o : ℤ) then
          innerChunks tokens size o nChunks ++ [sliced tokens (some (size * (nChunks - 1) - o)) none]
        else (innerChunks tokens size o nChunks).modifyLast
          (· ++ sliced tokens (some (-(tokens.length % size : ℕ))) none))) := by
  rw [chunkByTokens, if_neg (by omega), ho]
  generalize chunkCount tokens.length size = n
  have hseveral (n : ℕ) : chunkTokenMultipleParts py tokens size o n threshold (tokens.length % size) true =
      List.map .inr (if (threshold : ℤ) < tokens.length - (size * (n - 1) - o : ℤ) then
          innerChunks tokens size o n ++ [sliced tokens (some (size * (n - 1) - o)) none]
        else (innerChunks tokens size o n).modifyLast
          (· ++ sliced tokens (some (-(tokens.length % size : ℕ))) none)) := by
    simp only [chunkTokenMultipleParts]
    split_ifs <;> rfl
  match n with
  | 0 => exact congrArg _ (hseveral 0)
  | 1 => rfl
  | 2 =>
    simp only [chunkTokenTwoParts]
    split_ifs <;> rfl
  | n + 3 => exact congrArg _ (hseveral (n + 3))

theorem chunkByTokens_covers_iff (py : CharTable) (tokens : List Text) (hsize : 1 ≤ size) (h0 : 0 ≤ overlap)
    (h1 : overlap ≤ 1) (ho : float.overlapSize size overlap = some o) (hlen : tokens.length < 2 ^ 53) :
    (∃ chunks, chunkByTokens py float tokens size overlap threshold true = .ok (chunks.map .inr) ∧
        Covers tokens (2 * o) chunks) ↔
      WorthCutting tokens.length size o threshold ∧ TailMissing tokens.length size o threshold := by
  have hworth : chunkCount tokens.length size ≠ 0 → WorthCutting tokens.length size o threshold :=
    worthCutting_of_chunkCount hsize
  rw [chunkByTokens_eq py tokens hsize ho]
  simp only [Except.ok.injEq, (List.map_injective_iff.2 Sum.inr_injective).eq_iff, exists_eq_left', TailMissing]
  split
  · next hcount => exact iff_of_true (covers_singleton tokens _) ⟨hworth (by omega), by omega⟩
  · next hcount =>
    have hne : chunkCount tokens.length size ≠ 0 := by omega
    have hlast := (mul_chunkCount hsize hne).1
    rw [hcount] at hlast
    have ho' := FloatProduct.two_mul_overlapSize_le h0 h1 ho (by omega)
    refine iff_of_true ?_ ⟨hworth hne, by omega⟩
    split_ifs
    · exact covers_pair hsize ho' (by omega)
    · exact covers_singleton tokens _
  · next hone htwo =>
    by_cases hzero : chunkCount tokens.length size = 0
    · have hlen' := (chunkCount_eq_zero_iff hsize).1 hzero
      have hfits : tokens.length ≤ size := (Nat.le_mul_of_pos_right _ underflow_pos).trans hlen'
      rw [hzero, innerChunks_zero hfits, sliced_before hfits hsize, sliced_residue_of_le hfits]
      exact (covers_zero_iff hlen' Iff.rfl).trans ⟨fun h ↦ ⟨h, by omega⟩, And.left⟩
    · have hthree : 3 ≤ chunkCount tokens.length size := by
        have hne_one : chunkCount tokens.length size ≠ 1 := hone
        have hne_two : chunkCount tokens.length size ≠ 2 := htwo
        omega
      obtain ⟨hlast, hlast'⟩ := mul_chunkCount hsize hzero
      have hle : size ≤ size * (chunkCount tokens.length size - 1) :=
        Nat.le_mul_of_pos_right _ (by omega)
      have ho' := FloatProduct.two_mul_overlapSize_le h0 h1 ho (by omega)
      have hcast : (size * ((chunkCount tokens.length size : ℤ) - 1) : ℤ) =
          (size * (chunkCount tokens.length size - 1) : ℕ) := by
        push_cast [show 1 ≤ chunkCount tokens.length size by omega]
        rfl
      split_ifs with hlong
      · rw [innerChunks_append tokens (by omega) (by omega)]
        exact iff_of_true (covers_windows hsize ho' tokens (.inr hlast)) ⟨hworth hzero, by omega⟩
      · rw [covers_modifyLast_iff hsize ho' hthree hlast hlast']
        constructor
        · exact fun h ↦ ⟨hworth hzero, fun _ _ ↦ h⟩
        · exact fun h ↦ h.2 hthree (by omega)

/-- The chunks of a text cover it exactly when it is worth cutting, and the chunks of a token list when also a
tail that is merged is what is missing. -/
theorem chunks_cover_iff (float : FloatProduct) (py : CharTable) (text : Text) (tokens : List Text)
    {size o : ℕ} {overlap : ℚ} (threshold : ℕ) (hsize : 1 ≤ size) (h0 : 0 ≤ overlap) (h1 : overlap ≤ 1)
    (ho : float.overlapSize size overlap = some o) (htext : text.length < 2 ^ 53)
    (htokens : tokens.length < 2 ^ 53) :
    ((∃ chunks, chunkByChars float text size overlap threshold = .ok chunks ∧ Covers text (2 * o) chunks) ↔
        WorthCutting text.length size o threshold) ∧
      ((∃ chunks, chunkByTokens py float tokens size overlap threshold true = .ok (chunks.map .inr) ∧
          Covers tokens (2 * o) chunks) ↔
        WorthCutting tokens.length size o threshold ∧ TailMissing tokens.length size o threshold) :=
  ⟨chunkByChars_covers_iff text hsize h0 h1 ho htext, chunkByTokens_covers_iff py tokens hsize h0 h1 ho htokens⟩

end Implementations

/-! ## Three tokens -/

section Three

/-- Products that are not rounded. -/
def FloatProduct.exact : FloatProduct where
  mul size overlap := some (size * overlap)
  mul_le := by
    intro size overlap p _ _ h1 hp
    rw [← Option.some.inj hp]
    exact mul_le_of_le_one_right (Nat.cast_nonneg _) h1
  mul_le_two := by
    intro size overlap p _ h1 hp
    rw [← Option.some.inj hp]
    have hsize : (0 : ℚ) ≤ size := Nat.cast_nonneg _
    have hle : (size : ℚ) * overlap ≤ size := mul_le_of_le_one_right hsize h1
    linarith

theorem overlapSize_exact_zero (size : ℕ) : FloatProduct.exact.overlapSize size 0 = some 0 := by
  simp [FloatProduct.overlapSize, FloatProduct.exact]

def abc : List Text := [['a'], ['b'], ['c']]

theorem chunkCount_abc : chunkCount abc.length 1 = 3 := by
  have hpos := underflow_pos
  rw [chunkCount, if_neg]
  · rfl
  · rw [show abc.length = 3 from rfl]
    omega

theorem worthCutting_three (threshold : ℕ) : WorthCutting 3 1 0 threshold := by
  have hpos := underflow_pos
  rw [WorthCutting, if_neg (by decide)]
  omega

theorem covers_abc :
    (∃ chunks, chunkByChars .exact ['a', 'b', 'c'] 1 0 0 = .ok chunks ∧
        Covers ['a', 'b', 'c'] (2 * 0) chunks) ∧
      ∃ chunks, chunkByTokens .ascii .exact abc 1 0 0 true = .ok (chunks.map .inr) ∧
        Covers abc (2 * 0) chunks := by
  have h := chunks_cover_iff .exact .ascii ['a', 'b', 'c'] abc 0 (by decide) (by decide) (by decide)
    (overlapSize_exact_zero 1) (by decide) (by decide)
  refine ⟨h.1.2 (worthCutting_three 0), h.2.2 ⟨worthCutting_three 0, fun _ hshort ↦ ?_⟩⟩
  rw [chunkCount_abc] at hshort
  exact absurd hshort (by decide)

/-- A tail below the threshold is merged: all three tokens are appended to the second one. -/
theorem not_covers_abc : ¬ ∀ (tokens : List Text) (size o threshold : ℕ), 1 ≤ size →
    FloatProduct.exact.overlapSize size 0 = some o → ∃ chunks,
      chunkByTokens .ascii .exact tokens size 0 threshold true = .ok (chunks.map .inr) ∧
        Covers tokens (2 * o) chunks := by
  intro h
  have hcovers := (chunkByTokens_covers_iff .ascii abc (by decide) (by decide) (by decide)
    (overlapSize_exact_zero 1) (by decide)).1 (h abc 1 0 5 (by decide) (overlapSize_exact_zero 1))
  have hmissing := hcovers.2
  rw [TailMissing, chunkCount_abc] at hmissing
  exact (hmissing le_rfl (by decide)).2 (by decide)

end Three

end Lionagi.Libs
