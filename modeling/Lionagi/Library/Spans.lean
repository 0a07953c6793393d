import Mathlib.Algebra.Ring.Nat
import Mathlib.Data.List.Chain
import Mathlib.Data.Nat.Notation

/-!
# Slices that cover a list

A span is the two ends of a slice. Spans that start one after the other, each within the one before it and
not too far from its end, cover a list with overlaps; without the overlaps they give the list back.
-/

namespace Spans

variable {α : Type*}

/-- The elements between the two ends. -/
def slice (xs : List α) (span : ℕ × ℕ) : List α := (xs.drop span.1).take (span.2 - span.1)

/-- The next span starts later, at most at the end of the span and at most `overlap` before that end. -/
structure Follows (overlap : ℕ) (span next : ℕ × ℕ) : Prop where
  start_lt : span.1 < next.1
  start_le : next.1 ≤ span.2
  overlap_le : span.2 ≤ next.1 + overlap

/-- The spans cover the positions below `n`. -/
structure Covering (n overlap : ℕ) (spans : List (ℕ × ℕ)) : Prop where
  within : ∀ span ∈ spans, span.1 ≤ span.2 ∧ span.2 ≤ n
  first : spans.head?.map Prod.fst = some 0
  last : spans.getLast?.map Prod.snd = some n
  follows : spans.IsChain (Follows overlap)

/-- Every slice without what it shares with the next one, one after the other. -/
def withoutOverlaps (xs : List α) : List (ℕ × ℕ) → List α
  | [] => []
  | [span] => slice xs span
  | span :: next :: spans => (slice xs span).take (next.1 - span.1) ++ withoutOverlaps xs (next :: spans)

variable (xs : List α)

@[simp] theorem length_slice (span : ℕ × ℕ) : (slice xs span).length = min (span.2 - span.1) (xs.length - span.1) := by
  rw [slice, List.length_take, List.length_drop]

variable {span : ℕ × ℕ}

theorem slice_of_length_le (h : xs.length ≤ span.2) : slice xs span = xs.drop span.1 := by
  rw [slice, List.take_of_length_le]
  rw [List.length_drop]
  omega

/-- What is behind the end completes a slice. -/
theorem slice_append_drop {start stop : ℕ} (h : start ≤ stop) :
    slice xs (start, stop) ++ xs.drop stop = xs.drop start := by
  calc
    _ = (xs.drop start).take (stop - start) ++ (xs.drop start).drop (stop - start) := by
      rw [List.drop_drop, Nat.add_sub_of_le h, slice]
    _ = _ := List.take_append_drop _ _

variable {overlap : ℕ} {spans : List (ℕ × ℕ)}

theorem withoutOverlaps_cons {xs : List α} (hchain : (span :: spans).IsChain (Follows overlap))
    (hlast : (span :: spans).getLast?.map Prod.snd = some xs.length) :
    withoutOverlaps xs (span :: spans) = xs.drop span.1 := by
  induction spans generalizing span with
  | nil =>
    simp only [List.getLast?_singleton, Option.map_some, Option.some.injEq] at hlast
    exact slice_of_length_le xs hlast.ge
  | cons next spans ih =>
    rw [List.isChain_cons_cons] at hchain
    rw [List.getLast?_cons_cons] at hlast
    have hstart := hchain.1.start_lt
    have hwithin := hchain.1.start_le
    rw [withoutOverlaps, ih hchain.2 hlast, slice, List.take_take, Nat.min_eq_left (by omega)]
    calc
      _ = (xs.drop span.1).take (next.1 - span.1) ++ (xs.drop span.1).drop (next.1 - span.1) := by
        rw [List.drop_drop, Nat.add_sub_of_le hstart.le]
      _ = _ := List.take_append_drop _ _

/-- Removing the overlaps of covering slices gives the list back. -/
theorem Covering.withoutOverlaps_eq {xs : List α} (h : Covering xs.length overlap spans) :
    withoutOverlaps xs spans = xs := by
  cases spans with
  | nil => cases h.first
  | cons span spans =>
    have hzero : span.1 = 0 := by simpa using h.first
    rw [withoutOverlaps_cons h.follows h.last, hzero, List.drop_zero]

/-- The first span of the rest starts where the sum of the lengths so far says, at the earliest. -/
theorem sum_le_of_isChain {n : ℕ} (hchain : (span :: spans).IsChain (Follows overlap))
    (hle : ∀ s ∈ span :: spans, s.1 ≤ s.2) (hlast : (span :: spans).getLast?.map Prod.snd = some n) :
    span.1 + ((span :: spans).map fun s ↦ s.2 - s.1).sum ≤ n + overlap * spans.length := by
  induction spans generalizing span with
  | nil =>
    simp only [List.getLast?_singleton, Option.map_some, Option.some.injEq] at hlast
    have := hle span List.mem_cons_self
    simp only [List.map_cons, List.map_nil, List.sum_cons, List.sum_nil, List.length_nil]
    omega
  | cons next spans ih =>
    rw [List.isChain_cons_cons] at hchain
    rw [List.getLast?_cons_cons] at hlast
    have hrest := ih hchain.2 (fun s hs ↦ hle s (List.mem_cons_of_mem _ hs)) hlast
    have hoverlap := hchain.1.overlap_le
    have hspan := hle span List.mem_cons_self
    rw [List.map_cons, List.sum_cons, List.length_cons, Nat.mul_add, Nat.mul_one]
    omega

/-! ## Lists of slices -/

/-- The chunks are slices that cover the list, and without their overlaps they are the list. -/
def Covers (xs : List α) (overlap : ℕ) (chunks : List (List α)) : Prop :=
  ∃ spans, chunks = spans.map (slice xs) ∧ Covering xs.length overlap spans ∧ withoutOverlaps xs spans = xs

theorem covers_of_covering {xs : List α} (h : Covering xs.length overlap spans) :
    Covers xs overlap (spans.map (slice xs)) :=
  ⟨spans, rfl, h, h.withoutOverlaps_eq⟩

/-- The whole list as one chunk. -/
theorem covers_singleton (overlap : ℕ) : Covers xs overlap [xs] := by
  have hslice : slice xs (0, xs.length) = xs := slice_of_length_le xs le_rfl
  have hcovering : Covering xs.length overlap [(0, xs.length)] :=
    { within := by simp
      first := rfl
      last := rfl
      follows := .singleton _ }
  exact ⟨_, by rw [List.map_singleton, hslice], hcovering, hcovering.withoutOverlaps_eq⟩

section Bounds

variable {xs : List α} {overlap : ℕ} {chunks : List (List α)}

theorem length_slice_of_within (h : span.1 ≤ span.2 ∧ span.2 ≤ xs.length) :
    (slice xs span).length = span.2 - span.1 := by
  rw [length_slice]
  omega

/-- The lengths of covering chunks add up to the length of the list and the overlaps. -/
theorem Covers.sum_length_le (h : Covers xs overlap chunks) :
    (chunks.map List.length).sum ≤ xs.length + overlap * (chunks.length - 1) := by
  obtain ⟨spans, rfl, hcovering, -⟩ := h
  have hlengths : (spans.map (slice xs)).map List.length = spans.map fun s ↦ s.2 - s.1 := by
    rw [List.map_map]
    exact List.map_congr_left fun s hs ↦ length_slice_of_within (hcovering.within s hs)
  rw [hlengths, List.length_map]
  cases spans with
  | nil => exact Nat.zero_le _
  | cons span spans =>
    have hsum := sum_le_of_isChain hcovering.follows (fun s hs ↦ (hcovering.within s hs).1) hcovering.last
    rw [List.length_cons, Nat.add_sub_cancel]
    exact (Nat.le_add_left _ _).trans hsum

/-- Only one of the chunks can be the whole list. -/
theorem not_covers_pair : ¬ Covers xs overlap [xs, xs] := by
  intro h
  obtain ⟨spans, hchunks, hcovering, -⟩ := h
  obtain ⟨span, rest, rfl, -, hrest⟩ := List.map_eq_cons_iff.1 hchunks.symm
  obtain ⟨next, rest, rfl, hslice, -⟩ := List.map_eq_cons_iff.1 hrest
  have hfollows := (List.isChain_cons_cons.1 hcovering.follows).1
  have hnext := hcovering.within next (by simp)
  have hlength := length_slice_of_within hnext
  rw [hslice] at hlength
  have hstart := hfollows.start_lt
  omega

end Bounds

end Spans
