import Mathlib.Data.List.Nodup
import Mathlib.Data.List.TakeWhile

/-!
# Insertion by rank

Elements with a rank are put into a list, each before the first one of a higher rank. Those of a kind that are in the
order of their ranks stay so exactly when none of a lower rank stands behind that place.
-/

universe u

namespace InsertByRank

variable {α : Type u} [DecidableEq α] (rank : α → ℕ)

/-- The element comes before the first one of a higher rank. -/
def insert (l : List α) (a : α) : List α := l.insertIdx (l.findIdx fun b ↦ decide (rank a < rank b)) a

def upTo (i : ℕ) (b : α) : Bool := decide (rank b ≤ i)

def insertMissing (l : List α) (a : α) : List α := if a ∈ l then l else insert rank l a

/-- The elements of a kind are in the order of their ranks. -/
def SortedOn (kind : α → Bool) (l : List α) : Prop := (l.filter kind).Pairwise fun a b ↦ rank a < rank b

/-- Behind the first element of a higher rank there is none of the kind with a lower one. -/
def HasPlace (kind : α → Bool) (l : List α) (a : α) : Prop :=
  ∀ b ∈ l.dropWhile (upTo rank (rank a)), kind b = true → rank a < rank b

variable {rank} {kind : α → Bool} {l : List α} {a b : α}

omit [DecidableEq α] in
theorem upTo_iff {i : ℕ} : upTo rank i b = true ↔ rank b ≤ i := decide_eq_true_iff

omit [DecidableEq α] in
theorem not_upTo {i : ℕ} : ¬ upTo rank i b = true ↔ i < rank b := by
  rw [upTo_iff, Nat.not_le]

omit [DecidableEq α] in
theorem insert_eq : insert rank l a =
    l.takeWhile (upTo rank (rank a)) ++ a :: l.dropWhile (upTo rank (rank a)) := by
  unfold insert
  induction l with
  | nil => rfl
  | cons b l ih =>
    by_cases h : rank a < rank b
    · have hnot : ¬ upTo rank (rank a) b = true := not_upTo.2 h
      rw [List.findIdx_cons, decide_eq_true h, List.takeWhile_cons_of_neg hnot, List.dropWhile_cons_of_neg hnot]
      rfl
    · have hle : upTo rank (rank a) b = true := upTo_iff.2 (Nat.le_of_not_lt h)
      rw [List.findIdx_cons, decide_eq_false h, List.takeWhile_cons_of_pos hle, List.dropWhile_cons_of_pos hle,
        List.cons_append, ← ih]
      rfl

omit [DecidableEq α] in
theorem mem_insert : b ∈ insert rank l a ↔ b = a ∨ b ∈ l := by
  conv_rhs => rw [← List.takeWhile_append_dropWhile (p := upTo rank (rank a)) (l := l)]
  rw [insert_eq, List.mem_append, List.mem_cons, List.mem_append]
  exact or_left_comm

theorem mem_insertMissing : b ∈ insertMissing rank l a ↔ b = a ∨ b ∈ l := by
  unfold insertMissing
  split
  · next hmem =>
    refine (or_iff_right_of_imp ?_).symm
    rintro rfl
    exact hmem
  · exact mem_insert

theorem nodup_insertMissing (h : l.Nodup) : (insertMissing rank l a).Nodup := by
  unfold insertMissing
  split
  · exact h
  · next hmem =>
    have hle : l.findIdx (fun b ↦ decide (rank a < rank b)) ≤ l.length := List.findIdx_le_length
    exact (List.perm_insertIdx a l hle).nodup_iff.2 (List.nodup_cons.2 ⟨hmem, h⟩)

/-- An element of the lowest rank stays the first one. -/
theorem head?_insertMissing (hhead : l.head? = some b) (hlow : rank b ≤ rank a) :
    (insertMissing rank l a).head? = some b := by
  unfold insertMissing
  split
  · exact hhead
  · cases l with
    | nil => cases hhead
    | cons first l =>
      rw [List.head?_cons, Option.some.injEq] at hhead
      subst hhead
      rw [insert_eq, List.takeWhile_cons_of_pos (upTo_iff.2 hlow)]
      rfl

/-- An element of the lowest rank becomes the first one. -/
theorem head?_insertMissing_self (hmem : a ∉ l) (hlow : ∀ b ∈ l, rank a < rank b) :
    (insertMissing rank l a).head? = some a := by
  rw [insertMissing, if_neg hmem, insert_eq]
  cases l with
  | nil => rfl
  | cons first l =>
    have hnot : ¬ upTo rank (rank a) first = true := not_upTo.2 (hlow first List.mem_cons_self)
    rw [List.takeWhile_cons_of_neg hnot]
    rfl

omit [DecidableEq α] in
/-- A list that is sorted on a kind stays so when an element comes in that is not of the kind or has its place. -/
theorem sortedOn_insert_iff (hne : ∀ b ∈ l, rank b ≠ rank a) :
    SortedOn rank kind (insert rank l a) ↔ SortedOn rank kind l ∧ (kind a = true → HasPlace rank kind l a) := by
  have hbefore : ∀ b ∈ l.takeWhile (upTo rank (rank a)), rank b < rank a := by
    intro b hmem
    have hle : rank b ≤ rank a := upTo_iff.1 (List.mem_takeWhile_imp hmem)
    have hin : b ∈ l := (List.takeWhile_prefix _).subset hmem
    exact Nat.lt_of_le_of_ne hle (hne b hin)
  have hplace : (kind a = true → HasPlace rank kind l a) ↔ kind a = true →
      ∀ b ∈ (l.dropWhile (upTo rank (rank a))).filter kind, rank a < rank b := by
    simp only [HasPlace, List.mem_filter, and_imp]
  have hl : SortedOn rank kind l ↔
      ((l.takeWhile (upTo rank (rank a))).filter kind ++
        (l.dropWhile (upTo rank (rank a))).filter kind).Pairwise fun a b ↦ rank a < rank b := by
    rw [← List.filter_append, List.takeWhile_append_dropWhile]
    rfl
  rw [hl, hplace, SortedOn, insert_eq, List.filter_append, List.filter_cons]
  by_cases hkind : kind a = true
  · rw [if_pos hkind, List.pairwise_append, List.pairwise_append, List.pairwise_cons]
    constructor
    · rintro ⟨hleft, ⟨hafter, hright⟩, hcross⟩
      exact ⟨⟨hleft, hright, fun b hb c hc ↦ hcross b hb c (List.mem_cons_of_mem _ hc)⟩, fun _ ↦ hafter⟩
    · rintro ⟨⟨hleft, hright, hcross⟩, hafter⟩
      refine ⟨hleft, ⟨hafter hkind, hright⟩, fun b hb c hc ↦ ?_⟩
      rcases List.mem_cons.1 hc with rfl | hc
      · exact hbefore b (List.mem_filter.1 hb).1
      · exact hcross b hb c hc
  · rw [if_neg hkind]
    exact (and_iff_left fun hand ↦ absurd hand hkind).symm

omit [DecidableEq α] in
/-- The place of a higher rank is where it was. -/
theorem dropWhile_insert {i : ℕ} (hi : rank a ≤ i) :
    (insert rank l a).dropWhile (upTo rank i) = l.dropWhile (upTo rank i) := by
  have hbefore : ∀ b ∈ l.takeWhile (upTo rank (rank a)), upTo rank i b = true := by
    intro b hmem
    exact upTo_iff.2 ((upTo_iff.1 (List.mem_takeWhile_imp hmem)).trans hi)
  rw [insert_eq, List.dropWhile_append_of_pos hbefore, List.dropWhile_cons_of_pos (upTo_iff.2 hi)]
  conv_rhs => rw [← List.takeWhile_append_dropWhile (p := upTo rank (rank a)) (l := l)]
  rw [List.dropWhile_append_of_pos hbefore]

/-! ## Many elements -/

theorem mem_foldl_insertMissing {as : List α} : b ∈ as.foldl (insertMissing rank) l ↔ b ∈ l ∨ b ∈ as := by
  induction as generalizing l with
  | nil => exact (or_iff_left List.not_mem_nil).symm
  | cons a as ih =>
    rw [List.foldl_cons, ih, mem_insertMissing, List.mem_cons, or_assoc, or_left_comm]

theorem nodup_foldl_insertMissing (h : l.Nodup) (as : List α) : (as.foldl (insertMissing rank) l).Nodup := by
  induction as generalizing l with
  | nil => exact h
  | cons a as ih => exact ih (nodup_insertMissing h)

/-- Elements that come in by rank leave a list sorted on a kind exactly when each of the kind that was missing had
its place in it. -/
theorem sortedOn_foldl_iff {as : List α} (hsorted : as.Pairwise fun a b ↦ rank a < rank b)
    (hrank : ∀ b ∈ l, ∀ a ∈ as, rank b = rank a → b = a) :
    SortedOn rank kind (as.foldl (insertMissing rank) l) ↔
      SortedOn rank kind l ∧ ∀ a ∈ as, a ∉ l → kind a = true → HasPlace rank kind l a := by
  induction as generalizing l with
  | nil => exact (and_iff_left fun a hmem ↦ absurd hmem List.not_mem_nil).symm
  | cons a as ih =>
    obtain ⟨hlow, hsorted⟩ := List.pairwise_cons.1 hsorted
    have hnext : ∀ b ∈ insertMissing rank l a, ∀ c ∈ as, rank b = rank c → b = c := by
      intro b hmem c hc heq
      rcases mem_insertMissing.1 hmem with rfl | hmem
      · exact absurd heq (Nat.ne_of_lt (hlow c hc))
      · exact hrank b hmem c (List.mem_cons_of_mem _ hc) heq
    rw [List.foldl_cons, ih hsorted hnext, List.forall_mem_cons]
    by_cases hmem : a ∈ l
    · rw [insertMissing, if_pos hmem]
      exact and_congr_right fun _ ↦ (and_iff_right fun hnot ↦ absurd hmem hnot).symm
    · have hne : ∀ b ∈ l, rank b ≠ rank a := by
        intro b hb heq
        exact hmem (hrank b hb a List.mem_cons_self heq ▸ hb)
      rw [insertMissing, if_neg hmem, sortedOn_insert_iff hne, and_assoc]
      refine and_congr_right fun _ ↦ and_congr ⟨fun h _ ↦ h, fun h ↦ h hmem⟩ ?_
      refine forall₂_congr fun c hc ↦ ?_
      have hnew : c ∉ insert rank l a ↔ c ∉ l := by
        rw [mem_insert, not_or]
        refine and_iff_right ?_
        rintro rfl
        exact Nat.lt_irrefl _ (hlow c hc)
      rw [hnew, HasPlace, HasPlace, dropWhile_insert (Nat.le_of_lt (hlow c hc))]

end InsertByRank
