import Lionagi.Library.InsertByRank
import Lionagi.Library.PySequence
import Lionagi.Library.Transition
import Lionagi.Tools.Context

/-!
# The curated view

The view is a part of the record without repetitions, and the record only grows. A restored message goes before the
first active one that comes later in the record, and a summary comes later than everything before it. So the messages
that are not summaries stay in their order exactly as long as no summary stands before an active message that is
earlier than a restored one.
-/

namespace Lionagi.Tools

open Transition InsertByRank

variable {U : Type*} [DecidableEq U]

/-! ## Lists without repetitions -/

section Nodup

variable {record : List U}

/-- A list without repetitions is in the order of its positions. -/
theorem pairwise_idxOf (h : record.Nodup) : record.Pairwise fun a b ↦ record.idxOf a < record.idxOf b := by
  rw [List.pairwise_iff_getElem]
  intro i j hi hj hlt
  rw [h.idxOf_getElem i hi, h.idxOf_getElem j hj]
  exact hlt

omit [DecidableEq U] in
theorem head?_filter {l : List U} {keep : U → Bool} {uid : U} (h : l.head? = some uid) (hkeep : keep uid = true) :
    (l.filter keep).head? = some uid := by
  cases l with
  | nil => cases h
  | cons first l =>
    rw [List.head?_cons, Option.some.injEq] at h
    subst h
    rw [List.filter_cons_of_pos hkeep]
    rfl

omit [DecidableEq U] in
/-- The first element is not in a span from the second position on. -/
theorem not_mem_span {l : List U} (h : l.Nodup) {uid : U} (hhead : l.head? = some uid) {s : ℤ} (hs : 1 ≤ s) (e : ℤ) :
    uid ∉ BranchContext.span l s e := by
  cases l with
  | nil => cases hhead
  | cons first l =>
    rw [List.head?_cons, Option.some.injEq] at hhead
    subst hhead
    have hfirst : first ∉ l := (List.nodup_cons.1 h).1
    intro hmem
    rw [BranchContext.span, List.drop_take] at hmem
    have hdrop : first ∈ (first :: l).drop s.toNat := List.mem_of_mem_take hmem
    obtain ⟨n, hn⟩ : ∃ n, s.toNat = n + 1 := ⟨s.toNat - 1, by omega⟩
    rw [hn, List.drop_succ_cons] at hdrop
    exact hfirst (List.mem_of_mem_drop hdrop)

end Nodup

namespace BranchContext

variable {py : CharTable} {ids : FreshIds U} {branch : BranchContext U}

/-! ## What the tool promises -/

section Promises

variable (py ids branch)

/-- No message is active twice, and all the active ones are on record. -/
def Wellformed : Prop := branch.progression.Nodup ∧ branch.progression ⊆ branch.record

/-- The record is continued. -/
def KeepsRecord (op : ContextOp) : Prop := branch.record <+: (branch.exec py ids op).record

/-- The first message of the record stays active, but for an eviction of results. -/
def KeepsFirst : ContextOp → Prop
  | .evictActionResults _ => True
  | op => ∀ uid, branch.record.head? = some uid → uid ∈ branch.progression →
      uid ∈ (branch.exec py ids op).progression

/-- The position of the record is in the range of a restoration. -/
def InRange (start stop : Option ℤ) (i : ℕ) : Prop :=
  max 0 (orDefault start 0) ≤ i ∧
    (i : ℤ) < min (branch.record.length : ℤ) (stop.getD (max 0 (orDefault start 0) + 1))

/-- A restoration makes the messages in its range active, and no others. -/
def Restores : ContextOp → Prop
  | .restore start stop => ∀ uid, uid ∈ (branch.exec py ids (.restore start stop)).progression ↔
      uid ∈ branch.progression ∨ ∃ i, branch.InRange start stop i ∧ branch.record[i]? = some uid
  | _ => True

/-- The messages that are no summaries are in the order of the record. -/
def InRecordOrder : Prop :=
  (branch.progression.filter fun uid ↦ uid ∉ branch.summaries).Pairwise fun a b ↦
    branch.record.idxOf a < branch.record.idxOf b

/-- For every message that is restored and no summary, no other such message that comes earlier in the record stands
behind an active one that comes later. -/
def RestoresInPlace : ContextOp → Prop
  | .restore start stop => ∀ i, branch.InRange start stop i → ∀ uid, branch.record[i]? = some uid →
      uid ∉ branch.progression → uid ∉ branch.summaries →
        ∀ before later after, branch.progression = before ++ later :: after → i < branch.record.idxOf later →
          ∀ other ∈ after, other ∉ branch.summaries → i < branch.record.idxOf other
  | _ => True

end Promises

/-! ## The invariant -/

structure Sound (branch : BranchContext U) : Prop where
  record_nodup : branch.record.Nodup
  view_nodup : branch.progression.Nodup
  view_subset : branch.progression ⊆ branch.record
  summaries_subset : branch.summaries ⊆ branch.record
  first : ∀ uid, branch.record.head? = some uid → uid ∈ branch.progression → branch.progression.head? = some uid

variable {view : List U}

omit [DecidableEq U] in
/-- The view is replaced. -/
theorem Sound.withView (h : branch.Sound) (hnodup : view.Nodup) (hsubset : view ⊆ branch.record)
    (hfirst : ∀ uid, branch.record.head? = some uid → uid ∈ view → view.head? = some uid) :
    (branch.withView view).Sound :=
  ⟨h.record_nodup, hnodup, hsubset, h.summaries_subset, hfirst⟩

omit [DecidableEq U] in
theorem Sound.copy (h : branch.Sound) : (branch.withView branch.progression).Sound :=
  h.withView h.view_nodup h.view_subset h.first

/-- Messages leave the view. -/
theorem Sound.exclude (h : branch.Sound) (uids : List U) :
    (branch.withView (exclude branch.progression uids)).Sound := by
  apply h.withView (h.view_nodup.filter _)
  · exact fun uid hmem ↦ h.view_subset (List.mem_filter.1 hmem).1
  · intro uid hhead hmem
    obtain ⟨hactive, hkeep⟩ := List.mem_filter.1 hmem
    exact head?_filter (h.first uid hhead hactive) hkeep

theorem Sound.evict (h : branch.Sound) (start stop : Option ℤ) : (branch.evict start stop).2.Sound := by
  unfold BranchContext.evict
  extract_lets cp s e uids left
  split
  · exact h.copy
  · exact h.exclude uids

theorem Sound.evictActionResults (h : branch.Sound) (keepLast : Option ℤ) :
    (branch.evictActionResults keepLast).2.Sound := by
  unfold BranchContext.evictActionResults
  extract_lets cp keep ar toEvict left
  split
  · exact h.copy
  · exact h.exclude toEvict

/-! ## Restoring -/

variable {uid : U}

/-- A message of the record is put in by its position. -/
theorem restoreOne_eq (hrecord : branch.record.Nodup) {i : ℕ} (hi : branch.record[i]? = some uid) (view : List U) :
    restoreOne branch.record view i = insertMissing branch.record.idxOf view uid := by
  obtain ⟨hlt, rfl⟩ := List.getElem?_eq_some_iff.1 hi
  rw [restoreOne, hi]
  simp only [insertMissing, InsertByRank.insert, hrecord.idxOf_getElem i hlt]

theorem foldl_restoreOne (hrecord : branch.record.Nodup) (s n : ℕ) (view : List U) :
    (List.range' s n).foldl (restoreOne branch.record) view =
      ((branch.record.drop s).take n).foldl (insertMissing branch.record.idxOf) view := by
  induction n generalizing s view with
  | zero => rfl
  | succ n ih =>
    rw [List.range'_succ, List.foldl_cons, ih]
    by_cases hlt : s < branch.record.length
    · rw [List.drop_eq_getElem_cons hlt, List.take_succ_cons, List.foldl_cons,
        restoreOne_eq hrecord (List.getElem?_eq_getElem hlt)]
    · have hnone : branch.record[s]? = none := List.getElem?_eq_none (Nat.le_of_not_lt hlt)
      rw [restoreOne, hnone, List.drop_eq_nil_of_le (Nat.le_of_not_lt hlt),
        List.drop_eq_nil_of_le (Nat.le_succ_of_le (Nat.le_of_not_lt hlt)), List.take_nil, List.take_nil]

/-- The messages in the range of a restoration. -/
def restored (branch : BranchContext U) (start stop : Option ℤ) : List U :=
  let s := max 0 (orDefault start 0)
  let e := min (branch.record.length : ℤ) (stop.getD (s + 1))
  (branch.record.drop s.toNat).take (e - s).toNat

theorem restore_eq (h : branch.Sound) (start stop : Option ℤ) : (branch.restore start stop).2 =
    branch.withView ((branch.restored start stop).foldl (insertMissing branch.record.idxOf) branch.progression) := by
  unfold BranchContext.restore restored
  rw [← foldl_restoreOne h.record_nodup]

omit [DecidableEq U] in
theorem mem_restored {start stop : Option ℤ} : uid ∈ branch.restored start stop ↔
    ∃ i, branch.InRange start stop i ∧ branch.record[i]? = some uid := by
  have hstart : 0 ≤ max 0 (orDefault start 0) := le_max_left _ _
  unfold restored InRange
  dsimp only
  generalize max 0 (orDefault start 0) = s at hstart
  generalize min (branch.record.length : ℤ) (stop.getD (s + 1)) = e
  rw [List.mem_iff_getElem?]
  constructor
  · rintro ⟨n, hn⟩
    rw [List.getElem?_take, List.getElem?_drop] at hn
    split at hn
    · next hlt =>
      refine ⟨s.toNat + n, ⟨?_, ?_⟩, hn⟩
      · omega
      · omega
    · cases hn
  · rintro ⟨i, ⟨hs, he⟩, hi⟩
    refine ⟨i - s.toNat, ?_⟩
    rw [List.getElem?_take, if_pos (by omega), List.getElem?_drop, ← hi]
    congr 1
    omega

omit [DecidableEq U] in
theorem restored_sublist (start stop : Option ℤ) : (branch.restored start stop).Sublist branch.record :=
  (List.take_sublist _ _).trans (List.drop_sublist _ _)

theorem Sound.restore (h : branch.Sound) (start stop : Option ℤ) : (branch.restore start stop).2.Sound := by
  rw [restore_eq h]
  apply h.withView
  · exact nodup_foldl_insertMissing h.view_nodup _
  · intro uid hmem
    rcases mem_foldl_insertMissing.1 hmem with hactive | hrestored
    · exact h.view_subset hactive
    · exact (restored_sublist start stop).subset hrestored
  · intro uid hhead
    have hzero : branch.record.idxOf uid = 0 := by
      cases hrecord : branch.record with
      | nil =>
        rw [hrecord] at hhead
        cases hhead
      | cons first record =>
        rw [hrecord, List.head?_cons, Option.some.injEq] at hhead
        subst hhead
        exact List.idxOf_cons_self
    have hpos : ∀ other ∈ branch.record, other ≠ uid → branch.record.idxOf uid < branch.record.idxOf other := by
      intro other hother hne
      rw [hzero]
      refine Nat.pos_of_ne_zero fun hsame ↦ hne ?_
      have hlt : branch.record.idxOf other < branch.record.length := List.idxOf_lt_length_of_mem hother
      have hget := List.getElem_idxOf hlt
      have hfirst : branch.record[0]? = some uid := by rw [← List.head?_eq_getElem?]; exact hhead
      rw [← Option.some.injEq, ← hget, ← hfirst, ← List.getElem?_eq_getElem hlt, hsame]
    have hin : ∀ (uids view : List U), uids ⊆ branch.record → view ⊆ branch.record →
        (uid ∈ view → view.head? = some uid) →
          uid ∈ uids.foldl (insertMissing branch.record.idxOf) view →
            (uids.foldl (insertMissing branch.record.idxOf) view).head? = some uid := by
      intro uids
      induction uids with
      | nil => exact fun view _ _ hfirst ↦ hfirst
      | cons next uids ih =>
        intro view huids hview hfirst
        obtain ⟨hnext, huids⟩ := List.cons_subset.1 huids
        apply ih _ huids
        · intro other hother
          rcases mem_insertMissing.1 hother with rfl | hother
          · exact hnext
          · exact hview hother
        · intro hmem
          by_cases hactive : uid ∈ view
          · exact head?_insertMissing (hfirst hactive) (by rw [hzero]; exact Nat.zero_le _)
          · have hself : uid = next := (mem_insertMissing.1 hmem).resolve_right hactive
            subst hself
            apply head?_insertMissing_self hactive
            intro other hother
            exact hpos other (hview hother) (ne_of_mem_of_not_mem hother hactive)
    exact hin _ _ (restored_sublist start stop).subset h.view_subset (h.first uid hhead)

/-! ## Compacting -/

theorem Sound.addMessage (h : branch.Sound) (message : ContextMessage) : (branch.addMessage ids message).Sound := by
  have hnew : ids.new branch.record ∉ branch.record := ids.new_not_mem branch.record
  have hrecord : (branch.record ++ [ids.new branch.record]).Nodup :=
    List.nodup_append_comm.1 (List.nodup_cons.2 ⟨hnew, h.record_nodup⟩)
  have hsummaries : branch.summaries ⊆ branch.record ++ [ids.new branch.record] :=
    List.subset_append_of_subset_left _ h.summaries_subset
  cases hview : branch.currentProgression with
  | none =>
    have hactive : (branch.addMessage ids message).progression = branch.record ++ [ids.new branch.record] := by
      rw [progression, BranchContext.addMessage, hview]
      rfl
    refine ⟨hrecord, ?_, ?_, hsummaries, ?_⟩
    · rw [hactive]
      exact hrecord
    · rw [hactive]
      exact List.Subset.refl _
    · rw [hactive]
      exact fun uid hhead _ ↦ hhead
  | some view =>
    have hactive : (branch.addMessage ids message).progression = branch.progression := by
      rw [progression, progression, BranchContext.addMessage, hview]
      rfl
    refine ⟨hrecord, ?_, ?_, hsummaries, ?_⟩
    · rw [hactive]
      exact h.view_nodup
    · rw [hactive]
      exact List.subset_append_of_subset_left _ h.view_subset
    · rw [hactive]
      intro uid hhead hmem
      apply h.first uid _ hmem
      cases hold : branch.record with
      | nil => exact absurd (hold ▸ h.view_subset hmem) List.not_mem_nil
      | cons first record =>
        have hfirst : (branch.record ++ [ids.new branch.record]).head? = some uid := hhead
        rw [hold] at hfirst
        exact hfirst

theorem mem_addSummary {summary : Text} {s : ℕ} (hs : s ≤ branch.progression.length) {collapse : List U} :
    uid ∈ (branch.addSummary py ids summary s collapse).progression ↔
      (uid = ids.new branch.record ∨ uid ∈ branch.progression) ∧ uid ∉ collapse := by
  change uid ∈ BranchContext.exclude (branch.progression.insertIdx s (ids.new branch.record)) collapse ↔ _
  rw [BranchContext.exclude, List.mem_filter, List.mem_insertIdx hs, decide_eq_true_eq]

omit [DecidableEq U] in
/-- A span from the second position on does not have the first message, and neither has what is collapsed of it. -/
theorem Sound.not_mem_span (h : branch.Sound) (hhead : branch.record.head? = some uid) (hmem : uid ∈ branch.progression)
    {s : ℤ} (hs : 1 ≤ s) (e : ℤ) : uid ∉ span branch.progression s e :=
  Tools.not_mem_span h.view_nodup (h.first uid hhead hmem) hs e

/-- A summary comes in behind the first position, and messages from behind it are collapsed. -/
theorem Sound.addSummary (h : branch.Sound) (summary : Text) {s : ℕ} (hs : 1 ≤ s)
    (hlen : s ≤ branch.progression.length) (collapse : List U) :
    (branch.addSummary py ids summary s collapse).Sound := by
  have hnew : ids.new branch.record ∉ branch.record := ids.new_not_mem branch.record
  have hnotActive : ids.new branch.record ∉ branch.progression := fun hmem ↦ hnew (h.view_subset hmem)
  constructor
  · exact List.nodup_append_comm.1 (List.nodup_cons.2 ⟨hnew, h.record_nodup⟩)
  · have hinserted : (branch.progression.insertIdx s (ids.new branch.record)).Nodup :=
      (List.perm_insertIdx _ _ hlen).nodup_iff.2 (List.nodup_cons.2 ⟨hnotActive, h.view_nodup⟩)
    exact hinserted.filter _
  · intro uid hmem
    rcases ((mem_addSummary hlen).1 hmem).1 with rfl | hactive
    · exact List.mem_append_right _ List.mem_cons_self
    · exact List.mem_append_left _ (h.view_subset hactive)
  · apply List.append_subset.2
    refine ⟨List.subset_append_of_subset_left _ h.summaries_subset, List.subset_append_right _ _⟩
  · intro uid hhead hmem
    have hhead : (branch.record ++ [ids.new branch.record]).head? = some uid := hhead
    cases hview : branch.progression with
    | nil =>
      rw [hview] at hlen
      exact absurd (hs.trans hlen) (Nat.not_succ_le_zero 0)
    | cons first view =>
      cases hold : branch.record with
      | nil => exact absurd (hold ▸ h.view_subset (hview ▸ List.mem_cons_self)) List.not_mem_nil
      | cons origin record =>
        have horigin : branch.record.head? = some uid := by
          rw [hold] at hhead ⊢
          exact hhead
        obtain ⟨hin, hkeep⟩ := (mem_addSummary hlen).1 hmem
        have hactive : uid ∈ branch.progression := by
          refine hin.resolve_left ?_
          rintro rfl
          exact hnew (List.mem_of_mem_head? horigin)
        have hfirst := h.first uid horigin hactive
        rw [hview, List.head?_cons, Option.some.injEq] at hfirst
        obtain ⟨n, rfl⟩ : ∃ n, s = n + 1 := ⟨s - 1, by omega⟩
        change ((branch.progression.insertIdx (n + 1) (ids.new branch.record)).filter (· ∉ collapse)).head? = some uid
        have hkept : (fun other ↦ decide (other ∉ collapse)) uid = true := decide_eq_true hkeep
        refine head?_filter ?_ hkept
        rw [hview, List.insertIdx_succ_cons, List.head?_cons, hfirst]

/-- Nothing comes of a compaction but the view, or a summary stands for a part of what is behind the first position. -/
theorem compact_cases (py : CharTable) (ids : FreshIds U) (branch : BranchContext U) (start stop : Option ℤ) (summary : Option Text) (mode : Option String) (auto : Bool)
    (answer : Option Text) :
    (branch.compact py ids start stop summary mode auto answer).2 = branch.withView branch.progression ∨
      ∃ (text : Text) (s e : ℤ) (collapse : List U), 1 ≤ s ∧ s ≤ branch.progression.length ∧
        collapse ⊆ span branch.progression s e ∧
        (branch.compact py ids start stop summary mode auto answer).2 =
          branch.addSummary py ids text s.toNat collapse := by
  unfold BranchContext.compact
  extract_lets cp s e collapse
  split
  · exact .inl rfl
  next hrange =>
  split
  · exact .inl rfl
  split
  · exact .inl rfl
  · next text _ =>
    refine .inr ⟨text, s, e, collapse, le_max_left _ _, ?_, ?_, rfl⟩
    · exact (Int.le_of_lt (Int.lt_of_not_ge hrange)).trans (min_le_left _ _)
    · simp only [collapse]
      split
      · exact List.filter_sublist.subset
      · exact List.Subset.refl _

theorem Sound.compact (h : branch.Sound) (start stop : Option ℤ) (summary : Option Text) (mode : Option String)
    (auto : Bool) (answer : Option Text) : (branch.compact py ids start stop summary mode auto answer).2.Sound := by
  rcases compact_cases py ids branch start stop summary mode auto answer with
    heq | ⟨text, s, e, collapse, hs, hlen, -, heq⟩
  · rw [heq]
    exact h.copy
  · rw [heq]
    exact h.addSummary text (by omega) (by omega) collapse

theorem Sound.exec (h : branch.Sound) (op : ContextOp) : (branch.exec py ids op).Sound := by
  cases op with
  | evict start stop => exact h.evict start stop
  | evictActionResults keepLast => exact h.evictActionResults keepLast
  | restore start stop => exact h.restore start stop
  | compact start stop summary mode auto answer => exact h.compact start stop summary mode auto answer
  | addMessage message => exact h.addMessage message

/-! ## What every action keeps -/

theorem keepsRecord (op : ContextOp) : branch.KeepsRecord py ids op := by
  unfold KeepsRecord
  cases op with
  | evict start stop =>
    change branch.record <+: (branch.evict start stop).2.record
    unfold BranchContext.evict
    extract_lets cp s e uids left
    split
    · exact List.prefix_refl _
    · exact List.prefix_refl _
  | evictActionResults keepLast =>
    change branch.record <+: (branch.evictActionResults keepLast).2.record
    unfold BranchContext.evictActionResults
    extract_lets cp keep ar toEvict left
    split
    · exact List.prefix_refl _
    · exact List.prefix_refl _
  | restore start stop => exact List.prefix_refl _
  | compact start stop summary mode auto answer =>
    change branch.record <+: (branch.compact py ids start stop summary mode auto answer).2.record
    rcases compact_cases py ids branch start stop summary mode auto answer with
      heq | ⟨text, s, e, collapse, -, -, -, heq⟩
    · rw [heq]
      exact List.prefix_refl _
    · rw [heq]
      exact List.prefix_append _ _
  | addMessage message => exact List.prefix_append _ _

theorem Sound.restores (h : branch.Sound) (op : ContextOp) : branch.Restores py ids op := by
  cases op with
  | restore start stop =>
    intro uid
    change uid ∈ (branch.restore start stop).2.progression ↔ _
    rw [restore_eq h, ← mem_restored]
    exact mem_foldl_insertMissing
  | evict start stop => trivial
  | evictActionResults keepLast => trivial
  | compact start stop summary mode auto answer => trivial
  | addMessage message => trivial

theorem Sound.keepsFirst (h : branch.Sound) (op : ContextOp) : branch.KeepsFirst py ids op := by
  cases op with
  | evictActionResults keepLast => trivial
  | evict start stop =>
    intro uid hhead hmem
    change uid ∈ (branch.evict start stop).2.progression
    unfold BranchContext.evict
    extract_lets cp s e uids left
    split
    · exact hmem
    · exact List.mem_filter.2 ⟨hmem, decide_eq_true (h.not_mem_span hhead hmem (le_max_left _ _) e)⟩
  | restore start stop =>
    intro uid _ hmem
    change uid ∈ (branch.restore start stop).2.progression
    rw [restore_eq h]
    exact mem_foldl_insertMissing.2 (.inl hmem)
  | compact start stop summary mode auto answer =>
    intro uid hhead hmem
    change uid ∈ (branch.compact py ids start stop summary mode auto answer).2.progression
    rcases compact_cases py ids branch start stop summary mode auto answer with
      heq | ⟨text, s, e, collapse, hs, hlen, hspan, heq⟩
    · rw [heq]
      exact hmem
    · rw [heq, mem_addSummary (by omega)]
      exact ⟨.inr hmem, fun hin ↦ h.not_mem_span hhead hmem hs e (hspan hin)⟩
  | addMessage message =>
    intro uid _ hmem
    change uid ∈ (branch.addMessage ids message).progression
    cases hview : branch.currentProgression with
    | none =>
      rw [progression, hview] at hmem
      rw [progression, BranchContext.addMessage, hview]
      exact List.mem_append_left _ hmem
    | some view =>
      rw [progression, hview] at hmem
      rw [progression, BranchContext.addMessage, hview]
      exact hmem

/-! ## Order -/

/-- Messages in the record keep their positions when it grows. -/
theorem pairwise_append {record new : List U} (hsubset : view ⊆ record) :
    (view.Pairwise fun a b ↦ (record ++ new).idxOf a < (record ++ new).idxOf b) ↔
      view.Pairwise fun a b ↦ record.idxOf a < record.idxOf b := by
  have hsame : ∀ uid ∈ view, (record ++ new).idxOf uid = record.idxOf uid :=
    fun uid hmem ↦ List.idxOf_append_of_mem (hsubset hmem)
  constructor
  · intro h
    refine h.imp_of_mem fun ha hb hlt ↦ ?_
    rw [hsame _ ha, hsame _ hb] at hlt
    exact hlt
  · intro h
    refine h.imp_of_mem fun ha hb hlt ↦ ?_
    rw [hsame _ ha, hsame _ hb]
    exact hlt

theorem InRecordOrder.exclude (h : branch.InRecordOrder) (uids : List U) :
    (branch.withView (exclude branch.progression uids)).InRecordOrder :=
  h.sublist (List.filter_sublist.filter _)

theorem InRecordOrder.evict (h : branch.InRecordOrder) (start stop : Option ℤ) :
    (branch.evict start stop).2.InRecordOrder := by
  unfold BranchContext.evict
  extract_lets cp s e uids left
  split
  · exact h
  · exact h.exclude uids

theorem InRecordOrder.evictActionResults (h : branch.InRecordOrder) (keepLast : Option ℤ) :
    (branch.evictActionResults keepLast).2.InRecordOrder := by
  unfold BranchContext.evictActionResults
  extract_lets cp keep ar toEvict left
  split
  · exact h
  · exact h.exclude toEvict

theorem InRecordOrder.addMessage (h : branch.InRecordOrder) (hsound : branch.Sound) (message : ContextMessage) :
    (branch.addMessage ids message).InRecordOrder := by
  cases hview : branch.currentProgression with
  | none =>
    have hactive : (branch.addMessage ids message).progression = (branch.addMessage ids message).record := by
      rw [progression, BranchContext.addMessage, hview]
      rfl
    rw [InRecordOrder, hactive]
    exact (pairwise_idxOf (hsound.addMessage message).record_nodup).sublist List.filter_sublist
  | some view =>
    have hactive : (branch.addMessage ids message).progression = branch.progression := by
      rw [progression, progression, BranchContext.addMessage, hview]
      rfl
    rw [InRecordOrder, hactive]
    exact (pairwise_append fun uid hmem ↦ hsound.view_subset (List.mem_filter.1 hmem).1).2 h

/-- A summary is none of the messages whose order counts. -/
theorem InRecordOrder.addSummary (h : branch.InRecordOrder) (hsound : branch.Sound) (summary : Text) (s : ℕ)
    (collapse : List U) : (branch.addSummary py ids summary s collapse).InRecordOrder := by
  have hnew : ids.new branch.record ∉ branch.record := ids.new_not_mem branch.record
  have hfilter : (branch.progression.insertIdx s (ids.new branch.record)).filter
      (fun uid ↦ uid ∉ branch.summaries ++ [ids.new branch.record]) =
        branch.progression.filter fun uid ↦ uid ∉ branch.summaries := by
    have hself : decide (ids.new branch.record ∉ branch.summaries ++ [ids.new branch.record]) = false :=
      decide_eq_false fun hnot ↦ hnot (List.mem_append_right _ List.mem_cons_self)
    rw [PySequence.filter_insertIdx (fun uid ↦ decide (uid ∉ branch.summaries ++ [ids.new branch.record])) hself]
    apply List.filter_congr
    intro uid hmem
    have hne : uid ≠ ids.new branch.record := by
      rintro rfl
      exact hnew (hsound.view_subset hmem)
    simp only [List.mem_append, List.mem_singleton, hne, or_false]
  change (((branch.progression.insertIdx s (ids.new branch.record)).filter (· ∉ collapse)).filter
    fun uid ↦ uid ∉ branch.summaries ++ [ids.new branch.record]).Pairwise fun a b ↦
      (branch.record ++ [ids.new branch.record]).idxOf a < (branch.record ++ [ids.new branch.record]).idxOf b
  rw [List.filter_comm, hfilter]
  apply List.Pairwise.sublist List.filter_sublist
  exact (pairwise_append fun uid hmem ↦ hsound.view_subset (List.mem_filter.1 hmem).1).2 h

theorem InRecordOrder.compact (h : branch.InRecordOrder) (hsound : branch.Sound) (start stop : Option ℤ)
    (summary : Option Text) (mode : Option String) (auto : Bool) (answer : Option Text) :
    (branch.compact py ids start stop summary mode auto answer).2.InRecordOrder := by
  rcases compact_cases py ids branch start stop summary mode auto answer with
    heq | ⟨text, s, e, collapse, -, -, -, heq⟩
  · rw [heq]
    exact h
  · rw [heq]
    exact h.addSummary hsound text s.toNat collapse

/-- The place of a message, and what stands behind an active one that comes later. -/
theorem hasPlace_iff {kind : U → Bool} :
    HasPlace branch.record.idxOf kind view uid ↔ ∀ before later after, view = before ++ later :: after →
      branch.record.idxOf uid < branch.record.idxOf later → ∀ other ∈ after, kind other = true →
        branch.record.idxOf uid < branch.record.idxOf other := by
  constructor
  · intro h before later after hview hlater other hother hkind
    apply h other _ hkind
    rw [hview, List.dropWhile_append]
    have hstop : (later :: after).dropWhile (upTo branch.record.idxOf (branch.record.idxOf uid)) = later :: after :=
      List.dropWhile_cons_of_neg (not_upTo.2 hlater)
    split
    · rw [hstop]
      exact List.mem_cons_of_mem _ hother
    · exact List.mem_append_right _ (List.mem_cons_of_mem _ hother)
  · intro h other hother hkind
    cases hdrop : view.dropWhile (upTo branch.record.idxOf (branch.record.idxOf uid)) with
    | nil =>
      rw [hdrop] at hother
      cases hother
    | cons later after =>
      have hlater : branch.record.idxOf uid < branch.record.idxOf later := by
        have hne : view.dropWhile (upTo branch.record.idxOf (branch.record.idxOf uid)) ≠ [] := by
          rw [hdrop]
          exact List.cons_ne_nil _ _
        have hhead := List.head_dropWhile_not (upTo branch.record.idxOf (branch.record.idxOf uid)) hne
        simp only [hdrop, List.head_cons] at hhead
        exact not_upTo.1 (Bool.eq_false_iff.1 hhead)
      rw [hdrop] at hother
      rcases List.mem_cons.1 hother with rfl | hother
      · exact hlater
      · have hsplit : view = view.takeWhile (upTo branch.record.idxOf (branch.record.idxOf uid)) ++ later :: after := by
          rw [← hdrop, List.takeWhile_append_dropWhile]
        exact h _ later after hsplit hlater other hother hkind

/-- A restoration keeps the order exactly when each of the restored messages has its place. -/
theorem inRecordOrder_restore_iff (h : branch.InRecordOrder) (hsound : branch.Sound) (start stop : Option ℤ) :
    (branch.restore start stop).2.InRecordOrder ↔ branch.RestoresInPlace (.restore start stop) := by
  have hsorted : (branch.restored start stop).Pairwise fun a b ↦ branch.record.idxOf a < branch.record.idxOf b :=
    (pairwise_idxOf hsound.record_nodup).sublist (restored_sublist start stop)
  have hrank : ∀ b ∈ branch.progression, ∀ a ∈ branch.restored start stop,
      branch.record.idxOf b = branch.record.idxOf a → b = a := by
    intro b hb a _ heq
    exact (List.idxOf_inj (hsound.view_subset hb)).1 heq
  rw [restore_eq hsound]
  calc (branch.withView ((branch.restored start stop).foldl (insertMissing branch.record.idxOf)
          branch.progression)).InRecordOrder
      ↔ ∀ uid ∈ branch.restored start stop, uid ∉ branch.progression →
          decide (uid ∉ branch.summaries) = true →
            HasPlace branch.record.idxOf (fun uid ↦ decide (uid ∉ branch.summaries)) branch.progression uid :=
        (sortedOn_foldl_iff hsorted hrank).trans (and_iff_right h)
    _ ↔ branch.RestoresInPlace (.restore start stop) := by
        simp only [hasPlace_iff, decide_eq_true_eq]
        constructor
        · intro hplace i hrange uid hi hnot hkind
          have hi' : branch.record.idxOf uid = i := by
            obtain ⟨hlt, rfl⟩ := List.getElem?_eq_some_iff.1 hi
            exact hsound.record_nodup.idxOf_getElem i hlt
          rw [← hi']
          exact hplace uid (mem_restored.2 ⟨i, hrange, hi⟩) hnot hkind
        · intro hplace uid hmem hnot hkind
          obtain ⟨i, hrange, hi⟩ := mem_restored.1 hmem
          have hi' : branch.record.idxOf uid = i := by
            obtain ⟨hlt, rfl⟩ := List.getElem?_eq_some_iff.1 hi
            exact hsound.record_nodup.idxOf_getElem i hlt
          rw [hi']
          exact hplace i hrange uid hi hnot hkind

theorem inRecordOrder_exec_iff (h : branch.InRecordOrder) (hsound : branch.Sound) (op : ContextOp) :
    (branch.exec py ids op).InRecordOrder ↔ branch.RestoresInPlace op := by
  cases op with
  | evict start stop => exact iff_of_true (h.evict start stop) trivial
  | evictActionResults keepLast => exact iff_of_true (h.evictActionResults keepLast) trivial
  | restore start stop => exact inRecordOrder_restore_iff h hsound start stop
  | compact start stop summary mode auto answer =>
    exact iff_of_true (h.compact hsound start stop summary mode auto answer) trivial
  | addMessage message => exact iff_of_true (h.addMessage hsound message) trivial

/-! ## Runs -/

/-- A branch whose view no action has made yet. -/
def start (record : {record : List U // record.Nodup}) (messages : U → Option ContextMessage) : BranchContext U where
  record := record
  messages := messages

variable (record : {record : List U // record.Nodup})

omit [DecidableEq U] in
theorem sound_start (messages : U → Option ContextMessage) : (start record messages).Sound :=
  ⟨record.2, record.2, List.Subset.refl _, List.nil_subset _, fun _ hhead _ ↦ hhead⟩

theorem inRecordOrder_start (messages : U → Option ContextMessage) : (start record messages).InRecordOrder :=
  (pairwise_idxOf record.2).sublist List.filter_sublist

/-- In every run the view is a part of the record without repetitions, the record grows, the first message stays
and restorations restore. The view is in the order of the record throughout a run if and only if all that is restored
has its place. -/
theorem view_faithful_iff (py : CharTable) (ids : FreshIds U) (record : {record : List U // record.Nodup})
    (messages : U → Option ContextMessage) (ops : List ContextOp) :
    Throughout (exec py ids) Wellformed (start record messages) ops ∧
      Along (exec py ids) (KeepsRecord py ids) (start record messages) ops ∧
      Along (exec py ids) (KeepsFirst py ids) (start record messages) ops ∧
      Along (exec py ids) (Restores py ids) (start record messages) ops ∧
      (Throughout (exec py ids) InRecordOrder (start record messages) ops ↔
        Along (exec py ids) RestoresInPlace (start record messages) ops) := by
  have hsound : Throughout (exec py ids) Sound (start record messages) ops :=
    Throughout.of_invariant (fun branch op h ↦ h.exec op) (sound_start record messages)
  have halong : ∀ {C : BranchContext U → ContextOp → Prop}, (∀ branch op, branch.Sound → C branch op) →
      Along (exec py ids) C (start record messages) ops := by
    intro C hC
    exact Along.of_invariant (D := fun _ _ ↦ True) (fun branch op h _ ↦ hC branch op h)
      (fun branch op h _ ↦ h.exec op) (sound_start record messages) (Along.of_forall (fun _ _ ↦ trivial) _ ops)
  refine ⟨hsound.mono fun branch h ↦ ⟨h.view_nodup, h.view_subset⟩, halong fun branch op _ ↦ keepsRecord op,
    halong fun branch op h ↦ h.keepsFirst op, halong fun branch op h ↦ h.restores op, ?_⟩
  apply throughout_iff_along (I := fun branch : BranchContext U ↦ branch.Sound ∧ branch.InRecordOrder)
  · exact fun branch h ↦ h.2
  · exact fun branch op h hplace ↦ ⟨h.1.exec op, (inRecordOrder_exec_iff h.2 h.1 op).2 hplace⟩
  · exact fun branch op h hplace horder ↦ hplace ((inRecordOrder_exec_iff h.2 h.1 op).1 horder)
  · exact ⟨sound_start record messages, inRecordOrder_start record messages⟩

/-- The numbers not used yet. -/
def freshNumbers : FreshIds ℕ where
  new used := used.foldr max 0 + 1
  new_not_mem used hmem := by
    have hle : ∀ {used : List ℕ} {n : ℕ}, n ∈ used → n ≤ used.foldr max 0 := by
      intro used n hmem
      induction used with
      | nil => cases hmem
      | cons first used ih =>
        rcases List.mem_cons.1 hmem with rfl | hmem
        · exact le_max_left _ _
        · exact (ih hmem).trans (le_max_right _ _)
    exact absurd (hle hmem) (Nat.not_succ_le_self _)

/-- A system message, a task and the result of a tool. -/
def taskMessages : ℕ → Option ContextMessage
  | 2 => some ⟨.actionResponse, "result".toList⟩
  | _ => some ⟨.other, "text".toList⟩

/-- The result is collapsed into a summary before the task and restored. -/
def collapseAndRestore : List ContextOp :=
  [.compact (some 1) none (some "done".toList) none false none, .restore (some 2) none]

/-- The restored result stands before the summary, and so before the task. -/
theorem not_inRecordOrder : ¬ Throughout (exec .ascii freshNumbers) InRecordOrder
    (start ⟨[0, 1, 2], by decide⟩ taskMessages) collapseAndRestore := by
  intro h
  have horder := h.final
  unfold InRecordOrder at horder
  revert horder
  decide +kernel

end BranchContext

end Lionagi.Tools
