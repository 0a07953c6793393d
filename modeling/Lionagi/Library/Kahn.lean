import Mathlib.Data.List.Flatten
import Mathlib.Data.List.Perm.Basic
import Mathlib.Algebra.Order.Ring.Int
import Mathlib.Data.Fintype.EquivFin
import Mathlib.Logic.Function.Basic
import Mathlib.Logic.Relation
import Mathlib.Data.Set.Finite.Basic
import Mathlib.Order.WellFounded

/-!
# Counting down in-degrees

A vertex is done when all edges into it have been counted off, each as often as it occurs. Between two
steps the in-degree of a vertex counts the edges out of the vertices that are not done, and the
vertices at zero are those done or queued. When the queue is empty, all vertices are done if and only
if no vertex lies on a cycle.
-/

universe u

namespace Kahn

open Relation

variable {V : Type u} [DecidableEq V] (succ : V → List V) (nodes : List V)

/-- An edge between two of the vertices. -/
def Leads (u v : V) : Prop := u ∈ nodes ∧ v ∈ succ u

/-- The vertices done so far, those queued, the remaining in-degrees, and the edges out of the last
vertex done that have not been counted off yet. -/
structure Counts (done queue : List V) (inDegree : V → ℤ) (rest : List V) : Prop where
  nodup : (done ++ queue).Nodup
  known : ∀ v ∈ done ++ queue, v ∈ nodes
  counted : ∃ left, (done ++ left).Perm nodes ∧
    ∀ v ∈ nodes, inDegree v = (left.flatMap succ).count v + rest.count v
  zero : ∀ v ∈ nodes, inDegree v = 0 ↔ v ∈ done ++ queue
  ordered : ∀ u v, Leads succ nodes u v → v ∈ done → u ∈ done ∧ done.idxOf u < done.idxOf v

variable {succ nodes}

theorem counts_start (hnodup : nodes.Nodup) {inDegree : V → ℤ}
    (hcount : ∀ v ∈ nodes, inDegree v = (nodes.flatMap succ).count v) :
    Counts succ nodes [] (nodes.filter fun v ↦ inDegree v = 0) inDegree [] where
  nodup := by
    rw [List.nil_append]
    exact hnodup.filter _
  known v hv := by
    rw [List.nil_append] at hv
    exact (List.mem_filter.1 hv).1
  counted := by
    refine ⟨nodes, List.Perm.refl nodes, fun v hv ↦ ?_⟩
    rw [hcount v hv, List.count_nil, Nat.cast_zero, add_zero]
  zero v hv := by
    rw [List.nil_append, List.mem_filter, decide_eq_true_eq]
    exact (and_iff_right hv).symm
  ordered _ _ _ hv := absurd hv List.not_mem_nil

namespace Counts

variable {done queue : List V} {inDegree : V → ℤ} {rest : List V}

/-- Nothing leads into a vertex at zero but from a vertex done. -/
theorem mem_done_of_leads (h : Counts succ nodes done queue inDegree []) {u v : V}
    (hv : v ∈ nodes) (hzero : inDegree v = 0) (huv : Leads succ nodes u v) : u ∈ done := by
  obtain ⟨left, hperm, hcount⟩ := h.counted
  have hnone : (left.flatMap succ).count v = 0 := by
    have hcount := hcount v hv
    rw [hzero, List.count_nil] at hcount
    omega
  have hu : u ∈ done ++ left := hperm.mem_iff.2 huv.1
  rcases List.mem_append.1 hu with hdone | hleft
  · exact hdone
  · rw [List.count_eq_zero] at hnone
    exact absurd (List.mem_flatMap.2 ⟨u, hleft, huv.2⟩) hnone

/-- The next vertex is done, and its edges are to be counted off. -/
theorem pop {v : V} (h : Counts succ nodes done (v :: queue) inDegree []) :
    Counts succ nodes (done ++ [v]) queue inDegree (succ v) where
  nodup := by
    rw [List.append_assoc]
    exact h.nodup
  known u hu := by
    rw [List.append_assoc] at hu
    exact h.known u hu
  counted := by
    obtain ⟨left, hperm, hcount⟩ := h.counted
    have hv : v ∈ nodes := h.known v (List.mem_append_right _ List.mem_cons_self)
    have hnot : v ∉ done := fun hdone ↦
      (List.nodup_append.1 h.nodup).2.2 v hdone v List.mem_cons_self rfl
    have hleft : v ∈ left := (List.mem_append.1 (hperm.mem_iff.2 hv)).resolve_left hnot
    have hsplit : left.Perm (v :: left.erase v) := List.perm_cons_erase hleft
    refine ⟨left.erase v, ?_, fun u hu ↦ ?_⟩
    · rw [List.append_assoc]
      exact (hsplit.symm.append_left done).trans hperm
    · rw [hcount u hu, (hsplit.flatMap_right succ).count_eq, List.flatMap_cons, List.count_append,
        List.count_nil]
      push_cast
      omega
  zero u hu := by
    rw [List.append_assoc]
    exact h.zero u hu
  ordered u w huw hw := by
    have hv : v ∈ nodes := h.known v (List.mem_append_right _ List.mem_cons_self)
    have hnot : v ∉ done := fun hdone ↦
      (List.nodup_append.1 h.nodup).2.2 v hdone v List.mem_cons_self rfl
    rcases List.mem_append.1 hw with hw | hw
    · obtain ⟨hu, hless⟩ := h.ordered u w huw hw
      rw [List.idxOf_append_of_mem hu, List.idxOf_append_of_mem hw]
      exact ⟨List.mem_append_left _ hu, hless⟩
    · rw [List.mem_singleton] at hw
      subst hw
      have hu := h.mem_done_of_leads hv
        ((h.zero w hv).2 (List.mem_append_right _ List.mem_cons_self)) huw
      refine ⟨List.mem_append_left _ hu, ?_⟩
      rw [List.idxOf_append_of_mem hu, List.idxOf_append_of_notMem hnot]
      exact lt_of_lt_of_le (List.idxOf_lt_length_of_mem hu) (Nat.le_add_right _ _)

/-- One edge is counted off, and its end is queued when it was the last edge into it. -/
theorem settle {t : V} (h : Counts succ nodes done queue inDegree (t :: rest)) (ht : t ∈ nodes) :
    Counts succ nodes done (if inDegree t - 1 = 0 then queue ++ [t] else queue)
      (Function.update inDegree t (inDegree t - 1)) rest := by
  obtain ⟨left, hperm, hcount⟩ := h.counted
  have hpos : 0 < inDegree t := by
    rw [hcount t ht, List.count_cons_self]
    push_cast
    omega
  have hnew : t ∉ done ++ queue := fun hmem ↦ (h.zero t ht).2 hmem |>.not_gt hpos
  have hqueue : ∀ u, u ∈ done ++ (if inDegree t - 1 = 0 then queue ++ [t] else queue) ↔
      u ∈ done ++ queue ∨ (u = t ∧ inDegree t - 1 = 0) := by
    intro u
    split
    · next hzero => rw [← List.append_assoc, List.mem_append, List.mem_singleton, and_iff_left hzero]
    · next hzero => rw [or_iff_left fun hand ↦ hzero hand.2]
  refine ⟨?_, fun u hu ↦ ?_, ⟨left, hperm, fun u hu ↦ ?_⟩, fun u hu ↦ ?_, h.ordered⟩
  · split
    · rw [← List.append_assoc]
      exact List.nodup_append.2 ⟨h.nodup, List.nodup_singleton t, fun u hu v hv heq ↦
        hnew (List.mem_singleton.1 hv ▸ heq ▸ hu)⟩
    · exact h.nodup
  · rcases (hqueue u).1 hu with hu | ⟨rfl, -⟩
    · exact h.known u hu
    · exact ht
  · by_cases hut : u = t
    · subst hut
      rw [Function.update_self, hcount u hu, List.count_cons_self]
      push_cast
      omega
    · rw [Function.update_of_ne hut, hcount u hu, List.count_cons_of_ne (Ne.symm hut)]
  · rw [hqueue]
    by_cases hut : u = t
    · subst hut
      rw [Function.update_self, or_iff_right hnew, and_iff_right rfl]
    · rw [Function.update_of_ne hut, h.zero u hu, or_iff_left fun hand ↦ hut hand.1]

theorem lt_of_transGen (h : Counts succ nodes done queue inDegree rest) {u v : V}
    (huv : TransGen (Leads succ nodes) u v) (hv : v ∈ done) :
    u ∈ done ∧ done.idxOf u < done.idxOf v := by
  induction huv with
  | single hstep => exact h.ordered _ _ hstep hv
  | tail _ hstep ih =>
    obtain ⟨hb, hless⟩ := h.ordered _ _ hstep hv
    obtain ⟨hu, hless'⟩ := ih hb
    exact ⟨hu, hless'.trans hless⟩

/-- A vertex left over has an edge into it from another one left over. -/
theorem exists_leads (h : Counts succ nodes done [] inDegree []) (hnodup : nodes.Nodup) {v : V}
    (hv : v ∈ nodes) (hleft : v ∉ done) : ∃ u, Leads succ nodes u v ∧ u ∉ done := by
  obtain ⟨left, hperm, hcount⟩ := h.counted
  have hne : inDegree v ≠ 0 := fun hzero ↦ hleft (by
    have hmem := (h.zero v hv).1 hzero
    rw [List.append_nil] at hmem
    exact hmem)
  have hcountNe : (left.flatMap succ).count v ≠ 0 := by
    intro hnone
    apply hne
    rw [hcount v hv, hnone, List.count_nil]
    rfl
  obtain ⟨u, hu, huv⟩ := List.mem_flatMap.1 (List.count_pos_iff.1 (Nat.pos_of_ne_zero hcountNe))
  refine ⟨u, ⟨hperm.mem_iff.1 (List.mem_append_right _ hu), huv⟩, fun hdone ↦ ?_⟩
  exact (List.nodup_append.1 (hperm.nodup_iff.2 hnodup)).2.2 u hdone u hu rfl

/-- When the queue is empty, the vertices are all done if and only if there is no cycle. -/
theorem length_eq_iff (h : Counts succ nodes done [] inDegree []) (hnodup : nodes.Nodup) :
    done.length = nodes.length ↔ ∀ v, ¬ TransGen (Leads succ nodes) v v := by
  have hdoneNodup : done.Nodup := (List.nodup_append.1 h.nodup).1
  have hsub : done ⊆ nodes := fun v hv ↦ h.known v (List.mem_append_left _ hv)
  constructor
  · intro hlength v hcycle
    have hperm : done.Perm nodes := (hdoneNodup.subperm hsub).perm_of_length_le hlength.ge
    obtain ⟨_, hfirst, -⟩ := TransGen.head'_iff.1 hcycle
    have hv : v ∈ done := hperm.mem_iff.2 hfirst.1
    exact lt_irrefl _ (h.lt_of_transGen hcycle hv).2
  · intro hacyclic
    refine le_antisymm (hdoneNodup.subperm hsub).length_le ?_
    refine (hnodup.subperm fun v hv ↦ ?_).length_le
    let below : {v // v ∈ nodes} → {v // v ∈ nodes} → Prop := fun u v ↦
      TransGen (Leads succ nodes) u.1 v.1
    have hwf : WellFounded below :=
      have : IsTrans _ below := ⟨fun _ _ _ huv hvw ↦ huv.trans hvw⟩
      have : Std.Irrefl below := ⟨fun u huu ↦ hacyclic u.1 huu⟩
      Finite.wellFounded_of_trans_of_irrefl below
    by_contra hleft
    obtain ⟨w, hw, hmin⟩ := hwf.has_min {w | w.1 ∉ done} ⟨⟨v, hv⟩, hleft⟩
    obtain ⟨u, huw, hu⟩ := h.exists_leads hnodup w.2 hw
    exact hmin ⟨u, huw.1⟩ hu (TransGen.single huw)

end Counts

end Kahn
