import Lionagi.LionCore.WorkflowProgress

/-!
# The termination measure of workflow instances

The measure is a weighted sum in 64 bits that clamps where it overflows. Below the clamp a successful call lowers
it; where the sum stays at or above the maximum after the call, the measure is the maximum before and after. Runs
are finite all the same, as the rank shows.
-/

namespace Lionagi.LionCore

/-- `saturating_mul` on `u64`. -/
def saturatingMul (a b : ℕ) : ℕ := min (a * b) (2 ^ 64 - 1)

namespace Workflow

open Transition

namespace WorkflowInstance

def getRetries (workflow : WorkflowInstance) (node : ℕ) : ℕ :=
  match workflow.workflowDef.nodeIndex node with
  | some idx => workflow.retriesAt idx
  | none => 0

def retriesRemaining (workflow : WorkflowInstance) : ℕ := workflow.retries.foldl saturatingAdd 0

def measure (workflow : WorkflowInstance) (now : Time) : ℕ :=
  saturatingAdd
    (saturatingAdd
      (saturatingAdd (workflow.timeoutAt - now) (saturatingMul workflow.pendingCt 1000))
      (saturatingMul workflow.activeCt 100))
    (saturatingMul workflow.retriesRemaining 1000)

/-! ## The sum without clamping -/

/-- The sum that the measure clamps. -/
def weight (workflow : WorkflowInstance) (now : Time) : ℕ :=
  workflow.timeoutAt - now + workflow.pendingCt * 1000 + workflow.activeCt * 100 + workflow.retries.sum * 1000

/-- What a call takes from the sum: the counters are lowered by one where they are positive, and are raised by one
in 32 bits. -/
def taken (workflow : WorkflowInstance) : Op → ℤ
  | .startNode _ => 1000 * (workflow.pendingCt - (workflow.pendingCt - 1 : ℕ)) +
      100 * (workflow.activeCt - ((workflow.activeCt + 1) % 2 ^ 32 : ℕ))
  | .completeNode _ => 100 * (workflow.activeCt - (workflow.activeCt - 1 : ℕ))
  | .failNode node => if 0 < workflow.getRetries node then
      1000 * (workflow.pendingCt - ((workflow.pendingCt + 1) % 2 ^ 32 : ℕ)) +
        100 * (workflow.activeCt - (workflow.activeCt - 1 : ℕ)) + 1000
    else 100 * (workflow.activeCt - (workflow.activeCt - 1 : ℕ))
  | .applyTimeout => 0

/-- What a call takes from the sum as long as the counters count. -/
def weightOf : Op → ℤ
  | .startNode _ => 900
  | _ => 100

/-- The call takes something from the sum, and leaves it below the maximum. -/
def Spare (workflow : WorkflowInstance) (now : Time) (op : Op) : Prop :=
  0 < workflow.taken op ∧ (workflow.weight now : ℤ) < 2 ^ 64 - 1 + workflow.taken op

section Measure

variable {workflow workflow' : WorkflowInstance} {op : Op}

theorem foldl_saturatingAdd (retries : List ℕ) (n : ℕ) :
    retries.foldl saturatingAdd (min n (2 ^ 64 - 1)) = min (n + retries.sum) (2 ^ 64 - 1) := by
  induction retries generalizing n with
  | nil => simp
  | cons r retries ih =>
    have hfirst : saturatingAdd (min n (2 ^ 64 - 1)) r = min (n + r) (2 ^ 64 - 1) := by
      unfold saturatingAdd
      omega
    rw [List.foldl_cons, hfirst, ih, List.sum_cons, Nat.add_assoc]

/-- The measure is the sum, clamped once. -/
theorem measure_eq (workflow : WorkflowInstance) (now : Time) :
    workflow.measure now = min (workflow.weight now) (2 ^ 64 - 1) := by
  have hretries : workflow.retriesRemaining = min workflow.retries.sum (2 ^ 64 - 1) := by
    have hfold := foldl_saturatingAdd workflow.retries 0
    rwa [Nat.zero_add] at hfold
  unfold measure weight saturatingAdd saturatingMul
  rw [hretries]
  omega

/-- The counters, the retries and the deadline after a move. -/
theorem transition_counters (workflow : WorkflowInstance) (idx : ℕ) (s : NodeState) :
    (workflow.transition idx s).timeoutAt = workflow.timeoutAt ∧
      (workflow.transition idx s).retries = workflow.retries := by
  unfold transition
  cases s <;> cases workflow.stateAt idx <;> exact ⟨rfl, rfl⟩

theorem Moved.weight_eq (h : Moved workflow op workflow') (now : Time) :
    (workflow'.weight now : ℤ) = workflow.weight now - workflow.taken op := by
  cases h with
  | @started node idx hindex hstate hdeps =>
    obtain ⟨htimeout, hretries⟩ := transition_counters workflow idx .active
    have hpending := counter_transition workflow idx .active .pending (by decide)
    have hactive := counter_transition workflow idx .active .active (by decide)
    simp only [hstate, reduceCtorEq, if_true, if_false, counter] at hpending hactive
    simp only [weight, taken, htimeout, hretries, hpending, hactive]
    omega
  | @completed node idx hindex hstate =>
    obtain ⟨htimeout, hretries⟩ := transition_counters workflow idx .completed
    have hpending := counter_transition workflow idx .completed .pending (by decide)
    have hactive := counter_transition workflow idx .completed .active (by decide)
    simp only [hstate, reduceCtorEq, if_true, if_false, counter] at hpending hactive
    rw [updateWorkflowStatus_eq]
    simp only [weight, taken, htimeout, hretries, hpending, hactive]
    omega
  | @retried node idx hindex hstate hretries =>
    obtain ⟨htimeout, -⟩ := transition_counters workflow idx .pending
    have hpending := counter_transition workflow idx .pending .pending (by decide)
    have hactive := counter_transition workflow idx .pending .active (by decide)
    have hspent := sum_spend hretries
    have hleft : workflow.getRetries node = workflow.retriesAt idx := by
      rw [getRetries, hindex]
    simp only [hstate, reduceCtorEq, if_true, if_false, counter] at hpending hactive
    simp only [weight, taken, htimeout, hpending, hactive, hleft, if_pos hretries]
    omega
  | @failed node idx hindex hstate hretries =>
    obtain ⟨htimeout, hsame⟩ := transition_counters workflow idx .failed
    have hpending := counter_transition workflow idx .failed .pending (by decide)
    have hactive := counter_transition workflow idx .failed .active (by decide)
    have hleft : ¬ 0 < workflow.getRetries node := by
      rw [getRetries, hindex]
      exact Nat.not_lt.2 hretries.le
    simp only [hstate, reduceCtorEq, if_true, if_false, counter] at hpending hactive
    simp only [weight, taken, htimeout, hsame, hpending, hactive, if_neg hleft]
    omega

/-- A successful call lowers the measure exactly when it takes something from the sum and leaves it below the
maximum. -/
theorem measure_lt_iff (h : Succeeds workflow op) (now : Time) :
    (workflow.call op).2.measure now < workflow.measure now ↔ workflow.Spare now op := by
  have hweight := (moved_of_succeeds h).weight_eq now
  rw [measure_eq, measure_eq, Spare]
  omega

/-- No node is in two states. -/
theorem count_add_count_le (states : List NodeState) {s t : NodeState} (hne : s ≠ t) :
    states.count s + states.count t ≤ states.length := by
  induction states with
  | nil => exact Nat.le_refl 0
  | cons state states ih =>
    rw [List.count_cons, List.count_cons, List.length_cons]
    by_cases hs : state = s
    · have ht : ¬ state = t := fun heq ↦ hne (hs.symm.trans heq)
      simp only [beq_iff_eq, hs, if_true, hne, if_false]
      omega
    · simp only [beq_iff_eq, hs, if_false]
      split <;> omega

/-- As long as the counters count, a start takes 900 and any other successful call 100. -/
theorem Consistent.taken_eq (h : workflow.Consistent) (hsucceeds : Succeeds workflow op) :
    workflow.taken op = weightOf op := by
  have hmoved := moved_of_succeeds hsucceeds
  have hcounts {idx node : ℕ} (hindex : workflow.workflowDef.nodeIndex node = some idx)
      (hstate : workflow.stateAt idx ≠ .completed) : 0 < workflow.counter (workflow.stateAt idx) := by
    have hnode := (h.valid.index node idx).1 hindex
    have hsame := h.placed.stateAt_eq_getNodeState hnode
    rw [hsame] at hstate ⊢
    exact h.counter_pos (List.mem_of_getElem? hnode) hstate
  -- two counters together count no more than there are nodes
  have htotal : workflow.pendingCt + workflow.activeCt < 2 ^ 32 := by
    have hpending := h.counts .pending (by decide)
    have hactive := h.counts .active (by decide)
    have hlength : workflow.nodeStates.length < 2 ^ 32 := h.length ▸ h.small
    have hdisjoint := count_add_count_le workflow.nodeStates (show NodeState.pending ≠ .active by decide)
    simp only [counter] at hpending hactive
    omega
  generalize (workflow.call op).2 = workflow' at hmoved
  cases hmoved with
  | @started node idx hindex hstate hdeps =>
    have hpos := hcounts hindex (by rw [hstate]; decide)
    rw [hstate] at hpos
    simp only [counter] at hpos
    simp only [taken, weightOf]
    omega
  | @completed node idx hindex hstate =>
    have hpos := hcounts hindex (by rw [hstate]; decide)
    rw [hstate] at hpos
    simp only [counter] at hpos
    simp only [taken, weightOf]
    omega
  | @retried node idx hindex hstate hretries =>
    have hpos := hcounts hindex (by rw [hstate]; decide)
    rw [hstate] at hpos
    simp only [counter] at hpos
    have hleft : 0 < workflow.getRetries node := by
      rw [getRetries, hindex]
      exact hretries
    simp only [taken, weightOf, if_pos hleft]
    omega
  | @failed node idx hindex hstate hretries =>
    have hpos := hcounts hindex (by rw [hstate]; decide)
    rw [hstate] at hpos
    simp only [counter] at hpos
    have hleft : ¬ 0 < workflow.getRetries node := by
      rw [getRetries, hindex]
      exact Nat.not_lt.2 hretries.le
    simp only [taken, weightOf, if_neg hleft]
    omega

end Measure

end WorkflowInstance

/-- For every instance of a validated definition and every time: a successful call lowers the measure exactly when
it takes something from the sum and leaves it below the maximum, where a start takes 900 and another call 100 as
long as the definition has fewer than 2^32 nodes; no run of successful calls is infinite; and time never raises
the measure. -/
theorem measure_decreases_iff (nodes : List ℕ) (edges : List Edge) (workflowDef : WorkflowDef)
    (h : WorkflowDef.validated nodes edges = .ok workflowDef) (workflow : WorkflowInstance)
    (hdef : workflow.workflowDef = workflowDef) :
    (∀ now op, Succeeds workflow op →
      ((workflow.call op).2.measure now < workflow.measure now ↔ workflow.Spare now op)) ∧
      (∀ timeoutAt maxRetries, workflowDef.nodes.length < 2 ^ 32 →
        Transition.Reachable (fun workflow op workflow' ↦ workflow' = (workflow.call op).2)
          (WorkflowInstance.new workflowDef timeoutAt maxRetries) workflow →
            ∀ op, Succeeds workflow op → workflow.taken op = WorkflowInstance.weightOf op) ∧
      (workflow.nodeStates.length = workflowDef.nodes.length → ∃ bound, ∀ ops : List Op,
        Along (fun workflow op ↦ (workflow.call op).2) Succeeds workflow ops → ops.length ≤ bound) ∧
      ∀ now later, now ≤ later → workflow.measure later ≤ workflow.measure now := by
  have hvalid := valid_of_validated h
  refine ⟨fun now op hop ↦ WorkflowInstance.measure_lt_iff hop now, fun timeoutAt maxRetries hsmall hreach op hop ↦ ?_,
    fun hlength ↦ ?_, fun now later hle ↦ ?_⟩
  · refine WorkflowInstance.Consistent.taken_eq (hreach.invariant (I := WorkflowInstance.Consistent)
      (WorkflowInstance.consistent_new hvalid hsmall timeoutAt maxRetries) fun s l t hs ht ↦ ?_) hop
    rw [ht]
    exact (hs.called l).consistent hs
  · have hplaced : workflow.Placed := by
      refine ⟨?_, ?_⟩
      · rw [hdef]
        exact hvalid
      · rw [hdef]
        exact hlength
    exact ⟨workflow.rank, fun ops hops ↦ hplaced.length_le_rank hops⟩
  · have htime : workflow.timeoutAt - later ≤ workflow.timeoutAt - now := Nat.sub_le_sub_left hle _
    rw [WorkflowInstance.measure_eq, WorkflowInstance.measure_eq]
    refine min_le_min_right _ ?_
    exact Nat.add_le_add_right (Nat.add_le_add_right (Nat.add_le_add_right htime _) _) _

/-- A node that starts, with a deadline at 100. -/
theorem measure_decreases_iff_single :
    (WorkflowInstance.new single 100 0).Spare 0 (.startNode 1) ∧
      ((WorkflowInstance.new single 100 0).call (.startNode 1)).2.measure 0 <
        (WorkflowInstance.new single 100 0).measure 0 := by
  have hspare : (WorkflowInstance.new single 100 0).Spare 0 (.startNode 1) := by
    constructor <;> decide
  have hiff := (measure_decreases_iff [1] [] single validated_single (WorkflowInstance.new single 100 0) rfl).1 0
    (.startNode 1) ⟨by simp, by decide⟩
  exact ⟨hspare, hiff.2 hspare⟩

/-- Without a deadline the measure is the maximum before and after a start. -/
theorem not_measure_decreases : ¬ ∀ (nodes : List ℕ) (edges : List Edge) (workflowDef : WorkflowDef),
    WorkflowDef.validated nodes edges = .ok workflowDef → ∀ (timeoutAt : Time) (maxRetries : ℕ) (now : Time)
      (op : Op), Succeeds (WorkflowInstance.new workflowDef timeoutAt maxRetries) op →
        ((WorkflowInstance.new workflowDef timeoutAt maxRetries).call op).2.measure now <
          (WorkflowInstance.new workflowDef timeoutAt maxRetries).measure now := by
  intro h
  have hlt := h [1] [] single validated_single (2 ^ 64 - 1) 0 0 (.startNode 1) ⟨by simp, by decide⟩
  exact absurd hlt (by decide)

end Workflow

end Lionagi.LionCore
