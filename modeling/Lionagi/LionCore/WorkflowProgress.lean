import Mathlib.Data.Fintype.EquivFin
import Mathlib.Data.Set.Finite.Basic
import Mathlib.Order.WellFounded
import Lionagi.LionCore.Workflow

/-!
# Progress of workflow instances

A call that succeeds lowers a rank, so that no run of them goes on forever. That a running workflow can always
go on is another matter: validation looks at the endpoints of the edges, not for cycles. A definition without a
cycle never gets stuck, and with one, as long as the counters are wide enough for the nodes, an instance does.
-/

namespace Lionagi.LionCore.Workflow

open SortedTable Transition

/-- The source of an edge precedes its target. -/
def Precedes (edges : List Edge) (a b : ℕ) : Prop := ⟨a, b⟩ ∈ edges

def Acyclic (edges : List Edge) : Prop := ∀ node, ¬ Relation.TransGen (Precedes edges) node node

/-- A call that is no timeout is made, and what it returned is ignored. -/
def Works (workflow : WorkflowInstance) (op : Op) (workflow' : WorkflowInstance) : Prop :=
  op ≠ .applyTimeout ∧ workflow' = (workflow.call op).2

/-- A call that is no timeout succeeds. -/
def Succeeds (workflow : WorkflowInstance) (op : Op) : Prop :=
  op ≠ .applyTimeout ∧ (workflow.call op).1 = .ok ()

/-- In every state that the instance comes to: while it is running, a node is active or a pending one can be
started; calls cannot succeed forever; and where every started node has completed and none can be started, the
workflow has succeeded. -/
structure NeverStuck (start : WorkflowInstance) : Prop where
  moves : ∀ workflow, Transition.Reachable Works start workflow → workflow.workflowDef.nodes ≠ [] →
    workflow.status = .running → (∃ node, workflow.getNodeState node = .active) ∨
      ∃ node, workflow.getNodeState node = .pending ∧
        (∀ edge ∈ workflow.workflowDef.edges, edge.target = node →
          workflow.getNodeState edge.source = .completed) ∧ (workflow.startNode node).1 = .ok ()
  ends : ∀ workflow, Transition.Reachable Works start workflow → ∃ bound, ∀ ops : List Op,
    Along (fun workflow op ↦ (workflow.call op).2) Succeeds workflow ops → ops.length ≤ bound
  succeeds : ∀ workflow, Transition.Reachable Works start workflow → workflow.workflowDef.nodes ≠ [] →
    (∀ node, workflow.getNodeState node ≠ .active ∧ workflow.getNodeState node ≠ .failed) →
      (∀ node, (workflow.startNode node).1 ≠ .ok ()) → workflow.status = .success

namespace WorkflowInstance

/-! ## What a successful call does -/

/-- A node is started, completed, given back for another attempt, or fails. -/
inductive Moved (workflow : WorkflowInstance) : Op → WorkflowInstance → Prop
  | started {node idx : ℕ} (hindex : workflow.workflowDef.nodeIndex node = some idx)
      (hstate : workflow.stateAt idx = .pending) (hdeps : workflow.dependenciesSatisfied node = true) :
      Moved workflow (.startNode node) (workflow.transition idx .active)
  | completed {node idx : ℕ} (hindex : workflow.workflowDef.nodeIndex node = some idx)
      (hstate : workflow.stateAt idx = .active) :
      Moved workflow (.completeNode node) (workflow.transition idx .completed).updateWorkflowStatus
  | retried {node idx : ℕ} (hindex : workflow.workflowDef.nodeIndex node = some idx)
      (hstate : workflow.stateAt idx = .active) (hretries : 0 < workflow.retriesAt idx) :
      Moved workflow (.failNode node) { workflow.transition idx .pending with
        retries := workflow.retries.set idx (workflow.retriesAt idx - 1) }
  | failed {node idx : ℕ} (hindex : workflow.workflowDef.nodeIndex node = some idx)
      (hstate : workflow.stateAt idx = .active) (hretries : workflow.retriesAt idx = 0) :
      Moved workflow (.failNode node) { workflow.transition idx .failed with status := .failure }

section Moved

variable {workflow workflow' : WorkflowInstance} {op : Op}

theorem requireNode_eq (workflow : WorkflowInstance) (node : ℕ) : workflow.workflowDef.requireNode node =
    match workflow.workflowDef.nodeIndex node with
    | some idx => .ok idx
    | none => .error (.nodeNotFound node) := rfl

/-- A call succeeds by moving a node, or changes nothing. -/
theorem moved_or_refused (workflow : WorkflowInstance) (hop : op ≠ .applyTimeout) :
    (workflow.call op).1 = .ok () ∧ Moved workflow op (workflow.call op).2 ∨
      (workflow.call op).1 ≠ .ok () ∧ (workflow.call op).2 = workflow := by
  cases op with
  | startNode node =>
    simp only [WorkflowInstance.call, startNode, requireNode_eq]
    cases hindex : workflow.workflowDef.nodeIndex node with
    | none => exact .inr ⟨by simp, rfl⟩
    | some idx =>
      dsimp only
      by_cases hpending : workflow.stateAt idx ≠ .pending
      · rw [if_pos hpending]
        exact .inr ⟨by simp, rfl⟩
      · rw [if_neg hpending]
        by_cases hdeps : (!workflow.dependenciesSatisfied node) = true
        · rw [if_pos hdeps]
          exact .inr ⟨by simp, rfl⟩
        · rw [if_neg hdeps]
          exact .inl ⟨rfl, .started hindex (not_not.1 hpending) (by simpa using hdeps)⟩
  | completeNode node =>
    simp only [WorkflowInstance.call, completeNode, requireNode_eq]
    cases hindex : workflow.workflowDef.nodeIndex node with
    | none => exact .inr ⟨by simp, rfl⟩
    | some idx =>
      dsimp only
      by_cases hactive : workflow.stateAt idx ≠ .active
      · rw [if_pos hactive]
        exact .inr ⟨by simp, rfl⟩
      · rw [if_neg hactive]
        exact .inl ⟨rfl, .completed hindex (not_not.1 hactive)⟩
  | failNode node =>
    simp only [WorkflowInstance.call, failNode, requireNode_eq]
    cases hindex : workflow.workflowDef.nodeIndex node with
    | none => exact .inr ⟨by simp, rfl⟩
    | some idx =>
      dsimp only
      by_cases hactive : workflow.stateAt idx ≠ .active
      · rw [if_pos hactive]
        exact .inr ⟨by simp, rfl⟩
      · rw [if_neg hactive]
        by_cases hretries : workflow.retriesAt idx > 0
        · rw [if_pos hretries]
          exact .inl ⟨rfl, .retried hindex (not_not.1 hactive) hretries⟩
        · rw [if_neg hretries]
          exact .inl ⟨rfl, .failed hindex (not_not.1 hactive) (Nat.eq_zero_of_not_pos hretries)⟩
  | applyTimeout => exact absurd rfl hop

theorem moved_of_succeeds (h : Succeeds workflow op) : Moved workflow op (workflow.call op).2 := by
  obtain ⟨-, hmoved⟩ | ⟨hrefused, -⟩ := moved_or_refused workflow h.1
  · exact hmoved
  · exact absurd h.2 hrefused

/-- What every move keeps holds in every state that the instance comes to. -/
theorem reachable_invariant {I : WorkflowInstance → Prop} {start : WorkflowInstance} (hinit : I start)
    (hmove : ∀ workflow op workflow', I workflow → Moved workflow op workflow' → I workflow')
    (h : Transition.Reachable Works start workflow) : I workflow := by
  refine h.invariant hinit fun s op t hs hworks ↦ ?_
  rw [hworks.2]
  obtain ⟨-, hmoved⟩ | ⟨-, hsame⟩ := moved_or_refused s hworks.1
  · exact hmove s op _ hs hmoved
  · rw [hsame]
    exact hs

/-- The node that moves, and the state it comes to. -/
theorem Moved.getNodeState (h : Moved workflow op workflow') (hplaced : workflow.Placed) :
    ∃ (node idx : ℕ) (s : NodeState), workflow.workflowDef.nodes[idx]? = some node ∧
      (workflow.getNodeState node = .pending ∧ s = .active ∧
          (∀ edge ∈ workflow.workflowDef.edges, edge.target = node →
            workflow.getNodeState edge.source = .completed) ∨
        workflow.getNodeState node = .active ∧ s ≠ .active) ∧
      ∀ m, workflow'.getNodeState m = if m = node then s else workflow.getNodeState m := by
  have hat {node idx : ℕ} (hindex : workflow.workflowDef.nodeIndex node = some idx) :
      workflow.workflowDef.nodes[idx]? = some node ∧ workflow.stateAt idx = workflow.getNodeState node := by
    have hnode := (hplaced.valid.index node idx).1 hindex
    exact ⟨hnode, hplaced.stateAt_eq_getNodeState hnode⟩
  cases h with
  | @started node idx hindex hstate hdeps =>
    obtain ⟨hnode, hsame⟩ := hat hindex
    exact ⟨node, idx, .active, hnode, .inl ⟨hsame ▸ hstate, rfl, (hplaced.dependenciesSatisfied_iff hnode).1 hdeps⟩,
      hplaced.getNodeState_transition hnode⟩
  | @completed node idx hindex hstate =>
    obtain ⟨hnode, hsame⟩ := hat hindex
    refine ⟨node, idx, .completed, hnode, .inr ⟨hsame ▸ hstate, by decide⟩, fun m ↦ ?_⟩
    rw [updateWorkflowStatus_eq]
    exact hplaced.getNodeState_transition hnode m
  | @retried node idx hindex hstate hretries =>
    obtain ⟨hnode, hsame⟩ := hat hindex
    exact ⟨node, idx, .pending, hnode, .inr ⟨hsame ▸ hstate, by decide⟩, hplaced.getNodeState_transition hnode⟩
  | @failed node idx hindex hstate hretries =>
    obtain ⟨hnode, hsame⟩ := hat hindex
    exact ⟨node, idx, .failed, hnode, .inr ⟨hsame ▸ hstate, by decide⟩, hplaced.getNodeState_transition hnode⟩

theorem Moved.workflowDef_eq (h : Moved workflow op workflow') : workflow'.workflowDef = workflow.workflowDef := by
  cases h with
  | completed =>
    rw [updateWorkflowStatus_eq]
    exact transition_workflowDef _ _ _
  | _ => exact transition_workflowDef _ _ _

theorem Moved.placed (h : Moved workflow op workflow') (hplaced : workflow.Placed) : workflow'.Placed := by
  have hvalid : workflow'.workflowDef.Valid := by
    rw [h.workflowDef_eq]
    exact hplaced.valid
  refine ⟨hvalid, ?_⟩
  rw [h.workflowDef_eq, ← hplaced.length]
  cases h with
  | completed =>
    rw [updateWorkflowStatus_eq]
    exact List.length_set
  | _ => exact List.length_set

end Moved

/-! ## The rank -/

/-- The calls that can still succeed: a pending node is started and completes or fails, and every retry lets it
do so once more. -/
def rank (workflow : WorkflowInstance) : ℕ :=
  2 * workflow.nodeStates.count .pending + workflow.nodeStates.count .active + 2 * workflow.retries.sum

section Rank

variable {workflow workflow' : WorkflowInstance} {op : Op}

theorem sum_set (l : List ℕ) {idx : ℕ} (hidx : idx < l.length) (n : ℕ) :
    (l.set idx n).sum + l[idx] = l.sum + n := by
  induction l generalizing idx with
  | nil => exact absurd hidx (Nat.not_lt_zero _)
  | cons a l ih =>
    cases idx with
    | zero =>
      simp only [List.set_cons_zero, List.sum_cons, List.getElem_cons_zero]
      omega
    | succ idx =>
      have hrest := ih (Nat.lt_of_succ_lt_succ hidx)
      simp only [List.set_cons_succ, List.sum_cons, List.getElem_cons_succ]
      omega

/-- A retry that is spent. -/
theorem sum_spend {idx : ℕ} (hretries : 0 < workflow.retriesAt idx) :
    (workflow.retries.set idx (workflow.retriesAt idx - 1)).sum + 1 = workflow.retries.sum := by
  have hidx : idx < workflow.retries.length := by
    by_contra hge
    rw [retriesAt, List.getD_eq_getElem?_getD, List.getElem?_eq_none (Nat.le_of_not_lt hge)] at hretries
    exact absurd hretries (Nat.lt_irrefl 0)
  have hat : workflow.retriesAt idx = workflow.retries[idx] := by
    rw [retriesAt, List.getD_eq_getElem?_getD, List.getElem?_eq_getElem hidx]
    rfl
  have hsum := sum_set workflow.retries hidx (workflow.retriesAt idx - 1)
  omega

/-- How many nodes are in a state after one of them has moved. -/
theorem Placed.count_set (h : workflow.Placed) {node idx : ℕ} (hindex : workflow.workflowDef.nodeIndex node = some idx)
    (s t : NodeState) : (workflow.nodeStates.set idx s).count t + (if workflow.stateAt idx = t then 1 else 0) =
      workflow.nodeStates.count t + (if s = t then 1 else 0) := by
  have hidx := h.lt_length ((h.valid.index node idx).1 hindex)
  have hcount := List.count_set (a := s) (b := t) hidx
  rw [← stateAt_eq hidx] at hcount
  simp only [beq_iff_eq] at hcount
  by_cases hold : workflow.stateAt idx = t
  · have hpos : 0 < workflow.nodeStates.count t := by
      rw [List.count_pos_iff, ← hold, stateAt_eq hidx]
      exact List.getElem_mem hidx
    rw [if_pos hold] at hcount ⊢
    omega
  · rw [if_neg hold] at hcount ⊢
    omega

theorem Moved.rank_lt (h : Moved workflow op workflow') (hplaced : workflow.Placed) :
    workflow'.rank < workflow.rank := by
  cases h with
  | @started node idx hindex hstate hdeps =>
    have hpending := hplaced.count_set hindex .active .pending
    have hactive := hplaced.count_set hindex .active .active
    have hretries : (workflow.transition idx .active).retries = workflow.retries := by
      unfold transition
      rw [hstate]
      rfl
    simp only [hstate, reduceCtorEq, if_true, if_false] at hpending hactive
    rw [rank, rank, transition_nodeStates, hretries]
    omega
  | @completed node idx hindex hstate =>
    have hpending := hplaced.count_set hindex .completed .pending
    have hactive := hplaced.count_set hindex .completed .active
    have hretries : (workflow.transition idx .completed).retries = workflow.retries := by
      unfold transition
      rw [hstate]
      rfl
    simp only [hstate, reduceCtorEq, if_true, if_false] at hpending hactive
    rw [updateWorkflowStatus_eq]
    simp only [rank]
    rw [transition_nodeStates, hretries]
    omega
  | @retried node idx hindex hstate hretries =>
    have hpending := hplaced.count_set hindex .pending .pending
    have hactive := hplaced.count_set hindex .pending .active
    have hspent := sum_spend hretries
    simp only [hstate, reduceCtorEq, if_true, if_false] at hpending hactive
    simp only [rank]
    rw [transition_nodeStates]
    omega
  | @failed node idx hindex hstate hretries =>
    have hpending := hplaced.count_set hindex .failed .pending
    have hactive := hplaced.count_set hindex .failed .active
    have hsame : (workflow.transition idx .failed).retries = workflow.retries := by
      unfold transition
      rw [hstate]
      rfl
    simp only [hstate, reduceCtorEq, if_true, if_false] at hpending hactive
    simp only [rank]
    rw [transition_nodeStates, hsame]
    omega

/-- A run of successful calls is no longer than the rank. -/
theorem Placed.length_le_rank (h : workflow.Placed) {ops : List Op}
    (hops : Along (fun workflow op ↦ (workflow.call op).2) Succeeds workflow ops) :
    ops.length ≤ workflow.rank := by
  induction ops generalizing workflow with
  | nil => exact Nat.zero_le _
  | cons op ops ih =>
    have hmoved := moved_of_succeeds hops.1
    have hrest := ih (hmoved.placed h) hops.2
    have hlt := hmoved.rank_lt h
    rw [List.length_cons]
    omega

end Rank

/-! ## The counters and the status -/

/-- What holds of an instance in every state: no counter counts too much, a failure comes from a node that has
failed, and while the instance is running no node has failed and one has not completed. -/
structure Advancing (workflow : WorkflowInstance) : Prop where
  placed : workflow.Placed
  counted : ∀ s, s ≠ .completed → workflow.counter s ≤ workflow.nodeStates.count s
  failure : workflow.status = .failure → ∃ node, workflow.getNodeState node = .failed
  running : workflow.status = .running → ∀ node, workflow.getNodeState node ≠ .failed
  unfinished : workflow.status = .running → workflow.workflowDef.nodes ≠ [] →
    ∃ node ∈ workflow.workflowDef.nodes, workflow.getNodeState node ≠ .completed

section Advancing

variable {workflow workflow' : WorkflowInstance} {op : Op}

/-- What is counted is the state of a node. -/
theorem Placed.exists_node (h : workflow.Placed) {s : NodeState} (hpos : 0 < workflow.nodeStates.count s) :
    ∃ node ∈ workflow.workflowDef.nodes, workflow.getNodeState node = s := by
  obtain ⟨idx, hidx, hstate⟩ := List.mem_iff_getElem.1 (List.count_pos_iff.1 hpos)
  have hlt : idx < workflow.workflowDef.nodes.length := h.length ▸ hidx
  have hnode := List.getElem?_eq_getElem hlt
  refine ⟨workflow.workflowDef.nodes[idx], List.getElem_mem hlt, ?_⟩
  rw [← h.stateAt_eq_getNodeState hnode, stateAt_eq hidx, hstate]

theorem advancing_new {workflowDef : WorkflowDef} (hvalid : workflowDef.Valid) (timeoutAt : Time)
    (maxRetries : ℕ) : (new workflowDef timeoutAt maxRetries).Advancing where
  placed := placed_new hvalid timeoutAt maxRetries
  counted := by
    intro s hs
    cases s with
    | pending =>
      have hcount : (List.replicate workflowDef.nodes.length NodeState.pending).count .pending =
          workflowDef.nodes.length := List.count_replicate_self
      exact (Nat.mod_le _ _).trans hcount.ge
    | active => exact Nat.zero_le _
    | failed => exact Nat.zero_le _
    | completed => exact absurd rfl hs
  failure := fun hfailure ↦ by cases hfailure
  running := by
    intro _ node
    rw [getNodeState_new]
    decide
  unfinished := by
    intro _ hnodes
    obtain ⟨node, hnode⟩ := List.exists_mem_of_ne_nil _ hnodes
    refine ⟨node, hnode, ?_⟩
    rw [getNodeState_new]
    decide

/-- A move changes the counters by one, up to their width, and the numbers of nodes by exactly one. -/
theorem Advancing.counted_transition (h : workflow.Advancing) {node idx : ℕ}
    (hindex : workflow.workflowDef.nodeIndex node = some idx) (s t : NodeState) (ht : t ≠ .completed) :
    (workflow.transition idx s).counter t ≤ (workflow.nodeStates.set idx s).count t := by
  have hcount := h.placed.count_set hindex s t
  have hle := h.counted t ht
  rw [counter_transition _ _ _ _ ht]
  by_cases hs : s = t
  · rw [if_pos hs] at hcount ⊢
    refine (Nat.mod_le _ _).trans ?_
    split at hcount
    · next hold =>
      rw [if_pos hold]
      have hidx := h.placed.lt_length ((h.placed.valid.index node idx).1 hindex)
      have hpos : 0 < workflow.nodeStates.count t := by
        rw [List.count_pos_iff, ← hold, stateAt_eq hidx]
        exact List.getElem_mem hidx
      omega
    · next hold =>
      rw [if_neg hold]
      omega
  · rw [if_neg hs] at hcount ⊢
    split at hcount
    · next hold =>
      rw [if_pos hold]
      omega
    · next hold =>
      rw [if_neg hold]
      omega

theorem Advancing.counted_of_moved (h : workflow.Advancing) (hmoved : Moved workflow op workflow') (t : NodeState)
    (ht : t ≠ .completed) : workflow'.counter t ≤ workflow'.nodeStates.count t := by
  cases hmoved with
  | started hindex _ _ => exact h.counted_transition hindex .active t ht
  | completed hindex _ =>
    have hcounted := h.counted_transition hindex .completed t ht
    rw [updateWorkflowStatus_eq]
    cases t <;> exact hcounted
  | retried hindex _ _ =>
    have hcounted := h.counted_transition hindex .pending t ht
    cases t <;> exact hcounted
  | failed hindex _ _ =>
    have hcounted := h.counted_transition hindex .failed t ht
    cases t <;> exact hcounted

/-- A move after which the instance is running: no node fails, and the last open one does not complete. -/
theorem Moved.of_running (h : Moved workflow op workflow') (hplaced : workflow.Placed)
    (hrunning : workflow'.status = .running) : workflow.status = .running ∧
      ∃ node ∈ workflow.workflowDef.nodes, ∃ s, s ≠ .failed ∧
        (s = .completed → ¬ (workflow'.pendingCt = 0 ∧ workflow'.activeCt = 0)) ∧
          ∀ m, workflow'.getNodeState m = if m = node then s else workflow.getNodeState m := by
  cases h with
  | @started node idx hindex hstate hdeps =>
    have hnode := (hplaced.valid.index node idx).1 hindex
    exact ⟨(transition_status _ _ _).symm.trans hrunning, node, List.mem_of_getElem? hnode, .active, by decide,
      (fun heq ↦ by cases heq), hplaced.getNodeState_transition hnode⟩
  | @completed node idx hindex hstate =>
    have hnode := (hplaced.valid.index node idx).1 hindex
    have hopen : ¬ ((workflow.transition idx .completed).pendingCt = 0 ∧
        (workflow.transition idx .completed).activeCt = 0) := by
      intro hlast
      rw [updateWorkflowStatus_eq, if_pos hlast] at hrunning
      split at hrunning <;> cases hrunning
    rw [updateWorkflowStatus_eq, if_neg hopen] at hrunning ⊢
    exact ⟨(transition_status _ _ _).symm.trans hrunning, node, List.mem_of_getElem? hnode, .completed, by decide,
      fun _ ↦ hopen, hplaced.getNodeState_transition hnode⟩
  | @retried node idx hindex hstate hretries =>
    have hnode := (hplaced.valid.index node idx).1 hindex
    exact ⟨(transition_status _ _ _).symm.trans hrunning, node, List.mem_of_getElem? hnode, .pending, by decide,
      (fun heq ↦ by cases heq), hplaced.getNodeState_transition hnode⟩
  | failed => cases hrunning

/-- A move after which the instance has failed: it had failed before, or a node has failed. -/
theorem Advancing.of_failure (h : workflow.Advancing) (hmoved : Moved workflow op workflow')
    (hfailure : workflow'.status = .failure) :
    workflow.status = .failure ∨ ∃ node, workflow'.getNodeState node = .failed := by
  have hcounted := h.counted_of_moved hmoved .failed (by decide)
  have hplaced := hmoved.placed h.placed
  cases hmoved with
  | started => exact .inl ((transition_status _ _ _).symm.trans hfailure)
  | @completed node idx hindex hstate =>
    by_cases hcount : 0 < (workflow.transition idx .completed).updateWorkflowStatus.counter .failed
    · obtain ⟨failed, -, hfailed⟩ := hplaced.exists_node (hcount.trans_le hcounted)
      exact .inr ⟨failed, hfailed⟩
    · left
      rw [updateWorkflowStatus_eq] at hcount hfailure
      have hnone : ¬ 0 < (workflow.transition idx .completed).failedCt := hcount
      dsimp only at hfailure
      rw [if_neg hnone] at hfailure
      split at hfailure
      · cases hfailure
      · exact (transition_status _ _ _).symm.trans hfailure
  | retried => exact .inl ((transition_status _ _ _).symm.trans hfailure)
  | @failed node idx hindex hstate hretries =>
    refine .inr ⟨node, ?_⟩
    have hnode := (h.placed.valid.index node idx).1 hindex
    exact (h.placed.getNodeState_transition hnode node).trans (if_pos rfl)

/-- Every move keeps the invariant. -/
theorem Advancing.moved (h : workflow.Advancing) (hmoved : Moved workflow op workflow') : workflow'.Advancing where
  placed := hmoved.placed h.placed
  counted := h.counted_of_moved hmoved
  failure := by
    intro hfailure
    obtain hbefore | hnow := h.of_failure hmoved hfailure
    · obtain ⟨failed, hfailed⟩ := h.failure hbefore
      obtain ⟨node, idx, s, -, hmove, hstates⟩ := hmoved.getNodeState h.placed
      refine ⟨failed, ?_⟩
      rw [hstates, if_neg, hfailed]
      rintro rfl
      rw [hfailed] at hmove
      obtain ⟨hpending, -⟩ | ⟨hactive, -⟩ := hmove
      · cases hpending
      · cases hactive
    · exact hnow
  running := by
    intro hrunning m
    obtain ⟨hbefore, node, -, s, hs, -, hstates⟩ := hmoved.of_running h.placed hrunning
    rw [hstates]
    split
    · exact hs
    · exact h.running hbefore m
  unfinished := by
    intro hrunning _
    obtain ⟨-, node, hnode, s, -, hlast, hstates⟩ := hmoved.of_running h.placed hrunning
    have hplaced := hmoved.placed h.placed
    rw [← hmoved.workflowDef_eq] at hnode
    by_contra hall
    push Not at hall
    have hcompleted : s = .completed := by
      rw [← hall node hnode, hstates, if_pos rfl]
    have hnone : ∀ t, t ≠ .completed → workflow'.counter t = 0 := by
      intro t ht
      refine Nat.eq_zero_of_not_pos fun hpos ↦ ?_
      obtain ⟨other, hother, hstate⟩ := hplaced.exists_node (hpos.trans_le (h.counted_of_moved hmoved t ht))
      exact ht (hstate.symm.trans (hall other hother))
    exact hlast hcompleted ⟨hnone .pending (by decide), hnone .active (by decide)⟩

/-! ## Without a cycle -/

/-- Without a cycle, one of the pending nodes has no pending node before it. -/
theorem exists_minimal_pending (h : workflow.Placed) (hacyclic : Acyclic workflow.workflowDef.edges) {node : ℕ}
    (hnode : node ∈ workflow.workflowDef.nodes) (hpending : workflow.getNodeState node = .pending) :
    ∃ first, first ∈ workflow.workflowDef.nodes ∧ workflow.getNodeState first = .pending ∧
      ∀ edge ∈ workflow.workflowDef.edges, edge.target = first →
        workflow.getNodeState edge.source ≠ .pending := by
  let below : {n // n ∈ workflow.workflowDef.nodes} → {n // n ∈ workflow.workflowDef.nodes} → Prop :=
    fun a b ↦ Relation.TransGen (Precedes workflow.workflowDef.edges) a.1 b.1
  have hwf : WellFounded below :=
    have : IsTrans _ below := ⟨fun _ _ _ hab hbc ↦ hab.trans hbc⟩
    have : Std.Irrefl below := ⟨fun a ↦ hacyclic a.1⟩
    Finite.wellFounded_of_trans_of_irrefl below
  obtain ⟨first, hfirst, hminimal⟩ := hwf.has_min {a | workflow.getNodeState a.1 = .pending} ⟨⟨node, hnode⟩, hpending⟩
  refine ⟨first.1, first.2, hfirst, fun edge hedge htarget hsource ↦ ?_⟩
  have hprecedes : Precedes workflow.workflowDef.edges edge.source first.1 := htarget ▸ hedge
  exact hminimal ⟨edge.source, h.valid.source edge hedge⟩ hsource (.single hprecedes)

/-- While it is running, a definition without a cycle lets an instance go on. -/
theorem Advancing.moves (h : workflow.Advancing) (hacyclic : Acyclic workflow.workflowDef.edges)
    (hnodes : workflow.workflowDef.nodes ≠ []) (hrunning : workflow.status = .running) :
    (∃ node, workflow.getNodeState node = .active) ∨
      ∃ node, workflow.getNodeState node = .pending ∧
        (∀ edge ∈ workflow.workflowDef.edges, edge.target = node →
          workflow.getNodeState edge.source = .completed) ∧ (workflow.startNode node).1 = .ok () := by
  by_cases hactive : ∃ node, workflow.getNodeState node = .active
  · exact .inl hactive
  · right
    have hrest : ∀ node, workflow.getNodeState node ≠ .pending → workflow.getNodeState node = .completed := by
      intro node hpending
      cases hstate : workflow.getNodeState node with
      | pending => exact absurd hstate hpending
      | active => exact absurd ⟨node, hstate⟩ hactive
      | completed => rfl
      | failed => exact absurd hstate (h.running hrunning node)
    obtain ⟨left, hleft, hopen⟩ := h.unfinished hrunning hnodes
    have hpending : workflow.getNodeState left = .pending := by
      by_contra hne
      exact hopen (hrest left hne)
    obtain ⟨first, hmem, hfirst, hbefore⟩ := exists_minimal_pending h.placed hacyclic hleft hpending
    have hdeps : ∀ edge ∈ workflow.workflowDef.edges, edge.target = first →
        workflow.getNodeState edge.source = .completed :=
      fun edge hedge htarget ↦ hrest _ (hbefore edge hedge htarget)
    refine ⟨first, hfirst, hdeps, ?_⟩
    obtain ⟨idx, hidx⟩ := List.mem_iff_getElem?.1 hmem
    have hsatisfied := (h.placed.dependenciesSatisfied_iff hidx).2 hdeps
    have hat := (h.placed.stateAt_eq_getNodeState hidx).trans hfirst
    simp [startNode, requireNode_eq, (h.placed.valid.index first idx).2 hidx, hat, hsatisfied]

end Advancing

/-! ## With a cycle -/

/-- An instance that is running, and in which the nodes on a cycle are pending. -/
structure Waiting (workflow : WorkflowInstance) : Prop where
  consistent : workflow.Consistent
  running : workflow.status = .running
  cycle : ∀ node, Relation.TransGen (Precedes workflow.workflowDef.edges) node node →
    workflow.getNodeState node = .pending

section Waiting

variable {workflow workflow' : WorkflowInstance} {op : Op} {node : ℕ}

/-- A node on a cycle has a node on a cycle before it. -/
theorem exists_precedes_cycle {edges : List Edge} (h : Relation.TransGen (Precedes edges) node node) :
    ∃ before, Precedes edges before node ∧ Relation.TransGen (Precedes edges) before before := by
  obtain ⟨before, hpath, hlast⟩ := Relation.TransGen.tail'_iff.1 h
  exact ⟨before, hlast, Relation.TransGen.head' hlast hpath⟩

/-- Starting and completing nodes leaves the nodes on a cycle waiting. -/
theorem Waiting.moved (h : workflow.Waiting) {onCycle : ℕ}
    (hcycle : Relation.TransGen (Precedes workflow.workflowDef.edges) onCycle onCycle)
    (hop : op = .startNode node ∨ op = .completeNode node) (hmoved : Moved workflow op workflow')
    (hafter : workflow' = (workflow.call op).2) : workflow'.Waiting := by
  have hconsistent : workflow'.Consistent := hafter ▸ (h.consistent.called op).consistent h.consistent
  have hpending : ∀ m, Relation.TransGen (Precedes workflow'.workflowDef.edges) m m →
      workflow'.getNodeState m = .pending := by
    intro m hm
    rw [hmoved.workflowDef_eq] at hm
    obtain ⟨other, idx, s, -, hmove, hstates⟩ := hmoved.getNodeState h.consistent.placed
    rw [hstates, if_neg, h.cycle m hm]
    rintro rfl
    obtain ⟨-, -, hdeps⟩ | ⟨hactive, -⟩ := hmove
    · obtain ⟨before, hprecedes, hbefore⟩ := exists_precedes_cycle hm
      have hcompleted := hdeps ⟨before, m⟩ hprecedes rfl
      rw [h.cycle before hbefore] at hcompleted
      cases hcompleted
    · rw [h.cycle m hm] at hactive
      cases hactive
  refine ⟨hconsistent, ?_, hpending⟩
  -- the counter of pending nodes stays positive, so that nothing is decided
  have hcount : 0 < workflow'.pendingCt := by
    have hstate := hpending onCycle (hmoved.workflowDef_eq ▸ hcycle)
    obtain ⟨before, hprecedes, -⟩ := exists_precedes_cycle hcycle
    have hmem : onCycle ∈ workflow'.workflowDef.nodes := by
      rw [hmoved.workflowDef_eq]
      exact h.consistent.valid.target ⟨before, onCycle⟩ hprecedes
    have hcounter := hconsistent.counter_pos hmem (by rw [hstate]; decide)
    rw [hstate] at hcounter
    exact hcounter
  cases hmoved with
  | started => exact (transition_status _ _ _).trans h.running
  | @completed node idx hindex hstate =>
    rw [updateWorkflowStatus_eq] at hcount ⊢
    refine (if_neg fun hlast ↦ ?_).trans ((transition_status _ _ _).trans h.running)
    exact absurd hlast.1 (Nat.ne_of_gt hcount)
  | retried => obtain heq | heq := hop <;> cases heq
  | failed => obtain heq | heq := hop <;> cases heq

/-- With a node on a cycle an instance cannot always go on. -/
theorem Waiting.not_neverStuck (h : workflow.Waiting) {start : WorkflowInstance}
    (hreach : Transition.Reachable Works start workflow) {onCycle : ℕ}
    (hcycle : Relation.TransGen (Precedes workflow.workflowDef.edges) onCycle onCycle) : ¬ NeverStuck start := by
  intro hnever
  -- each node that could be started or completed would lower the rank and leave the cycle waiting
  induction hrank : workflow.rank using Nat.strong_induction_on generalizing workflow with
  | _ rank ih =>
    have hplaced := h.consistent.placed
    have hgo (node : ℕ) {op : Op} (hop : op = .startNode node ∨ op = .completeNode node)
        (hok : (workflow.call op).1 = .ok ()) : False := by
      have htimeout : op ≠ .applyTimeout := by
        obtain rfl | rfl := hop <;> simp
      have hmoved := moved_of_succeeds ⟨htimeout, hok⟩
      refine ih _ (hrank ▸ hmoved.rank_lt hplaced) (h.moved hcycle hop hmoved rfl)
        (hreach.step ⟨htimeout, rfl⟩) ?_ rfl
      rw [hmoved.workflowDef_eq]
      exact hcycle
    have hnodes : workflow.workflowDef.nodes ≠ [] := by
      obtain ⟨before, hprecedes, -⟩ := exists_precedes_cycle hcycle
      exact List.ne_nil_of_mem (hplaced.valid.target ⟨before, onCycle⟩ hprecedes)
    obtain ⟨node, hactive⟩ | ⟨node, -, -, hok⟩ := hnever.moves workflow hreach hnodes h.running
    · refine hgo node (.inr rfl) ?_
      have hindex : ∃ idx, workflow.workflowDef.nodeIndex node = some idx := by
        refine Option.ne_none_iff_exists'.1 fun hnone ↦ ?_
        rw [getNodeState, hnone] at hactive
        cases hactive
      obtain ⟨idx, hindex⟩ := hindex
      rw [getNodeState, hindex] at hactive
      simp only [call, completeNode, requireNode_eq, hindex]
      rw [if_neg (not_not.2 hactive)]
    · exact hgo node (.inl rfl) hok

/-- With fewer than 2^32 nodes, for which the counters are wide enough, a cycle makes an instance get stuck. -/
theorem acyclic_of_neverStuck {workflowDef : WorkflowDef} (hvalid : workflowDef.Valid)
    (hsmall : workflowDef.nodes.length < 2 ^ 32) {timeoutAt : Time} {maxRetries : ℕ}
    (hnever : NeverStuck (new workflowDef timeoutAt maxRetries)) : Acyclic workflowDef.edges := by
  intro onCycle hcycle
  have hwaiting : (new workflowDef timeoutAt maxRetries).Waiting :=
    ⟨consistent_new hvalid hsmall timeoutAt maxRetries, rfl, fun node _ ↦ getNodeState_new workflowDef timeoutAt
      maxRetries node⟩
  exact hwaiting.not_neverStuck .start hcycle hnever

end Waiting

end WorkflowInstance

/-- An instance of a definition without a cycle never gets stuck; with fewer than 2^32 nodes, for which the
counters are wide enough, only an instance of a definition without a cycle never gets stuck. -/
theorem neverStuck_iff_acyclic (nodes : List ℕ) (edges : List Edge) (workflowDef : WorkflowDef)
    (h : WorkflowDef.validated nodes edges = .ok workflowDef) (timeoutAt : Time) (maxRetries : ℕ) :
    (Acyclic edges → NeverStuck (WorkflowInstance.new workflowDef timeoutAt maxRetries)) ∧
      (workflowDef.nodes.length < 2 ^ 32 →
        NeverStuck (WorkflowInstance.new workflowDef timeoutAt maxRetries) → Acyclic edges) := by
  have hvalid := valid_of_validated h
  have hedges := edges_of_validated h
  constructor
  · intro hacyclic
    have hreach {workflow : WorkflowInstance}
        (hreach : Transition.Reachable Works (WorkflowInstance.new workflowDef timeoutAt maxRetries) workflow) :
        workflow.Advancing ∧ workflow.workflowDef = workflowDef := by
      refine WorkflowInstance.reachable_invariant (I := fun w ↦ w.Advancing ∧ w.workflowDef = workflowDef)
        ⟨WorkflowInstance.advancing_new hvalid timeoutAt maxRetries, rfl⟩ (fun w op w' hw hmoved ↦ ?_) hreach
      exact ⟨hw.1.moved hmoved, hmoved.workflowDef_eq.trans hw.2⟩
    have hmoves : ∀ workflow, Transition.Reachable Works (WorkflowInstance.new workflowDef timeoutAt maxRetries) workflow →
        workflow.workflowDef.nodes ≠ [] → workflow.status = .running →
          (∃ node, workflow.getNodeState node = .active) ∨
            ∃ node, workflow.getNodeState node = .pending ∧
              (∀ edge ∈ workflow.workflowDef.edges, edge.target = node →
                workflow.getNodeState edge.source = .completed) ∧ (workflow.startNode node).1 = .ok () := by
      intro workflow hworkflow hnodes hrunning
      obtain ⟨hadvancing, hdef⟩ := hreach hworkflow
      refine hadvancing.moves ?_ hnodes hrunning
      rw [hdef, hedges]
      exact hacyclic
    refine ⟨hmoves, fun workflow hworkflow ↦ ?_, fun workflow hworkflow hnodes hdone hstart ↦ ?_⟩
    · exact ⟨workflow.rank, fun ops hops ↦ (hreach hworkflow).1.placed.length_le_rank hops⟩
    · cases hstatus : workflow.status with
      | running =>
        obtain ⟨node, hactive⟩ | ⟨node, -, -, hok⟩ := hmoves workflow hworkflow hnodes hstatus
        · exact absurd hactive (hdone node).1
        · exact absurd hok (hstart node)
      | success => rfl
      | failure =>
        obtain ⟨node, hfailed⟩ := (hreach hworkflow).1.failure hstatus
        exact absurd hfailed (hdone node).2
  · intro hsmall hnever
    rw [← hedges]
    exact WorkflowInstance.acyclic_of_neverStuck hvalid hsmall hnever

/-! ## A node that waits for itself -/

section Looped

/-- A node that completes. -/
theorem neverStuck_single :
    (Acyclic [] → NeverStuck (WorkflowInstance.new single 0 0)) ∧ NeverStuck (WorkflowInstance.new single 0 0) := by
  have hiff := neverStuck_iff_acyclic [1] [] single validated_single 0 0
  refine ⟨hiff.1, hiff.1 fun node hcycle ↦ ?_⟩
  obtain ⟨before, -, hlast⟩ := Relation.TransGen.tail'_iff.1 hcycle
  exact absurd hlast List.not_mem_nil

def looped : WorkflowDef where
  nodes := [1]
  edges := [⟨1, 1⟩]
  predecessors := [[1]]
  successors := [[1]]
  nodeToIndex := [(1, 0)]

theorem validated_looped : WorkflowDef.validated [1] [⟨1, 1⟩] = .ok looped := by decide +kernel

/-- The node is accepted as its own predecessor, and can never start. -/
theorem not_neverStuck_looped : ¬ ∀ (nodes : List ℕ) (edges : List Edge) (workflowDef : WorkflowDef),
    WorkflowDef.validated nodes edges = .ok workflowDef → ∀ (timeoutAt : Time) (maxRetries : ℕ),
      NeverStuck (WorkflowInstance.new workflowDef timeoutAt maxRetries) := by
  intro h
  have hnever := h [1] [⟨1, 1⟩] looped validated_looped 0 0
  have hacyclic := WorkflowInstance.acyclic_of_neverStuck (valid_of_validated validated_looped) (by decide) hnever
  exact hacyclic 1 (.single List.mem_cons_self)

end Looped

end Lionagi.LionCore.Workflow
