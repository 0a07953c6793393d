import Lionagi.Library.Transition
import Lionagi.LionCore.WorkflowDef

/-!
# Workflow instances

An instance keeps the state of every node in a dense array, next to counters of the pending, active and
failed nodes and the status of the workflow. Four operations change it. The order of nodes and the
counters hold in every run of fewer than 2^32 nodes; the status is final as long as no timeout comes
after a success and no success after a timeout.
-/

namespace Lionagi.LionCore.Workflow

open SortedTable Transition

/-! ## Instances -/

structure WorkflowInstance where
  workflowDef : WorkflowDef
  status : WorkflowStatus
  nodeStates : List NodeState
  retries : List ℕ
  timeoutAt : Time
  pendingCt : ℕ
  activeCt : ℕ
  failedCt : ℕ
  deriving DecidableEq

namespace WorkflowInstance

/-- The number of nodes is cast to `u32`, the retries are capped at the maximum of `u16`. -/
def new (workflowDef : WorkflowDef) (timeoutAt : Time) (maxRetries : ℕ) : WorkflowInstance :=
  { workflowDef, status := .running
    nodeStates := List.replicate workflowDef.nodes.length .pending
    retries := List.replicate workflowDef.nodes.length (if maxRetries > 65535 then 65535 else maxRetries)
    timeoutAt, pendingCt := workflowDef.nodes.length % 2 ^ 32, activeCt := 0, failedCt := 0 }

/-- The entry of a dense array. The positions of nodes are in range. -/
def stateAt (workflow : WorkflowInstance) (idx : ℕ) : NodeState := workflow.nodeStates.getD idx .pending

def retriesAt (workflow : WorkflowInstance) (idx : ℕ) : ℕ := workflow.retries.getD idx 0

def getNodeState (workflow : WorkflowInstance) (node : ℕ) : NodeState :=
  match workflow.workflowDef.nodeIndex node with
  | some idx => workflow.stateAt idx
  | none => .pending

def isTerminal (workflow : WorkflowInstance) : Bool := workflow.pendingCt == 0 && workflow.activeCt == 0

def hasFailure (workflow : WorkflowInstance) : Bool := decide (workflow.failedCt > 0)

def predecessorsAt (workflow : WorkflowInstance) (idx : ℕ) : List ℕ :=
  workflow.workflowDef.predecessors.getD idx []

def dependenciesSatisfied (workflow : WorkflowInstance) (node : ℕ) : Bool :=
  match workflow.workflowDef.nodeIndex node with
  | some idx => (workflow.predecessorsAt idx).all fun pred ↦
    match workflow.workflowDef.nodeIndex pred with
    | some predIdx => workflow.stateAt predIdx == .completed
    | none => true
  | none => true

/-- The dependencies that the error of `startNode` lists. -/
def unsatisfied (workflow : WorkflowInstance) (idx : ℕ) : List ℕ :=
  (workflow.predecessorsAt idx).filter fun pred ↦
    match workflow.workflowDef.nodeIndex pred with
    | some predIdx => workflow.stateAt predIdx != .completed
    | none => true

/-! ### Transitions of a node -/

/-- `saturating_sub` on the counter of the state. -/
def decrement (workflow : WorkflowInstance) : NodeState → WorkflowInstance
  | .pending => { workflow with pendingCt := workflow.pendingCt - 1 }
  | .active => { workflow with activeCt := workflow.activeCt - 1 }
  | .failed => { workflow with failedCt := workflow.failedCt - 1 }
  | .completed => workflow

/-- `+= 1` on the counter of the state, a `u32`. -/
def increment (workflow : WorkflowInstance) : NodeState → WorkflowInstance
  | .pending => { workflow with pendingCt := (workflow.pendingCt + 1) % 2 ^ 32 }
  | .active => { workflow with activeCt := (workflow.activeCt + 1) % 2 ^ 32 }
  | .failed => { workflow with failedCt := (workflow.failedCt + 1) % 2 ^ 32 }
  | .completed => workflow

def transition (workflow : WorkflowInstance) (idx : ℕ) (newState : NodeState) : WorkflowInstance :=
  { (workflow.decrement (workflow.stateAt idx)).increment newState with
    nodeStates := workflow.nodeStates.set idx newState }

def updateWorkflowStatus (workflow : WorkflowInstance) : WorkflowInstance :=
  if workflow.isTerminal then
    if workflow.hasFailure then { workflow with status := .failure }
    else { workflow with status := .success }
  else workflow

/-! ### Operations -/

def startNode (workflow : WorkflowInstance) (node : ℕ) : Except WorkflowError Unit × WorkflowInstance :=
  match workflow.workflowDef.requireNode node with
  | .error e => (.error e, workflow)
  | .ok idx =>
    if workflow.stateAt idx ≠ .pending then
      (.error (.invalidTransition node (workflow.stateAt idx) .active), workflow)
    else if !workflow.dependenciesSatisfied node then
      (.error (.dependenciesNotSatisfied node (workflow.unsatisfied idx)), workflow)
    else (.ok (), workflow.transition idx .active)

def completeNode (workflow : WorkflowInstance) (node : ℕ) :
    Except WorkflowError Unit × WorkflowInstance :=
  match workflow.workflowDef.requireNode node with
  | .error e => (.error e, workflow)
  | .ok idx =>
    if workflow.stateAt idx ≠ .active then
      (.error (.invalidTransition node (workflow.stateAt idx) .completed), workflow)
    else (.ok (), (workflow.transition idx .completed).updateWorkflowStatus)

/-- A node with retries left becomes pending again. -/
def failNode (workflow : WorkflowInstance) (node : ℕ) : Except WorkflowError Unit × WorkflowInstance :=
  match workflow.workflowDef.requireNode node with
  | .error e => (.error e, workflow)
  | .ok idx =>
    if workflow.stateAt idx ≠ .active then
      (.error (.invalidTransition node (workflow.stateAt idx) .failed), workflow)
    else if workflow.retriesAt idx > 0 then
      (.ok (), { workflow.transition idx .pending with
        retries := workflow.retries.set idx (workflow.retriesAt idx - 1) })
    else (.ok (), { workflow.transition idx .failed with status := .failure })

def applyTimeout (workflow : WorkflowInstance) : WorkflowInstance := { workflow with status := .failure }

end WorkflowInstance

inductive Op where
  | startNode (node : ℕ)
  | completeNode (node : ℕ)
  | failNode (node : ℕ)
  | applyTimeout
  deriving DecidableEq

def WorkflowInstance.call (workflow : WorkflowInstance) : Op → Except WorkflowError Unit × WorkflowInstance
  | .startNode node => workflow.startNode node
  | .completeNode node => workflow.completeNode node
  | .failNode node => workflow.failNode node
  | .applyTimeout => (.ok (), workflow.applyTimeout)

/-- An instance with what happened to it: a timeout, and the final failure of a node. -/
structure Run where
  workflow : WorkflowInstance
  timedOut : Bool
  failedFinally : Bool

namespace Run

def start (workflow : WorkflowInstance) : Run := { workflow, timedOut := false, failedFinally := false }

/-- The call makes a node fail for good. -/
def failsFinally (run : Run) (op : Op) : Bool :=
  match op with
  | .failNode node => run.workflow.getNodeState node == .active &&
    (run.workflow.call op).2.getNodeState node == .failed
  | _ => false

def call (run : Run) (op : Op) : Run :=
  { workflow := (run.workflow.call op).2
    timedOut := run.timedOut || op == .applyTimeout
    failedFinally := run.failedFinally || run.failsFinally op }

end Run

/-! ## What holds in every state of a run -/

/-- The counters count, a node that runs or has completed has completed predecessors, and success means
that every node has completed and nothing went wrong. -/
structure Meets (run : Run) : Prop where
  pending : run.workflow.pendingCt = run.workflow.nodeStates.count .pending
  active : run.workflow.activeCt = run.workflow.nodeStates.count .active
  failed : run.workflow.failedCt = run.workflow.nodeStates.count .failed
  ordered : ∀ edge ∈ run.workflow.workflowDef.edges,
    run.workflow.getNodeState edge.target = .active ∨ run.workflow.getNodeState edge.target = .completed →
      run.workflow.getNodeState edge.source = .completed
  success : run.workflow.status = .success →
    (∀ node ∈ run.workflow.workflowDef.nodes, run.workflow.getNodeState node = .completed) ∧
      run.timedOut = false ∧ run.failedFinally = false

/-- A call that fails changes nothing, and no call changes a node or a status that is final. -/
structure Final (workflow : WorkflowInstance) (op : Op) : Prop where
  nodes : ∀ node, workflow.getNodeState node = .completed ∨ workflow.getNodeState node = .failed →
    (workflow.call op).2.getNodeState node = workflow.getNodeState node
  status : workflow.status ≠ .running → (workflow.call op).2.status = workflow.status
  error : ∀ e, (workflow.call op).1 = .error e → (workflow.call op).2 = workflow

/-- A timeout does not come after a success, and the last open node of a workflow that failed otherwise
than by a node is not completed. -/
def Timely (workflow : WorkflowInstance) : Op → Prop
  | .applyTimeout => workflow.status ≠ .success
  | .completeNode node => workflow.status = .failure → workflow.pendingCt = 0 → workflow.activeCt = 1 →
    workflow.failedCt = 0 → workflow.getNodeState node ≠ .active
  | _ => True

/-! ## The counters and the order of nodes -/

namespace WorkflowInstance

/-- The counter of a state; completed nodes have none. -/
def counter (workflow : WorkflowInstance) : NodeState → ℕ
  | .pending => workflow.pendingCt
  | .active => workflow.activeCt
  | .failed => workflow.failedCt
  | .completed => 0

section Transition

variable (workflow : WorkflowInstance) (idx : ℕ) (s t : NodeState)

theorem counter_decrement :
    (workflow.decrement s).counter t = if s = t then workflow.counter t - 1 else workflow.counter t := by
  cases s <;> cases t <;> rfl

theorem counter_increment (ht : t ≠ .completed) : (workflow.increment s).counter t =
    if s = t then (workflow.counter t + 1) % 2 ^ 32 else workflow.counter t := by
  cases s <;> cases t <;> first | rfl | exact absurd rfl ht

theorem counter_transition (ht : t ≠ .completed) : (workflow.transition idx s).counter t =
    if s = t then ((if workflow.stateAt idx = t then workflow.counter t - 1 else workflow.counter t) + 1) %
      2 ^ 32
    else if workflow.stateAt idx = t then workflow.counter t - 1 else workflow.counter t := by
  rw [← counter_decrement, ← counter_increment _ _ _ ht]
  cases t <;> rfl

@[simp] theorem transition_workflowDef :
    (workflow.transition idx s).workflowDef = workflow.workflowDef := by
  unfold transition
  cases s <;> cases workflow.stateAt idx <;> rfl

@[simp] theorem transition_status : (workflow.transition idx s).status = workflow.status := by
  unfold transition
  cases s <;> cases workflow.stateAt idx <;> rfl

@[simp] theorem transition_nodeStates :
    (workflow.transition idx s).nodeStates = workflow.nodeStates.set idx s := rfl

end Transition

/-- The definition is valid, and the array of states has an entry for every node. -/
structure Placed (workflow : WorkflowInstance) : Prop where
  valid : workflow.workflowDef.Valid
  length : workflow.nodeStates.length = workflow.workflowDef.nodes.length

section Placed

variable {workflow : WorkflowInstance} {idx node : ℕ} {s : NodeState}

/-- A node that is found is at its position. -/
theorem Placed.requireNode (h : workflow.Placed)
    (hrequire : workflow.workflowDef.requireNode node = .ok idx) :
    workflow.workflowDef.nodes[idx]? = some node ∧ workflow.getNodeState node = workflow.stateAt idx := by
  unfold WorkflowDef.requireNode at hrequire
  unfold getNodeState
  cases hindex : workflow.workflowDef.nodeIndex node with
  | none =>
    rw [hindex] at hrequire
    cases hrequire
  | some idx' =>
    rw [hindex] at hrequire
    cases hrequire
    exact ⟨(h.valid.index node idx).1 hindex, rfl⟩

theorem Placed.stateAt_eq_getNodeState (h : workflow.Placed)
    (hnode : workflow.workflowDef.nodes[idx]? = some node) :
    workflow.stateAt idx = workflow.getNodeState node := by
  rw [getNodeState, (h.valid.index node idx).2 hnode]

theorem Placed.lt_length (h : workflow.Placed) (hnode : workflow.workflowDef.nodes[idx]? = some node) :
    idx < workflow.nodeStates.length := by
  rw [h.length]
  exact (List.getElem?_eq_some_iff.1 hnode).1

theorem stateAt_eq (hidx : idx < workflow.nodeStates.length) :
    workflow.stateAt idx = workflow.nodeStates[idx] := by
  unfold stateAt
  rw [List.getD_eq_getElem?_getD, List.getElem?_eq_getElem hidx]
  rfl

theorem Placed.getNodeState_transition (h : workflow.Placed)
    (hnode : workflow.workflowDef.nodes[idx]? = some node) (m : ℕ) :
    (workflow.transition idx s).getNodeState m = if m = node then s else workflow.getNodeState m := by
  have hidx := h.lt_length hnode
  unfold getNodeState
  rw [transition_workflowDef]
  by_cases hm : m = node
  · rw [if_pos hm, hm, (h.valid.index node idx).2 hnode]
    simp [stateAt, List.getD_eq_getElem?_getD, List.getElem?_set_self hidx]
  · rw [if_neg hm]
    cases hindex : workflow.workflowDef.nodeIndex m with
    | none => rfl
    | some j =>
      have hj := (h.valid.index m j).1 hindex
      have hne : idx ≠ j := by
        rintro rfl
        rw [hnode] at hj
        exact hm (Option.some.inj hj).symm
      simp [stateAt, List.getD_eq_getElem?_getD, List.getElem?_set_ne hne]

theorem placed_new {workflowDef : WorkflowDef} (hvalid : workflowDef.Valid) (timeoutAt : Time) (maxRetries : ℕ) :
    (new workflowDef timeoutAt maxRetries).Placed := ⟨hvalid, List.length_replicate⟩

theorem getNodeState_new (workflowDef : WorkflowDef) (timeoutAt : Time) (maxRetries node : ℕ) :
    (new workflowDef timeoutAt maxRetries).getNodeState node = .pending := by
  unfold getNodeState
  split
  · simp [stateAt, new, List.getD_eq_getElem?_getD, List.getElem?_replicate]
    split <;> rfl
  · rfl

/-- What the check of the dependencies establishes. -/
theorem Placed.dependenciesSatisfied_iff (h : workflow.Placed)
    (hnode : workflow.workflowDef.nodes[idx]? = some node) :
    workflow.dependenciesSatisfied node = true ↔ ∀ edge ∈ workflow.workflowDef.edges, edge.target = node →
      workflow.getNodeState edge.source = .completed := by
  have hsource : ∀ edge ∈ workflow.workflowDef.edges,
      (match workflow.workflowDef.nodeIndex edge.source with
        | some sourceIdx => workflow.stateAt sourceIdx == .completed
        | none => true) = true ↔ workflow.getNodeState edge.source = .completed := by
    intro edge hedge
    obtain ⟨sourceIdx, hsourceIdx⟩ := List.mem_iff_getElem?.1 (h.valid.source edge hedge)
    rw [getNodeState, (h.valid.index edge.source sourceIdx).2 hsourceIdx]
    exact beq_iff_eq
  unfold dependenciesSatisfied
  rw [(h.valid.index node idx).2 hnode]
  simp only [predecessorsAt, List.getD_eq_getElem?_getD, h.valid.predecessors idx node hnode,
    Option.getD_some, List.all_eq_true]
  constructor
  · intro hdeps edge hedge htarget
    have hmem : edge.source ∈
        (workflow.workflowDef.edges.filter fun edge ↦ edge.target = node).map Edge.source :=
      List.mem_map_of_mem (List.mem_filter.2 ⟨hedge, decide_eq_true htarget⟩)
    exact (hsource edge hedge).1 (hdeps edge.source hmem)
  · intro hcompleted pred hpred
    obtain ⟨edge, hedge, rfl⟩ := List.mem_map.1 hpred
    obtain ⟨hedge, htarget⟩ := List.mem_filter.1 hedge
    exact (hsource edge hedge).2 (hcompleted edge hedge (of_decide_eq_true htarget))

end Placed

/-- The definition is valid and has fewer than 2^32 nodes, the array of states has an entry for every
node, the counters count, and nodes run after their predecessors. -/
structure Consistent (workflow : WorkflowInstance) : Prop where
  valid : workflow.workflowDef.Valid
  small : workflow.workflowDef.nodes.length < 2 ^ 32
  length : workflow.nodeStates.length = workflow.workflowDef.nodes.length
  counts : ∀ s, s ≠ .completed → workflow.counter s = workflow.nodeStates.count s
  ordered : ∀ edge ∈ workflow.workflowDef.edges,
    workflow.getNodeState edge.target = .active ∨ workflow.getNodeState edge.target = .completed →
      workflow.getNodeState edge.source = .completed

section Consistent

variable {workflow : WorkflowInstance} {idx node : ℕ} {s : NodeState}

theorem Consistent.placed (h : workflow.Consistent) : workflow.Placed := ⟨h.valid, h.length⟩

theorem Consistent.counts_transition (h : workflow.Consistent)
    (hnode : workflow.workflowDef.nodes[idx]? = some node) (hne : workflow.stateAt idx ≠ s) (t : NodeState)
    (ht : t ≠ .completed) :
    (workflow.transition idx s).counter t = (workflow.nodeStates.set idx s).count t := by
  have hidx := h.placed.lt_length hnode
  have hcount := List.count_set (a := s) (b := t) hidx
  have hle : (workflow.nodeStates.set idx s).count t ≤ workflow.nodeStates.length := by
    rw [← List.length_set]
    exact List.count_le_length
  have hsmall : workflow.nodeStates.length < 2 ^ 32 := h.length ▸ h.small
  rw [counter_transition _ _ _ _ ht, h.counts t ht]
  rw [← stateAt_eq hidx] at hcount
  simp only [beq_iff_eq] at hcount
  by_cases hs : s = t
  · have hold : workflow.stateAt idx ≠ t := fun heq ↦ hne (heq.trans hs.symm)
    rw [if_pos hs, if_neg hold] at hcount ⊢
    omega
  · rw [if_neg hs] at hcount ⊢
    by_cases hold : workflow.stateAt idx = t
    · rw [if_pos hold] at hcount ⊢
      exact hcount.symm
    · rw [if_neg hold] at hcount ⊢
      exact hcount.symm

/-- A node that has not completed changes its state: to run, or to complete, its predecessors must have
completed. -/
theorem Consistent.transition (h : workflow.Consistent)
    (hnode : workflow.workflowDef.nodes[idx]? = some node) (hne : workflow.stateAt idx ≠ s)
    (hopen : workflow.getNodeState node ≠ .completed)
    (hdeps : s = .active ∨ s = .completed → ∀ edge ∈ workflow.workflowDef.edges, edge.target = node →
      workflow.getNodeState edge.source = .completed) : (workflow.transition idx s).Consistent where
  valid := by
    rw [transition_workflowDef]
    exact h.valid
  small := by
    rw [transition_workflowDef]
    exact h.small
  length := by
    rw [transition_workflowDef, transition_nodeStates, List.length_set]
    exact h.length
  counts := h.counts_transition hnode hne
  ordered := by
    intro edge hedge htarget
    rw [transition_workflowDef] at hedge
    rw [h.placed.getNodeState_transition hnode] at htarget ⊢
    have hsource : workflow.getNodeState edge.source = .completed := by
      split at htarget
      · next heq => exact hdeps htarget edge hedge heq
      · exact h.ordered edge hedge htarget
    rw [if_neg, hsource]
    intro heq
    rw [heq] at hsource
    exact hopen hsource

theorem consistent_new {workflowDef : WorkflowDef} (hvalid : workflowDef.Valid)
    (hsmall : workflowDef.nodes.length < 2 ^ 32) (timeoutAt : Time) (maxRetries : ℕ) :
    (new workflowDef timeoutAt maxRetries).Consistent where
  valid := hvalid
  small := hsmall
  length := List.length_replicate
  counts := by
    intro s hs
    cases s with
    | pending =>
      have hcount : (List.replicate workflowDef.nodes.length NodeState.pending).count .pending =
          workflowDef.nodes.length := List.count_replicate_self
      exact (Nat.mod_eq_of_lt hsmall).trans hcount.symm
    | active =>
      have hcount : (List.replicate workflowDef.nodes.length NodeState.pending).count .active = 0 := by
        simp [List.count_replicate]
      exact hcount.symm
    | failed =>
      have hcount : (List.replicate workflowDef.nodes.length NodeState.pending).count .failed = 0 := by
        simp [List.count_replicate]
      exact hcount.symm
    | completed => exact absurd rfl hs
  ordered := by
    intro edge _ htarget
    rw [getNodeState_new] at htarget
    obtain h | h := htarget <;> cases h

end Consistent

/-! ## What a call may do -/

/-- A call is refused and changes nothing, or it changes the state of one node, or it is a timeout. -/
inductive Called (workflow : WorkflowInstance) : Op → Except WorkflowError Unit × WorkflowInstance → Prop
  | refused {op : Op} (e : WorkflowError) (htimeout : op ≠ .applyTimeout)
      (hcomplete : ∀ node, op = .completeNode node → workflow.getNodeState node ≠ .active) :
      Called workflow op (.error e, workflow)
  | started {node idx : ℕ} (hnode : workflow.workflowDef.nodes[idx]? = some node)
      (hstate : workflow.getNodeState node = .pending) (hdeps : workflow.dependenciesSatisfied node = true) :
      Called workflow (.startNode node) (.ok (), workflow.transition idx .active)
  | completed {node idx : ℕ} (hnode : workflow.workflowDef.nodes[idx]? = some node)
      (hstate : workflow.getNodeState node = .active) :
      Called workflow (.completeNode node)
        (.ok (), (workflow.transition idx .completed).updateWorkflowStatus)
  | retried {node idx : ℕ} (hnode : workflow.workflowDef.nodes[idx]? = some node)
      (hstate : workflow.getNodeState node = .active) (retries : List ℕ) :
      Called workflow (.failNode node) (.ok (), { workflow.transition idx .pending with retries })
  | failed {node idx : ℕ} (hnode : workflow.workflowDef.nodes[idx]? = some node)
      (hstate : workflow.getNodeState node = .active) :
      Called workflow (.failNode node) (.ok (), { workflow.transition idx .failed with status := .failure })
  | timedOut : Called workflow .applyTimeout (.ok (), workflow.applyTimeout)

section Called

variable {workflow : WorkflowInstance}
variable {idx node : ℕ}

theorem getNodeState_of_not_require {e : WorkflowError} (h : workflow.workflowDef.requireNode node = .error e) :
    workflow.getNodeState node = .pending := by
  unfold WorkflowDef.requireNode at h
  unfold getNodeState
  cases hindex : workflow.workflowDef.nodeIndex node with
  | none => rfl
  | some idx =>
    rw [hindex] at h
    cases h

theorem Consistent.called (h : workflow.Consistent) (op : Op) : Called workflow op (workflow.call op) := by
  cases op with
  | startNode node =>
    simp only [WorkflowInstance.call, startNode]
    cases hrequire : workflow.workflowDef.requireNode node with
    | error e => exact .refused e (by simp) fun _ heq ↦ by cases heq
    | ok idx =>
      obtain ⟨hnode, hstate⟩ := h.placed.requireNode hrequire
      dsimp only
      by_cases hpending : workflow.stateAt idx ≠ .pending
      · rw [if_pos hpending]
        exact .refused _ (by simp) fun _ heq ↦ by cases heq
      · rw [if_neg hpending]
        by_cases hdeps : (!workflow.dependenciesSatisfied node) = true
        · rw [if_pos hdeps]
          exact .refused _ (by simp) fun _ heq ↦ by cases heq
        · rw [if_neg hdeps]
          exact .started hnode (hstate.trans (not_not.1 hpending)) (by simpa using hdeps)
  | completeNode node =>
    simp only [WorkflowInstance.call, completeNode]
    cases hrequire : workflow.workflowDef.requireNode node with
    | error e =>
      refine .refused e (by simp) fun _ heq ↦ ?_
      cases heq
      rw [getNodeState_of_not_require hrequire]
      decide
    | ok idx =>
      obtain ⟨hnode, hstate⟩ := h.placed.requireNode hrequire
      dsimp only
      by_cases hactive : workflow.stateAt idx ≠ .active
      · rw [if_pos hactive]
        refine .refused _ (by simp) fun _ heq ↦ ?_
        cases heq
        rw [hstate]
        exact hactive
      · rw [if_neg hactive]
        exact .completed hnode (hstate.trans (not_not.1 hactive))
  | failNode node =>
    simp only [WorkflowInstance.call, failNode]
    cases hrequire : workflow.workflowDef.requireNode node with
    | error e => exact .refused e (by simp) fun _ heq ↦ by cases heq
    | ok idx =>
      obtain ⟨hnode, hstate⟩ := h.placed.requireNode hrequire
      dsimp only
      by_cases hactive : workflow.stateAt idx ≠ .active
      · rw [if_pos hactive]
        exact .refused _ (by simp) fun _ heq ↦ by cases heq
      · rw [if_neg hactive]
        have hstate := hstate.trans (not_not.1 hactive)
        split
        · exact .retried hnode hstate _
        · exact .failed hnode hstate
  | applyTimeout => exact .timedOut

/-- The status and the retries do not matter for consistency. -/
theorem Consistent.congr (h : workflow.Consistent) (status : WorkflowStatus) (retries : List ℕ) :
    { workflow with status, retries }.Consistent :=
  ⟨h.valid, h.small, h.length, h.counts, h.ordered⟩

/-- Completing the last open node decides the status. -/
theorem updateWorkflowStatus_eq (workflow : WorkflowInstance) : workflow.updateWorkflowStatus =
    { workflow with
      status := if workflow.pendingCt = 0 ∧ workflow.activeCt = 0 then
        if 0 < workflow.failedCt then .failure else .success else workflow.status } := by
  unfold updateWorkflowStatus isTerminal hasFailure
  by_cases hterminal : workflow.pendingCt = 0 ∧ workflow.activeCt = 0
  · by_cases hfailure : 0 < workflow.failedCt
    · simp [hterminal, hfailure]
    · simp [hterminal, hfailure]
  · rw [if_neg hterminal]
    have hfalse : (workflow.pendingCt == 0 && workflow.activeCt == 0) = false := by
      simpa [← Bool.not_eq_true] using hterminal
    rw [hfalse]
    rfl

variable {op : Op} {result : Except WorkflowError Unit × WorkflowInstance}

/-- Every call keeps an instance consistent. -/
theorem Called.consistent (hcalled : Called workflow op result) (h : workflow.Consistent) : result.2.Consistent := by
  have hstep : ∀ {node idx : ℕ} {s : NodeState}, workflow.workflowDef.nodes[idx]? = some node →
      workflow.getNodeState node = .active → s ≠ .active → (workflow.transition idx s).Consistent := by
    intro node idx s hnode hstate hs
    have hat : workflow.stateAt idx = .active := by
      rw [← hstate, getNodeState, (h.valid.index node idx).2 hnode]
    apply h.transition hnode
    · rw [hat]
      exact hs.symm
    · rw [hstate]
      decide
    · intro _ edge hedge htarget
      exact h.ordered edge hedge (.inl (htarget ▸ hstate))
  cases hcalled with
  | refused => exact h
  | @started node idx hnode hstate hdeps =>
    have hat : workflow.stateAt idx = .pending := by
      rw [← hstate, getNodeState, (h.valid.index node idx).2 hnode]
    apply h.transition hnode
    · rw [hat]
      decide
    · rw [hstate]
      decide
    · intro _ edge hedge htarget
      exact (h.placed.dependenciesSatisfied_iff hnode).1 hdeps edge hedge htarget
  | completed hnode hstate =>
    rw [updateWorkflowStatus_eq]
    exact (hstep hnode hstate (by decide)).congr _ _
  | retried hnode hstate retries => exact (hstep hnode hstate (by decide)).congr _ retries
  | failed hnode hstate => exact (hstep hnode hstate (by decide)).congr .failure _
  | timedOut => exact h.congr .failure _

/-- The counter of a node that has not completed counts it. -/
theorem Consistent.counter_pos (h : workflow.Consistent) (hnode : node ∈ workflow.workflowDef.nodes)
    (hne : workflow.getNodeState node ≠ .completed) : 0 < workflow.counter (workflow.getNodeState node) := by
  obtain ⟨idx, hidx⟩ := List.mem_iff_getElem?.1 hnode
  have hlt := h.placed.lt_length hidx
  have hstate : workflow.getNodeState node = workflow.nodeStates[idx] := by
    rw [getNodeState, (h.valid.index node idx).2 hidx]
    exact stateAt_eq hlt
  rw [h.counts _ hne, List.count_pos_iff, hstate]
  exact List.getElem_mem hlt

/-- When no counter counts anything, every node has completed. -/
theorem Consistent.completed (h : workflow.Consistent) (hpending : workflow.pendingCt = 0)
    (hactive : workflow.activeCt = 0) (hfailed : workflow.failedCt = 0) (hnode : node ∈ workflow.workflowDef.nodes) :
    workflow.getNodeState node = .completed := by
  by_contra hne
  apply Nat.ne_of_gt (h.counter_pos hnode hne)
  cases hstate : workflow.getNodeState node with
  | pending => exact hpending
  | active => exact hactive
  | failed => exact hfailed
  | completed => rfl

/-- A node that stays out of failure does not change the counter of failures. -/
theorem Consistent.failedCt_transition (h : workflow.Consistent) {s : NodeState}
    (hnode : workflow.workflowDef.nodes[idx]? = some node) (hstate : workflow.getNodeState node ≠ .failed)
    (hs : s ≠ .failed) : (workflow.transition idx s).failedCt = workflow.failedCt := by
  have hat : workflow.stateAt idx ≠ .failed := by
    rw [getNodeState, (h.valid.index node idx).2 hnode] at hstate
    exact hstate
  have hcounter := counter_transition workflow idx s .failed (by decide)
  rw [if_neg hs, if_neg hat] at hcounter
  exact hcounter

/-- Failures are counted for good. -/
theorem Called.failedCt_pos (hcalled : Called workflow op result) (h : workflow.Consistent)
    (hpos : 0 < workflow.failedCt) : 0 < result.2.failedCt := by
  have hafter := hcalled.consistent h
  cases hcalled with
  | refused => exact hpos
  | started hnode hstate =>
    rw [h.failedCt_transition hnode (by simp [hstate]) (by decide)]
    exact hpos
  | completed hnode hstate =>
    rw [updateWorkflowStatus_eq]
    dsimp only
    rw [h.failedCt_transition hnode (by simp [hstate]) (by decide)]
    exact hpos
  | retried hnode hstate =>
    dsimp only
    rw [h.failedCt_transition hnode (by simp [hstate]) (by decide)]
    exact hpos
  | @failed node idx hnode hstate =>
    have hconsistent : (workflow.transition idx .failed).Consistent :=
      hafter.congr (workflow.transition idx .failed).status _
    have hfailed : (workflow.transition idx .failed).getNodeState node = .failed := by
      rw [h.placed.getNodeState_transition hnode, if_pos rfl]
    have hmem : node ∈ (workflow.transition idx .failed).workflowDef.nodes := by
      rw [transition_workflowDef]
      exact List.mem_of_getElem? hnode
    have hcounter := hconsistent.counter_pos hmem (by simp [hfailed])
    rw [hfailed] at hcounter
    exact hcounter
  | timedOut => exact hpos

/-- The counters after a node completes. -/
theorem Consistent.counters_completed (h : workflow.Consistent) (hnode : workflow.workflowDef.nodes[idx]? = some node)
    (hstate : workflow.getNodeState node = .active) :
    0 < workflow.activeCt ∧ (workflow.transition idx .completed).pendingCt = workflow.pendingCt ∧
      (workflow.transition idx .completed).activeCt = workflow.activeCt - 1 ∧
        (workflow.transition idx .completed).failedCt = workflow.failedCt := by
  have hat : workflow.stateAt idx = .active := by
    rw [← hstate, getNodeState, (h.valid.index node idx).2 hnode]
  have hpos := h.counter_pos (List.mem_of_getElem? hnode) (by simp [hstate])
  have hpending := counter_transition workflow idx .completed .pending (by decide)
  have hactive := counter_transition workflow idx .completed .active (by decide)
  rw [hstate] at hpos
  rw [hat] at hpending hactive
  exact ⟨hpos, hpending, hactive, h.failedCt_transition hnode (by simp [hstate]) (by decide)⟩

/-- The status after a node completes: it is decided when the node was the last open one. -/
theorem Consistent.completed_status (h : workflow.Consistent) (hnode : workflow.workflowDef.nodes[idx]? = some node)
    (hstate : workflow.getNodeState node = .active) :
    (workflow.transition idx .completed).updateWorkflowStatus =
      { workflow.transition idx .completed with
        status := if workflow.pendingCt = 0 ∧ workflow.activeCt = 1 then
          if 0 < workflow.failedCt then .failure else .success else workflow.status } := by
  obtain ⟨hpos, hpending, hactive, hfailed⟩ := h.counters_completed hnode hstate
  have hlast : workflow.activeCt - 1 = 0 ↔ workflow.activeCt = 1 := by omega
  rw [updateWorkflowStatus_eq, hpending, hactive, hfailed, transition_status]
  simp only [hlast]
  rw [hpending, hactive, hfailed]

/-- The status agrees with the counters, and with whether there was a timeout. -/
structure Agrees (workflow : WorkflowInstance) (timedOut : Bool) : Prop where
  success : workflow.status = .success →
    workflow.pendingCt = 0 ∧ workflow.activeCt = 0 ∧ workflow.failedCt = 0
  timedOut : timedOut = true → workflow.status = .failure
  failed : 0 < workflow.failedCt → workflow.status = .failure

variable {timedOut : Bool}

/-- A workflow with an open node has not succeeded. -/
theorem Agrees.ne_success (h : Agrees workflow timedOut) (hconsistent : workflow.Consistent)
    (hnode : workflow.workflowDef.nodes[idx]? = some node) (hopen : workflow.getNodeState node ≠ .completed) :
    workflow.status ≠ .success := by
  intro hsuccess
  obtain ⟨hpending, hactive, hfailed⟩ := h.success hsuccess
  exact hopen (hconsistent.completed hpending hactive hfailed (List.mem_of_getElem? hnode))

/-- A call in time keeps the agreement. -/
theorem Called.agrees (hcalled : Called workflow op result) (h : workflow.Consistent)
    (hagrees : Agrees workflow timedOut) (htimely : Timely workflow op) :
    Agrees result.2 (timedOut || op == .applyTimeout) := by
  cases hcalled with
  | refused e htimeout =>
    rw [beq_false_of_ne htimeout, Bool.or_false]
    exact hagrees
  | @started node idx hnode hstate hdeps =>
    have hfailed := h.failedCt_transition (s := .active) hnode (by simp [hstate]) (by decide)
    have hne := hagrees.ne_success h hnode (by simp [hstate])
    constructor
    · intro hsuccess
      exact absurd ((transition_status _ _ _).symm.trans hsuccess) hne
    · intro htimedOut
      exact (transition_status _ _ _).trans (hagrees.timedOut (by simpa using htimedOut))
    · intro hpos
      exact (transition_status _ _ _).trans (hagrees.failed (hfailed ▸ hpos))
  | @completed node idx hnode hstate =>
    have hne := hagrees.ne_success h hnode (by simp [hstate])
    obtain ⟨hpos, hpending, hactive, hfailed⟩ := h.counters_completed hnode hstate
    rw [h.completed_status hnode hstate]
    by_cases hlast : workflow.pendingCt = 0 ∧ workflow.activeCt = 1
    · rw [if_pos hlast]
      by_cases hfailure : 0 < workflow.failedCt
      · rw [if_pos hfailure]
        exact ⟨fun hsuccess ↦ absurd hsuccess (by simp), fun _ ↦ rfl, fun _ ↦ rfl⟩
      · rw [if_neg hfailure]
        constructor
        · intro _
          dsimp only
          omega
        · intro htimedOut
          -- a completion after a timeout would not be in time
          have hstatus := hagrees.timedOut (by simpa using htimedOut)
          exact absurd hstate (htimely hstatus hlast.1 hlast.2 (Nat.eq_zero_of_not_pos hfailure))
        · intro hpos
          exact absurd (hfailed ▸ hpos) hfailure
    · rw [if_neg hlast]
      constructor
      · intro hsuccess
        exact absurd hsuccess hne
      · intro htimedOut
        exact hagrees.timedOut (by simpa using htimedOut)
      · intro hpos
        exact hagrees.failed (hfailed ▸ hpos)
  | @retried node idx hnode hstate retries =>
    have hfailed := h.failedCt_transition (s := .pending) hnode (by simp [hstate]) (by decide)
    have hne := hagrees.ne_success h hnode (by simp [hstate])
    constructor
    · intro hsuccess
      exact absurd ((transition_status _ _ _).symm.trans hsuccess) hne
    · intro htimedOut
      exact (transition_status _ _ _).trans (hagrees.timedOut (by simpa using htimedOut))
    · intro hpos
      exact (transition_status _ _ _).trans (hagrees.failed (hfailed ▸ hpos))
  | failed => exact ⟨fun hsuccess ↦ absurd hsuccess (by simp), fun _ ↦ rfl, fun _ ↦ rfl⟩
  | timedOut => exact ⟨fun hsuccess ↦ absurd hsuccess (by simp [applyTimeout]), fun _ ↦ rfl, fun _ ↦ rfl⟩

/-- Nodes that have completed or failed are final in every call. -/
theorem Called.getNodeState (hcalled : Called workflow op result) (h : workflow.Consistent) {m : ℕ}
    (hm : workflow.getNodeState m = .completed ∨ workflow.getNodeState m = .failed) :
    result.2.getNodeState m = workflow.getNodeState m := by
  have hother : ∀ {node idx : ℕ} {s : NodeState}, workflow.workflowDef.nodes[idx]? = some node →
      workflow.getNodeState node ≠ .completed → workflow.getNodeState node ≠ .failed →
        (workflow.transition idx s).getNodeState m = workflow.getNodeState m := by
    intro node idx s hnode hcompleted hfailed
    rw [h.placed.getNodeState_transition hnode, if_neg]
    rintro rfl
    exact hm.elim hcompleted hfailed
  cases hcalled with
  | refused => rfl
  | started hnode hstate => exact hother hnode (by simp [hstate]) (by simp [hstate])
  | completed hnode hstate =>
    rw [updateWorkflowStatus_eq]
    exact hother hnode (by simp [hstate]) (by simp [hstate])
  | retried hnode hstate => exact hother hnode (by simp [hstate]) (by simp [hstate])
  | failed hnode hstate => exact hother hnode (by simp [hstate]) (by simp [hstate])
  | timedOut => rfl

/-- A status that is final is kept exactly by the calls in time. -/
theorem Called.status_iff (hcalled : Called workflow op result) (h : workflow.Consistent)
    (hagrees : Agrees workflow timedOut) :
    (workflow.status ≠ .running → result.2.status = workflow.status) ↔ Timely workflow op := by
  cases hcalled with
  | @refused op e htimeout hcomplete =>
    refine iff_of_true (fun _ ↦ rfl) ?_
    cases op with
    | completeNode node => exact fun _ _ _ _ ↦ hcomplete node rfl
    | applyTimeout => exact absurd rfl htimeout
    | _ => trivial
  | started => exact iff_of_true (fun _ ↦ transition_status _ _ _) trivial
  | retried => exact iff_of_true (fun _ ↦ transition_status _ _ _) trivial
  | failed hnode hstate =>
    refine iff_of_true (fun hstatus ↦ ?_) trivial
    have hne := hagrees.ne_success h hnode (by simp [hstate])
    cases hs : workflow.status with
    | running => exact absurd hs hstatus
    | success => exact absurd hs hne
    | failure => rfl
  | timedOut =>
    change (_ → WorkflowStatus.failure = _) ↔ workflow.status ≠ .success
    cases workflow.status <;> simp
  | @completed node idx hnode hstate =>
    have hne := hagrees.ne_success h hnode (by simp [hstate])
    rw [h.completed_status hnode hstate]
    change (_ → (if _ then if _ then _ else _ else _) = _) ↔ (_ → _ → _ → _ → _)
    by_cases hlast : workflow.pendingCt = 0 ∧ workflow.activeCt = 1
    · by_cases hfailure : 0 < workflow.failedCt
      · rw [if_pos hlast, if_pos hfailure, hagrees.failed hfailure]
        exact iff_of_true (fun _ ↦ rfl) fun _ _ _ hzero ↦ absurd hzero (Nat.ne_of_gt hfailure)
      · rw [if_pos hlast, if_neg hfailure]
        constructor
        · intro hkept hstatus _ _ _
          have hsuccess := hkept (by simp [hstatus])
          exact absurd hsuccess.symm hne
        · intro htimely hstatus
          cases hs : workflow.status with
          | running => exact absurd hs hstatus
          | success => rfl
          | failure => exact absurd hstate (htimely hs hlast.1 hlast.2 (Nat.eq_zero_of_not_pos hfailure))
    · rw [if_neg hlast]
      exact iff_of_true (fun _ ↦ rfl) fun _ hpending hactive _ ↦ absurd ⟨hpending, hactive⟩ hlast

/-- Under the invariant a call is final exactly when it is in time. -/
theorem final_iff (h : workflow.Consistent) (hagrees : Agrees workflow timedOut) :
    Final workflow op ↔ Timely workflow op := by
  have hcalled := h.called op
  rw [← hcalled.status_iff h hagrees]
  constructor
  · exact fun hfinal ↦ hfinal.status
  · intro hstatus
    refine ⟨fun node hnode ↦ hcalled.getNodeState h hnode, hstatus, fun e herror ↦ ?_⟩
    generalize workflow.call op = result at hcalled herror
    cases hcalled with
    | refused => rfl
    | _ => cases herror

end Called

end WorkflowInstance

/-! ## Runs -/

/-- A consistent instance whose status agrees with its counters and with what happened to it. -/
structure Sound (run : Run) : Prop where
  consistent : run.workflow.Consistent
  agrees : run.workflow.Agrees run.timedOut
  failedFinally : run.failedFinally = true → 0 < run.workflow.failedCt

section Runs

variable {run : Run} {op : Op}

theorem Sound.meets (h : Sound run) : Meets run where
  pending := h.consistent.counts .pending (by decide)
  active := h.consistent.counts .active (by decide)
  failed := h.consistent.counts .failed (by decide)
  ordered := h.consistent.ordered
  success := by
    intro hstatus
    obtain ⟨hpending, hactive, hfailed⟩ := h.agrees.success hstatus
    refine ⟨fun node hnode ↦ h.consistent.completed hpending hactive hfailed hnode, ?_, ?_⟩
    · rw [Bool.eq_false_iff]
      intro htimedOut
      rw [h.agrees.timedOut htimedOut] at hstatus
      cases hstatus
    · rw [Bool.eq_false_iff]
      intro hfinally
      have hpos := h.failedFinally hfinally
      omega

theorem sound_start {workflowDef : WorkflowDef} (hvalid : workflowDef.Valid)
    (hsmall : workflowDef.nodes.length < 2 ^ 32) (timeoutAt : Time) (maxRetries : ℕ) :
    Sound (Run.start (WorkflowInstance.new workflowDef timeoutAt maxRetries)) where
  consistent := WorkflowInstance.consistent_new hvalid hsmall timeoutAt maxRetries
  agrees :=
    { success := fun hstatus ↦ by cases hstatus
      timedOut := fun htimedOut ↦ by cases htimedOut
      failed := fun hfailed ↦ absurd hfailed (Nat.lt_irrefl 0) }
  failedFinally := fun hfinally ↦ by cases hfinally

/-- A node that fails for good is counted. -/
theorem Sound.failsFinally (h : Sound run) (hfails : run.failsFinally op = true) :
    0 < (run.workflow.call op).2.failedCt := by
  have hafter := (h.consistent.called op).consistent h.consistent
  cases op with
  | failNode node =>
    simp only [Run.failsFinally, Bool.and_eq_true, beq_iff_eq] at hfails
    have hmem : node ∈ (run.workflow.call (.failNode node)).2.workflowDef.nodes := by
      by_contra hmem
      have hnone : (run.workflow.call (.failNode node)).2.workflowDef.nodeIndex node = none := by
        rw [Option.eq_none_iff_forall_ne_some]
        intro idx hidx
        exact hmem (List.mem_of_getElem? ((hafter.valid.index node idx).1 hidx))
      have hfailed := hfails.2
      unfold WorkflowInstance.getNodeState at hfailed
      rw [hnone] at hfailed
      cases hfailed
    have hcounter := hafter.counter_pos hmem (by simp [hfails.2])
    rw [hfails.2] at hcounter
    exact hcounter
  | _ => cases hfails

/-- A call in time keeps the invariant. -/
theorem Sound.call (h : Sound run) (htimely : Timely run.workflow op) : Sound (run.call op) where
  consistent := (h.consistent.called op).consistent h.consistent
  agrees := (h.consistent.called op).agrees h.consistent h.agrees htimely
  failedFinally := by
    intro hfinally
    obtain hbefore | hnow := (Bool.or_eq_true _ _).mp hfinally
    · exact (h.consistent.called op).failedCt_pos h.consistent (h.failedFinally hbefore)
    · exact h.failsFinally hnow

end Runs

/-- A run of calls on a fresh instance of a validated definition meets its laws throughout, and keeps
what is final, if and only if there are fewer than 2^32 nodes and every call is in time. -/
theorem meets_throughout_iff (nodes : List ℕ) (edges : List Edge) (workflowDef : WorkflowDef)
    (h : WorkflowDef.validated nodes edges = .ok workflowDef) (timeoutAt : Time) (maxRetries : ℕ)
    (ops : List Op) :
    (Throughout Run.call Meets (Run.start (WorkflowInstance.new workflowDef timeoutAt maxRetries)) ops ∧
      Along Run.call (fun run op ↦ Final run.workflow op)
        (Run.start (WorkflowInstance.new workflowDef timeoutAt maxRetries)) ops) ↔
      workflowDef.nodes.length < 2 ^ 32 ∧
        Along Run.call (fun run op ↦ Timely run.workflow op)
          (Run.start (WorkflowInstance.new workflowDef timeoutAt maxRetries)) ops := by
  have hvalid := valid_of_validated h
  have hiff (hsmall : workflowDef.nodes.length < 2 ^ 32) :
      Along Run.call (fun run op ↦ Final run.workflow op)
          (Run.start (WorkflowInstance.new workflowDef timeoutAt maxRetries)) ops ↔
        Along Run.call (fun run op ↦ Timely run.workflow op)
          (Run.start (WorkflowInstance.new workflowDef timeoutAt maxRetries)) ops :=
    along_iff_along (fun _ _ hrun ↦ WorkflowInstance.final_iff hrun.consistent hrun.agrees)
      (fun _ _ hrun htimely ↦ hrun.call htimely) (sound_start hvalid hsmall timeoutAt maxRetries)
  constructor
  · rintro ⟨hmeets, hfinal⟩
    have hsmall : workflowDef.nodes.length < 2 ^ 32 := by
      have hpending := hmeets.start.pending
      have hcount : (List.replicate workflowDef.nodes.length NodeState.pending).count .pending =
          workflowDef.nodes.length := List.count_replicate_self
      have hcast : workflowDef.nodes.length % 2 ^ 32 = workflowDef.nodes.length := hpending.trans hcount
      omega
    exact ⟨hsmall, (hiff hsmall).1 hfinal⟩
  · rintro ⟨hsmall, htimely⟩
    have hsound := Throughout.of_along (fun _ _ hrun htimely ↦ Sound.call hrun htimely)
      (sound_start hvalid hsmall timeoutAt maxRetries) htimely
    exact ⟨hsound.mono fun _ hrun ↦ hrun.meets, (hiff hsmall).2 htimely⟩

/-! ## One node -/

section Single

def single : WorkflowDef where
  nodes := [1]
  edges := []
  predecessors := [[]]
  successors := [[]]
  nodeToIndex := [(1, 0)]

theorem validated_single : WorkflowDef.validated [1] [] = .ok single := by
  simp [WorkflowDef.validated, sortDedup, WorkflowDef.checkEdges, WorkflowDef.buildAdjacency, indexTable,
    single]

/-- The node starts and completes. -/
theorem meets_throughout_iff_single :
    Throughout Run.call Meets (Run.start (WorkflowInstance.new single 0 0)) [.startNode 1, .completeNode 1] ∧
      Along Run.call (fun run op ↦ Final run.workflow op) (Run.start (WorkflowInstance.new single 0 0))
        [.startNode 1, .completeNode 1] := by
  apply (meets_throughout_iff [1] [] single validated_single 0 0 _).2
  refine ⟨by decide, trivial, ?_, trivial⟩
  intro hstatus
  exact absurd hstatus (by decide)

/-- The node completes after a timeout, and the workflow that had failed succeeds. -/
theorem not_meets_throughout : ¬ ∀ (nodes : List ℕ) (edges : List Edge) (workflowDef : WorkflowDef),
    WorkflowDef.validated nodes edges = .ok workflowDef → ∀ (timeoutAt : Time) (maxRetries : ℕ)
      (ops : List Op), Throughout Run.call Meets
          (Run.start (WorkflowInstance.new workflowDef timeoutAt maxRetries)) ops ∧
        Along Run.call (fun run op ↦ Final run.workflow op)
          (Run.start (WorkflowInstance.new workflowDef timeoutAt maxRetries)) ops := by
  intro h
  obtain ⟨⟨-, -, -, hmeets⟩, -⟩ :=
    h [1] [] single validated_single 0 0 [.startNode 1, .applyTimeout, .completeNode 1]
  obtain ⟨-, htimedOut, -⟩ := hmeets.success (by decide)
  exact absurd htimedOut (by decide)

end Single

end Lionagi.LionCore.Workflow
