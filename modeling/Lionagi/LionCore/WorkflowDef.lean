import Lionagi.Library.SortedTable
import Lionagi.LionCore.State

/-!
# Workflow definitions

A validated definition has sorted nodes and edges between them. Nodes are looked up by binary search in
a table of their positions, and the predecessors of every node are collected once.
-/

namespace Lionagi.LionCore.Workflow

open SortedTable

inductive NodeState where
  | pending
  | active
  | completed
  | failed
  deriving DecidableEq, Repr

inductive WorkflowError where
  | nodeNotFound (node : ℕ)
  | invalidTransition (node : ℕ) (source target : NodeState)
  | timedOut
  | dependenciesNotSatisfied (node : ℕ) (deps : List ℕ)
  deriving DecidableEq

/-- The source must complete before the target starts. -/
structure Edge where
  source : ℕ
  target : ℕ
  deriving DecidableEq

structure WorkflowDef where
  nodes : List ℕ
  edges : List Edge
  predecessors : List (List ℕ)
  successors : List (List ℕ)
  nodeToIndex : List (ℕ × ℕ)
  deriving DecidableEq

/-- Sorted by node. -/
def indexTable (nodes : List ℕ) : List (ℕ × ℕ) := nodes.zipIdx.mergeSort fun a b ↦ a.1 ≤ b.1

def indexIn (table : List (ℕ × ℕ)) (node : ℕ) : Option ℕ := (lookup Prod.fst node table).map Prod.snd

/-- An edge between known nodes adds its source to the predecessors of its target. -/
def pushSource (table : List (ℕ × ℕ)) (predecessors : List (List ℕ)) (edge : Edge) : List (List ℕ) :=
  match indexIn table edge.source, indexIn table edge.target with
  | some _, some targetIdx => predecessors.modify targetIdx (· ++ [edge.source])
  | _, _ => predecessors

/-- An edge between known nodes adds its target to the successors of its source. -/
def pushTarget (table : List (ℕ × ℕ)) (successors : List (List ℕ)) (edge : Edge) : List (List ℕ) :=
  match indexIn table edge.source, indexIn table edge.target with
  | some sourceIdx, some _ => successors.modify sourceIdx (· ++ [edge.target])
  | _, _ => successors

namespace WorkflowDef

def buildAdjacency (nodes : List ℕ) (edges : List Edge) : WorkflowDef where
  nodes := nodes
  edges := edges
  predecessors := edges.foldl (pushSource (indexTable nodes)) (List.replicate nodes.length [])
  successors := edges.foldl (pushTarget (indexTable nodes)) (List.replicate nodes.length [])
  nodeToIndex := indexTable nodes

def checkEdge (nodes : List ℕ) (edge : Edge) : Except WorkflowError Unit :=
  match binarySearchByKey id edge.source nodes with
  | .error _ => .error (.nodeNotFound edge.source)
  | .ok _ =>
    match binarySearchByKey id edge.target nodes with
    | .error _ => .error (.nodeNotFound edge.target)
    | .ok _ => .ok ()

def checkEdges (nodes : List ℕ) : List Edge → Except WorkflowError Unit
  | [] => .ok ()
  | edge :: edges =>
    match checkEdge nodes edge with
    | .error e => .error e
    | .ok () => checkEdges nodes edges

def validated (nodes : List ℕ) (edges : List Edge) : Except WorkflowError WorkflowDef :=
  match checkEdges (sortDedup nodes) edges with
  | .error e => .error e
  | .ok () => .ok (buildAdjacency (sortDedup nodes) edges)

def nodeIndex (workflowDef : WorkflowDef) (node : ℕ) : Option ℕ := indexIn workflowDef.nodeToIndex node

def requireNode (workflowDef : WorkflowDef) (node : ℕ) : Except WorkflowError ℕ :=
  match workflowDef.nodeIndex node with
  | some idx => .ok idx
  | none => .error (.nodeNotFound node)

end WorkflowDef

/-! ## Validated definitions -/

/-- The nodes are sorted, the table gives their positions, edges run between nodes, and the predecessors
of a node are the sources of its edges. -/
structure WorkflowDef.Valid (workflowDef : WorkflowDef) : Prop where
  sorted : Sorted id workflowDef.nodes
  index : ∀ node idx : ℕ, workflowDef.nodeIndex node = some idx ↔ workflowDef.nodes[idx]? = some node
  source : ∀ edge ∈ workflowDef.edges, edge.source ∈ workflowDef.nodes
  target : ∀ edge ∈ workflowDef.edges, edge.target ∈ workflowDef.nodes
  predecessors : ∀ idx node : ℕ, workflowDef.nodes[idx]? = some node → workflowDef.predecessors[idx]? =
    some ((workflowDef.edges.filter fun edge ↦ edge.target = node).map Edge.source)

section Valid

variable {nodes : List ℕ} {edges : List Edge}

theorem sorted_zipIdx (h : Sorted id nodes) : Sorted Prod.fst nodes.zipIdx := by
  have hmap : (nodes.zipIdx.map Prod.fst).Pairwise (· < ·) := by
    rw [List.zipIdx_map_fst]
    exact h
  exact List.pairwise_map.1 hmap

theorem indexTable_eq (h : Sorted id nodes) : indexTable nodes = nodes.zipIdx := by
  apply List.mergeSort_of_pairwise
  apply (sorted_zipIdx h).imp
  intro a b hab
  exact decide_eq_true (Nat.le_of_lt hab)

variable {node : ℕ}

theorem indexIn_eq_some_iff (h : Sorted id nodes) {idx : ℕ} :
    indexIn (indexTable nodes) node = some idx ↔ nodes[idx]? = some node := by
  unfold indexIn
  rw [indexTable_eq h, Option.map_eq_some_iff]
  constructor
  · rintro ⟨entry, hentry, rfl⟩
    obtain ⟨hmem, rfl⟩ := (lookup_eq_some_iff (sorted_zipIdx h)).1 hentry
    exact List.mem_zipIdx_iff_getElem?.1 hmem
  · intro hnode
    refine ⟨(node, idx), (lookup_eq_some_iff (sorted_zipIdx h)).2 ⟨?_, rfl⟩, rfl⟩
    exact List.mem_zipIdx_iff_getElem?.2 hnode

theorem exists_indexIn (h : Sorted id nodes) (hmem : node ∈ nodes) :
    ∃ idx, indexIn (indexTable nodes) node = some idx := by
  obtain ⟨idx, hidx⟩ := List.mem_iff_getElem?.1 hmem
  exact ⟨idx, (indexIn_eq_some_iff h).2 hidx⟩

theorem mem_of_checkEdge (h : Sorted id nodes) {edge : Edge}
    (hcheck : WorkflowDef.checkEdge nodes edge = .ok ()) : edge.source ∈ nodes ∧ edge.target ∈ nodes := by
  unfold WorkflowDef.checkEdge at hcheck
  have hfound : ∀ k idx, binarySearchByKey id k nodes = .ok idx → k ∈ nodes := by
    intro k idx hsearch
    have hmem := (search_isOk_iff h).1 ⟨idx, hsearch⟩
    simpa using hmem
  cases hsource : binarySearchByKey id edge.source nodes with
  | error pos =>
    rw [hsource] at hcheck
    cases hcheck
  | ok sourceIdx =>
    cases htarget : binarySearchByKey id edge.target nodes with
    | error pos =>
      rw [hsource, htarget] at hcheck
      cases hcheck
    | ok targetIdx => exact ⟨hfound _ _ hsource, hfound _ _ htarget⟩

theorem mem_of_checkEdges (h : Sorted id nodes) (hcheck : WorkflowDef.checkEdges nodes edges = .ok ()) :
    ∀ edge ∈ edges, edge.source ∈ nodes ∧ edge.target ∈ nodes := by
  induction edges with
  | nil => simp
  | cons edge edges ih =>
    unfold WorkflowDef.checkEdges at hcheck
    cases hedge : WorkflowDef.checkEdge nodes edge with
    | error e =>
      rw [hedge] at hcheck
      cases hcheck
    | ok u =>
      rw [hedge] at hcheck
      intro edge' hmem
      obtain rfl | hmem := List.mem_cons.1 hmem
      · exact mem_of_checkEdge h hedge
      · exact ih hcheck edge' hmem

/-- The sources of the edges of a node are appended to its predecessors, in the order of the edges. -/
theorem foldl_pushSource (h : Sorted id nodes) (hedges : ∀ edge ∈ edges, edge.source ∈ nodes ∧ edge.target ∈ nodes)
    (acc : List (List ℕ)) {idx : ℕ} (hnode : nodes[idx]? = some node) :
    (edges.foldl (pushSource (indexTable nodes)) acc)[idx]? =
      acc[idx]?.map (· ++ (edges.filter fun edge ↦ edge.target = node).map Edge.source) := by
  induction edges generalizing acc with
  | nil => simp
  | cons edge edges ih =>
    obtain ⟨hsource, htarget⟩ := hedges edge List.mem_cons_self
    obtain ⟨sourceIdx, hsourceIdx⟩ := exists_indexIn h hsource
    obtain ⟨targetIdx, htargetIdx⟩ := exists_indexIn h htarget
    rw [List.foldl_cons, ih fun edge' hmem ↦ hedges edge' (List.mem_cons_of_mem _ hmem), pushSource,
      hsourceIdx, htargetIdx]
    simp only
    rw [List.getElem?_modify]
    by_cases heq : targetIdx = idx
    · have hsame : edge.target = node := by
        rw [indexIn_eq_some_iff h, heq, hnode] at htargetIdx
        exact (Option.some.inj htargetIdx).symm
      rw [List.filter_cons_of_pos (by simpa using hsame), heq]
      cases acc[idx]? with
      | none => rfl
      | some list => simp
    · have hne : edge.target ≠ node := by
        rintro rfl
        rw [(indexIn_eq_some_iff h).2 hnode] at htargetIdx
        exact heq (Option.some.inj htargetIdx).symm
      rw [List.filter_cons_of_neg (by simpa using hne)]
      simp [heq]

theorem valid_buildAdjacency (h : Sorted id nodes)
    (hedges : ∀ edge ∈ edges, edge.source ∈ nodes ∧ edge.target ∈ nodes) :
    (WorkflowDef.buildAdjacency nodes edges).Valid where
  sorted := h
  index := fun _ _ ↦ indexIn_eq_some_iff h
  source := fun edge hmem ↦ (hedges edge hmem).1
  target := fun edge hmem ↦ (hedges edge hmem).2
  predecessors := by
    intro idx node hnode
    have hlt : idx < nodes.length := (List.getElem?_eq_some_iff.1 hnode).1
    refine (foldl_pushSource h hedges _ hnode).trans ?_
    rw [List.getElem?_replicate, if_pos hlt]
    rfl

variable {workflowDef : WorkflowDef}

/-- What `validated` accepts is valid. -/
theorem valid_of_validated (h : WorkflowDef.validated nodes edges = .ok workflowDef) : workflowDef.Valid := by
  unfold WorkflowDef.validated at h
  cases hcheck : WorkflowDef.checkEdges (sortDedup nodes) edges with
  | error e =>
    rw [hcheck] at h
    cases h
  | ok u =>
    rw [hcheck] at h
    cases h
    have hsorted := sorted_sortDedup nodes
    exact valid_buildAdjacency hsorted (mem_of_checkEdges hsorted hcheck)

theorem edges_of_validated (h : WorkflowDef.validated nodes edges = .ok workflowDef) : workflowDef.edges = edges := by
  unfold WorkflowDef.validated at h
  split at h <;> cases h
  rfl

end Valid

end Lionagi.LionCore.Workflow
