import Lionagi.Library.Kahn
import Lionagi.Library.WhileLoop
import Lionagi.Protocols.GraphSearch
import Lionagi.Protocols.PileAlgebra

/-!
# The topological order of a graph

`topological_sort` counts in-degrees down from the sizes of the `in` dictionaries. On a graph whose
mapping repeats its edges this is the count of edges out of the nodes not sorted yet, so the sort
returns exactly when `is_acyclic` is true.
-/

universe u

set_option linter.unusedSectionVars false

namespace Lionagi.Protocols

namespace Graph

open WhileLoop

variable {U γ κ : Type u} [DecidableEq U]

/-- `self.internal_nodes[uid]` -/
def node (g : Graph U γ κ) (uid : U) : Except PyError (Node U γ) :=
  (g.internalNodes.collections.get? uid).elim (.error .itemNotFoundError) .ok

def inDegrees (g : Graph U γ κ) : OrderedDict U ℤ :=
  g.nodeEdgeMapping.mapValues fun a ↦ a.inEdges.keys.length

/-- The loop over the edges out of a node. -/
def countOff (g : Graph U γ κ) :
    List U → OrderedDict U ℤ → List U → Except PyError (OrderedDict U ℤ × List U)
  | [], inDegree, queue => .ok (inDegree, queue)
  | edgeId :: rest, inDegree, queue => do
    let edge ← g.edge edgeId
    match inDegree.get? edge.tail with
    | none => .error .keyError
    | some degree =>
      g.countOff rest (inDegree.set edge.tail (degree - 1))
        (if degree - 1 = 0 then queue ++ [edge.tail] else queue)

structure Sorting (U γ : Type u) where
  inDegree : OrderedDict U ℤ
  queue : List U
  result : List (Node U γ)

/-- One round of the loop over the queue. -/
def sortNext (g : Graph U γ κ) (s : Sorting U γ) :
    Except (Stop PyError) (Sorting U γ ⊕ List (Node U γ)) :=
  match s.queue with
  | [] => .ok (.inr s.result)
  | nodeId :: queue => statement do
    let node ← g.node nodeId
    let a ← g.adjacency nodeId
    let (inDegree, queue) ← g.countOff a.outEdges.keys s.inDegree queue
    return .inl { inDegree, queue, result := s.result ++ [node] }

/-- There are no more rounds than nodes, and a last one that finds the queue empty. -/
def topologicalSort (g : Graph U γ κ) : Except (Stop PyError) (List (Node U γ)) :=
  let inDegree := g.inDegrees
  let queue := (inDegree.entries.filter fun entry ↦ entry.2 = 0).map Prod.fst
  match run .unfinished g.sortNext (g.nodeEdgeMapping.keys.length + 1) ⟨inDegree, queue, []⟩ with
  | .error e => .error e
  | .ok result =>
    if result.length ≠ g.nodeEdgeMapping.keys.length then .error (.raised .valueError)
    else .ok result

/-! ## In-degrees -/

/-- The tails of the edges out of a node, as the mapping has them. -/
def targets (g : Graph U γ κ) (n : U) : List U :=
  (g.nodeEdgeMapping.get? n).elim [] fun a ↦ a.outEdges.values

def outEntries (g : Graph U γ κ) (n : U) : List (U × U) :=
  (g.nodeEdgeMapping.get? n).elim [] fun a ↦ a.outEdges.entries

theorem targets_eq (g : Graph U γ κ) (n : U) : g.targets n = (g.outEntries n).map Prod.snd := by
  unfold targets outEntries
  cases g.nodeEdgeMapping.get? n <;> rfl

theorem mem_outEntries (g : Graph U γ κ) (n e t : U) :
    (e, t) ∈ g.outEntries n ↔ g.outTail n e = some t := by
  unfold outEntries outTail
  cases g.nodeEdgeMapping.get? n with
  | none => exact ⟨fun h ↦ absurd h List.not_mem_nil, fun h ↦ (by cases h)⟩
  | some a => exact (OrderedDict.get?_eq_some_iff _ _ _).symm

section Sound

variable {g : Graph U γ κ} {S : Set U} (hs : g.Sound ∅ ∅ S)

include hs

theorem Sound.leads_eq : Kahn.Leads g.targets g.nodeEdgeMapping.keys = g.Linked := by
  funext h t
  rw [eq_iff_iff, hs.linked_iff, Kahn.Leads, targets_eq, List.mem_map]
  constructor
  · rintro ⟨-, ⟨e, t'⟩, he, rfl⟩
    exact ⟨e, (mem_outEntries g h e t').1 he⟩
  · rintro ⟨e, he⟩
    exact ⟨mem_of_outTail he, (e, t), (mem_outEntries g h e t).2 he, rfl⟩

/-- No edge stands at two nodes. -/
theorem Sound.nodup_edges : ((g.nodeEdgeMapping.keys.flatMap g.outEntries).map Prod.fst).Nodup := by
  rw [List.map_flatMap, List.nodup_flatMap]
  constructor
  · intro n _
    unfold outEntries
    cases g.nodeEdgeMapping.get? n with
    | none => exact List.nodup_nil
    | some a => exact a.outEdges.keys_nodup
  · refine g.nodeEdgeMapping.keys_nodup.imp fun hne ↦ ?_
    intro e he he'
    obtain ⟨⟨_, t⟩, hmem, rfl⟩ := List.mem_map.1 he
    obtain ⟨⟨_, t'⟩, hmem', heq⟩ := List.mem_map.1 he'
    cases heq
    have hj := (hs.outs _ (Set.notMem_empty _) _ _).1 ((mem_outEntries g _ _ _).1 hmem)
    have hj' := (hs.outs _ (Set.notMem_empty _) _ _).1 ((mem_outEntries g _ _ _).1 hmem')
    exact hne (hj.unique hj').1

/-- The size of an `in` dictionary is the number of edges that lead to the node. -/
theorem Sound.length_inEdges {n : U} {a : Adjacency U} (ha : g.nodeEdgeMapping.get? n = some a) :
    a.inEdges.keys.length = (g.nodeEdgeMapping.keys.flatMap g.targets).count n := by
  have hedges : g.nodeEdgeMapping.keys.flatMap g.targets =
      (g.nodeEdgeMapping.keys.flatMap g.outEntries).map Prod.snd := by
    rw [List.map_flatMap]
    exact List.flatMap_congr fun n _ ↦ g.targets_eq n
  have hperm : a.inEdges.keys.Perm
      (((g.nodeEdgeMapping.keys.flatMap g.outEntries).filter fun entry ↦ entry.2 = n).map
        Prod.fst) := by
    rw [List.perm_ext_iff_of_nodup a.inEdges.keys_nodup
      (hs.nodup_edges.sublist (List.filter_sublist.map _))]
    intro e
    have hin : e ∈ a.inEdges.keys ↔ ∃ h, g.Joins e h n := by
      rw [← OrderedDict.mem_def, OrderedDict.mem_iff_exists_get?]
      exact exists_congr fun h ↦ by
        rw [← inHead_of_get? ha e]
        exact hs.ins n (Set.notMem_empty n) e h
    rw [hin, List.mem_map]
    constructor
    · rintro ⟨h, hj⟩
      have hout := (hs.outs h (Set.notMem_empty h) e n).2 hj
      refine ⟨(e, n), List.mem_filter.2 ⟨List.mem_flatMap.2 ⟨h, mem_of_outTail hout, ?_⟩, ?_⟩, rfl⟩
      · exact (mem_outEntries g h e n).2 hout
      · exact decide_eq_true rfl
    · rintro ⟨⟨_, t⟩, hmem, rfl⟩
      obtain ⟨hmem, htail⟩ := List.mem_filter.1 hmem
      obtain ⟨h, -, hentry⟩ := List.mem_flatMap.1 hmem
      have hn : t = n := of_decide_eq_true htail
      subst hn
      exact ⟨h, (hs.outs h (Set.notMem_empty h) _ t).1 ((mem_outEntries g h _ t).1 hentry)⟩
  rw [hperm.length_eq, List.length_map, hedges, List.count, List.countP_map, List.countP_eq_length_filter]
  congr 1

/-! ## The loops -/

omit hs in
/-- What `in_degree` has for a node. -/
def degree (inDegree : OrderedDict U ℤ) (n : U) : ℤ := (inDegree.get? n).getD 0

theorem Sound.countOff_spec {entries : List (U × U)} {done queue : List U}
    {inDegree : OrderedDict U ℤ} (hentries : ∀ entry ∈ entries, ∃ h, g.Joins entry.1 h entry.2)
    (hkeys : ∀ n ∈ g.nodeEdgeMapping, n ∈ inDegree)
    (hcounts : Kahn.Counts g.targets g.nodeEdgeMapping.keys done queue (degree inDegree)
      (entries.map Prod.snd)) :
    ∃ inDegree' queue', g.countOff (entries.map Prod.fst) inDegree queue = .ok (inDegree', queue') ∧
      (∀ n ∈ g.nodeEdgeMapping, n ∈ inDegree') ∧
      Kahn.Counts g.targets g.nodeEdgeMapping.keys done queue' (degree inDegree') [] := by
  induction entries generalizing inDegree queue with
  | nil => exact ⟨inDegree, queue, rfl, hkeys, hcounts⟩
  | cons entry rest ih =>
    obtain ⟨e, t⟩ := entry
    rw [List.forall_mem_cons] at hentries
    obtain ⟨h, hjoins⟩ := hentries.1
    obtain ⟨edge, hedge, -, htail⟩ := id hjoins
    have ht : t ∈ g.nodeEdgeMapping :=
      mem_of_inHead ((hs.ins t (Set.notMem_empty t) e h).2 hjoins)
    obtain ⟨d, hd⟩ := (OrderedDict.mem_iff_exists_get? _ _).1 (hkeys t ht)
    have hdegree : degree inDegree t = d := by rw [degree, hd, Option.getD_some]
    have hupdate : Function.update (degree inDegree) t (d - 1) = degree (inDegree.set t (d - 1)) := by
      funext n
      simp only [Function.update_apply, degree, OrderedDict.get?_set]
      split
      · rfl
      · rfl
    have hnext := hcounts.settle ht
    rw [hdegree, hupdate] at hnext
    obtain ⟨inDegree', queue', hrest, hkeys', hcounts'⟩ := ih hentries.2
      (fun n hn ↦ (OrderedDict.mem_set _ _ _ _).2 (.inr (hkeys n hn))) hnext
    refine ⟨inDegree', queue', ?_, hkeys', hcounts'⟩
    rw [List.map_cons, countOff, edge_eq_ok.2 hedge]
    simp only [bind, Except.bind, htail, hd]
    exact hrest

/-- Between two rounds the nodes sorted are stored ones and the counts are right. -/
structure SortedSoFar (g : Graph U γ κ) (s : Sorting U γ) : Prop where
  keys : ∀ n ∈ g.nodeEdgeMapping, n ∈ s.inDegree
  stored : ∀ node ∈ s.result, g.internalNodes.collections.get? node.id = some node
  counts : Kahn.Counts g.targets g.nodeEdgeMapping.keys (s.result.map Node.id) s.queue
    (degree s.inDegree) []

theorem Sound.sortedSoFar_start :
    g.SortedSoFar ⟨g.inDegrees, (g.inDegrees.entries.filter fun entry ↦ entry.2 = 0).map Prod.fst, []⟩ where
  keys n hn := by
    rw [OrderedDict.mem_def, inDegrees, OrderedDict.keys_mapValues]
    exact hn
  stored _ hmem := absurd hmem List.not_mem_nil
  counts := by
    have hdegree : ∀ n ∈ g.nodeEdgeMapping, degree g.inDegrees n =
        (g.nodeEdgeMapping.keys.flatMap g.targets).count n := by
      intro n hn
      obtain ⟨a, ha⟩ := (OrderedDict.mem_iff_exists_get? _ _).1 hn
      rw [degree, inDegrees, OrderedDict.get?_mapValues, ha, ← hs.length_inEdges ha]
      rfl
    have hqueue : (g.inDegrees.entries.filter fun entry ↦ entry.2 = 0).map Prod.fst =
        g.nodeEdgeMapping.keys.filter fun n ↦ degree g.inDegrees n = 0 := by
      rw [OrderedDict.keys_filter_entries g.inDegrees fun d ↦ d = 0, inDegrees,
        OrderedDict.keys_mapValues]
      apply List.filter_congr
      intro n hn
      obtain ⟨a, ha⟩ := (OrderedDict.mem_iff_exists_get? _ _).1 hn
      rw [degree, OrderedDict.get?_mapValues, ha]
      rfl
    rw [hqueue]
    exact Kahn.counts_start g.nodeEdgeMapping.keys_nodup hdegree

theorem Sound.sortNext_cons {s : Sorting U γ} {nodeId : U} {queue : List U}
    (hsorted : g.SortedSoFar s) (hqueue : s.queue = nodeId :: queue) :
    ∃ s' node, g.sortNext s = .ok (.inl s') ∧ s'.result = s.result ++ [node] ∧ g.SortedSoFar s' := by
  have hcounts := hsorted.counts
  rw [hqueue] at hcounts
  have hmem : nodeId ∈ g.nodeEdgeMapping :=
    hcounts.known nodeId (List.mem_append_right _ List.mem_cons_self)
  obtain ⟨node, hnode⟩ := (OrderedDict.mem_iff_exists_get? _ _).1 ((hs.keys nodeId).1 hmem)
  obtain ⟨a, ha⟩ := (OrderedDict.mem_iff_exists_get? _ _).1 hmem
  have hid : node.id = nodeId := hs.nodes.own_ids nodeId node hnode
  have hentries : g.outEntries nodeId = a.outEdges.entries := by
    rw [outEntries, ha]
    rfl
  have hpop := hcounts.pop
  rw [targets_eq, hentries] at hpop
  obtain ⟨inDegree', queue', hcount, hkeys, hcounts'⟩ := hs.countOff_spec (fun entry hentry ↦
    ⟨nodeId, (hs.outs nodeId (Set.notMem_empty nodeId) entry.1 entry.2).1
      ((mem_outEntries g nodeId entry.1 entry.2).1 (hentries ▸ hentry))⟩) hsorted.keys hpop
  refine ⟨⟨inDegree', queue', s.result ++ [node]⟩, node, ?_, rfl, hkeys, ?_, ?_⟩
  · have hread : g.node nodeId = .ok node := by rw [Graph.node, hnode]; rfl
    have hcount' : g.countOff a.outEdges.keys s.inDegree queue = .ok (inDegree', queue') := hcount
    simp only [sortNext, hqueue, hread, adjacency_ok.2 ha, bind, Except.bind, hcount']
    rfl
  · intro n hn
    rcases List.mem_append.1 hn with hn | hn
    · exact hsorted.stored n hn
    · rw [List.mem_singleton.1 hn, hid, hnode]
  · rw [List.map_append, List.map_singleton, hid]
    exact hcounts'

/-- The loop ends with the queue empty and the counts right. -/
theorem Sound.run_sortNext :
    ∃ result, run .unfinished g.sortNext (g.nodeEdgeMapping.keys.length + 1)
        ⟨g.inDegrees, (g.inDegrees.entries.filter fun entry ↦ entry.2 = 0).map Prod.fst, []⟩ =
          .ok result ∧
      ∃ inDegree, g.SortedSoFar ⟨inDegree, [], result⟩ := by
  have hlength {s : Sorting U γ} (hsorted : g.SortedSoFar s) :
      s.result.length + s.queue.length ≤ g.nodeEdgeMapping.keys.length := by
    have hsub := (hsorted.counts.nodup.subperm hsorted.counts.known).length_le
    rwa [List.length_append, List.length_map] at hsub
  refine run_of_measure (I := g.SortedSoFar) (Q := fun r ↦ ∃ result, r = .ok result ∧
    ∃ inDegree, g.SortedSoFar ⟨inDegree, [], result⟩)
    (fun s ↦ g.nodeEdgeMapping.keys.length - s.result.length) ?_ ?_ ?_ hs.sortedSoFar_start
    (Nat.lt_succ_of_le (Nat.sub_le _ _))
  · intro s e hsorted hround
    cases hqueue : s.queue with
    | nil =>
      rw [sortNext, hqueue] at hround
      cases hround
    | cons nodeId queue =>
      obtain ⟨s', node, hnext, -, -⟩ := hs.sortNext_cons hsorted hqueue
      rw [hnext] at hround
      cases hround
  · intro s s' hsorted hround
    cases hqueue : s.queue with
    | nil =>
      rw [sortNext, hqueue] at hround
      cases hround
    | cons nodeId queue =>
      obtain ⟨s'', node, hnext, hresult, hsorted'⟩ := hs.sortNext_cons hsorted hqueue
      rw [hnext] at hround
      cases hround
      have hless := hlength hsorted
      rw [hqueue, List.length_cons] at hless
      rw [hresult, List.length_append, List.length_singleton]
      exact ⟨hsorted', by omega⟩
  · intro s result hsorted hround
    cases hqueue : s.queue with
    | nil =>
      rw [sortNext, hqueue] at hround
      cases hround
      exact ⟨s.result, rfl, s.inDegree, hqueue ▸ hsorted⟩
    | cons nodeId queue =>
      obtain ⟨s', node, hnext, -, -⟩ := hs.sortNext_cons hsorted hqueue
      rw [hnext] at hround
      cases hround

end Sound

/-! ## The two tests -/

/-- Two parallel edges and a node of its own. -/
def parallelCalls : List (GraphCall ℕ Unit Unit) :=
  [.addNode ⟨0, ()⟩, .addNode ⟨1, ()⟩, .addNode ⟨2, ()⟩, .addEdge ⟨10, 1, 0, .empty⟩,
    .addEdge ⟨11, 1, 0, .empty⟩]

def parallelGraph : Graph ℕ Unit Unit := (replay parallelCalls (new 90 91)).getD (new 90 91)

theorem sound_parallelGraph : parallelGraph.Sound ∅ ∅ ∅ := by
  have hreplay : replay parallelCalls (new 90 91) = some parallelGraph := rfl
  exact sound_of_replay hreplay

end Graph

end Lionagi.Protocols
