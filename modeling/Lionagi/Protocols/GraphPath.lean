import Lionagi.Library.BreadthFirst
import Lionagi.Protocols.GraphOrder

/-!
# Shortest paths of a graph

`find_path` is a breadth-first search over the mapping. A node is visited when an edge that may be
followed reaches it first, which is then its parent edge; the path is read back from the parents.
-/

universe u

set_option linter.unusedSectionVars false

namespace Lionagi.Protocols

namespace Graph

open WhileLoop BreadthFirst

variable {U γ κ : Type u} [DecidableEq U]

/-! ## The search -/

structure Searching (U : Type u) where
  queue : List U
  parent : OrderedDict U (U × U)
  visited : List U

/-- One round of the loop that goes back from the end to the start. -/
def traceNext (g : Graph U γ κ) (parent : OrderedDict U (U × U)) (s : U × List (Edge U κ)) :
    Except (Stop PyError) (U × List (Edge U κ) ⊕ List (Edge U κ)) :=
  match parent.get? s.1 with
  | none => .ok (.inr s.2.reverse)
  | some (parentId, edgeId) => do
    let edge ← statement (g.edge edgeId)
    return .inl (parentId, s.2 ++ [edge])

/-- The loop passes each node that has a parent at most once. -/
def traceBack (g : Graph U γ κ) (parent : OrderedDict U (U × U)) (endId : U) :
    Except (Stop PyError) (List (Edge U κ)) :=
  run .unfinished (g.traceNext parent) (parent.keys.length + 1) (endId, [])

/-- The loop over the edges out of the current node. The second result is a path to the end. -/
def explore (g : Graph U γ κ) (admits : Edge U κ → Bool) (currentId endId : U) :
    List U → Searching U → Except (Stop PyError) (Searching U ⊕ List (Edge U κ))
  | [], s => .ok (.inl s)
  | edgeId :: rest, s => do
    let edge ← statement (g.edge edgeId)
    if edge.tail ∈ s.visited then g.explore admits currentId endId rest s
    else if !admits edge then g.explore admits currentId endId rest s
    else
      let s := { queue := s.queue ++ [edge.tail]
                 parent := s.parent.set edge.tail (currentId, edgeId)
                 visited := edge.tail :: s.visited : Searching U }
      if edge.tail = endId then (g.traceBack s.parent endId).map .inr
      else g.explore admits currentId endId rest s

/-- One round of the loop over the queue. -/
def searchNext (g : Graph U γ κ) (admits : Edge U κ → Bool) (endId : U) (s : Searching U) :
    Except (Stop PyError) (Searching U ⊕ Option (List (Edge U κ))) :=
  match s.queue with
  | [] => .ok (.inr none)
  | currentId :: queue => do
    let a ← statement (g.adjacency currentId)
    match ← g.explore admits currentId endId a.outEdges.keys { s with queue } with
    | .inl s => return .inl s
    | .inr path => return .inr (some path)

/-- The edge passes the test of the loop; `condition` is what `check_condition` of an edge answers
during the call. -/
def admits (checkConditions : Bool) (condition : Edge U κ → Bool) (edge : Edge U κ) : Bool :=
  !(checkConditions && !condition edge)

/-- There are no more rounds than nodes, and a last one that finds the queue empty. -/
def findPath (g : Graph U γ κ) (start finish : Ref U (Node U γ)) (checkConditions : Bool)
    (condition : Edge U κ → Bool) : Except (Stop PyError) (Option (List (Edge U κ))) := do
  let startId ← statement start.getId
  let endId ← statement finish.getId
  statement (ensure (g.hasNode startId) .relationError)
  statement (ensure (g.hasNode endId) .relationError)
  if startId = endId then return some []
  else
    run .unfinished (g.searchNext (admits checkConditions condition) endId)
      (g.nodeEdgeMapping.keys.length + 1) ⟨[startId], OrderedDict.empty, [startId]⟩

/-! ## Walks -/

/-- An edge of the graph that may be followed leads from `u` to `v`. -/
def Follows (g : Graph U γ κ) (admits : Edge U κ → Bool) (u : U) (edge : Edge U κ) (v : U) : Prop :=
  g.internalEdges.collections.get? edge.id = some edge ∧ edge.head = u ∧ edge.tail = v ∧
    admits edge = true

/-- The node and the edge before a node, as objects. -/
def parentOf (g : Graph U γ κ) (parent : OrderedDict U (U × U)) (n : U) : Option (U × Edge U κ) :=
  (parent.get? n).bind fun before ↦
    (g.internalEdges.collections.get? before.2).map fun edge ↦ (before.1, edge)

/-- Between two rounds, and while the edges `rest` of the current node are still to be followed. -/
structure Searched (g : Graph U γ κ) (admits : Edge U κ → Bool) (startId endId : U) (s : Searching U)
    (current : U) (rest : List (Edge U κ)) : Prop where
  layers : ∃ depth, Layers (g.Follows admits) startId s.visited s.queue (g.parentOf s.parent) depth
    current rest
  start_none : s.parent.get? startId = none
  size : s.visited.length = s.parent.keys.length + 1
  reached : ∀ n ∈ s.parent, n ∈ s.visited
  nodup : s.visited.Nodup
  nodes : ∀ n ∈ s.visited, n ∈ g.nodeEdgeMapping
  unseen : endId ∉ s.visited

/-- The path is a walk to the end and no walk is shorter. -/
def Shortest (g : Graph U γ κ) (admits : Edge U κ → Bool) (startId endId : U)
    (path : List (Edge U κ)) : Prop :=
  Walk (g.Follows admits) startId path endId ∧
    ∀ edges, Walk (g.Follows admits) startId edges endId → path.length ≤ edges.length

/-- Going back through the parents gives a walk that is as long as the depth. -/
theorem traceBack_spec {g : Graph U γ κ} {admits : Edge U κ → Bool} {startId current endId : U}
    {visited queue : List U} {parent : OrderedDict U (U × U)} {depth : U → ℕ}
    {rest : List (Edge U κ)} (hend : endId ∈ visited) (hstart : parent.get? startId = none)
    (hsize : visited.length = parent.keys.length + 1)
    (h : Layers (g.Follows admits) startId visited queue (g.parentOf parent) depth current rest) :
    ∃ path, g.traceBack parent endId = .ok path ∧ Walk (g.Follows admits) startId path endId ∧
      path.length = depth endId := by
  have hback : ∀ (d n : ℕ) (v : U) (taken : List (Edge U κ)), v ∈ visited → depth v = d → d < n →
      Walk (g.Follows admits) v taken.reverse endId → ∃ path,
        run .unfinished (g.traceNext parent) n (v, taken) = .ok path ∧
          Walk (g.Follows admits) startId path endId ∧ path.length = d + taken.length := by
    intro d
    induction d with
    | zero =>
      intro n v taken hv hdepth hn hwalk
      have hvstart : v = startId := by
        by_contra hne
        obtain ⟨u, e, -, -, -, hlater⟩ := h.parents v hv hne
        omega
      subst hvstart
      obtain ⟨n, rfl⟩ := Nat.exists_eq_succ_of_ne_zero hn.ne'
      refine ⟨taken.reverse, ?_, hwalk, ?_⟩
      · simp only [run, traceNext, hstart]
      · rw [List.length_reverse, Nat.zero_add]
    | succ d ih =>
      intro n v taken hv hdepth hn hwalk
      have hne : v ≠ startId := by
        rintro rfl
        rw [h.start_depth] at hdepth
        omega
      obtain ⟨u, edge, hparent, hu, hstep, hlater⟩ := h.parents v hv hne
      obtain ⟨before, hbefore, hedge⟩ := Option.bind_eq_some_iff.1 hparent
      obtain ⟨edge', hget, heq⟩ := Option.map_eq_some_iff.1 hedge
      cases heq
      obtain ⟨n, rfl⟩ := Nat.exists_eq_succ_of_ne_zero (Nat.ne_zero_of_lt hn)
      have hwalk' : Walk (g.Follows admits) before.1 (taken ++ [edge]).reverse endId := by
        rw [List.reverse_append]
        exact ⟨v, hstep, hwalk⟩
      obtain ⟨path, hrun, hpath, hlength⟩ := ih n before.1 (taken ++ [edge]) hu (by omega) (by omega)
        hwalk'
      refine ⟨path, ?_, hpath, ?_⟩
      · have hround : g.traceNext parent (v, taken) = .ok (.inl (before.1, taken ++ [edge])) := by
          simp only [traceNext, hbefore, edge_eq_ok.2 hget]
          rfl
        rw [run, hround]
        exact hrun
      · rw [hlength, List.length_append, List.length_singleton]
        omega
  have hdepth := h.count endId hend
  rw [hsize] at hdepth
  exact hback (depth endId) (parent.keys.length + 1) endId [] hend rfl hdepth rfl

section Sound

variable {g : Graph U γ κ} {S : Set U} (hs : g.Sound ∅ ∅ S)

include hs

/-- Following edges keeps the layers, or it meets the end with a shortest path. -/
theorem Sound.explore_spec {admits : Edge U κ → Bool} {startId current endId : U}
    {edges : List (Edge U κ)} {s : Searching U}
    (hedges : ∀ edge ∈ edges, g.internalEdges.collections.get? edge.id = some edge ∧
      edge.head = current)
    (h : g.Searched admits startId endId s current edges) :
    (∃ s', g.explore admits current endId (edges.map Edge.id) s = .ok (.inl s') ∧
      g.Searched admits startId endId s' current [] ∧
      s'.visited.length + s.queue.length = s.visited.length + s'.queue.length) ∨
    ∃ path, g.explore admits current endId (edges.map Edge.id) s = .ok (.inr path) ∧
      g.Shortest admits startId endId path := by
  induction edges generalizing s with
  | nil => exact .inl ⟨s, rfl, h, rfl⟩
  | cons edge rest ih =>
    rw [List.forall_mem_cons] at hedges
    obtain ⟨⟨hget, hhead⟩, hrest⟩ := hedges
    obtain ⟨depth, hlayers⟩ := h.layers
    have honly : ∀ w, g.Follows admits current edge w → w = edge.tail := fun w hw ↦ hw.2.2.1.symm
    have hread : g.edge edge.id = .ok edge := edge_eq_ok.2 hget
    rw [List.map_cons, explore, hread]
    simp only [statement_ok, bind, Except.bind]
    by_cases hseen : edge.tail ∈ s.visited
    · have hskip := hlayers.skip fun w hw ↦ honly w hw ▸ hseen
      rw [if_pos hseen]
      exact ih hrest { h with layers := ⟨depth, hskip⟩ }
    rw [if_neg hseen]
    cases hadmits : admits edge with
    | false =>
      have hskip := hlayers.skip fun w hw ↦ absurd (hadmits.symm.trans hw.2.2.2) Bool.false_ne_true
      rw [Bool.not_false, if_pos rfl]
      exact ih hrest { h with layers := ⟨depth, hskip⟩ }
    | true =>
      rw [Bool.not_true, if_neg Bool.false_ne_true]
      have hfollows : g.Follows admits current edge edge.tail := ⟨hget, hhead, rfl, hadmits⟩
      have hparent : g.parentOf (s.parent.set edge.tail (current, edge.id)) =
          Function.update (g.parentOf s.parent) edge.tail (some (current, edge)) := by
        funext n
        rw [Function.update_apply, parentOf, OrderedDict.get?_set]
        split
        · rw [Option.bind_some, hget, Option.map_some]
        · rfl
      have hfound := hlayers.discover hfollows honly hseen
      rw [← hparent] at hfound
      have hnew : edge.tail ∉ s.parent := fun hmem ↦ hseen (h.reached _ hmem)
      have hstart : (s.parent.set edge.tail (current, edge.id)).get? startId = none := by
        rw [OrderedDict.get?_set_of_ne, h.start_none]
        rintro rfl
        exact hseen hlayers.start_mem
      have hsize : (edge.tail :: s.visited).length =
          (s.parent.set edge.tail (current, edge.id)).keys.length + 1 := by
        rw [OrderedDict.keys_set_of_not_mem hnew, List.length_cons, h.size, List.length_append,
          List.length_singleton]
      by_cases hend : edge.tail = endId
      · rw [if_pos hend]
        have hmem : endId ∈ edge.tail :: s.visited := hend ▸ List.mem_cons_self
        obtain ⟨path, htrace, hwalk, hlength⟩ := traceBack_spec hmem hstart hsize hfound
        refine .inr ⟨path, ?_, hwalk, fun edges hedges ↦ ?_⟩
        · rw [htrace]
          rfl
        · rw [hlength]
          exact hfound.minimal endId hmem edges hedges
      · rw [if_neg hend]
        have hnode : edge.tail ∈ g.nodeEdgeMapping := by
          refine mem_of_inHead ((hs.ins edge.tail (Set.notMem_empty _) edge.id edge.head).2 ?_)
          exact ⟨edge, hget, rfl, rfl⟩
        have hnext : g.Searched admits startId endId ⟨s.queue ++ [edge.tail],
            s.parent.set edge.tail (current, edge.id), edge.tail :: s.visited⟩ current rest := by
          refine ⟨⟨_, hfound⟩, hstart, hsize, fun n hn ↦ ?_, List.nodup_cons.2 ⟨hseen, h.nodup⟩,
            List.forall_mem_cons.2 ⟨hnode, h.nodes⟩, ?_⟩
          · rcases (OrderedDict.mem_set _ _ _ _).1 hn with rfl | hn
            · exact List.mem_cons_self
            · exact List.mem_cons_of_mem _ (h.reached n hn)
          · rw [List.mem_cons, not_or]
            exact ⟨fun heq ↦ hend heq.symm, h.unseen⟩
        rcases ih hrest hnext with ⟨s', hexplore, hsearched, hlength⟩ | hpath
        · refine .inl ⟨s', hexplore, hsearched, ?_⟩
          rw [List.length_cons, List.length_append, List.length_singleton] at hlength
          omega
        · exact .inr hpath

/-- The edge objects out of a node, in the order of its dictionary. -/
theorem Sound.edges_out {n : U} {a : Adjacency U} (ha : g.nodeEdgeMapping.get? n = some a) :
    ∃ edges : List (Edge U κ), a.outEdges.keys = edges.map Edge.id ∧
      ∀ edge, edge ∈ edges ↔
        g.internalEdges.collections.get? edge.id = some edge ∧ edge.head = n := by
  have hout (e : U) : e ∈ a.outEdges.keys ↔ ∃ t, g.Joins e n t := by
    rw [← OrderedDict.mem_def, OrderedDict.mem_iff_exists_get?]
    exact exists_congr fun t ↦ by
      rw [← outTail_of_get? ha e]
      exact hs.outs n (Set.notMem_empty n) e t
  have hkeys : ∀ e ∈ a.outEdges.keys, e ∈ g.internalEdges.collections :=
    fun e he ↦ ((hout e).1 he).elim fun _ hj ↦ hj.mem
  obtain ⟨edges, hedges⟩ := Pile.lookupAll_of_mem hkeys
  refine ⟨edges, (Pile.ids_lookupAll hs.edges.own_ids hedges).symm, fun edge ↦ ?_⟩
  rw [Pile.mem_lookupAll hs.edges.own_ids hedges, and_comm]
  refine and_congr_right fun hget ↦ ?_
  rw [show Observable.id edge = edge.id from rfl, hout]
  constructor
  · rintro ⟨t, hj⟩
    exact (hj.unique ⟨edge, hget, rfl, rfl⟩).1.symm
  · rintro rfl
    exact ⟨edge.tail, edge, hget, rfl, rfl⟩

theorem Sound.searchNext_spec {admits : Edge U κ → Bool} {startId last current endId : U}
    {queue : List U} {s : Searching U} (hqueue : s.queue = current :: queue)
    (h : g.Searched admits startId endId s last []) :
    (∃ s', g.searchNext admits endId s = .ok (.inl s') ∧
      g.Searched admits startId endId s' current [] ∧
      s'.visited.length + queue.length = s.visited.length + s'.queue.length) ∨
    ∃ path, g.searchNext admits endId s = .ok (.inr (some path)) ∧
      g.Shortest admits startId endId path := by
  obtain ⟨depth, hlayers⟩ := h.layers
  rw [hqueue] at hlayers
  have hmem := h.nodes current (hlayers.queued current List.mem_cons_self)
  obtain ⟨a, ha⟩ := (OrderedDict.mem_iff_exists_get? _ _).1 hmem
  obtain ⟨edges, hkeys, hedges⟩ := hs.edges_out ha
  have hpop := hlayers.pop fun edge v hfollows ↦ (hedges edge).2 ⟨hfollows.1, hfollows.2.1⟩
  have hstart : g.Searched admits startId endId { s with queue } current edges :=
    ⟨⟨depth, hpop⟩, h.start_none, h.size, h.reached, h.nodup, h.nodes, h.unseen⟩
  have hround : g.searchNext admits endId s =
      (g.explore admits current endId (edges.map Edge.id) { s with queue }).map
        fun next ↦ next.elim .inl fun path ↦ .inr (some path) := by
    simp only [searchNext, hqueue, adjacency_ok.2 ha, statement_ok, bind, Except.bind, hkeys]
    cases g.explore admits current endId (edges.map Edge.id) { s with queue } with
    | error e => rfl
    | ok next => cases next <;> rfl
  rcases hs.explore_spec (fun edge hedge ↦ (hedges edge).1 hedge) hstart with
    ⟨s', hexplore, hsearched, hlength⟩ | ⟨path, hexplore, hshortest⟩
  · refine .inl ⟨s', ?_, hsearched, hlength⟩
    rw [hround, hexplore]
    rfl
  · refine .inr ⟨path, ?_, hshortest⟩
    rw [hround, hexplore]
    rfl

/-- The loop returns nothing when no walk leads to the end, and a shortest path otherwise. -/
theorem Sound.run_searchNext {startId endId : U} (hne : startId ≠ endId)
    (hstart : startId ∈ g.nodeEdgeMapping) (admits : Edge U κ → Bool) :
    ∃ result, run .unfinished (g.searchNext admits endId) (g.nodeEdgeMapping.keys.length + 1)
        ⟨[startId], OrderedDict.empty, [startId]⟩ = .ok result ∧
      ((result = none ∧ ∀ edges, ¬ Walk (g.Follows admits) startId edges endId) ∨
        ∃ path, result = some path ∧ g.Shortest admits startId endId path) := by
  have hfirst : g.Searched admits startId endId ⟨[startId], OrderedDict.empty, [startId]⟩ startId [] := by
    refine ⟨⟨_, layers_start startId⟩, rfl, rfl, fun n hn ↦ ?_, List.nodup_singleton _,
      List.forall_mem_singleton.2 hstart, ?_⟩
    · exact absurd hn (OrderedDict.not_mem_empty n)
    · rw [List.mem_singleton]
      exact hne.symm
  refine run_of_measure (I := fun s ↦ ∃ last, g.Searched admits startId endId s last [])
    (Q := fun r ↦ ∃ result, r = .ok result ∧
      ((result = none ∧ ∀ edges, ¬ Walk (g.Follows admits) startId edges endId) ∨
        ∃ path, result = some path ∧ g.Shortest admits startId endId path))
    (fun s ↦ g.nodeEdgeMapping.keys.length + s.queue.length - s.visited.length) ?_ ?_ ?_
    ⟨startId, hfirst⟩ ?_
  · rintro s e ⟨last, h⟩ hround
    cases hqueue : s.queue with
    | nil =>
      rw [searchNext, hqueue] at hround
      cases hround
    | cons current queue =>
      rcases hs.searchNext_spec hqueue h with ⟨s', hnext, -, -⟩ | ⟨path, hnext, -⟩
      · rw [hnext] at hround
        cases hround
      · rw [hnext] at hround
        cases hround
  · rintro s s' ⟨last, h⟩ hround
    cases hqueue : s.queue with
    | nil =>
      rw [searchNext, hqueue] at hround
      cases hround
    | cons current queue =>
      rcases hs.searchNext_spec hqueue h with ⟨s'', hnext, hsearched, hlength⟩ | ⟨path, hnext, -⟩
      · rw [hnext] at hround
        cases hround
        have hbound : s'.visited.length ≤ g.nodeEdgeMapping.keys.length :=
          (hsearched.nodup.subperm hsearched.nodes).length_le
        rw [List.length_cons]
        exact ⟨⟨current, hsearched⟩, by omega⟩
      · rw [hnext] at hround
        cases hround
  · rintro s result ⟨last, h⟩ hround
    cases hqueue : s.queue with
    | nil =>
      rw [searchNext, hqueue] at hround
      cases hround
      obtain ⟨depth, hlayers⟩ := h.layers
      rw [hqueue] at hlayers
      exact ⟨none, rfl, .inl ⟨rfl, fun edges hwalk ↦ h.unseen (hlayers.visited_of_walk hwalk)⟩⟩
    | cons current queue =>
      rcases hs.searchNext_spec hqueue h with ⟨s', hnext, -, -⟩ | ⟨path, hnext, hshortest⟩
      · rw [hnext] at hround
        cases hround
      · rw [hnext] at hround
        cases hround
        exact ⟨some path, rfl, .inr ⟨path, rfl, hshortest⟩⟩
  · rw [List.length_singleton, Nat.add_sub_cancel]
    exact Nat.lt_succ_self _

end Sound

/-- Between two nodes of a graph whose mapping repeats its edges, `find_path` returns `None` exactly
when no walk over edges that may be followed leads from the one to the other, and otherwise a walk
that no other is shorter than; from a node to itself that is the empty one. -/
theorem findPath_shortest (g : Graph U γ κ) (hs : g.Sound ∅ ∅ Set.univ)
    (start finish : Ref U (Node U γ)) (startId endId : U) (hstart : start.getId = .ok startId)
    (hfinish : finish.getId = .ok endId) (hstartMem : g.hasNode startId = true)
    (hendMem : g.hasNode endId = true) (checkConditions : Bool) (condition : Edge U κ → Bool) :
    ∃ result, g.findPath start finish checkConditions condition = .ok result ∧
      (result = none ↔
        ∀ edges, ¬ Walk (g.Follows (admits checkConditions condition)) startId edges endId) ∧
      (∀ path, result = some path →
        Walk (g.Follows (admits checkConditions condition)) startId path endId ∧
          ∀ edges, Walk (g.Follows (admits checkConditions condition)) startId edges endId →
            path.length ≤ edges.length) ∧
      (startId = endId → result = some []) := by
  have hread : g.findPath start finish checkConditions condition =
      if startId = endId then .ok (some [])
      else run .unfinished (g.searchNext (admits checkConditions condition) endId)
        (g.nodeEdgeMapping.keys.length + 1) ⟨[startId], OrderedDict.empty, [startId]⟩ := by
    have hfirst : ensure.{u} (g.hasNode startId) .relationError = .ok ⟨⟩ := ensure_eq_ok.2 hstartMem
    have hlast : ensure.{u} (g.hasNode endId) .relationError = .ok ⟨⟩ := ensure_eq_ok.2 hendMem
    simp only [findPath, hstart, hfinish, hfirst, hlast, statement_ok, bind, Except.bind]
    rfl
  rw [hread]
  by_cases hsame : startId = endId
  · rw [if_pos hsame]
    refine ⟨some [], rfl, ?_, fun path hpath ↦ ?_, fun _ ↦ rfl⟩
    · exact iff_of_false (fun h ↦ (by cases h)) fun h ↦ h [] hsame
    · cases hpath
      exact ⟨hsame, fun _ _ ↦ Nat.zero_le _⟩
  · rw [if_neg hsame]
    have hkey : startId ∈ g.nodeEdgeMapping := (hs.keys _).2 ((hasNode_iff hs.nodes _).1 hstartMem)
    obtain ⟨result, hrun, hresult⟩ :=
      hs.run_searchNext hsame hkey (admits checkConditions condition)
    refine ⟨result, hrun, ?_, fun path hpath ↦ ?_, fun h ↦ absurd h hsame⟩
    · rcases hresult with ⟨rfl, hnone⟩ | ⟨path, rfl, hshortest⟩
      · exact iff_of_true rfl hnone
      · exact iff_of_false (fun h ↦ (by cases h)) fun h ↦ h path hshortest.1
    · rcases hresult with ⟨rfl, -⟩ | ⟨path', rfl, hshortest⟩
      · cases hpath
      · cases hpath
        exact hshortest

/-- A short way whose condition fails, and a long one. -/
def detourCalls : List (GraphCall ℕ Unit Unit) :=
  [.addNode ⟨0, ()⟩, .addNode ⟨1, ()⟩, .addNode ⟨2, ()⟩, .addEdge ⟨10, 0, 2, .empty⟩,
    .addEdge ⟨11, 0, 1, .empty⟩, .addEdge ⟨12, 1, 2, .empty⟩]

def detourGraph : Graph ℕ Unit Unit := (replay detourCalls (new 90 91)).getD (new 90 91)

theorem sound_detourGraph : detourGraph.Sound ∅ ∅ ∅ := by
  have hreplay : replay detourCalls (new 90 91) = some detourGraph := rfl
  exact sound_of_replay hreplay

theorem findPath_shortest_detour :
    ∃ path, detourGraph.findPath (.uuid 0) (.uuid 2) true (fun edge ↦ edge.id ≠ 10) = .ok (some path) ∧
      path.map Edge.id = [11, 12] ∧
      ∀ edges, Walk (detourGraph.Follows (admits true fun edge ↦ edge.id ≠ 10)) 0 edges 2 →
        2 ≤ edges.length := by
  obtain ⟨result, hfind, -, hsome, -⟩ := findPath_shortest detourGraph
    (sound_detourGraph.mono (Set.empty_subset _) (Set.empty_subset _) (Set.empty_subset _))
    (.uuid 0) (.uuid 2) 0 2 rfl rfl rfl rfl true fun edge ↦ edge.id ≠ 10
  have hpath : detourGraph.findPath (.uuid 0) (.uuid 2) true (fun edge ↦ edge.id ≠ 10) =
      .ok (some [⟨11, 0, 1, .empty⟩, ⟨12, 1, 2, .empty⟩]) := rfl
  rw [hpath, Except.ok.injEq] at hfind
  exact ⟨_, hpath, rfl, (hsome _ hfind.symm).2⟩

end Graph

end Lionagi.Protocols
