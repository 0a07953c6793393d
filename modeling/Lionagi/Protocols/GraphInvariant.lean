import Lionagi.Protocols.Graph
import Lionagi.Protocols.PileInvariant
import Lionagi.Library.Transition
import Mathlib.Data.Set.Basic

/-!
# Adjacency and caches of a graph

The mapping of a sound graph holds every edge at its head and at its tail and nothing else, and each
memo table agrees with the mapping. While a mutator works, the entries of one node may lag behind on
one side and the caches of the nodes it touches may be stale; soundness carries these as sets.
-/

universe u

set_option linter.unusedSectionVars false

namespace Lionagi.Protocols

namespace Graph

variable {U γ κ : Type u} [DecidableEq U]

/-! ## What the three structures say about an edge -/

/-- The tail recorded under an edge in the `out` dictionary of a node. -/
def outTail (g : Graph U γ κ) (node edge : U) : Option U :=
  (g.nodeEdgeMapping.get? node).bind fun a ↦ a.outEdges.get? edge

/-- The head recorded under an edge in the `in` dictionary of a node. -/
def inHead (g : Graph U γ κ) (node edge : U) : Option U :=
  (g.nodeEdgeMapping.get? node).bind fun a ↦ a.inEdges.get? edge

/-- The edge is in `internal_edges` with this head and this tail. -/
def Joins (g : Graph U γ κ) (edge head tail : U) : Prop :=
  ∃ e, g.internalEdges.collections.get? edge = some e ∧ e.head = head ∧ e.tail = tail

variable {g g' g₁ g₂ g₃ : Graph U γ κ} {e h n t u uid x y : U}

theorem Joins.unique {h' t' : U} (hj : g.Joins e h t) (hj' : g.Joins e h' t') : h = h' ∧ t = t' := by
  obtain ⟨edge, hedge, rfl, rfl⟩ := hj
  obtain ⟨edge', hedge', rfl, rfl⟩ := hj'
  rw [hedge, Option.some.injEq] at hedge'
  exact ⟨congrArg Edge.head hedge', congrArg Edge.tail hedge'⟩

theorem Joins.mem (hj : g.Joins e h t) : e ∈ g.internalEdges.collections := by
  obtain ⟨edge, hedge, -, -⟩ := hj
  exact OrderedDict.mem_of_get? hedge

/-- A cached tuple is the tuple read off the mapping. -/
def CachedAt (g : Graph U γ κ) (node : U) : Prop :=
  (∀ l, g.predecessorCache.get? node = some l → g.predecessors node = .ok l) ∧
    ∀ l, g.successorCache.get? node = some l → g.successors node = .ok l

/-- Soundness, except that the `in` dictionaries of the nodes in `I` and the `out` dictionaries of
those in `O` are left open, and so are the caches of those in `S`. -/
structure Sound (g : Graph U γ κ) (I O S : Set U) : Prop where
  nodes : g.internalNodes.Agrees
  edges : g.internalEdges.Agrees
  keys : ∀ n, n ∈ g.nodeEdgeMapping ↔ n ∈ g.internalNodes.collections
  outs : ∀ n, n ∉ O → ∀ e t, g.outTail n e = some t ↔ g.Joins e n t
  ins : ∀ n, n ∉ I → ∀ e h, g.inHead n e = some h ↔ g.Joins e h n
  cached : ∀ n, n ∉ S → g.CachedAt n

variable {I O S T : Set U}

theorem Sound.mono {I' O' S' : Set U} (h : g.Sound I O S) (hI : I ⊆ I') (hO : O ⊆ O') (hS : S ⊆ S') :
    g.Sound I' O' S' :=
  ⟨h.nodes, h.edges, h.keys, fun n hn ↦ h.outs n fun hmem ↦ hn (hO hmem),
    fun n hn ↦ h.ins n fun hmem ↦ hn (hI hmem), fun n hn ↦ h.cached n fun hmem ↦ hn (hS hmem)⟩

theorem mem_of_outTail (h : g.outTail n e = some t) : n ∈ g.nodeEdgeMapping := by
  obtain ⟨a, ha, -⟩ := Option.bind_eq_some_iff.1 h
  exact OrderedDict.mem_of_get? ha

theorem mem_of_inHead (hin : g.inHead n e = some h) : n ∈ g.nodeEdgeMapping := by
  obtain ⟨a, ha, -⟩ := Option.bind_eq_some_iff.1 hin
  exact OrderedDict.mem_of_get? ha

/-! ## Statements that change the mapping -/

/-- What statements on edges and on the dictionaries of the nodes in `T` leave alone. -/
structure Rewired (g g' : Graph U γ κ) (T : Set U) : Prop where
  nodes : g'.internalNodes = g.internalNodes
  keys : ∀ u, u ∈ g'.nodeEdgeMapping ↔ u ∈ g.nodeEdgeMapping
  others : ∀ u, u ∉ T → g'.nodeEdgeMapping.get? u = g.nodeEdgeMapping.get? u
  predecessorCache : ∀ u l, g'.predecessorCache.get? u = some l → g.predecessorCache.get? u = some l
  successorCache : ∀ u l, g'.successorCache.get? u = some l → g.successorCache.get? u = some l

theorem Rewired.trans {g'' : Graph U γ κ} {T' : Set U} (h : Rewired g g' T) (h' : Rewired g' g'' T') :
    Rewired g g'' (T ∪ T') where
  nodes := h'.nodes.trans h.nodes
  keys := fun u ↦ (h'.keys u).trans (h.keys u)
  others := fun u hu ↦
    (h'.others u fun hmem ↦ hu (Or.inr hmem)).trans (h.others u fun hmem ↦ hu (Or.inl hmem))
  predecessorCache := fun u l hl ↦ h.predecessorCache u l (h'.predecessorCache u l hl)
  successorCache := fun u l hl ↦ h.successorCache u l (h'.successorCache u l hl)

theorem Rewired.cachedAt (h : Rewired g g' T) (hu : u ∉ T) (hcached : g.CachedAt u) : g'.CachedAt u := by
  have hadjacency : g'.adjacency u = g.adjacency u := by
    rw [adjacency, adjacency, h.others u hu]
  refine ⟨fun l hl ↦ ?_, fun l hl ↦ ?_⟩
  · rw [predecessors, hadjacency, h.nodes]
    exact hcached.1 l (h.predecessorCache u l hl)
  · rw [successors, hadjacency, h.nodes]
    exact hcached.2 l (h.successorCache u l hl)

variable {a : Adjacency U}

theorem adjacency_ok : g.adjacency u = .ok a ↔ g.nodeEdgeMapping.get? u = some a := by
  unfold adjacency
  cases g.nodeEdgeMapping.get? u <;> simp

theorem rewired_setAdjacency (hn : n ∈ g.nodeEdgeMapping) (a : Adjacency U) : Rewired g (g.setAdjacency n a) {n} := by
  refine ⟨rfl, fun u ↦ ?_, fun u hu ↦ ?_, fun _ _ ↦ id, fun _ _ ↦ id⟩
  · change u ∈ g.nodeEdgeMapping.set n a ↔ _
    rw [OrderedDict.mem_set]
    exact ⟨fun h ↦ h.elim (fun heq ↦ heq ▸ hn) id, Or.inr⟩
  · exact OrderedDict.get?_set_of_ne _ hu a

theorem outTail_setAdjacency (g : Graph U γ κ) (n : U) (a : Adjacency U) (u e : U) :
    (g.setAdjacency n a).outTail u e = if u = n then a.outEdges.get? e else g.outTail u e := by
  change ((g.nodeEdgeMapping.set n a).get? u).bind _ = _
  rw [OrderedDict.get?_set]
  split <;> rfl

theorem inHead_setAdjacency (g : Graph U γ κ) (n : U) (a : Adjacency U) (u e : U) :
    (g.setAdjacency n a).inHead u e = if u = n then a.inEdges.get? e else g.inHead u e := by
  change ((g.nodeEdgeMapping.set n a).get? u).bind _ = _
  rw [OrderedDict.get?_set]
  split <;> rfl

/-- One side of a node's entry is changed at one edge, the other side is as it was. -/
structure Patched (g g' : Graph U γ κ) (n : U) : Prop where
  rewired : Rewired g g' {n}
  edges : g'.internalEdges = g.internalEdges

theorem outTail_of_get? (ha : g.nodeEdgeMapping.get? n = some a) (e : U) : g.outTail n e = a.outEdges.get? e := by
  rw [outTail, ha]
  rfl

theorem inHead_of_get? (ha : g.nodeEdgeMapping.get? n = some a) (e : U) : g.inHead n e = a.inEdges.get? e := by
  rw [inHead, ha]
  rfl

variable {d : OrderedDict U U}

/-- A statement that rewrites the `out` dictionary of a node. -/
theorem patched_out (ha : g.nodeEdgeMapping.get? n = some a) {t : Option U}
    (hd : ∀ e', d.get? e' = if e' = e then t else a.outEdges.get? e') :
    Patched g (g.setAdjacency n { a with outEdges := d }) n ∧
      (∀ u e', (g.setAdjacency n { a with outEdges := d }).outTail u e' =
        if u = n ∧ e' = e then t else g.outTail u e') ∧
      ∀ u e', (g.setAdjacency n { a with outEdges := d }).inHead u e' = g.inHead u e' := by
  refine ⟨⟨rewired_setAdjacency (OrderedDict.mem_of_get? ha) _, rfl⟩, fun u e' ↦ ?_, fun u e' ↦ ?_⟩
  · rw [outTail_setAdjacency]
    by_cases hu : u = n
    · subst hu
      simp only [if_true, true_and, hd, outTail_of_get? ha]
    · simp only [hu, false_and, if_false]
  · rw [inHead_setAdjacency]
    split
    · next hu => rw [hu, inHead_of_get? ha]
    · rfl

/-- A statement that rewrites the `in` dictionary of a node. -/
theorem patched_in (ha : g.nodeEdgeMapping.get? n = some a) {h : Option U}
    (hd : ∀ e', d.get? e' = if e' = e then h else a.inEdges.get? e') :
    Patched g (g.setAdjacency n { a with inEdges := d }) n ∧
      (∀ u e', (g.setAdjacency n { a with inEdges := d }).inHead u e' =
        if u = n ∧ e' = e then h else g.inHead u e') ∧
      ∀ u e', (g.setAdjacency n { a with inEdges := d }).outTail u e' = g.outTail u e' := by
  refine ⟨⟨rewired_setAdjacency (OrderedDict.mem_of_get? ha) _, rfl⟩, fun u e' ↦ ?_, fun u e' ↦ ?_⟩
  · rw [inHead_setAdjacency]
    by_cases hu : u = n
    · subst hu
      simp only [if_true, true_and, hd, inHead_of_get? ha]
    · simp only [hu, false_and, if_false]
  · rw [outTail_setAdjacency]
    split
    · next hu => rw [hu, outTail_of_get? ha]
    · rfl

theorem setOut_ok (hok : g.setOut n e t = .ok g') :
    Patched g g' n ∧
      (∀ u e', g'.outTail u e' = if u = n ∧ e' = e then some t else g.outTail u e') ∧
      ∀ u e', g'.inHead u e' = g.inHead u e' := by
  obtain ⟨a, ha, hset⟩ := bind_eq_ok.1 hok
  cases hset
  exact patched_out (adjacency_ok.1 ha) fun e' ↦ OrderedDict.get?_set _ _ _ _

theorem setIn_ok (hok : g.setIn n e h = .ok g') :
    Patched g g' n ∧
      (∀ u e', g'.inHead u e' = if u = n ∧ e' = e then some h else g.inHead u e') ∧
      ∀ u e', g'.outTail u e' = g.outTail u e' := by
  obtain ⟨a, ha, hset⟩ := bind_eq_ok.1 hok
  cases hset
  exact patched_in (adjacency_ok.1 ha) fun e' ↦ OrderedDict.get?_set _ _ _ _

theorem popOut_ok (hok : g.popOut n e = .ok g') :
    Patched g g' n ∧
      (∀ u e', g'.outTail u e' = if u = n ∧ e' = e then none else g.outTail u e') ∧
      ∀ u e', g'.inHead u e' = g.inHead u e' := by
  obtain ⟨a, ha, hok⟩ := bind_eq_ok.1 hok
  obtain ⟨_, -, hpop⟩ := bind_eq_ok.1 hok
  cases hpop
  exact patched_out (adjacency_ok.1 ha) fun e' ↦ OrderedDict.get?_erase _ _ _

theorem popIn_ok (hok : g.popIn n e = .ok g') :
    Patched g g' n ∧
      (∀ u e', g'.inHead u e' = if u = n ∧ e' = e then none else g.inHead u e') ∧
      ∀ u e', g'.outTail u e' = g.outTail u e' := by
  obtain ⟨a, ha, hok⟩ := bind_eq_ok.1 hok
  obtain ⟨_, -, hpop⟩ := bind_eq_ok.1 hok
  cases hpop
  exact patched_in (adjacency_ok.1 ha) fun e' ↦ OrderedDict.get?_erase _ _ _

/-! ## Statements that change the caches and the piles -/

theorem rewired_invalidate (g : Graph U γ κ) (ids : List U) :
    Rewired g (g.invalidateAdjacency ids) ∅ := by
  refine ⟨rfl, fun _ ↦ Iff.rfl, fun _ _ ↦ rfl, fun u l hl ↦ ?_, fun u l hl ↦ ?_⟩
  · change (ids.foldl OrderedDict.erase g.predecessorCache).get? u = some l at hl
    rw [OrderedDict.get?_foldl_erase] at hl
    split at hl
    · cases hl
    · exact hl
  · change (ids.foldl OrderedDict.erase g.successorCache).get? u = some l at hl
    rw [OrderedDict.get?_foldl_erase] at hl
    split at hl
    · cases hl
    · exact hl

theorem cachedAt_invalidated (g : Graph U γ κ) {ids : List U} (hu : u ∈ ids) :
    (g.invalidateAdjacency ids).CachedAt u := by
  refine ⟨fun l hl ↦ ?_, fun l hl ↦ ?_⟩
  · change (ids.foldl OrderedDict.erase g.predecessorCache).get? u = some l at hl
    rw [OrderedDict.get?_foldl_erase, if_pos hu] at hl
    cases hl
  · change (ids.foldl OrderedDict.erase g.successorCache).get? u = some l at hl
    rw [OrderedDict.get?_foldl_erase, if_pos hu] at hl
    cases hl

/-- Invalidation closes the caches of the given nodes. -/
theorem Sound.invalidate (h : g.Sound I O S) (ids : List U) (S' : Set U) (hS : ∀ u, u ∈ S → u ∈ ids ∨ u ∈ S') :
    (g.invalidateAdjacency ids).Sound I O S' := by
  refine ⟨h.nodes, h.edges, h.keys, h.outs, h.ins, fun n hn ↦ ?_⟩
  by_cases hmem : n ∈ ids
  · exact cachedAt_invalidated g hmem
  · have hnS : n ∉ S := fun hin ↦ (hS n hin).elim hmem hn
    exact (rewired_invalidate g ids).cachedAt (Set.notMem_empty n) (h.cached n hnS)

variable {α : Type u}

theorem insertLast_ok [Observable α U Unit] {p p' : Pile U α Unit} {a : α} (h : p.Agrees)
    (hok : insertLast p a = .ok p') :
    Observable.id a ∉ p.collections ∧ p'.Agrees ∧
      p'.collections = p.collections.set (Observable.id a) a := by
  unfold insertLast at hok
  have hagrees := Pile.agrees_insert h p.len (.item a)
  cases hinsert : p.insert p.len (.item a) with
  | mk q result =>
    rw [hinsert] at hok hagrees
    cases result with
    | error e => cases hok
    | ok _ =>
      cases hok
      obtain ⟨hfresh, hcollections⟩ := Pile.insert_item_ok hinsert
      exact ⟨fun hmem ↦ hfresh ((h.mem_iff _).2 hmem), hagrees, hcollections⟩

theorem popOne_ok [Observable α U Unit] {p p' : Pile U α Unit} (hok : popOne p uid = .ok p') :
    p' = (p.popRef (.uuid uid) false).1 := by
  unfold popOne at hok
  split at hok
  · cases hok
  · next hpop =>
    cases hok
    rw [hpop]

theorem popOne_total [Observable α U Unit] {p : Pile U α Unit} (hmem : uid ∈ p.collections) :
    ∃ p', popOne p uid = .ok p' := by
  obtain ⟨a, ha⟩ := (OrderedDict.mem_iff_exists_get? _ _).1 hmem
  refine ⟨(p.popRef (.uuid uid) false).1, ?_⟩
  simp [popOne, Pile.popRef, Ref.validateOrder_uuid, Pile.popKeys, Pile.popEach, ha, Pile.wrapPopped]

theorem popEdge_total (hmem : e ∈ g.internalEdges.collections) : ∃ g', g.popEdge e = .ok g' := by
  obtain ⟨p, hp⟩ := popOne_total hmem
  exact ⟨_, bind_eq_ok.2 ⟨p, hp, rfl⟩⟩

theorem popOut_total (h : g.outTail n e = some t) : ∃ g', g.popOut n e = .ok g' := by
  obtain ⟨a, ha, he⟩ := Option.bind_eq_some_iff.1 h
  have hmem : e ∈ a.outEdges := OrderedDict.mem_of_get? he
  exact ⟨_, bind_eq_ok.2 ⟨a, adjacency_ok.2 ha, bind_eq_ok.2 ⟨⟨⟩, by simp [ensure, hmem], rfl⟩⟩⟩

theorem popIn_total (hin : g.inHead n e = some h) : ∃ g', g.popIn n e = .ok g' := by
  obtain ⟨a, ha, he⟩ := Option.bind_eq_some_iff.1 hin
  have hmem : e ∈ a.inEdges := OrderedDict.mem_of_get? he
  exact ⟨_, bind_eq_ok.2 ⟨a, adjacency_ok.2 ha, bind_eq_ok.2 ⟨⟨⟩, by simp [ensure, hmem], rfl⟩⟩⟩

theorem setOut_total (hn : n ∈ g.nodeEdgeMapping) (e t : U) : ∃ g', g.setOut n e t = .ok g' := by
  obtain ⟨a, ha⟩ := (OrderedDict.mem_iff_exists_get? _ _).1 hn
  exact ⟨_, bind_eq_ok.2 ⟨a, adjacency_ok.2 ha, rfl⟩⟩

theorem setIn_total (hn : n ∈ g.nodeEdgeMapping) (e h : U) : ∃ g', g.setIn n e h = .ok g' := by
  obtain ⟨a, ha⟩ := (OrderedDict.mem_iff_exists_get? _ _).1 hn
  exact ⟨_, bind_eq_ok.2 ⟨a, adjacency_ok.2 ha, rfl⟩⟩

theorem edge_total (hmem : e ∈ g.internalEdges.collections) : ∃ edge, g.edge e = .ok edge := by
  obtain ⟨edge, hedge⟩ := (OrderedDict.mem_iff_exists_get? _ _).1 hmem
  exact ⟨edge, by rw [Graph.edge, hedge]; rfl⟩

theorem modifyEdge_total (hmem : e ∈ g.internalEdges.collections) (change : Edge U κ → Edge U κ) :
    ∃ g', g.modifyEdge e change = .ok g' := by
  obtain ⟨edge, hedge⟩ := edge_total hmem
  exact ⟨_, bind_eq_ok.2 ⟨edge, hedge, rfl⟩⟩

theorem joins_congr (hedges : g'.internalEdges = g.internalEdges) (e h t : U) : g'.Joins e h t ↔ g.Joins e h t := by
  rw [Joins, Joins, hedges]

variable {edge : Edge U κ}

theorem joins_set {p : Pile U (Edge U κ) Unit} (hp : p.collections = g.internalEdges.collections.set edge.id edge)
    (e h t : U) :
    Joins { g with internalEdges := p } e h t ↔
      if e = edge.id then h = edge.head ∧ t = edge.tail else g.Joins e h t := by
  unfold Joins
  simp only [hp, OrderedDict.get?_set]
  split
  · constructor
    · rintro ⟨x, hx, rfl, rfl⟩
      cases hx
      exact ⟨rfl, rfl⟩
    · rintro ⟨rfl, rfl⟩
      exact ⟨edge, rfl, rfl, rfl⟩
  · rfl

theorem insertEdge_ok (h : g.internalEdges.Agrees) (hok : g.insertEdge edge = .ok g') :
    ∃ p : Pile U (Edge U κ) Unit, g' = { g with internalEdges := p } ∧ p.Agrees ∧
      edge.id ∉ g.internalEdges.collections ∧
      ∀ e head t, g'.Joins e head t ↔
        if e = edge.id then head = edge.head ∧ t = edge.tail else g.Joins e head t := by
  obtain ⟨p, hp, hset⟩ := bind_eq_ok.1 hok
  cases hset
  obtain ⟨hfresh, hagrees, hcollections⟩ := insertLast_ok h hp
  exact ⟨p, rfl, hagrees, hfresh, joins_set hcollections⟩

theorem popEdge_ok (h : g.internalEdges.Agrees) (hmem : e ∈ g.internalEdges.collections) (hok : g.popEdge e = .ok g') :
    ∃ p : Pile U (Edge U κ) Unit, g' = { g with internalEdges := p } ∧ p.Agrees ∧
      ∀ e' head t, g'.Joins e' head t ↔ e' ≠ e ∧ g.Joins e' head t := by
  obtain ⟨p, hp, hset⟩ := bind_eq_ok.1 hok
  cases hset
  cases popOne_ok hp
  refine ⟨_, rfl, Pile.agrees_popOne h ((h.mem_iff e).2 hmem), fun e' head t ↦ ?_⟩
  unfold Joins
  simp only [Pile.get?_popOne]
  split
  · next heq => simp [heq]
  · next hne => simp [hne]

/-- The graph's edge object gets a new head or tail. -/
theorem modifyEdge_ok {change : Edge U κ → Edge U κ} (h : g.internalEdges.Agrees) (hok : g.modifyEdge e change = .ok g')
    (hid : ∀ edge, (change edge).id = edge.id) :
    ∃ p : Pile U (Edge U κ) Unit, g' = { g with internalEdges := p } ∧ p.Agrees ∧
      ∃ edge, g.internalEdges.collections.get? e = some edge ∧
        ∀ e' head t, g'.Joins e' head t ↔ if e' = e then
          head = (change edge).head ∧ t = (change edge).tail else g.Joins e' head t := by
  obtain ⟨edge, hedge, hset⟩ := bind_eq_ok.1 hok
  cases hset
  have hget : g.internalEdges.collections.get? e = some edge := by
    unfold Graph.edge at hedge
    cases hget : g.internalEdges.collections.get? e with
    | none => rw [hget] at hedge; cases hedge
    | some x => rw [hget] at hedge; cases hedge; rfl
  refine ⟨_, rfl, h.modify e hid, edge, hget, fun e' head t ↦ ?_⟩
  unfold Joins
  simp only [OrderedDict.get?_modify]
  split
  · next heq =>
    rw [heq, hget]
    constructor
    · rintro ⟨x, hx, rfl, rfl⟩
      cases hx
      exact ⟨rfl, rfl⟩
    · rintro ⟨rfl, rfl⟩
      exact ⟨change edge, rfl, rfl, rfl⟩
  · rfl

/-! ## One edge at a time -/

/-- An edge is recorded with a new head and a new tail. A previous head that differs is a node whose
`out` dictionary is open, a previous tail one whose `in` dictionary is. -/
theorem Sound.put (hs : g.Sound I O S) {h₁ t₁ : U} (hrewired : Rewired g g' T) (hedges : g'.internalEdges.Agrees)
    (hjoins : ∀ e' h t, g'.Joins e' h t ↔ if e' = e then h = h₁ ∧ t = t₁ else g.Joins e' h t)
    (hold : ∀ h t, g.Joins e h t → (h = h₁ ∨ h ∈ O) ∧ (t = t₁ ∨ t ∈ I))
    (hout : ∀ n, n ∉ O → ∀ e', g'.outTail n e' = if n = h₁ ∧ e' = e then some t₁ else g.outTail n e')
    (hin : ∀ n, n ∉ I → ∀ e', g'.inHead n e' = if n = t₁ ∧ e' = e then some h₁ else g.inHead n e') :
    g'.Sound I O (S ∪ T) where
  nodes := hrewired.nodes ▸ hs.nodes
  edges := hedges
  keys := fun n ↦ by rw [hrewired.keys, hrewired.nodes]; exact hs.keys n
  outs := by
    intro n hn e' t
    rw [hout n hn, hjoins]
    by_cases he : e' = e
    · subst he
      by_cases hhead : n = h₁
      · simp [hhead, eq_comm]
      · simp only [hhead, false_and, if_false, if_true, iff_false]
        rw [hs.outs n hn]
        exact fun hj ↦ (hold n t hj).1.elim hhead hn
    · simp only [he, and_false, if_false]
      exact hs.outs n hn e' t
  ins := by
    intro n hn e' h
    rw [hin n hn, hjoins]
    by_cases he : e' = e
    · subst he
      by_cases htail : n = t₁
      · simp [htail, eq_comm]
      · simp only [htail, false_and, and_false, if_false, if_true, iff_false]
        rw [hs.ins n hn]
        exact fun hj ↦ (hold h n hj).2.elim htail hn
    · simp only [he, and_false, if_false]
      exact hs.ins n hn e' h
  cached := fun n hn ↦ hrewired.cachedAt (fun hmem ↦ hn (Or.inr hmem))
    (hs.cached n fun hmem ↦ hn (Or.inl hmem))

/-- An edge is taken off its head and its tail. -/
theorem Sound.drop (hs : g.Sound I O S) {h₁ t₁ : U} (hjoin : g.Joins e h₁ t₁) (hrewired : Rewired g g' T)
    (hedges : g'.internalEdges.Agrees) (hjoins : ∀ e' h t, g'.Joins e' h t ↔ e' ≠ e ∧ g.Joins e' h t)
    (hout : ∀ n, n ∉ O → ∀ e', g'.outTail n e' = if n = h₁ ∧ e' = e then none else g.outTail n e')
    (hin : ∀ n, n ∉ I → ∀ e', g'.inHead n e' = if n = t₁ ∧ e' = e then none else g.inHead n e') :
    g'.Sound I O (S ∪ T) where
  nodes := hrewired.nodes ▸ hs.nodes
  edges := hedges
  keys := fun n ↦ by rw [hrewired.keys, hrewired.nodes]; exact hs.keys n
  outs := by
    intro n hn e' t
    rw [hout n hn, hjoins]
    by_cases he : e' = e
    · subst he
      by_cases hhead : n = h₁
      · simp [hhead]
      · simp only [hhead, false_and, if_false, ne_eq, not_true_eq_false, iff_false]
        rw [hs.outs n hn]
        exact fun hj ↦ hhead (hj.unique hjoin).1
    · simp only [he, and_false, if_false, ne_eq, not_false_eq_true, true_and]
      exact hs.outs n hn e' t
  ins := by
    intro n hn e' h
    rw [hin n hn, hjoins]
    by_cases he : e' = e
    · subst he
      by_cases htail : n = t₁
      · simp [htail]
      · simp only [htail, false_and, if_false, ne_eq, not_true_eq_false, iff_false]
        rw [hs.ins n hn]
        exact fun hj ↦ htail (hj.unique hjoin).2
    · simp only [he, and_false, if_false, ne_eq, not_false_eq_true, true_and]
      exact hs.ins n hn e' h
  cached := fun n hn ↦ hrewired.cachedAt (fun hmem ↦ hn (Or.inr hmem))
    (hs.cached n fun hmem ↦ hn (Or.inl hmem))

theorem rewired_edges (g : Graph U γ κ) (p : Pile U (Edge U κ) Unit) :
    Rewired g { g with internalEdges := p } ∅ :=
  ⟨rfl, fun _ ↦ Iff.rfl, fun _ _ ↦ rfl, fun _ _ ↦ id, fun _ _ ↦ id⟩

/-- The three statements that enter an edge. -/
theorem Sound.link (hs : g.Sound ∅ ∅ S) (hinsert : g.insertEdge edge = .ok g₁)
    (hout : g₁.setOut edge.head edge.id edge.tail = .ok g₂) (hin : g₂.setIn edge.tail edge.id edge.head = .ok g₃) :
    g₃.Sound ∅ ∅ (S ∪ {edge.head, edge.tail}) ∧ edge.id ∉ g.internalEdges.collections ∧
      ∀ e h t, g₃.Joins e h t ↔
        if e = edge.id then h = edge.head ∧ t = edge.tail else g.Joins e h t := by
  obtain ⟨p, rfl, hagrees, hfresh, hjoins⟩ := insertEdge_ok hs.edges hinsert
  obtain ⟨hpatched₂, hout₂, hin₂⟩ := setOut_ok hout
  obtain ⟨hpatched₃, hin₃, hout₃⟩ := setIn_ok hin
  have hedges : g₃.internalEdges = p := hpatched₃.edges.trans hpatched₂.edges
  have hjoins₃ : ∀ e h t, g₃.Joins e h t ↔
      if e = edge.id then h = edge.head ∧ t = edge.tail else g.Joins e h t := fun e h t ↦
    (joins_congr (g := { g with internalEdges := p }) hedges e h t).trans (hjoins e h t)
  have hrewired := ((rewired_edges g p).trans hpatched₂.rewired).trans hpatched₃.rewired
  refine ⟨?_, hfresh, hjoins₃⟩
  refine (hs.put hrewired (hedges ▸ hagrees) hjoins₃ (fun h t hj ↦ absurd hj.mem hfresh)
    (fun n _ e' ↦ ?_) fun n _ e' ↦ ?_).mono (Set.Subset.refl _) (Set.Subset.refl _) ?_
  · rw [hout₃, hout₂]
    rfl
  · rw [hin₃, hin₂]
    rfl
  · intro u hu
    simp only [Set.mem_union, Set.mem_insert_iff, Set.mem_singleton_iff, Set.mem_empty_iff_false,
      false_or] at hu ⊢
    exact hu

/-- The three statements that take an edge out, in the order of `remove_edge`. -/
theorem Sound.unlink (hs : g.Sound ∅ ∅ S) (hjoin : g.Joins e h t) (hout : g.popOut h e = .ok g₁)
    (hin : g₁.popIn t e = .ok g₂) (hpop : (g₂.invalidateAdjacency [h, t]).popEdge e = .ok g₃) : g₃.Sound ∅ ∅ S := by
  obtain ⟨hpatched₁, hout₁, hin₁⟩ := popOut_ok hout
  obtain ⟨hpatched₂, hin₂, hout₂⟩ := popIn_ok hin
  have hedges : (g₂.invalidateAdjacency [h, t]).internalEdges = g.internalEdges :=
    hpatched₂.edges.trans hpatched₁.edges
  obtain ⟨p, rfl, hagrees, hjoins⟩ := popEdge_ok (hedges ▸ hs.edges) (hedges ▸ hjoin.mem) hpop
  have hrewired := (hpatched₁.rewired.trans hpatched₂.rewired).trans
    (rewired_edges g₂ p)
  have hsound : Sound { g₂ with internalEdges := p } ∅ ∅ (S ∪ ({h} ∪ {t} ∪ ∅)) := by
    refine hs.drop hjoin hrewired hagrees (fun e' h' t' ↦ ?_) (fun n _ e' ↦ ?_) fun n _ e' ↦ ?_
    · exact (hjoins e' h' t').trans (and_congr_right fun _ ↦ joins_congr hedges e' h' t')
    · exact (hout₂ n e').trans (hout₁ n e')
    · exact (hin₂ n e').trans (by rw [hin₁])
  refine hsound.invalidate [h, t] _ fun u hu ↦ ?_
  rcases hu with hu | hu
  · exact Or.inr hu
  · left
    simp only [Set.mem_union, Set.mem_singleton_iff, Set.mem_empty_iff_false, or_false] at hu
    simpa using hu

/-! ## Taking a node out -/

variable {rest : List (U × U)}

theorem mem_rest_iff (hnodup : (((e, h) :: rest).map Prod.fst).Nodup) (e' h' : U) :
    e' ≠ e ∧ (e', h') ∈ (e, h) :: rest ↔ (e', h') ∈ rest := by
  rw [List.map_cons, List.nodup_cons] at hnodup
  rw [List.mem_cons, Prod.mk.injEq]
  constructor
  · rintro ⟨hne, heq | hmem⟩
    · exact absurd heq.1 hne
    · exact hmem
  · intro hmem
    refine ⟨?_, Or.inr hmem⟩
    rintro rfl
    exact hnodup.1 (List.mem_map.2 ⟨(e', h'), hmem, rfl⟩)

/-- One edge that comes in is taken out. -/
theorem removeIn_step (hs : g.Sound {x} ∅ S) (hnodup : (((e, h) :: rest).map Prod.fst).Nodup)
    (hrest : ∀ e' h', g.Joins e' h' x ↔ (e', h') ∈ (e, h) :: rest) (hout : g.popOut h e = .ok g₁)
    (hpop : g₁.popEdge e = .ok g₂) : (g₂.invalidateAdjacency [h]).Sound {x} ∅ S ∧
      (∀ e' h', (g₂.invalidateAdjacency [h]).Joins e' h' x ↔ (e', h') ∈ rest) ∧
      ∀ u, u ∈ (g₂.invalidateAdjacency [h]).nodeEdgeMapping ↔ u ∈ g.nodeEdgeMapping := by
  have hjoin : g.Joins e h x := (hrest e h).2 List.mem_cons_self
  obtain ⟨hpatched, hout₁, hin₁⟩ := popOut_ok hout
  obtain ⟨p, rfl, hagrees, hjoins⟩ :=
    popEdge_ok (hpatched.edges ▸ hs.edges) (hpatched.edges ▸ hjoin.mem) hpop
  have hjoins' : ∀ e' h' t', Joins { g₁ with internalEdges := p } e' h' t' ↔
      e' ≠ e ∧ g.Joins e' h' t' := fun e' h' t' ↦
    (hjoins e' h' t').trans (and_congr_right fun _ ↦ joins_congr hpatched.edges e' h' t')
  have hsound : Sound { g₁ with internalEdges := p } {x} ∅ (S ∪ ({h} ∪ ∅)) := by
    refine hs.drop hjoin (hpatched.rewired.trans (rewired_edges g₁ p)) hagrees hjoins'
      (fun n _ e' ↦ hout₁ n e') fun n hn e' ↦ ?_
    rw [if_neg fun heq ↦ hn heq.1]
    exact hin₁ n e'
  refine ⟨hsound.invalidate [h] S fun u hu ↦ by simpa [or_comm] using hu, fun e' h' ↦ ?_,
    hpatched.rewired.keys⟩
  exact (hjoins' e' h' x).trans
    ((and_congr_right fun _ ↦ hrest e' h').trans (mem_rest_iff hnodup e' h'))

/-- The loop ends, and then no edge comes in. Only the `in` dictionary of the node itself lags behind. -/
theorem removeInEdges_total (hs : g.Sound {x} ∅ S) (hnodup : (rest.map Prod.fst).Nodup)
    (hrest : ∀ e h, g.Joins e h x ↔ (e, h) ∈ rest) :
    ∃ g', g.removeInEdges rest = .ok g' ∧ g'.Sound {x} ∅ S ∧ (∀ e h, ¬ g'.Joins e h x) ∧
      ∀ u, u ∈ g'.nodeEdgeMapping ↔ u ∈ g.nodeEdgeMapping := by
  induction rest generalizing g with
  | nil => exact ⟨g, rfl, hs, fun e h hj ↦ List.not_mem_nil ((hrest e h).1 hj), fun _ ↦ Iff.rfl⟩
  | cons entry rest ih =>
    obtain ⟨e, h⟩ := entry
    have hjoin : g.Joins e h x := (hrest e h).2 List.mem_cons_self
    obtain ⟨g₁, hout⟩ := popOut_total ((hs.outs h (Set.notMem_empty h) e x).2 hjoin)
    have hmem : e ∈ g₁.internalEdges.collections := (popOut_ok hout).1.edges ▸ hjoin.mem
    obtain ⟨g₂, hpop⟩ := popEdge_total hmem
    obtain ⟨hs₂, hrest₂, hkeys₂⟩ := removeIn_step hs hnodup hrest hout hpop
    obtain ⟨g', hok, hs', hnone, hkeys⟩ := ih hs₂ (List.nodup_cons.1 hnodup).2 hrest₂
    exact ⟨g', bind_eq_ok.2 ⟨g₁, hout, bind_eq_ok.2 ⟨g₂, hpop, hok⟩⟩, hs', hnone,
      fun u ↦ (hkeys u).trans (hkeys₂ u)⟩

/-- One edge that goes out is taken out. -/
theorem removeOut_step (hs : g.Sound {x} {x} S) (hnodup : (((e, t) :: rest).map Prod.fst).Nodup)
    (hrest : ∀ e' t', g.Joins e' x t' ↔ (e', t') ∈ (e, t) :: rest) (hnone : ∀ e' h, ¬ g.Joins e' h x)
    (hin : g.popIn t e = .ok g₁) (hpop : g₁.popEdge e = .ok g₂) :
    (g₂.invalidateAdjacency [t]).Sound {x} {x} S ∧
      (∀ e' t', (g₂.invalidateAdjacency [t]).Joins e' x t' ↔ (e', t') ∈ rest) ∧
      (∀ e' h, ¬ (g₂.invalidateAdjacency [t]).Joins e' h x) ∧
      ∀ u, u ∈ (g₂.invalidateAdjacency [t]).nodeEdgeMapping ↔ u ∈ g.nodeEdgeMapping := by
  have hjoin : g.Joins e x t := (hrest e t).2 List.mem_cons_self
  obtain ⟨hpatched, hin₁, hout₁⟩ := popIn_ok hin
  obtain ⟨p, rfl, hagrees, hjoins⟩ :=
    popEdge_ok (hpatched.edges ▸ hs.edges) (hpatched.edges ▸ hjoin.mem) hpop
  have hjoins' : ∀ e' h' t', Joins { g₁ with internalEdges := p } e' h' t' ↔
      e' ≠ e ∧ g.Joins e' h' t' := fun e' h' t' ↦
    (hjoins e' h' t').trans (and_congr_right fun _ ↦ joins_congr hpatched.edges e' h' t')
  have hsound : Sound { g₁ with internalEdges := p } {x} {x} (S ∪ ({t} ∪ ∅)) := by
    refine hs.drop hjoin (hpatched.rewired.trans (rewired_edges g₁ p)) hagrees hjoins'
      (fun n hn e' ↦ ?_) fun n _ e' ↦ hin₁ n e'
    rw [if_neg fun heq ↦ hn heq.1]
    exact hout₁ n e'
  refine ⟨hsound.invalidate [t] S fun u hu ↦ by simpa [or_comm] using hu, fun e' t' ↦ ?_,
    fun e' h' hj ↦ ?_, hpatched.rewired.keys⟩
  · exact (hjoins' e' x t').trans
      ((and_congr_right fun _ ↦ hrest e' t').trans (mem_rest_iff hnodup e' t'))
  · exact hnone e' h' ((hjoins' e' h' x).1 hj).2

/-- The loop ends, and then no edge goes out either. -/
theorem removeOutEdges_total (hs : g.Sound {x} {x} S) (hnodup : (rest.map Prod.fst).Nodup)
    (hrest : ∀ e t, g.Joins e x t ↔ (e, t) ∈ rest) (hnone : ∀ e h, ¬ g.Joins e h x) :
    ∃ g', g.removeOutEdges rest = .ok g' ∧
      g'.Sound {x} {x} S ∧ (∀ e h, ¬ g'.Joins e h x) ∧ (∀ e t, ¬ g'.Joins e x t) ∧
      ∀ u, u ∈ g'.nodeEdgeMapping ↔ u ∈ g.nodeEdgeMapping := by
  induction rest generalizing g with
  | nil =>
    exact ⟨g, rfl, hs, hnone, fun e t hj ↦ List.not_mem_nil ((hrest e t).1 hj), fun _ ↦ Iff.rfl⟩
  | cons entry rest ih =>
    obtain ⟨e, t⟩ := entry
    have hjoin : g.Joins e x t := (hrest e t).2 List.mem_cons_self
    have htail : t ≠ x := fun heq ↦ hnone e x (heq ▸ hjoin)
    obtain ⟨g₁, hin⟩ := popIn_total ((hs.ins t htail e x).2 hjoin)
    have hmem : e ∈ g₁.internalEdges.collections := (popIn_ok hin).1.edges ▸ hjoin.mem
    obtain ⟨g₂, hpop⟩ := popEdge_total hmem
    obtain ⟨hs₂, hrest₂, hnone₂, hkeys₂⟩ := removeOut_step hs hnodup hrest hnone hin hpop
    obtain ⟨g', hok, hs', hnoIn, hnoOut, hkeys⟩ := ih hs₂ (List.nodup_cons.1 hnodup).2 hrest₂ hnone₂
    exact ⟨g', bind_eq_ok.2 ⟨g₁, hin, bind_eq_ok.2 ⟨g₂, hpop, hok⟩⟩, hs', hnoIn, hnoOut,
      fun u ↦ (hkeys u).trans (hkeys₂ u)⟩

/-- A cached tuple stays right when the node pile changes elsewhere than at the neighbours. -/
theorem CachedAt.of_nodes (h : g.CachedAt u) (hmapping : g'.nodeEdgeMapping.get? u = g.nodeEdgeMapping.get? u)
    (hpredecessors : g'.predecessorCache = g.predecessorCache) (hsuccessors : g'.successorCache = g.successorCache)
    (hin : ∀ e n, g.inHead u e = some n → g'.internalNodes.collections.get? n = g.internalNodes.collections.get? n)
    (hout : ∀ e n, g.outTail u e = some n → g'.internalNodes.collections.get? n = g.internalNodes.collections.get? n) :
    g'.CachedAt u := by
  have hadjacency : g'.adjacency u = g.adjacency u := by
    rw [adjacency, adjacency, hmapping]
  refine ⟨fun l hl ↦ ?_, fun l hl ↦ ?_⟩
  · have hcached := h.1 l (hpredecessors ▸ hl)
    rw [predecessors] at hcached ⊢
    obtain ⟨a, ha, hlookup⟩ := bind_eq_ok.1 hcached
    rw [hadjacency]
    refine bind_eq_ok.2 ⟨a, ha, (Pile.lookupAll_congr fun n hn ↦ ?_).trans hlookup⟩
    obtain ⟨e, he⟩ := (OrderedDict.mem_values_iff _ _).1 hn
    exact hin e n ((inHead_of_get? (adjacency_ok.1 ha) e).trans he)
  · have hcached := h.2 l (hsuccessors ▸ hl)
    rw [successors] at hcached ⊢
    obtain ⟨a, ha, hlookup⟩ := bind_eq_ok.1 hcached
    rw [hadjacency]
    refine bind_eq_ok.2 ⟨a, ha, (Pile.lookupAll_congr fun n hn ↦ ?_).trans hlookup⟩
    obtain ⟨e, he⟩ := (OrderedDict.mem_values_iff _ _).1 hn
    exact hout e n ((outTail_of_get? (adjacency_ok.1 ha) e).trans he)

theorem outTail_erase (g : Graph U γ κ) (p : Pile U (Node U γ) Unit) (x n e : U) :
    outTail { g with internalNodes := p, nodeEdgeMapping := g.nodeEdgeMapping.erase x } n e =
      if n = x then none else g.outTail n e := by
  change ((g.nodeEdgeMapping.erase x).get? n).bind _ = _
  rw [OrderedDict.get?_erase]
  split <;> rfl

theorem inHead_erase (g : Graph U γ κ) (p : Pile U (Node U γ) Unit) (x n e : U) :
    inHead { g with internalNodes := p, nodeEdgeMapping := g.nodeEdgeMapping.erase x } n e =
      if n = x then none else g.inHead n e := by
  change ((g.nodeEdgeMapping.erase x).get? n).bind _ = _
  rw [OrderedDict.get?_erase]
  split <;> rfl

/-- A node without edges, for which nothing is cached, leaves the graph. -/
theorem Sound.popNode (hs : g.Sound {x} {x} ∅) (hin : ∀ e h, ¬ g.Joins e h x) (hout : ∀ e t, ¬ g.Joins e x t)
    (hpredecessors : g.predecessorCache.get? x = none) (hsuccessors : g.successorCache.get? x = none)
    (hok : g.popNode x = .ok g') : g'.Sound ∅ ∅ ∅ := by
  obtain ⟨_, hkey, hok⟩ := bind_eq_ok.1 hok
  obtain ⟨p, hp, hset⟩ := bind_eq_ok.1 hok
  cases hset
  cases popOne_ok hp
  have hmem : x ∈ g.internalNodes.order :=
    (hs.nodes.mem_iff x).2 ((hs.keys x).1 (by simpa using ensure_eq_ok.1 hkey))
  refine ⟨Pile.agrees_popOne hs.nodes hmem, hs.edges, fun n ↦ ?_, fun n _ e t ↦ ?_,
    fun n _ e h ↦ ?_, fun n _ ↦ ?_⟩
  · change n ∈ g.nodeEdgeMapping.erase x ↔ n ∈ (g.internalNodes.popRef (.uuid x) false).1.collections
    rw [OrderedDict.mem_erase, hs.keys, OrderedDict.mem_iff_isSome, OrderedDict.mem_iff_isSome,
      Pile.get?_popOne]
    split
    · next heq => simp [heq]
    · next hne => simp [hne]
  · rw [outTail_erase]
    change _ ↔ g.Joins e n t
    split
    · next heq => exact iff_of_false (by simp) (heq ▸ hout e t)
    · next hne => exact hs.outs n hne e t
  · rw [inHead_erase]
    change _ ↔ g.Joins e h n
    split
    · next heq => exact iff_of_false (by simp) (heq ▸ hin e h)
    · next hne => exact hs.ins n hne e h
  · by_cases hne : n = x
    · subst hne
      exact ⟨fun l hl ↦ absurd (hpredecessors.symm.trans hl) (by simp),
        fun l hl ↦ absurd (hsuccessors.symm.trans hl) (by simp)⟩
    · refine (hs.cached n (Set.notMem_empty n)).of_nodes (OrderedDict.get?_erase_of_ne _ hne) rfl rfl
        (fun e m hm ↦ ?_) fun e m hm ↦ ?_
      · have hm' : m ≠ x := fun heq ↦ hout e n (heq ▸ (hs.ins n hne e m).1 hm)
        exact (Pile.get?_popOne g.internalNodes x m).trans (if_neg hm')
      · have hm' : m ≠ x := fun heq ↦ hin e n (heq ▸ (hs.outs n hne e m).1 hm)
        exact (Pile.get?_popOne g.internalNodes x m).trans (if_neg hm')

/-- The end of `remove_node` and of `replace_node`. -/
theorem Sound.invalidate_popNode {ids : List U} (hs : g.Sound {x} {x} S) (hS : ∀ u, u ∈ S → u ∈ ids) (hx : x ∈ ids)
    (hin : ∀ e h, ¬ g.Joins e h x) (hout : ∀ e t, ¬ g.Joins e x t)
    (hok : (g.invalidateAdjacency ids).popNode x = .ok g') : g'.Sound ∅ ∅ ∅ := by
  refine (hs.invalidate _ _ fun u hu ↦ Or.inl (hS u hu)).popNode hin hout ?_ ?_ hok
  · exact (OrderedDict.get?_foldl_erase _ _ _).trans (if_pos hx)
  · exact (OrderedDict.get?_foldl_erase _ _ _).trans (if_pos hx)

/-! ## Bringing a node in -/

variable {node : Node U γ}

theorem sound_insertNode (hs : g.Sound ∅ ∅ S) (hok : g.insertNode node = .ok g') : g'.Sound ∅ ∅ S := by
  obtain ⟨p, hp, hset⟩ := bind_eq_ok.1 hok
  cases hset
  obtain ⟨hfresh, hagrees, hcollections⟩ := insertLast_ok hs.nodes hp
  have hkey : node.id ∉ g.nodeEdgeMapping := fun hmem ↦ hfresh ((hs.keys node.id).1 hmem)
  refine ⟨hagrees, hs.edges, fun n ↦ ?_, fun n _ e t ↦ ?_, fun n _ e h ↦ ?_, fun n hn ↦ ?_⟩
  · change n ∈ g.nodeEdgeMapping.set node.id Adjacency.empty ↔ n ∈ p.collections
    rw [hcollections, OrderedDict.mem_set, OrderedDict.mem_set, hs.keys]
    rfl
  · rw [outTail_setAdjacency]
    change _ ↔ g.Joins e n t
    split
    · next heq =>
      refine iff_of_false (by simp [Adjacency.empty]) fun hj ↦ hkey ?_
      exact heq ▸ mem_of_outTail ((hs.outs n (Set.notMem_empty n) e t).2 hj)
    · exact hs.outs n (Set.notMem_empty n) e t
  · rw [inHead_setAdjacency]
    change _ ↔ g.Joins e h n
    split
    · next heq =>
      refine iff_of_false (by simp [Adjacency.empty]) fun hj ↦ hkey ?_
      exact heq ▸ mem_of_inHead ((hs.ins n (Set.notMem_empty n) e h).2 hj)
    · exact hs.ins n (Set.notMem_empty n) e h
  · have hcached := hs.cached n hn
    by_cases hne : n = node.id
    · -- Nothing is cached for a node that is not in the graph.
      have hmissing : ∀ a, g.adjacency n ≠ .ok a := fun a ha ↦
        hkey (hne ▸ OrderedDict.mem_of_get? (adjacency_ok.1 ha))
      refine ⟨fun l hl ↦ ?_, fun l hl ↦ ?_⟩
      · obtain ⟨a, ha, -⟩ := bind_eq_ok.1 (hcached.1 l hl)
        exact absurd ha (hmissing a)
      · obtain ⟨a, ha, -⟩ := bind_eq_ok.1 (hcached.2 l hl)
        exact absurd ha (hmissing a)
    · have hkept : ∀ m, m ∈ g.nodeEdgeMapping →
          p.collections.get? m = g.internalNodes.collections.get? m := by
        intro m hm
        rw [hcollections]
        exact OrderedDict.get?_set_of_ne _ (fun heq : m = node.id ↦ hkey (heq ▸ hm)) _
      refine hcached.of_nodes (OrderedDict.get?_set_of_ne _ hne _) rfl rfl (fun e m hm ↦ hkept m ?_)
        fun e m hm ↦ hkept m ?_
      · have hj := (hs.ins n (Set.notMem_empty n) e m).1 hm
        exact mem_of_outTail ((hs.outs m (Set.notMem_empty m) e n).2 hj)
      · have hj := (hs.outs n (Set.notMem_empty n) e m).1 hm
        exact mem_of_inHead ((hs.ins m (Set.notMem_empty m) e n).2 hj)

theorem mem_nodeEdgeMapping_insertNode (hok : g.insertNode node = .ok g') : node.id ∈ g'.nodeEdgeMapping := by
  obtain ⟨p, -, hset⟩ := bind_eq_ok.1 hok
  cases hset
  exact (OrderedDict.mem_set _ _ _ _).2 (Or.inl rfl)

/-! ## Redirecting and splicing -/

/-- One edge that comes in is redirected. -/
theorem redirectIn_step (hne : x ≠ y) (hy : y ∈ S) (hs : g.Sound {x} ∅ S)
    (hnodup : (((e, h) :: rest).map Prod.fst).Nodup) (hrest : ∀ e' h', g.Joins e' h' x ↔ (e', h') ∈ (e, h) :: rest)
    (hmodify : (g.modifyEdge e fun edge ↦ { edge with tail := y }) = .ok g₁) (hin : g₁.setIn y e h = .ok g₂)
    (hout : g₂.setOut h e y = .ok g₃) :
    (g₃.invalidateAdjacency [h]).Sound {x} ∅ S ∧
      (∀ e' h', (g₃.invalidateAdjacency [h]).Joins e' h' x ↔ (e', h') ∈ rest) ∧
      ∀ u, u ∈ (g₃.invalidateAdjacency [h]).nodeEdgeMapping ↔ u ∈ g.nodeEdgeMapping := by
  have hjoin : g.Joins e h x := (hrest e h).2 List.mem_cons_self
  obtain ⟨p, rfl, hagrees, edge, hedge, hjoins⟩ := modifyEdge_ok hs.edges hmodify (fun _ ↦ rfl)
  obtain ⟨hpatched₂, hin₂, hout₂⟩ := setIn_ok hin
  obtain ⟨hpatched₃, hout₃, hin₃⟩ := setOut_ok hout
  have hedges : g₃.internalEdges = p := hpatched₃.edges.trans hpatched₂.edges
  have hhead : edge.head = h := (Joins.unique ⟨edge, hedge, rfl, rfl⟩ hjoin).1
  have hjoins' : ∀ e' h' t', g₃.Joins e' h' t' ↔
      if e' = e then h' = h ∧ t' = y else g.Joins e' h' t' := fun e' h' t' ↦
    (joins_congr (g := { g with internalEdges := p }) hedges e' h' t').trans (hhead ▸ hjoins e' h' t')
  have hrewired := ((rewired_edges g p).trans hpatched₂.rewired).trans hpatched₃.rewired
  have hsound : g₃.Sound {x} ∅ (S ∪ (∅ ∪ {y} ∪ {h})) := by
    refine hs.put hrewired (hedges ▸ hagrees) hjoins' (fun h' t' hj ↦ ?_) (fun n _ e' ↦ ?_)
      fun n _ e' ↦ ?_
    · obtain ⟨hh, ht⟩ := hj.unique hjoin
      exact ⟨Or.inl hh, Or.inr ht⟩
    · rw [hout₃, hout₂]
      rfl
    · rw [hin₃, hin₂]
      rfl
  refine ⟨hsound.invalidate [h] S fun u hu ↦ ?_, fun e' h' ↦ ?_, hrewired.keys⟩
  · simp only [Set.mem_union, Set.mem_singleton_iff, Set.mem_empty_iff_false, false_or] at hu
    rcases hu with hu | rfl | rfl
    · exact Or.inr hu
    · exact Or.inr hy
    · exact Or.inl List.mem_cons_self
  · rw [← mem_rest_iff hnodup, ← hrest]
    refine (hjoins' e' h' x).trans ?_
    split
    · next heq => simp [heq, hne]
    · next hne' => simp [hne']

/-- The loop ends, and then the new node has the incoming edges of the old one. -/
theorem redirectInEdges_total (hne : x ≠ y) (hy : y ∈ S) (hs : g.Sound {x} ∅ S) (hkey : y ∈ g.nodeEdgeMapping)
    (hnodup : (rest.map Prod.fst).Nodup) (hrest : ∀ e h, g.Joins e h x ↔ (e, h) ∈ rest) :
    ∃ g', g.redirectInEdges y rest = .ok g' ∧ g'.Sound {x} ∅ S ∧ (∀ e h, ¬ g'.Joins e h x) ∧
      ∀ u, u ∈ g'.nodeEdgeMapping ↔ u ∈ g.nodeEdgeMapping := by
  induction rest generalizing g with
  | nil => exact ⟨g, rfl, hs, fun e h hj ↦ List.not_mem_nil ((hrest e h).1 hj), fun _ ↦ Iff.rfl⟩
  | cons entry rest ih =>
    obtain ⟨e, h⟩ := entry
    have hjoin : g.Joins e h x := (hrest e h).2 List.mem_cons_self
    have hhead : h ∈ g.nodeEdgeMapping :=
      mem_of_outTail ((hs.outs h (Set.notMem_empty h) e x).2 hjoin)
    obtain ⟨g₁, hmodify⟩ := modifyEdge_total hjoin.mem fun edge ↦ { edge with tail := y }
    obtain ⟨p, rfl, -⟩ := modifyEdge_ok hs.edges hmodify (fun _ ↦ rfl)
    obtain ⟨g₂, hin⟩ := setIn_total (g := { g with internalEdges := p }) hkey e h
    have hkeys₂ := (setIn_ok hin).1.rewired.keys h
    obtain ⟨g₃, hout⟩ := setOut_total (hkeys₂.2 hhead) e y
    obtain ⟨hs₃, hrest₃, hkeys₃⟩ := redirectIn_step hne hy hs hnodup hrest hmodify hin hout
    obtain ⟨g', hok, hs', hnone, hkeys'⟩ :=
      ih hs₃ ((hkeys₃ y).2 hkey) (List.nodup_cons.1 hnodup).2 hrest₃
    refine ⟨g', ?_, hs', hnone, fun u ↦ (hkeys' u).trans (hkeys₃ u)⟩
    exact bind_eq_ok.2 ⟨_, hmodify, bind_eq_ok.2 ⟨g₂, hin, bind_eq_ok.2 ⟨g₃, hout, hok⟩⟩⟩

/-- One edge that goes out is redirected. -/
theorem redirectOut_step (hne : x ≠ y) (hy : y ∈ S) (hs : g.Sound {x} {x} S)
    (hnodup : (((e, t) :: rest).map Prod.fst).Nodup) (hrest : ∀ e' t', g.Joins e' x t' ↔ (e', t') ∈ (e, t) :: rest)
    (hnone : ∀ e' h, ¬ g.Joins e' h x) (hmodify : (g.modifyEdge e fun edge ↦ { edge with head := y }) = .ok g₁)
    (hout : g₁.setOut y e t = .ok g₂) (hin : g₂.setIn t e y = .ok g₃) :
    (g₃.invalidateAdjacency [t]).Sound {x} {x} S ∧
      (∀ e' t', (g₃.invalidateAdjacency [t]).Joins e' x t' ↔ (e', t') ∈ rest) ∧
      (∀ e' h, ¬ (g₃.invalidateAdjacency [t]).Joins e' h x) ∧
      ∀ u, u ∈ (g₃.invalidateAdjacency [t]).nodeEdgeMapping ↔ u ∈ g.nodeEdgeMapping := by
  have hjoin : g.Joins e x t := (hrest e t).2 List.mem_cons_self
  have htail : t ≠ x := fun heq ↦ hnone e x (heq ▸ hjoin)
  obtain ⟨p, rfl, hagrees, edge, hedge, hjoins⟩ := modifyEdge_ok hs.edges hmodify (fun _ ↦ rfl)
  obtain ⟨hpatched₂, hout₂, hin₂⟩ := setOut_ok hout
  obtain ⟨hpatched₃, hin₃, hout₃⟩ := setIn_ok hin
  have hedges : g₃.internalEdges = p := hpatched₃.edges.trans hpatched₂.edges
  have hedgeTail : edge.tail = t := (Joins.unique ⟨edge, hedge, rfl, rfl⟩ hjoin).2
  have hjoins' : ∀ e' h' t', g₃.Joins e' h' t' ↔
      if e' = e then h' = y ∧ t' = t else g.Joins e' h' t' := fun e' h' t' ↦
    (joins_congr (g := { g with internalEdges := p }) hedges e' h' t').trans
      (hedgeTail ▸ hjoins e' h' t')
  have hrewired := ((rewired_edges g p).trans hpatched₂.rewired).trans hpatched₃.rewired
  have hsound : g₃.Sound {x} {x} (S ∪ (∅ ∪ {y} ∪ {t})) := by
    refine hs.put hrewired (hedges ▸ hagrees) hjoins' (fun h' t' hj ↦ ?_) (fun n _ e' ↦ ?_)
      fun n _ e' ↦ ?_
    · obtain ⟨hh, ht⟩ := hj.unique hjoin
      exact ⟨Or.inr hh, Or.inl ht⟩
    · rw [hout₃, hout₂]
      rfl
    · rw [hin₃, hin₂]
      rfl
  refine ⟨hsound.invalidate [t] S fun u hu ↦ ?_, fun e' t' ↦ ?_, fun e' h' hj ↦ ?_, hrewired.keys⟩
  · simp only [Set.mem_union, Set.mem_singleton_iff, Set.mem_empty_iff_false, false_or] at hu
    rcases hu with hu | rfl | rfl
    · exact Or.inr hu
    · exact Or.inr hy
    · exact Or.inl List.mem_cons_self
  · rw [← mem_rest_iff hnodup, ← hrest]
    refine (hjoins' e' x t').trans ?_
    split
    · next heq => simp [heq, hne]
    · next hne' => simp [hne']
  · have hj' := (hjoins' e' h' x).1 hj
    split at hj'
    · exact htail hj'.2.symm
    · exact hnone e' h' hj'

/-- The loop ends, and then the new node has the outgoing edges of the old one as well. -/
theorem redirectOutEdges_total (hne : x ≠ y) (hy : y ∈ S) (hs : g.Sound {x} {x} S) (hkey : y ∈ g.nodeEdgeMapping)
    (hnodup : (rest.map Prod.fst).Nodup) (hrest : ∀ e t, g.Joins e x t ↔ (e, t) ∈ rest) (hnone : ∀ e h, ¬ g.Joins e h x)
    :
    ∃ g', g.redirectOutEdges y rest = .ok g' ∧ g'.Sound {x} {x} S ∧ (∀ e h, ¬ g'.Joins e h x) ∧
      (∀ e t, ¬ g'.Joins e x t) ∧ ∀ u, u ∈ g'.nodeEdgeMapping ↔ u ∈ g.nodeEdgeMapping := by
  induction rest generalizing g with
  | nil =>
    exact ⟨g, rfl, hs, hnone, fun e t hj ↦ List.not_mem_nil ((hrest e t).1 hj), fun _ ↦ Iff.rfl⟩
  | cons entry rest ih =>
    obtain ⟨e, t⟩ := entry
    have hjoin : g.Joins e x t := (hrest e t).2 List.mem_cons_self
    have htail : t ≠ x := fun heq ↦ hnone e x (heq ▸ hjoin)
    have htailKey : t ∈ g.nodeEdgeMapping := mem_of_inHead ((hs.ins t htail e x).2 hjoin)
    obtain ⟨g₁, hmodify⟩ := modifyEdge_total hjoin.mem fun edge ↦ { edge with head := y }
    obtain ⟨p, rfl, -⟩ := modifyEdge_ok hs.edges hmodify (fun _ ↦ rfl)
    obtain ⟨g₂, hout⟩ := setOut_total (g := { g with internalEdges := p }) hkey e t
    have hkeys₂ := (setOut_ok hout).1.rewired.keys t
    obtain ⟨g₃, hin⟩ := setIn_total (hkeys₂.2 htailKey) e y
    obtain ⟨hs₃, hrest₃, hnone₃, hkeys₃⟩ :=
      redirectOut_step hne hy hs hnodup hrest hnone hmodify hout hin
    obtain ⟨g', hok, hs', hnone', hnone'', hkeys'⟩ :=
      ih hs₃ ((hkeys₃ y).2 hkey) (List.nodup_cons.1 hnodup).2 hrest₃ hnone₃
    refine ⟨g', ?_, hs', hnone', hnone'', fun u ↦ (hkeys' u).trans (hkeys₃ u)⟩
    exact bind_eq_ok.2 ⟨_, hmodify, bind_eq_ok.2 ⟨g₂, hout, bind_eq_ok.2 ⟨g₃, hin, hok⟩⟩⟩

section Splice

variable [ParseUuid U]

theorem edge_new_ok {head tail freshId : U} {condition label : Property U κ}
    {kwargs : OrderedDict String (Property U κ)} (hok : Edge.new head tail condition label kwargs freshId = .ok edge) :
    edge.head = head ∧ edge.tail = tail := by
  obtain ⟨_, -, hok⟩ := bind_eq_ok.1 hok
  obtain ⟨_, -, hok⟩ := bind_eq_ok.1 hok
  obtain ⟨_, -, hok⟩ := bind_eq_ok.1 hok
  obtain ⟨_, -, hok⟩ := bind_eq_ok.1 hok
  obtain ⟨_, -, hok⟩ := bind_eq_ok.1 hok
  cases hok
  exact ⟨rfl, rfl⟩

omit [ParseUuid U] in
/-- An iteration leaves the mapping exact; the caches of the anchor and of the new node wait. -/
theorem splice_step {a : U} (ha : a ∈ S) (hy : y ∈ S) {replacement : Edge U κ} {g₄ g₅ g₆ : Graph U γ κ}
    (hs : g.Sound ∅ ∅ S) (hjoin : g.Joins e a t) (hhead : replacement.head = y) (htail : replacement.tail = t)
    (hinsert : g.insertEdge replacement = .ok g₁) (hsetOut : g₁.setOut y replacement.id t = .ok g₂)
    (hsetIn : g₂.setIn t replacement.id y = .ok g₃) (hpopIn : g₃.popIn t e = .ok g₄) (hpopOut : g₄.popOut a e = .ok g₅)
    (hpop : g₅.popEdge e = .ok g₆) :
    (g₆.invalidateAdjacency [t]).Sound ∅ ∅ S ∧
      (∀ e' h' t', (g₆.invalidateAdjacency [t]).Joins e' h' t' ↔
        e' ≠ e ∧ if e' = replacement.id then h' = y ∧ t' = t else g.Joins e' h' t') ∧
      ∀ u, u ∈ (g₆.invalidateAdjacency [t]).nodeEdgeMapping ↔ u ∈ g.nodeEdgeMapping := by
  subst hhead
  subst htail
  obtain ⟨hs₃, hfresh, hjoins₃⟩ := hs.link hinsert hsetOut hsetIn
  have hjoin₃ : g₃.Joins e a replacement.tail := by
    rw [hjoins₃, if_neg fun heq : e = replacement.id ↦ hfresh (heq ▸ hjoin.mem)]
    exact hjoin
  obtain ⟨hpatched₄, hin₄, hout₄⟩ := popIn_ok hpopIn
  obtain ⟨hpatched₅, hout₅, hin₅⟩ := popOut_ok hpopOut
  have hedges : g₅.internalEdges = g₃.internalEdges := hpatched₅.edges.trans hpatched₄.edges
  obtain ⟨p, rfl, hagrees, hjoins⟩ := popEdge_ok (hedges ▸ hs₃.edges) (hedges ▸ hjoin₃.mem) hpop
  have hjoins' : ∀ e' h' t', Joins { g₅ with internalEdges := p } e' h' t' ↔
      e' ≠ e ∧ g₃.Joins e' h' t' := fun e' h' t' ↦
    (hjoins e' h' t').trans (and_congr_right fun _ ↦ joins_congr hedges e' h' t')
  have hrewired := (hpatched₄.rewired.trans hpatched₅.rewired).trans (rewired_edges g₅ p)
  have hsound : Sound { g₅ with internalEdges := p } ∅ ∅
      (S ∪ {replacement.head, replacement.tail} ∪ ({replacement.tail} ∪ {a} ∪ ∅)) := by
    refine hs₃.drop hjoin₃ hrewired hagrees hjoins' (fun n _ e' ↦ ?_) fun n _ e' ↦ ?_
    · exact (hout₅ n e').trans (by rw [hout₄])
    · exact (hin₅ n e').trans (hin₄ n e')
  have hkeys₁ : ∀ u, u ∈ g₁.nodeEdgeMapping ↔ u ∈ g.nodeEdgeMapping := by
    obtain ⟨q, rfl, -⟩ := insertEdge_ok hs.edges hinsert
    exact fun _ ↦ Iff.rfl
  refine ⟨hsound.invalidate [replacement.tail] S fun u hu ↦ ?_, fun e' h' t' ↦ ?_, fun u ↦ ?_⟩
  · simp only [Set.mem_union, Set.mem_insert_iff, Set.mem_singleton_iff,
      Set.mem_empty_iff_false, or_false] at hu
    rcases hu with (hu | rfl | rfl) | rfl | rfl
    · exact Or.inr hu
    · exact Or.inr hy
    · exact Or.inl List.mem_cons_self
    · exact Or.inl List.mem_cons_self
    · exact Or.inr ha
  · exact (hjoins' e' h' t').trans (and_congr_right fun _ ↦ hjoins₃ e' h' t')
  · have hkeys₂ := (setOut_ok hsetOut).1.rewired.keys u
    have hkeys₃ := (setIn_ok hsetIn).1.rewired.keys u
    exact (hrewired.keys u).trans (hkeys₃.trans (hkeys₂.trans (hkeys₁ u)))

variable {freshIds : ℕ → U}

theorem spliceEdges_spec {a : U} (ha : a ∈ S) (hy : y ∈ S) (hs : g.Sound ∅ ∅ S) (hnodup : (rest.map Prod.fst).Nodup)
    (hrest : ∀ e t, (e, t) ∈ rest → g.Joins e a t) (hok : g.spliceEdges a y rest freshIds = .ok g') :
    g'.Sound ∅ ∅ S := by
  induction rest generalizing g with
  | nil =>
    cases hok
    exact hs
  | cons entry rest ih =>
    obtain ⟨e, t⟩ := entry
    obtain ⟨oldEdge, -, hok⟩ := bind_eq_ok.1 hok
    obtain ⟨replacement, hreplacement, hok⟩ := bind_eq_ok.1 hok
    obtain ⟨g₁, hinsert, hok⟩ := bind_eq_ok.1 hok
    obtain ⟨g₂, hsetOut, hok⟩ := bind_eq_ok.1 hok
    obtain ⟨g₃, hsetIn, hok⟩ := bind_eq_ok.1 hok
    obtain ⟨g₄, hpopIn, hok⟩ := bind_eq_ok.1 hok
    obtain ⟨g₅, hpopOut, hok⟩ := bind_eq_ok.1 hok
    obtain ⟨g₆, hpop, hok⟩ := bind_eq_ok.1 hok
    obtain ⟨hhead, htail⟩ := edge_new_ok hreplacement
    have hjoin := hrest e t List.mem_cons_self
    obtain ⟨hs₆, hjoins₆, -⟩ :=
      splice_step ha hy hs hjoin hhead htail hinsert hsetOut hsetIn hpopIn hpopOut hpop
    obtain ⟨-, -, -, hfresh, -⟩ := insertEdge_ok hs.edges hinsert
    refine ih hs₆ (List.nodup_cons.1 hnodup).2 (fun e' t' hmem ↦ ?_) hok
    obtain ⟨hne, hmem'⟩ := (mem_rest_iff hnodup e' t').2 hmem
    have hj := hrest e' t' hmem'
    rw [hjoins₆, if_neg fun heq : e' = replacement.id ↦ hfresh (heq ▸ hj.mem)]
    exact ⟨hne, hj⟩

/-! ## Calls -/

theorem relationOnExists_ok {β : Type u} {x : Except PyError β} {b : β}
    (h : relationOnExists x = .ok b) : x = .ok b := by
  unfold relationOnExists at h
  split at h
  · cases h
  · exact h

omit [ParseUuid U] in
theorem sound_addNode (hs : g.Sound ∅ ∅ ∅) (hok : g.addNode node = .ok g') : g'.Sound ∅ ∅ ∅ :=
  sound_insertNode hs (relationOnExists_ok hok)

omit [ParseUuid U] in
theorem sound_addEdge (hs : g.Sound ∅ ∅ ∅) (hok : g.addEdge edge = .ok g') : g'.Sound ∅ ∅ ∅ := by
  obtain ⟨_, -, hok⟩ := bind_eq_ok.1 hok
  obtain ⟨g₁, hinsert, hok₁⟩ := bind_eq_ok.1 (relationOnExists_ok hok)
  obtain ⟨g₂, hout, hok₂⟩ := bind_eq_ok.1 hok₁
  obtain ⟨g₃, hin, hok₃⟩ := bind_eq_ok.1 hok₂
  cases hok₃
  refine (hs.link hinsert hout hin).1.invalidate _ _ fun u hu ↦ Or.inl ?_
  simpa using hu

omit [ParseUuid U] in
theorem sound_removeNode (hs : g.Sound ∅ ∅ ∅) {node : Ref U (Node U γ)} (hok : g.removeNode node = .ok g') :
    g'.Sound ∅ ∅ ∅ := by
  obtain ⟨x, -, hok⟩ := bind_eq_ok.1 hok
  obtain ⟨_, -, hok⟩ := bind_eq_ok.1 hok
  obtain ⟨a, ha, hok₁⟩ := bind_eq_ok.1 hok
  obtain ⟨g₁, hins, hok₂⟩ := bind_eq_ok.1 hok₁
  obtain ⟨a₁, ha₁, hok₃⟩ := bind_eq_ok.1 hok₂
  obtain ⟨g₂, houts, hok₄⟩ := bind_eq_ok.1 hok₃
  have hstart : g.Sound {x} ∅ {x} :=
    hs.mono (Set.empty_subset _) (Set.Subset.refl _) (Set.empty_subset _)
  obtain ⟨g₁', hins', hs₁, hnone₁, -⟩ := removeInEdges_total hstart a.inEdges.nodup_keys fun e h ↦ by
    rw [← hs.ins x (Set.notMem_empty x), inHead_of_get? (adjacency_ok.1 ha),
      OrderedDict.get?_eq_some_iff]
  cases hins'.symm.trans hins
  have hopen : g₁.Sound {x} {x} {x} :=
    hs₁.mono (Set.Subset.refl _) (Set.empty_subset _) (Set.Subset.refl _)
  obtain ⟨g₂', houts', hs₂, hin, hout, -⟩ := removeOutEdges_total hopen a₁.outEdges.nodup_keys
    (fun e t ↦ by
      rw [← hs₁.outs x (Set.notMem_empty x), outTail_of_get? (adjacency_ok.1 ha₁),
        OrderedDict.get?_eq_some_iff]) hnone₁
  cases houts'.symm.trans houts
  exact hs₂.invalidate_popNode (fun u hu ↦ List.mem_singleton.2 hu) (List.mem_singleton.2 rfl) hin
    hout hok₄

omit [ParseUuid U] in
theorem edge_ok (h : g.edge e = .ok edge) : g.Joins e edge.head edge.tail := by
  refine ⟨edge, ?_, rfl, rfl⟩
  unfold Graph.edge at h
  cases hget : g.internalEdges.collections.get? e with
  | none =>
    rw [hget] at h
    cases h
  | some x =>
    rw [hget] at h
    cases h
    rfl

omit [ParseUuid U] in
theorem sound_removeEdge (hs : g.Sound ∅ ∅ ∅) {edge : Ref U (Edge U κ)} (hok : g.removeEdge edge = .ok g') :
    g'.Sound ∅ ∅ ∅ := by
  obtain ⟨e, -, hok⟩ := bind_eq_ok.1 hok
  obtain ⟨_, -, hok⟩ := bind_eq_ok.1 hok
  obtain ⟨x, hx, hok₁⟩ := bind_eq_ok.1 hok
  obtain ⟨g₁, hout, hok₂⟩ := bind_eq_ok.1 hok₁
  obtain ⟨g₂, hin, hok₃⟩ := bind_eq_ok.1 hok₂
  exact hs.unlink (edge_ok hx) hout hin hok₃

variable {newNode : Node U γ}

theorem sound_replaceNode (hs : g.Sound ∅ ∅ ∅) {old : Ref U (Node U γ)} (hok : g.replaceNode old newNode = .ok g') :
    g'.Sound ∅ ∅ ∅ := by
  obtain ⟨x, -, hok⟩ := bind_eq_ok.1 hok
  obtain ⟨_, hx, hok⟩ := bind_eq_ok.1 hok
  obtain ⟨_, hy, hok⟩ := bind_eq_ok.1 hok
  obtain ⟨g₁, hinsert, hok₁⟩ := bind_eq_ok.1 hok
  obtain ⟨a, ha, hok₂⟩ := bind_eq_ok.1 hok₁
  obtain ⟨g₂, hins, hok₃⟩ := bind_eq_ok.1 hok₂
  obtain ⟨a₂, ha₂, hok₄⟩ := bind_eq_ok.1 hok₃
  obtain ⟨g₃, houts, hok₅⟩ := bind_eq_ok.1 hok₄
  have hne : x ≠ newNode.id := by
    rintro rfl
    simp [ensure_eq_ok.1 hx] at hy
    cases hy
  have hs₁ := sound_insertNode hs hinsert
  have hstart : g₁.Sound {x} ∅ {x, newNode.id} :=
    hs₁.mono (Set.empty_subset _) (Set.Subset.refl _) (Set.empty_subset _)
  have hy : newNode.id ∈ ({x, newNode.id} : Set U) := Or.inr rfl
  have hkey := mem_nodeEdgeMapping_insertNode hinsert
  obtain ⟨g₂', hins', hs₂, hnone₂, hkeys₂⟩ := redirectInEdges_total hne hy hstart hkey
    a.inEdges.nodup_keys fun e h ↦ by
      rw [← hs₁.ins x (Set.notMem_empty x), inHead_of_get? (adjacency_ok.1 ha),
        OrderedDict.get?_eq_some_iff]
  cases hins'.symm.trans hins
  have hopen : g₂.Sound {x} {x} {x, newNode.id} :=
    hs₂.mono (Set.Subset.refl _) (Set.empty_subset _) (Set.Subset.refl _)
  obtain ⟨g₃', houts', hs₃, hin, hout, -⟩ := redirectOutEdges_total hne hy hopen
    ((hkeys₂ newNode.id).2 hkey) a₂.outEdges.nodup_keys (fun e t ↦ by
      rw [← hs₂.outs x (Set.notMem_empty x), outTail_of_get? (adjacency_ok.1 ha₂),
        OrderedDict.get?_eq_some_iff]) hnone₂
  cases houts'.symm.trans houts
  refine hs₃.invalidate_popNode (fun u hu ↦ ?_) List.mem_cons_self hin hout hok₅
  simpa using hu

theorem sound_spliceAfter (hs : g.Sound ∅ ∅ ∅) {anchor : Ref U (Node U γ)} {linkId : U}
    (hok : g.spliceAfter anchor newNode linkId freshIds = .ok g') : g'.Sound ∅ ∅ ∅ := by
  obtain ⟨x, -, hok⟩ := bind_eq_ok.1 hok
  obtain ⟨_, -, hok⟩ := bind_eq_ok.1 hok
  obtain ⟨_, -, hok⟩ := bind_eq_ok.1 hok
  obtain ⟨g₁, hinsert, hok₁⟩ := bind_eq_ok.1 hok
  obtain ⟨a, ha, hok₂⟩ := bind_eq_ok.1 hok₁
  obtain ⟨g₂, hsplice, hok₃⟩ := bind_eq_ok.1 hok₂
  obtain ⟨link, hlink, hok₄⟩ := bind_eq_ok.1 hok₃
  obtain ⟨g₃, hinsertLink, hok₅⟩ := bind_eq_ok.1 hok₄
  obtain ⟨g₄, hout, hok₆⟩ := bind_eq_ok.1 hok₅
  obtain ⟨g₅, hin, hok₇⟩ := bind_eq_ok.1 hok₆
  cases hok₇
  obtain ⟨hhead, htail⟩ := edge_new_ok hlink
  have hs₁ := sound_insertNode hs hinsert
  have hstart : g₁.Sound ∅ ∅ {x, newNode.id} :=
    hs₁.mono (Set.Subset.refl _) (Set.Subset.refl _) (Set.empty_subset _)
  have hanchor : x ∈ ({x, newNode.id} : Set U) := Or.inl rfl
  have hnew : newNode.id ∈ ({x, newNode.id} : Set U) := Or.inr rfl
  have hs₂ := spliceEdges_spec hanchor hnew hstart a.outEdges.nodup_keys
    (fun e t hmem ↦ by
      rw [← hs₁.outs x (Set.notMem_empty x), outTail_of_get? (adjacency_ok.1 ha),
        OrderedDict.get?_eq_some_iff]
      exact hmem) hsplice
  rw [← hhead, ← htail] at hout hin
  refine (hs₂.link hinsertLink hout hin).1.invalidate _ _ fun u hu ↦ Or.inl ?_
  simp only [hhead, htail, Set.union_self] at hu
  simpa using hu

variable {l : List (Node U γ)}

/-- A cached read returns the tuple read off the mapping. -/
theorem getPredecessorsCached_ok (hs : g.Sound ∅ ∅ ∅) {node : Ref U (Node U γ)} (hnode : node.getId = .ok uid)
    (hok : g.getPredecessorsCached node = .ok (l, g')) : g.predecessors uid = .ok l ∧ g'.Sound ∅ ∅ ∅ := by
  obtain ⟨uid', huid, hok⟩ := bind_eq_ok.1 hok
  rw [hnode, Except.ok.injEq] at huid
  subst huid
  split at hok
  · next cached hcached =>
    cases hok
    exact ⟨(hs.cached uid (Set.notMem_empty _)).1 _ hcached, hs⟩
  · obtain ⟨_, -, hok⟩ := bind_eq_ok.1 hok
    obtain ⟨result, hresult, hok⟩ := bind_eq_ok.1 hok
    cases hok
    refine ⟨hresult, hs.nodes, hs.edges, hs.keys, hs.outs, hs.ins, fun n hn ↦ ⟨fun l hl ↦ ?_,
      (hs.cached n hn).2⟩⟩
    change (g.predecessorCache.set uid _).get? n = some _ at hl
    rw [OrderedDict.get?_set] at hl
    split at hl
    · next heq =>
      cases hl
      exact heq ▸ hresult
    · exact (hs.cached n hn).1 l hl

theorem getSuccessorsCached_ok (hs : g.Sound ∅ ∅ ∅) {node : Ref U (Node U γ)} (hnode : node.getId = .ok uid)
    (hok : g.getSuccessorsCached node = .ok (l, g')) : g.successors uid = .ok l ∧ g'.Sound ∅ ∅ ∅ := by
  obtain ⟨uid', huid, hok⟩ := bind_eq_ok.1 hok
  rw [hnode, Except.ok.injEq] at huid
  subst huid
  split at hok
  · next cached hcached =>
    cases hok
    exact ⟨(hs.cached uid (Set.notMem_empty _)).2 _ hcached, hs⟩
  · obtain ⟨_, -, hok⟩ := bind_eq_ok.1 hok
    obtain ⟨result, hresult, hok⟩ := bind_eq_ok.1 hok
    cases hok
    refine ⟨hresult, hs.nodes, hs.edges, hs.keys, hs.outs, hs.ins, fun n hn ↦
      ⟨(hs.cached n hn).1, fun l hl ↦ ?_⟩⟩
    change (g.successorCache.set uid _).get? n = some _ at hl
    rw [OrderedDict.get?_set] at hl
    split at hl
    · next heq =>
      cases hl
      exact heq ▸ hresult
    · exact (hs.cached n hn).2 l hl

theorem sound_call (hs : g.Sound ∅ ∅ ∅) {c : GraphCall U γ κ} (hok : g.call c = .ok g') : g'.Sound ∅ ∅ ∅ := by
  cases c with
  | addNode node => exact sound_addNode hs hok
  | addEdge edge => exact sound_addEdge hs hok
  | removeNode node => exact sound_removeNode hs hok
  | removeEdge edge => exact sound_removeEdge hs hok
  | replaceNode old newNode => exact sound_replaceNode hs hok
  | spliceAfter anchor newNode linkId freshIds => exact sound_spliceAfter hs hok
  | getPredecessorsCached node =>
    cases hread : g.getPredecessorsCached node with
    | error e => simp [call, hread, Except.map] at hok
    | ok result =>
      obtain ⟨l, g₁⟩ := result
      obtain ⟨uid, huid, -⟩ := bind_eq_ok.1 hread
      simp only [call, hread, Except.map, Except.ok.injEq] at hok
      exact hok ▸ (getPredecessorsCached_ok hs huid hread).2
  | getSuccessorsCached node =>
    cases hread : g.getSuccessorsCached node with
    | error e => simp [call, hread, Except.map] at hok
    | ok result =>
      obtain ⟨l, g₁⟩ := result
      obtain ⟨uid, huid, -⟩ := bind_eq_ok.1 hread
      simp only [call, hread, Except.map, Except.ok.injEq] at hok
      exact hok ▸ (getSuccessorsCached_ok hs huid hread).2

omit [ParseUuid U] in
theorem sound_new (nodesId edgesId : U) : (new nodesId edgesId : Graph U γ κ).Sound ∅ ∅ ∅ where
  nodes := ⟨List.nodup_nil, fun _ ↦ Iff.rfl, by simp [new, Pile.OwnIds]⟩
  edges := ⟨List.nodup_nil, fun _ ↦ Iff.rfl, by simp [new, Pile.OwnIds]⟩
  keys := fun _ ↦ Iff.rfl
  outs := fun n _ e t ↦ iff_of_false (by simp [outTail, new]) (by simp [Joins, new])
  ins := fun n _ e h ↦ iff_of_false (by simp [inHead, new]) (by simp [Joins, new])
  cached := fun n _ ↦ ⟨by simp [new], by simp [new]⟩

/-! ## Coherence -/

/-- What the readers of a graph rely on: the mapping has the nodes as its keys and holds every edge at
its head and at its tail and nowhere else, and the cached accessors return what it says. -/
structure Coherent (g : Graph U γ κ) : Prop where
  keys_iff : ∀ n, n ∈ g.nodeEdgeMapping ↔ g.hasNode n = true
  joins_iff : ∀ e h t, g.Joins e h t ↔ g.outTail h e = some t ∧ g.inHead t e = some h
  out_only : ∀ n e t, g.outTail n e = some t → g.Joins e n t
  in_only : ∀ n e h, g.inHead n e = some h → g.Joins e h n
  predecessors_cached : ∀ n, g.hasNode n = true → ∃ l g',
    g.getPredecessorsCached (.uuid n) = .ok (l, g') ∧ g.predecessors n = .ok l
  successors_cached : ∀ n, g.hasNode n = true → ∃ l g',
    g.getSuccessorsCached (.uuid n) = .ok (l, g') ∧ g.successors n = .ok l

omit [ParseUuid U] in
theorem hasNode_iff (h : g.internalNodes.Agrees) (n : U) : g.hasNode n = true ↔ n ∈ g.internalNodes.collections := by
  rw [← h.mem_iff]
  unfold hasNode Pile.contains
  rw [Progression.contains_iff (Ref.validateOrder_uuid n)]
  simp [Pile.order]

/-- In a sound graph the neighbours of a node are nodes. -/
theorem Sound.predecessors_ok (hs : g.Sound ∅ ∅ ∅) (hn : n ∈ g.nodeEdgeMapping) : ∃ l, g.predecessors n = .ok l := by
  obtain ⟨a, ha⟩ := (OrderedDict.mem_iff_exists_get? _ _).1 hn
  obtain ⟨l, hl⟩ : ∃ l, Pile.lookupAll g.internalNodes.collections a.inEdges.values = .ok l := by
    refine Pile.lookupAll_of_mem fun m hm ↦ (hs.keys m).1 ?_
    obtain ⟨e, he⟩ := (OrderedDict.mem_values_iff _ _).1 hm
    have hj := (hs.ins n (Set.notMem_empty n) e m).1 ((inHead_of_get? ha e).trans he)
    exact mem_of_outTail ((hs.outs m (Set.notMem_empty m) e n).2 hj)
  exact ⟨l, bind_eq_ok.2 ⟨a, adjacency_ok.2 ha, hl⟩⟩

theorem Sound.successors_ok (hs : g.Sound ∅ ∅ ∅) (hn : n ∈ g.nodeEdgeMapping) : ∃ l, g.successors n = .ok l := by
  obtain ⟨a, ha⟩ := (OrderedDict.mem_iff_exists_get? _ _).1 hn
  obtain ⟨l, hl⟩ : ∃ l, Pile.lookupAll g.internalNodes.collections a.outEdges.values = .ok l := by
    refine Pile.lookupAll_of_mem fun m hm ↦ (hs.keys m).1 ?_
    obtain ⟨e, he⟩ := (OrderedDict.mem_values_iff _ _).1 hm
    have hj := (hs.outs n (Set.notMem_empty n) e m).1 ((outTail_of_get? ha e).trans he)
    exact mem_of_inHead ((hs.ins m (Set.notMem_empty m) e n).2 hj)
  exact ⟨l, bind_eq_ok.2 ⟨a, adjacency_ok.2 ha, hl⟩⟩

theorem Sound.coherent (hs : g.Sound ∅ ∅ ∅) : g.Coherent where
  keys_iff := fun n ↦ (hs.keys n).trans (hasNode_iff hs.nodes n).symm
  joins_iff := fun e h t ↦ by
    rw [hs.outs h (Set.notMem_empty h), hs.ins t (Set.notMem_empty t), and_self]
  out_only := fun n e t ↦ (hs.outs n (Set.notMem_empty n) e t).1
  in_only := fun n e h ↦ (hs.ins n (Set.notMem_empty n) e h).1
  predecessors_cached := by
    intro n hn
    have hkey := (hs.keys n).2 ((hasNode_iff hs.nodes n).1 hn)
    obtain ⟨l, hl⟩ := hs.predecessors_ok hkey
    have hread : ∃ result, g.getPredecessorsCached (.uuid n) = .ok result := by
      simp only [getPredecessorsCached, Ref.getId]
      cases hcache : g.predecessorCache.get? n with
      | some cached => exact ⟨_, by simp only [bind, Except.bind, hcache]; rfl⟩
      | none => exact ⟨_, by simp only [bind, Except.bind, hcache, hn, hl]; rfl⟩
    obtain ⟨⟨l', g'⟩, hread⟩ := hread
    exact ⟨l', g', hread, (getPredecessorsCached_ok hs rfl hread).1⟩
  successors_cached := by
    intro n hn
    have hkey := (hs.keys n).2 ((hasNode_iff hs.nodes n).1 hn)
    obtain ⟨l, hl⟩ := hs.successors_ok hkey
    have hread : ∃ result, g.getSuccessorsCached (.uuid n) = .ok result := by
      simp only [getSuccessorsCached, Ref.getId]
      cases hcache : g.successorCache.get? n with
      | some cached => exact ⟨_, by simp only [bind, Except.bind, hcache]; rfl⟩
      | none => exact ⟨_, by simp only [bind, Except.bind, hcache, hn, hl]; rfl⟩
    obtain ⟨⟨l', g'⟩, hread⟩ := hread
    exact ⟨l', g', hread, (getSuccessorsCached_ok hs rfl hread).1⟩

/-- Every graph reached from the empty one by calls that return is coherent. -/
theorem coherent_of_reachable {nodesId edgesId : U} {g : Graph U γ κ}
    (h : Transition.Reachable (fun g (c : GraphCall U γ κ) g' ↦ g.call c = .ok g')
      (new nodesId edgesId) g) : g.Coherent :=
  (h.invariant (I := fun g : Graph U γ κ ↦ g.Sound ∅ ∅ ∅) (sound_new nodesId edgesId)
    fun _ _ _ hs hok ↦ sound_call hs hok).coherent

/-- The calls of a list, if all of them return. -/
def replay (calls : List (GraphCall U γ κ)) (g : Graph U γ κ) : Option (Graph U γ κ) :=
  Transition.replay (fun g c ↦ (g.call c).toOption) g calls

variable {calls : List (GraphCall U γ κ)}

theorem reachable_of_replay (h : replay calls g = some g') :
    Transition.Reachable (fun g (c : GraphCall U γ κ) g' ↦ g.call c = .ok g') g g' := by
  refine Transition.reachable_of_replay (fun g c g' _ hcall ↦ ?_) .start h
  cases hresult : g.call c with
  | error e =>
    rw [hresult] at hcall
    cases hcall
  | ok g₁ =>
    rw [hresult] at hcall
    cases hcall
    rfl

theorem sound_of_replay {nodesId edgesId : U} (h : replay calls (new nodesId edgesId) = some g) : g.Sound ∅ ∅ ∅ :=
  (reachable_of_replay h).invariant (I := fun g : Graph U γ κ ↦ g.Sound ∅ ∅ ∅)
    (sound_new nodesId edgesId) fun _ _ _ hs hok ↦ sound_call hs hok

end Splice

/-- A self-loop and an edge are redirected to a new node, and a node is spliced in before both. -/
def loopCalls : List (GraphCall Nat Unit Unit) :=
  [.addNode ⟨0, ()⟩, .addNode ⟨1, ()⟩, .addEdge ⟨10, 0, 0, .empty⟩, .addEdge ⟨11, 0, 1, .empty⟩,
    .getPredecessorsCached (.uuid 1), .replaceNode (.uuid 0) ⟨2, ()⟩, .getSuccessorsCached (.uuid 2),
    .spliceAfter (.uuid 2) ⟨3, ()⟩ 20 fun n ↦ 30 + n, .removeEdge (.uuid 20)]

def loopGraph : Graph Nat Unit Unit :=
  (Transition.replay (fun g c ↦ (g.call c).toOption) (new 90 91) loopCalls).getD (new 90 91)

theorem coherent_loopGraph : loopGraph.Coherent ∧ loopGraph.inHead 2 31 = some 3 := by
  have hreplay : replay loopCalls (new 90 91) = some loopGraph := rfl
  exact ⟨coherent_of_reachable (reachable_of_replay hreplay), rfl⟩

end Graph

end Lionagi.Protocols
