import Lionagi.Protocols.GraphInvariant
import Lionagi.Library.DepthFirst

/-!
# Cycles of a graph

`is_acyclic` is a depth-first search over the mapping from the last node on. Adding an edge or a node
can be taken back by the inverse mutator, which leaves only the caches of the nodes it touched emptier.
-/

universe u

set_option linter.unusedSectionVars false

namespace Lionagi.Protocols

namespace Graph

open Relation

variable {U γ κ : Type u} [DecidableEq U]

/-- The recursion goes no deeper than there are nodes. -/
def isAcyclic (g : Graph U γ κ) : Except PyError Bool :=
  let nodeIds := g.internalNodes.progression.order
  DepthFirst.search .keyError (fun nid ↦ (g.adjacency nid).map fun a ↦ a.outEdges.keys)
    (fun edgeId ↦ (g.edge edgeId).map Edge.tail) (nodeIds.length + 1) (DepthFirst.unvisited nodeIds)
    nodeIds.reverse

/-- An edge of the graph leads from `h` to `t`. -/
def Linked (g : Graph U γ κ) (h t : U) : Prop := ∃ e, g.Joins e h t

def Acyclic (g : Graph U γ κ) : Prop := ∀ n, ¬ TransGen g.Linked n n

variable {g g' g₁ : Graph U γ κ} {S : Set U}

theorem mem_order_iff (hs : g.Sound ∅ ∅ S) (n : U) : n ∈ g.internalNodes.progression.order ↔ n ∈ g.nodeEdgeMapping :=
  (hs.nodes.mem_iff n).trans (hs.keys n).symm

theorem Sound.linked_iff (hs : g.Sound ∅ ∅ S) (h t : U) : g.Linked h t ↔ ∃ e, g.outTail h e = some t :=
  exists_congr fun e ↦ (hs.outs h (Set.notMem_empty h) e t).symm

variable {e h n t : U}

theorem Sound.linked_mem (hs : g.Sound ∅ ∅ S) (hlinked : g.Linked h t) :
    h ∈ g.nodeEdgeMapping ∧ t ∈ g.nodeEdgeMapping := by
  obtain ⟨e, hj⟩ := hlinked
  constructor
  · exact mem_of_outTail ((hs.outs h (Set.notMem_empty h) e t).2 hj)
  · exact mem_of_inHead ((hs.ins t (Set.notMem_empty t) e h).2 hj)

theorem map_eq_ok {α β : Type u} {x : Except PyError α} {f : α → β} {b : β} :
    x.map f = .ok b ↔ ∃ a, x = .ok a ∧ f a = b := by
  cases x <;> simp [Except.map]

variable {edge : Edge U κ}

theorem edge_eq_ok : g.edge e = .ok edge ↔ g.internalEdges.collections.get? e = some edge := by
  unfold Graph.edge
  cases g.internalEdges.collections.get? e <;> simp

theorem Sound.leads_iff (hs : g.Sound ∅ ∅ S) (h t : U) :
    DepthFirst.Leads (fun nid ↦ (g.adjacency nid).map fun a ↦ a.outEdges.keys)
      (fun edgeId ↦ (g.edge edgeId).map Edge.tail) h t ↔ g.Linked h t := by
  rw [hs.linked_iff]
  constructor
  · rintro ⟨edges, hout, e, he, htail⟩
    obtain ⟨a, ha, rfl⟩ := map_eq_ok.1 hout
    obtain ⟨edge, hedge, rfl⟩ := map_eq_ok.1 htail
    obtain ⟨t, ht⟩ := (OrderedDict.mem_iff_exists_get? _ _).1 he
    have houtTail : g.outTail h e = some t := (outTail_of_get? (adjacency_ok.1 ha) e).trans ht
    have hjoins := (hs.outs h (Set.notMem_empty h) e t).1 houtTail
    have hsame : Joins g e edge.head edge.tail := ⟨edge, edge_eq_ok.1 hedge, rfl, rfl⟩
    exact ⟨e, houtTail.trans (congrArg some (hjoins.unique hsame).2)⟩
  · rintro ⟨e, houtTail⟩
    obtain ⟨a, ha⟩ := (OrderedDict.mem_iff_exists_get? _ _).1 (mem_of_outTail houtTail)
    obtain ⟨edge, hedge, -, htail⟩ := (hs.outs h (Set.notMem_empty h) e t).1 houtTail
    refine ⟨a.outEdges.keys, map_eq_ok.2 ⟨a, adjacency_ok.2 ha, rfl⟩, e, ?_, ?_⟩
    · exact OrderedDict.mem_of_get? ((outTail_of_get? ha e).symm.trans houtTail)
    · exact map_eq_ok.2 ⟨edge, edge_eq_ok.2 hedge, htail⟩

/-- Everything the search looks up is there. -/
theorem Sound.closed (hs : g.Sound ∅ ∅ S) :
    DepthFirst.Closed (fun nid ↦ (g.adjacency nid).map fun a ↦ a.outEdges.keys)
      (fun edgeId ↦ (g.edge edgeId).map Edge.tail) g.internalNodes.progression.order where
  out_ok v hv := by
    obtain ⟨a, ha⟩ := (OrderedDict.mem_iff_exists_get? _ _).1 ((mem_order_iff hs v).1 hv)
    exact ⟨a.outEdges.keys, map_eq_ok.2 ⟨a, adjacency_ok.2 ha, rfl⟩⟩
  tail_ok v hv edges hout e he := by
    obtain ⟨a, ha, rfl⟩ := map_eq_ok.1 hout
    obtain ⟨t, ht⟩ := (OrderedDict.mem_iff_exists_get? _ _).1 he
    have houtTail : g.outTail v e = some t := (outTail_of_get? (adjacency_ok.1 ha) e).trans ht
    obtain ⟨edge, hedge, -, htail⟩ := (hs.outs v (Set.notMem_empty v) e t).1 houtTail
    have hlinked := (hs.linked_iff v t).2 ⟨e, houtTail⟩
    refine ⟨t, (mem_order_iff hs t).2 (hs.linked_mem hlinked).2, ?_⟩
    exact map_eq_ok.2 ⟨edge, edge_eq_ok.2 hedge, htail⟩

/-- The test decides acyclicity of a sound graph. -/
theorem Sound.isAcyclic_iff (hs : g.Sound ∅ ∅ S) : ∃ b, g.isAcyclic = .ok b ∧ (b = true ↔ g.Acyclic) := by
  obtain ⟨b, hb, hiff⟩ := DepthFirst.search_unvisited (ε := PyError) .keyError hs.closed
    (fun v ↦ List.mem_reverse) (Nat.lt_succ_self _)
  have hleads : DepthFirst.Leads (fun nid ↦ (g.adjacency nid).map fun a ↦ a.outEdges.keys)
      (fun edgeId ↦ (g.edge edgeId).map Edge.tail) = g.Linked := by
    funext h t
    exact propext (hs.leads_iff h t)
  rw [hleads] at hiff
  refine ⟨b, hb, hiff.trans ?_⟩
  constructor
  · intro hacyclic n hcycle
    obtain ⟨t, hlinked, -⟩ := TransGen.head'_iff.1 hcycle
    exact hacyclic n ((mem_order_iff hs n).2 (hs.linked_mem hlinked).1) hcycle
  · intro hacyclic v _
    exact hacyclic v

/-! ## Taking an addition back -/

section Piles

variable {α : Type u} [Observable α U Unit]

theorem excludeRefs_insertRefs {order : List U} {uid : U} (h : uid ∉ order) (index : Int) :
    Progression.excludeRefs (Progression.insertRefs order index [uid]) [uid] = order := by
  have hself : (fun u ↦ decide (u ∉ [uid])) uid = false := by simp
  calc
    Progression.excludeRefs (Progression.insertRefs order index [uid]) [uid] =
        order.filter fun u ↦ u ∉ [uid] :=
      PySequence.filter_insertIdx (fun u ↦ decide (u ∉ [uid])) hself order _
    _ = order := by
      apply List.filter_eq_self.2
      intro u hu
      have hne : u ≠ uid := by
        rintro rfl
        exact h hu
      simpa using hne

theorem insertLast_eq {p p' : Pile U α Unit} {a : α} (hok : insertLast p a = .ok p') :
    Observable.id a ∉ p.order ∧
      p' = { p.withOrder (Progression.insertRefs p.order p.len [Observable.id a]) with
        collections := p.collections.set (Observable.id a) a } := by
  unfold insertLast at hok
  split at hok
  · cases hok
  · next q hinsert =>
    cases hok
    obtain ⟨hfresh, hcollections⟩ := Pile.insert_item_ok hinsert
    refine ⟨hfresh, ?_⟩
    unfold Pile.insert at hinsert
    split at hinsert
    · cases hinsert
    · next itemDict hdict =>
      cases Pile.validateCollections_item hdict
      split at hinsert
      · cases hinsert
      · simp only [Progression.insert, Pile.validateOrder_ofIds] at hinsert
        cases hinsert
        rfl

/-- A new item is inserted and popped again. -/
theorem popOne_insertLast {p p' : Pile U α Unit} {a : α} (h : p.Agrees)
    (hok : insertLast p a = .ok p') : popOne p' (Observable.id a) = .ok p := by
  obtain ⟨hfresh, rfl⟩ := insertLast_eq hok
  have hnew : Observable.id a ∉ p.collections := fun hmem ↦ hfresh ((h.mem_iff _).2 hmem)
  have hpop : Pile.popEach (p.collections.set (Observable.id a) a) [Observable.id a] =
      (p.collections, .ok [a]) := by
    simp only [Pile.popEach, OrderedDict.get?_set_self, OrderedDict.erase_set_of_not_mem hnew]
  have hexclude : (Progression.exclude (Progression.insertRefs p.order p.len [Observable.id a])
      (.ofIds [Observable.id a] : Ref U α)).1 = p.order := by
    rw [Progression.exclude_of_validate (Pile.validateOrder_ofIds _)]
    exact excludeRefs_insertRefs hfresh _
  unfold popOne Pile.popRef
  simp only [Ref.validateOrder_uuid, Pile.popKeys, hpop, Pile.wrapPopped]
  exact congrArg (fun order ↦ Except.ok (p.withOrder order)) hexclude

end Piles

/-- The same nodes and edges in the same order, and the same mapping. -/
structure SameContents (g g' : Graph U γ κ) : Prop where
  nodes : g'.internalNodes = g.internalNodes
  edges : g'.internalEdges = g.internalEdges
  mapping : g'.nodeEdgeMapping = g.nodeEdgeMapping

variable {node : Node U γ}

theorem addNode_eq (hok : g.addNode node = .ok g') :
    ∃ p, insertLast g.internalNodes node = .ok p ∧
      g' = { g with
        internalNodes := p
        nodeEdgeMapping := g.nodeEdgeMapping.set node.id Adjacency.empty } := by
  obtain ⟨p, hp, hset⟩ := bind_eq_ok.1 (relationOnExists_ok hok)
  cases hset
  exact ⟨p, hp, rfl⟩

/-- A new node is added and removed again. -/
theorem removeNode_addNode {g₂ : Graph U γ κ} (hs : g.Sound ∅ ∅ ∅) (hok : g.addNode node = .ok g₁)
    (hsame : SameContents g₁ g₂) : ∃ g₃, g₂.removeNode (.uuid node.id) = .ok g₃ ∧ SameContents g g₃ := by
  obtain ⟨p, hp, rfl⟩ := addNode_eq hok
  have hfresh := (insertLast_ok hs.nodes hp).1
  have hnot : node.id ∉ g.nodeEdgeMapping := fun hmem ↦ hfresh ((hs.keys _).1 hmem)
  have hget : g₂.nodeEdgeMapping.get? node.id = some Adjacency.empty := by
    rw [hsame.mapping, OrderedDict.get?_set_self]
  have hnode : g₂.hasNode node.id = true := by
    obtain ⟨-, hagrees, hcollections⟩ := insertLast_ok hs.nodes hp
    have hnodes : g₂.internalNodes = p := hsame.nodes
    rw [hasNode_iff (hnodes ▸ hagrees), hnodes, hcollections, OrderedDict.mem_set]
    exact Or.inl rfl
  have hpop : popOne g₂.internalNodes node.id = .ok g.internalNodes := by
    rw [hsame.nodes]
    exact popOne_insertLast hs.nodes hp
  have hadjacency : g₂.adjacency node.id = .ok Adjacency.empty := adjacency_ok.2 hget
  have hmem : node.id ∈ g₂.nodeEdgeMapping := OrderedDict.mem_of_get? hget
  have hremove : g₂.removeNode (.uuid node.id) = (g₂.invalidateAdjacency [node.id]).popNode node.id := by
    simp [removeNode, Ref.getId, hnode, hadjacency, Adjacency.empty, removeInEdges, removeOutEdges,
      ensure, OrderedDict.empty, bind, Except.bind]
  refine ⟨{ g₂.invalidateAdjacency [node.id] with
    internalNodes := g.internalNodes
    nodeEdgeMapping := g₂.nodeEdgeMapping.erase node.id }, ?_, rfl, ?_, ?_⟩
  · rw [hremove, popNode]
    simp [invalidateAdjacency, ensure, hmem, hpop, bind, Except.bind, pure, Except.pure]
  · exact hsame.edges
  · change g₂.nodeEdgeMapping.erase node.id = _
    rw [hsame.mapping]
    exact OrderedDict.erase_set_of_not_mem hnot _

/-- What the four statements on the mapping do to the entry of a node. -/
def outSet (e t : U) (a : Adjacency U) : Adjacency U := { a with outEdges := a.outEdges.set e t }

def inSet (e h : U) (a : Adjacency U) : Adjacency U := { a with inEdges := a.inEdges.set e h }

def outErase (e : U) (a : Adjacency U) : Adjacency U := { a with outEdges := a.outEdges.erase e }

def inErase (e : U) (a : Adjacency U) : Adjacency U := { a with inEdges := a.inEdges.erase e }

theorem modify_eq_set {κ' ν : Type u} [DecidableEq κ'] {d : OrderedDict κ' ν} {k : κ'} {v : ν}
    (h : d.get? k = some v) (f : ν → ν) : d.modify k f = d.set k (f v) := by
  apply OrderedDict.ext_get?
  · rw [OrderedDict.keys_modify, OrderedDict.keys_set_of_mem (OrderedDict.mem_of_get? h)]
  · intro k'
    rw [OrderedDict.get?_modify, OrderedDict.get?_set]
    split
    · next heq => rw [heq, h, Option.map_some]
    · rfl

def rewrite (g : Graph U γ κ) (n : U) (f : Adjacency U → Adjacency U) : Graph U γ κ :=
  { g with nodeEdgeMapping := g.nodeEdgeMapping.modify n f }

theorem setOut_eq (hok : g.setOut n e t = .ok g') : g' = g.rewrite n (outSet e t) := by
  obtain ⟨a, ha, hset⟩ := bind_eq_ok.1 hok
  cases hset
  rw [rewrite, modify_eq_set (adjacency_ok.1 ha)]
  rfl

theorem setIn_eq (hok : g.setIn n e h = .ok g') : g' = g.rewrite n (inSet e h) := by
  obtain ⟨a, ha, hset⟩ := bind_eq_ok.1 hok
  cases hset
  rw [rewrite, modify_eq_set (adjacency_ok.1 ha)]
  rfl

theorem popOut_eq (h : g.outTail n e = some t) : g.popOut n e = .ok (g.rewrite n (outErase e)) := by
  obtain ⟨a, ha, he⟩ := Option.bind_eq_some_iff.1 h
  have hmem : e ∈ a.outEdges := OrderedDict.mem_of_get? he
  rw [rewrite, modify_eq_set ha]
  exact bind_eq_ok.2 ⟨a, adjacency_ok.2 ha, bind_eq_ok.2 ⟨⟨⟩, by simp [ensure, hmem], rfl⟩⟩

theorem popIn_eq (hin : g.inHead n e = some h) : g.popIn n e = .ok (g.rewrite n (inErase e)) := by
  obtain ⟨a, ha, he⟩ := Option.bind_eq_some_iff.1 hin
  have hmem : e ∈ a.inEdges := OrderedDict.mem_of_get? he
  rw [rewrite, modify_eq_set ha]
  exact bind_eq_ok.2 ⟨a, adjacency_ok.2 ha, bind_eq_ok.2 ⟨⟨⟩, by simp [ensure, hmem], rfl⟩⟩

theorem inHead_rewrite_outErase (g : Graph U γ κ) (n e u e' : U) :
    (g.rewrite n (outErase e)).inHead u e' = g.inHead u e' := by
  unfold inHead rewrite
  simp only [OrderedDict.get?_modify]
  split
  · cases g.nodeEdgeMapping.get? u <;> rfl
  · rfl

/-- The four statements of an edge that is added and removed again cancel out. -/
theorem modify_cancel {m : OrderedDict U (Adjacency U)} (hout : ∀ a, m.get? h = some a → e ∉ a.outEdges)
    (hin : ∀ a, m.get? t = some a → e ∉ a.inEdges) :
    (((m.modify h (outSet e t)).modify t (inSet e h)).modify h (outErase e)).modify t (inErase e) =
      m := by
  have hOut : ∀ a, m.get? h = some a → (a.outEdges.set e t).erase e = a.outEdges :=
    fun a ha ↦ OrderedDict.erase_set_of_not_mem (hout a ha) t
  have hIn : ∀ a, m.get? t = some a → (a.inEdges.set e h).erase e = a.inEdges :=
    fun a ha ↦ OrderedDict.erase_set_of_not_mem (hin a ha) h
  apply OrderedDict.ext_get?
  · simp only [OrderedDict.keys_modify]
  · intro k
    simp only [OrderedDict.get?_modify]
    cases hk : m.get? k with
    | none => simp
    | some a =>
      by_cases hkt : k = t
      · subst hkt
        by_cases hkh : k = h
        · subst hkh
          simp [outSet, inSet, outErase, inErase, hOut a hk, hIn a hk]
        · simp [hkh, inSet, inErase, hIn a hk]
      · by_cases hkh : k = h
        · subst hkh
          simp [hkt, outSet, outErase, hOut a hk]
        · simp [hkt, hkh]

/-- A new edge is added and removed again. -/
theorem removeEdge_addEdge (hs : g.Sound ∅ ∅ ∅) (hok : g.addEdge edge = .ok g₁) :
    ∃ g₂, g₁.removeEdge (.item edge) = .ok g₂ ∧ SameContents g g₂ := by
  have hs₁ := sound_addEdge hs hok
  obtain ⟨_, -, hok⟩ := bind_eq_ok.1 hok
  obtain ⟨g', hinsert, hok₁⟩ := bind_eq_ok.1 (relationOnExists_ok hok)
  obtain ⟨p, hp, hset⟩ := bind_eq_ok.1 hinsert
  cases hset
  obtain ⟨g₂, hout, hok₂⟩ := bind_eq_ok.1 hok₁
  obtain ⟨g₃, hin, hok₃⟩ := bind_eq_ok.1 hok₂
  have hg := Except.ok.inj hok₃
  cases setOut_eq hout
  cases setIn_eq hin
  obtain ⟨hfresh, hagrees, hcollections⟩ := insertLast_ok hs.edges hp
  have hget : p.collections.get? edge.id = some edge := by
    rw [hcollections]
    exact OrderedDict.get?_set_self _ _ _
  have hjoins : ∀ g' : Graph U γ κ, g'.internalEdges = p → g'.Joins edge.id edge.head edge.tail :=
    fun g' hg' ↦ ⟨edge, by rw [hg', hget], rfl, rfl⟩
  have hedges : g₁.internalEdges = p := by rw [← hg]; rfl
  have hmapping : g₁.nodeEdgeMapping = ((g.nodeEdgeMapping.modify edge.head
      (outSet edge.id edge.tail)).modify edge.tail (inSet edge.id edge.head)) := by rw [← hg]; rfl
  have hpopOut := popOut_eq
    ((hs₁.outs edge.head (Set.notMem_empty _) edge.id edge.tail).2 (hjoins g₁ hedges))
  have hpopIn := popIn_eq ((inHead_rewrite_outErase g₁ edge.head edge.id edge.tail edge.id).trans
    ((hs₁.ins edge.tail (Set.notMem_empty _) edge.id edge.head).2 (hjoins g₁ hedges)))
  have hpop : popOne p edge.id = .ok g.internalEdges := popOne_insertLast hs.edges hp
  have hcontains : g₁.internalEdges.contains (.uuid edge.id) = true := by
    rw [hedges]
    unfold Pile.contains
    rw [Progression.contains_iff (Ref.validateOrder_uuid edge.id)]
    simpa using (hagrees.mem_iff edge.id).2 (OrderedDict.mem_of_get? hget)
  have hedge : g₁.edge edge.id = .ok edge := edge_eq_ok.2 (by rw [hedges, hget])
  refine ⟨{ (((g₁.rewrite edge.head (outErase edge.id)).rewrite edge.tail
    (inErase edge.id)).invalidateAdjacency [edge.head, edge.tail]) with
      internalEdges := g.internalEdges }, ?_, ?_, rfl, ?_⟩
  · refine bind_eq_ok.2 ⟨edge.id, rfl, bind_eq_ok.2 ⟨⟨⟩, by simp [ensure, hcontains], ?_⟩⟩
    refine bind_eq_ok.2 ⟨edge, hedge, bind_eq_ok.2 ⟨_, hpopOut, bind_eq_ok.2 ⟨_, hpopIn, ?_⟩⟩⟩
    refine bind_eq_ok.2 ⟨g.internalEdges, ?_, rfl⟩
    exact (congrArg (fun q ↦ popOne q edge.id) hedges).trans hpop
  · change g₁.internalNodes = g.internalNodes
    rw [← hg]
    rfl
  · change (g₁.nodeEdgeMapping.modify edge.head (outErase edge.id)).modify edge.tail
      (inErase edge.id) = g.nodeEdgeMapping
    rw [hmapping]
    apply modify_cancel
    · intro a ha hmem
      obtain ⟨t, ht⟩ := (OrderedDict.mem_iff_exists_get? _ _).1 hmem
      have hj := (hs.outs edge.head (Set.notMem_empty _) edge.id t).1 ((outTail_of_get? ha _).trans ht)
      exact hfresh hj.mem
    · intro a ha hmem
      obtain ⟨h, hh⟩ := (OrderedDict.mem_iff_exists_get? _ _).1 hmem
      have hj := (hs.ins edge.tail (Set.notMem_empty _) edge.id h).1 ((inHead_of_get? ha _).trans hh)
      exact hfresh hj.mem

theorem SameContents.acyclic (h : SameContents g g') (hacyclic : g.Acyclic) : g'.Acyclic := by
  have hlinked : g'.Linked = g.Linked := by
    funext h' t
    exact propext (exists_congr fun e ↦ joins_congr h.edges e h' t)
  unfold Acyclic
  rw [hlinked]
  exact hacyclic

theorem acyclic_addNode (hok : g.addNode node = .ok g') (hacyclic : g.Acyclic) : g'.Acyclic := by
  obtain ⟨p, -, rfl⟩ := addNode_eq hok
  exact hacyclic

theorem hasNode_addNode (hs : g.Sound ∅ ∅ ∅) (hok : g.addNode node = .ok g') (n : U) :
    g'.hasNode n = true ↔ n = node.id ∨ g.hasNode n = true := by
  obtain ⟨p, hp, rfl⟩ := addNode_eq hok
  obtain ⟨-, hagrees, hcollections⟩ := insertLast_ok hs.nodes hp
  rw [hasNode_iff hs.nodes, hasNode_iff hagrees, hcollections]
  exact OrderedDict.mem_set _ _ _ _

theorem hasNode_congr (h : g'.internalNodes = g.internalNodes) (n : U) : g'.hasNode n = g.hasNode n := by
  rw [hasNode, h, hasNode]

theorem nodes_addEdge (hok : g.addEdge edge = .ok g') : g'.internalNodes = g.internalNodes := by
  obtain ⟨_, -, hok⟩ := bind_eq_ok.1 hok
  obtain ⟨g₁, hinsert, hok₁⟩ := bind_eq_ok.1 (relationOnExists_ok hok)
  obtain ⟨p, -, hset⟩ := bind_eq_ok.1 hinsert
  cases hset
  obtain ⟨g₂, hout, hok₂⟩ := bind_eq_ok.1 hok₁
  obtain ⟨g₃, hin, hok₃⟩ := bind_eq_ok.1 hok₂
  cases hok₃
  cases setOut_eq hout
  cases setIn_eq hin
  rfl

end Graph

end Lionagi.Protocols
