import Lionagi.Protocols.GraphSearch

/-!
# When a mutator returns

The piles of a graph take every node and every edge with a new identifier, and in a sound graph nothing
that a mutator looks up is missing. Adding an edge to an acyclic graph closes a cycle exactly when its
head can already be reached from its tail.
-/

universe u

set_option linter.unusedSectionVars false

namespace Lionagi.Protocols

namespace Graph

open Relation

variable {U γ κ : Type u} [DecidableEq U]

section Piles

variable {α : Type u} [Observable α U Unit]

/-- All items have one type here, and the item types of a pile admit it. -/
theorem admitItem_unit (hsub : ∀ t t' : Unit, Observable.issubclass (U := U) α t t' = true)
    (itemType : Option (List Unit)) (strictType : Bool) (a : α) :
    Pile.admitItem itemType strictType (.item a : Ref U α) = .ok a := by
  cases itemType with
  | none => rfl
  | some types =>
    cases types with
    | nil => rfl
    | cons t types => simp [Pile.admitItem, hsub]

theorem validateCollections_unit (hsub : ∀ t t' : Unit, Observable.issubclass (U := U) α t t' = true)
    (itemType : Option (List Unit)) (strictType : Bool) (a : α) :
    Pile.validateCollections (.item a : Ref U α) itemType strictType =
      .ok (OrderedDict.empty.set (Observable.id a) a) := by
  simp [Pile.validateCollections, Ref.falsy, Ref.toListType, Pile.admitAll, admitItem_unit hsub]

variable {p : Pile U α Unit}

theorem insertLast_total (hsub : ∀ t t' : Unit, Observable.issubclass (U := U) α t t' = true) {a : α}
    (hfresh : Observable.id a ∉ p.order) : ∃ p', insertLast p a = .ok p' := by
  have hkeys : (OrderedDict.empty.set (Observable.id a) a).keys = [Observable.id a] := rfl
  simp [insertLast, Pile.insert, validateCollections_unit hsub, hkeys, hfresh, Progression.insert,
    Pile.validateOrder_ofIds]

theorem insert_taken (hsub : ∀ t t' : Unit, Observable.issubclass (U := U) α t t' = true) {a : α}
    (hmem : Observable.id a ∈ p.order) (index : ℤ) : p.insert index (.item a) = (p, .error .itemExistsError) := by
  have hkeys : (OrderedDict.empty.set (Observable.id a) a).keys = [Observable.id a] := rfl
  simp [Pile.insert, validateCollections_unit hsub, hkeys, hmem]

end Piles

/-! ## Nodes -/

variable {g g' : Graph U γ κ}
variable {n x : U}

theorem mem_order_iff_hasNode : n ∈ g.internalNodes.order ↔ g.hasNode n = true := by
  unfold hasNode Pile.contains
  rw [Progression.contains_iff (Ref.validateOrder_uuid n)]
  simp

theorem not_mem_order_of_hasNode (h : g.hasNode n = false) : n ∉ g.internalNodes.order := by
  rw [mem_order_iff_hasNode, h]
  decide

variable {node : Node U γ}

theorem insertNode_total (hfresh : g.hasNode node.id = false) : ∃ g', g.insertNode node = .ok g' := by
  obtain ⟨p, hp⟩ := insertLast_total (fun _ _ ↦ rfl) (not_mem_order_of_hasNode hfresh)
  exact ⟨_, bind_eq_ok.2 ⟨p, hp, rfl⟩⟩

theorem addNode_total (hfresh : g.hasNode node.id = false) : ∃ g', g.addNode node = .ok g' := by
  obtain ⟨g', hg'⟩ := insertNode_total hfresh
  exact ⟨g', by rw [addNode, hg']; rfl⟩

theorem mem_insertNode (hok : g.insertNode node = .ok g') (hn : n ∈ g.nodeEdgeMapping) : n ∈ g'.nodeEdgeMapping := by
  obtain ⟨p, -, hset⟩ := bind_eq_ok.1 hok
  cases hset
  exact (OrderedDict.mem_set _ _ _ _).2 (Or.inr hn)

/-! ## Edges -/

variable {S : Set U} {edge : Edge U κ}

theorem insertEdge_total (hs : g.Sound ∅ ∅ S) (hfresh : edge.id ∉ g.internalEdges.collections) :
    ∃ g', g.insertEdge edge = .ok g' := by
  have hnot : edge.id ∉ g.internalEdges.order := fun hmem ↦ hfresh ((hs.edges.mem_iff _).1 hmem)
  obtain ⟨p, hp⟩ := insertLast_total (fun _ _ ↦ rfl) hnot
  exact ⟨_, bind_eq_ok.2 ⟨p, hp, rfl⟩⟩

/-- An edge is added when both of its ends are nodes and its identifier is new, and not otherwise. -/
theorem addEdge_total_iff (hs : g.Sound ∅ ∅ S) (edge : Edge U κ) :
    (∃ g', g.addEdge edge = .ok g') ↔
      g.hasNode edge.head = true ∧ g.hasNode edge.tail = true ∧
        edge.id ∉ g.internalEdges.collections := by
  constructor
  · rintro ⟨g', hok⟩
    obtain ⟨_, hends, hok⟩ := bind_eq_ok.1 hok
    rw [ensure_eq_ok, Bool.and_eq_true] at hends
    obtain ⟨g₁, hinsert, -⟩ := bind_eq_ok.1 (relationOnExists_ok hok)
    obtain ⟨p, -, -, hfresh, -⟩ := insertEdge_ok hs.edges hinsert
    exact ⟨hends.1, hends.2, hfresh⟩
  · rintro ⟨hhead, htail, hfresh⟩
    have hmem : ∀ {n}, g.hasNode n = true → n ∈ g.nodeEdgeMapping := fun hn ↦
      (hs.keys _).2 ((hasNode_iff hs.nodes _).1 hn)
    obtain ⟨g₁, hinsert⟩ := insertEdge_total hs hfresh
    obtain ⟨p, rfl, -, -, -⟩ := insertEdge_ok hs.edges hinsert
    obtain ⟨g₂, hout⟩ := setOut_total (g := { g with internalEdges := p }) (hmem hhead) edge.id edge.tail
    have hkeys := (setOut_ok hout).1.rewired.keys edge.tail
    obtain ⟨g₃, hin⟩ := setIn_total (hkeys.2 (hmem htail)) edge.id edge.head
    refine ⟨g₃.invalidateAdjacency [edge.head, edge.tail], ?_⟩
    have hlink : (do
        let g ← g.insertEdge edge
        let g ← g.setOut edge.head edge.id edge.tail
        let g ← g.setIn edge.tail edge.id edge.head
        return g.invalidateAdjacency [edge.head, edge.tail]) =
        (.ok (g₃.invalidateAdjacency [edge.head, edge.tail]) : Except PyError (Graph U γ κ)) :=
      bind_eq_ok.2 ⟨_, hinsert, bind_eq_ok.2 ⟨_, hout, bind_eq_ok.2 ⟨_, hin, rfl⟩⟩⟩
    unfold addEdge
    rw [hlink, hhead, htail]
    rfl

theorem joins_addEdge (hs : g.Sound ∅ ∅ S) (hok : g.addEdge edge = .ok g') (e h t : U) :
    g'.Joins e h t ↔ if e = edge.id then h = edge.head ∧ t = edge.tail else g.Joins e h t := by
  obtain ⟨_, -, hok⟩ := bind_eq_ok.1 hok
  obtain ⟨g₁, hinsert, hok₁⟩ := bind_eq_ok.1 (relationOnExists_ok hok)
  obtain ⟨p, rfl, -, -, hjoins⟩ := insertEdge_ok hs.edges hinsert
  obtain ⟨g₂, hout, hok₂⟩ := bind_eq_ok.1 hok₁
  obtain ⟨g₃, hin, hok₃⟩ := bind_eq_ok.1 hok₂
  cases hok₃
  have hedges : (g₃.invalidateAdjacency [edge.head, edge.tail]).internalEdges = p :=
    (setIn_ok hin).1.edges.trans (setOut_ok hout).1.edges
  exact (joins_congr hedges e h t).trans (hjoins e h t)

theorem linked_addEdge (hs : g.Sound ∅ ∅ S) (hok : g.addEdge edge = .ok g') (h t : U) :
    g'.Linked h t ↔ g.Linked h t ∨ h = edge.head ∧ t = edge.tail := by
  have hfresh := ((addEdge_total_iff hs edge).1 ⟨g', hok⟩).2.2
  constructor
  · rintro ⟨e, hjoins⟩
    rw [joins_addEdge hs hok] at hjoins
    split at hjoins
    · exact Or.inr hjoins
    · exact Or.inl ⟨e, hjoins⟩
  · rintro (⟨e, hjoins⟩ | hends)
    · have hne : e ≠ edge.id := fun heq ↦ hfresh (heq ▸ hjoins.mem)
      exact ⟨e, (joins_addEdge hs hok e h t).2 (by rwa [if_neg hne])⟩
    · exact ⟨edge.id, (joins_addEdge hs hok edge.id h t).2 (by rwa [if_pos rfl])⟩

/-- A step added to a relation without cycles closes one exactly when it leads back. -/
theorem acyclic_insert_iff {V : Type u} {r r' : V → V → Prop} {a b : V}
    (hr' : ∀ h t, r' h t ↔ r h t ∨ h = a ∧ t = b) (hacyclic : ∀ n, ¬ TransGen r n n) :
    (∀ n, ¬ TransGen r' n n) ↔ ¬ ReflTransGen r b a := by
  have hmono : ∀ h t, r h t → r' h t := fun h t hht ↦ (hr' h t).2 (Or.inl hht)
  constructor
  · intro h hback
    exact h a (TransGen.head' ((hr' a b).2 (Or.inr ⟨rfl, rfl⟩)) (ReflTransGen.mono hmono _ _ hback))
  · intro hnot n hcycle
    -- A walk either avoids the new step or passes it, and then ends behind it.
    have hwalk : ∀ m, TransGen r' n m →
        TransGen r n m ∨ ReflTransGen r n a ∧ ReflTransGen r b m := by
      intro m hm
      induction hm with
      | single hstep =>
        rcases (hr' _ _).1 hstep with hold | ⟨rfl, rfl⟩
        · exact Or.inl (.single hold)
        · exact Or.inr ⟨.refl, .refl⟩
      | tail _ hstep ih =>
        rcases (hr' _ _).1 hstep with hold | ⟨rfl, rfl⟩
        · exact ih.imp (fun hwalk ↦ hwalk.tail hold) fun hboth ↦ ⟨hboth.1, hboth.2.tail hold⟩
        · rcases ih with hwalk | hboth
          · exact Or.inr ⟨hwalk.to_reflTransGen, .refl⟩
          · exact absurd hboth.2 hnot
    rcases hwalk n hcycle with hold | ⟨hto, hfrom⟩
    · exact hacyclic n hold
    · exact hnot (hfrom.trans hto)

theorem acyclic_addEdge_iff (hs : g.Sound ∅ ∅ S) (hacyclic : g.Acyclic) (hok : g.addEdge edge = .ok g') :
    g'.Acyclic ↔ ¬ ReflTransGen g.Linked edge.tail edge.head :=
  acyclic_insert_iff (linked_addEdge hs hok) hacyclic

/-! ## Removing and replacing -/

theorem Sound.mem_nodeEdgeMapping {I O : Set U} (hs : g.Sound I O S) (hn : g.hasNode n = true) :
    n ∈ g.nodeEdgeMapping :=
  (hs.keys n).2 ((hasNode_iff hs.nodes n).1 hn)

theorem popNode_total {I O : Set U} (hs : g.Sound I O S) (hx : x ∈ g.nodeEdgeMapping) : ∃ g', g.popNode x = .ok g' := by
  obtain ⟨p, hp⟩ := popOne_total ((hs.keys x).1 hx)
  exact ⟨_, bind_eq_ok.2 ⟨⟨⟩, by simp [ensure, hx], bind_eq_ok.2 ⟨p, hp, rfl⟩⟩⟩

theorem removeEdge_total (hs : g.Sound ∅ ∅ S) {edge : Ref U (Edge U κ)} {e : U} (hid : edge.getId = .ok e)
    (hmem : g.internalEdges.contains (.uuid e) = true) : ∃ g', g.removeEdge edge = .ok g' := by
  have hkey : e ∈ g.internalEdges.collections := by
    rw [← hs.edges.mem_iff]
    unfold Pile.contains at hmem
    rw [Progression.contains_iff (Ref.validateOrder_uuid e)] at hmem
    simpa using hmem
  obtain ⟨x, hx⟩ := edge_total hkey
  have hjoin := edge_ok hx
  obtain ⟨g₁, hout⟩ := popOut_total ((hs.outs x.head (Set.notMem_empty _) e x.tail).2 hjoin)
  obtain ⟨hpatched₁, -, hin₁⟩ := popOut_ok hout
  have hinHead : g₁.inHead x.tail e = some x.head :=
    (hin₁ x.tail e).trans ((hs.ins x.tail (Set.notMem_empty _) e x.head).2 hjoin)
  obtain ⟨g₂, hin⟩ := popIn_total hinHead
  have hedges : g₂.internalEdges = g.internalEdges :=
    (popIn_ok hin).1.edges.trans hpatched₁.edges
  have hkey₂ : e ∈ (g₂.invalidateAdjacency [x.head, x.tail]).internalEdges.collections := by
    change e ∈ g₂.internalEdges.collections
    rwa [hedges]
  obtain ⟨g₃, hpop⟩ := popEdge_total hkey₂
  exact ⟨g₃, bind_eq_ok.2 ⟨e, hid, bind_eq_ok.2 ⟨⟨⟩, by simp [ensure, hmem], bind_eq_ok.2 ⟨x, hx,
    bind_eq_ok.2 ⟨g₁, hout, bind_eq_ok.2 ⟨g₂, hin, hpop⟩⟩⟩⟩⟩⟩

theorem removeNode_total (hs : g.Sound ∅ ∅ S) {node : Ref U (Node U γ)} (hid : node.getId = .ok x)
    (hmem : g.hasNode x = true) : ∃ g', g.removeNode node = .ok g' := by
  have hkey := hs.mem_nodeEdgeMapping hmem
  obtain ⟨a, ha⟩ := (OrderedDict.mem_iff_exists_get? _ _).1 hkey
  have hstart : g.Sound {x} ∅ S := hs.mono (Set.empty_subset _) (Set.Subset.refl _) (Set.Subset.refl _)
  obtain ⟨g₁, hins, hs₁, hnone₁, hkeys₁⟩ := removeInEdges_total hstart a.inEdges.nodup_keys fun e h ↦ by
    rw [← hs.ins x (Set.notMem_empty x), inHead_of_get? ha, OrderedDict.get?_eq_some_iff]
  obtain ⟨a₁, ha₁⟩ := (OrderedDict.mem_iff_exists_get? _ _).1 ((hkeys₁ x).2 hkey)
  have hopen : g₁.Sound {x} {x} S := hs₁.mono (Set.Subset.refl _) (Set.empty_subset _) (Set.Subset.refl _)
  obtain ⟨g₂, houts, hs₂, -, -, hkeys₂⟩ := removeOutEdges_total hopen a₁.outEdges.nodup_keys
    (fun e t ↦ by
      rw [← hs₁.outs x (Set.notMem_empty x), outTail_of_get? ha₁, OrderedDict.get?_eq_some_iff]) hnone₁
  obtain ⟨g', hpop⟩ := popNode_total (hs₂.invalidate [x] S fun u hu ↦ Or.inr hu)
    ((hkeys₂ x).2 ((hkeys₁ x).2 hkey))
  exact ⟨g', bind_eq_ok.2 ⟨x, hid, bind_eq_ok.2 ⟨⟨⟩, by simp [ensure, hmem], bind_eq_ok.2 ⟨a,
    adjacency_ok.2 ha, bind_eq_ok.2 ⟨g₁, hins, bind_eq_ok.2 ⟨a₁, adjacency_ok.2 ha₁,
      bind_eq_ok.2 ⟨g₂, houts, hpop⟩⟩⟩⟩⟩⟩⟩

theorem replaceNode_total (hs : g.Sound ∅ ∅ Set.univ) {old : Ref U (Node U γ)} {newNode : Node U γ}
    (hid : old.getId = .ok x) (hmem : g.hasNode x = true) (hfresh : g.hasNode newNode.id = false) :
    ∃ g', g.replaceNode old newNode = .ok g' := by
  have hne : x ≠ newNode.id := by
    rintro rfl
    rw [hmem] at hfresh
    cases hfresh
  obtain ⟨g₁, hinsert⟩ := insertNode_total hfresh
  have hs₁ := sound_insertNode hs hinsert
  have hnew := mem_nodeEdgeMapping_insertNode hinsert
  have hkey : x ∈ g₁.nodeEdgeMapping := mem_insertNode hinsert (hs.mem_nodeEdgeMapping hmem)
  obtain ⟨a, ha⟩ := (OrderedDict.mem_iff_exists_get? _ _).1 hkey
  have hstart : g₁.Sound {x} ∅ Set.univ :=
    hs₁.mono (Set.empty_subset _) (Set.Subset.refl _) (Set.Subset.refl _)
  obtain ⟨g₂, hins, hs₂, hnone₂, hkeys₂⟩ := redirectInEdges_total hne (Set.mem_univ _) hstart hnew
    a.inEdges.nodup_keys fun e h ↦ by
      rw [← hs₁.ins x (Set.notMem_empty x), inHead_of_get? ha, OrderedDict.get?_eq_some_iff]
  obtain ⟨a₂, ha₂⟩ := (OrderedDict.mem_iff_exists_get? _ _).1 ((hkeys₂ x).2 hkey)
  have hopen : g₂.Sound {x} {x} Set.univ :=
    hs₂.mono (Set.Subset.refl _) (Set.empty_subset _) (Set.Subset.refl _)
  obtain ⟨g₃, houts, hs₃, -, -, hkeys₃⟩ := redirectOutEdges_total hne (Set.mem_univ _) hopen
    ((hkeys₂ newNode.id).2 hnew) a₂.outEdges.nodup_keys (fun e t ↦ by
      rw [← hs₂.outs x (Set.notMem_empty x), outTail_of_get? ha₂, OrderedDict.get?_eq_some_iff]) hnone₂
  obtain ⟨g', hpop⟩ := popNode_total (hs₃.invalidate [x, newNode.id] Set.univ fun u hu ↦ Or.inr hu)
    ((hkeys₃ x).2 ((hkeys₂ x).2 hkey))
  exact ⟨g', bind_eq_ok.2 ⟨x, hid, bind_eq_ok.2 ⟨⟨⟩, by simp [ensure, hmem], bind_eq_ok.2 ⟨⟨⟩,
    by simp [ensure, hfresh], bind_eq_ok.2 ⟨g₁, hinsert, bind_eq_ok.2 ⟨a, adjacency_ok.2 ha,
      bind_eq_ok.2 ⟨g₂, hins, bind_eq_ok.2 ⟨a₂, adjacency_ok.2 ha₂, bind_eq_ok.2 ⟨g₃, houts,
        hpop⟩⟩⟩⟩⟩⟩⟩⟩⟩

end Graph

end Lionagi.Protocols
