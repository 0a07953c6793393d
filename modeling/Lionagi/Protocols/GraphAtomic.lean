import Lionagi.Library.Statements
import Lionagi.Protocols.GraphAddition
import Lionagi.Protocols.GraphOrder

/-!
# Mutators that raise

The mutators as procedures: where a statement raises, what was done before it stays. They agree with the
functions of the graph wherever they return. All of them but one look everything up before they change
anything; `splice_after` builds new edges from the properties of old ones halfway through.
-/

set_option linter.unusedSectionVars false

namespace Lionagi.Protocols

open Statements

/-- The validators of the fields `created_at` and `metadata` of an element. -/
structure ElementValidators (U κ : Type) where
  createdAt : Property U κ → Bool
  metadata : Property U κ → Bool

/-- The constructor of an edge, which validates the inherited fields as well. -/
def Edge.make {U κ : Type} [ParseUuid U] (v : ElementValidators U κ) (head tail : U)
    (condition label : Property U κ) (kwargs : OrderedDict String (Property U κ)) (freshId : U) :
    Except PyError (Edge U κ) := do
  let edge ← Edge.new head tail condition label kwargs freshId
  ensure ((kwargs.get? "created_at").all v.createdAt) .validationError
  ensure ((kwargs.get? "metadata").all v.metadata) .validationError
  return edge

namespace Graph

variable {U γ κ : Type} [DecidableEq U]

abbrev Procedure (U γ κ : Type) := EStateM PyError (Graph U γ κ)

/-! ## Procedures -/

namespace Stepwise

/-- A call on the pile of the nodes. -/
def onNodes {β : Type} (call : Pile U (Node U γ) Unit → Pile U (Node U γ) Unit × Except PyError β) :
    Procedure U γ κ β := fun g ↦
  match call g.internalNodes with
  | (p, .ok b) => .ok b { g with internalNodes := p }
  | (p, .error e) => .error e { g with internalNodes := p }

/-- A call on the pile of the edges. -/
def onEdges {β : Type} (call : Pile U (Edge U κ) Unit → Pile U (Edge U κ) Unit × Except PyError β) :
    Procedure U γ κ β := fun g ↦
  match call g.internalEdges with
  | (p, .ok b) => .ok b { g with internalEdges := p }
  | (p, .error e) => .error e { g with internalEdges := p }

def insertNode (node : Node U γ) : Procedure U γ κ PUnit := do
  onNodes fun p ↦ p.insert p.len (.item node)
  change fun g ↦ .ok (g.setAdjacency node.id Adjacency.empty)

def insertEdge (edge : Edge U κ) : Procedure U γ κ PUnit :=
  onEdges fun p ↦ p.insert p.len (.item edge)

def popEdge (uid : U) : Procedure U γ κ PUnit := do
  let _ ← onEdges fun p ↦ p.popRef (.uuid uid) false
  return ⟨⟩

def popNode (uid : U) : Procedure U γ κ PUnit := do
  change fun g ↦ do
    ensure (uid ∈ g.nodeEdgeMapping) .keyError
    return { g with nodeEdgeMapping := g.nodeEdgeMapping.erase uid }
  let _ ← onNodes fun p ↦ p.popRef (.uuid uid) false
  return ⟨⟩

def invalidateAdjacency (nodeIds : List U) : Procedure U γ κ PUnit :=
  change fun g ↦ .ok (g.invalidateAdjacency nodeIds)

/-- `except ItemExistsError as e: raise RelationError` -/
def asRelationError : PyError → PyError
  | .itemExistsError => .relationError
  | e => e

def addNode (node : Node U γ) : Procedure U γ κ PUnit := rethrow asRelationError (insertNode node)

def addEdge (edge : Edge U κ) : Procedure U γ κ PUnit := do
  ask fun g ↦ ensure (g.hasNode edge.head && g.hasNode edge.tail) .relationError
  rethrow asRelationError do
    insertEdge edge
    change fun g ↦ g.setOut edge.head edge.id edge.tail
    change fun g ↦ g.setIn edge.tail edge.id edge.head
    invalidateAdjacency [edge.head, edge.tail]

def removeInEdges : List (U × U) → Procedure U γ κ PUnit
  | [] => return ⟨⟩
  | (edgeId, nodeId) :: rest => do
    change fun g ↦ g.popOut nodeId edgeId
    popEdge edgeId
    invalidateAdjacency [nodeId]
    removeInEdges rest

def removeOutEdges : List (U × U) → Procedure U γ κ PUnit
  | [] => return ⟨⟩
  | (edgeId, nodeId) :: rest => do
    change fun g ↦ g.popIn nodeId edgeId
    popEdge edgeId
    invalidateAdjacency [nodeId]
    removeOutEdges rest

def removeNode (node : Ref U (Node U γ)) : Procedure U γ κ PUnit := do
  let uid ← ask fun _ ↦ node.getId
  ask fun g ↦ ensure (g.hasNode uid) .relationError
  let a ← ask fun g ↦ g.adjacency uid
  removeInEdges a.inEdges.entries
  let a ← ask fun g ↦ g.adjacency uid
  removeOutEdges a.outEdges.entries
  invalidateAdjacency [uid]
  popNode uid

def removeEdge (edge : Ref U (Edge U κ)) : Procedure U γ κ PUnit := do
  let uid ← ask fun _ ↦ edge.getId
  ask fun g ↦ ensure (g.internalEdges.contains (.uuid uid)) .relationError
  let edge ← ask fun g ↦ g.edge uid
  change fun g ↦ g.popOut edge.head uid
  change fun g ↦ g.popIn edge.tail uid
  invalidateAdjacency [edge.head, edge.tail]
  popEdge uid

def redirectInEdges (newId : U) : List (U × U) → Procedure U γ κ PUnit
  | [] => return ⟨⟩
  | (edgeId, headId) :: rest => do
    change fun g ↦ g.modifyEdge edgeId fun edge ↦ { edge with tail := newId }
    change fun g ↦ g.setIn newId edgeId headId
    change fun g ↦ g.setOut headId edgeId newId
    invalidateAdjacency [headId]
    redirectInEdges newId rest

def redirectOutEdges (newId : U) : List (U × U) → Procedure U γ κ PUnit
  | [] => return ⟨⟩
  | (edgeId, tailId) :: rest => do
    change fun g ↦ g.modifyEdge edgeId fun edge ↦ { edge with head := newId }
    change fun g ↦ g.setOut newId edgeId tailId
    change fun g ↦ g.setIn tailId edgeId newId
    invalidateAdjacency [tailId]
    redirectOutEdges newId rest

def replaceNode (old : Ref U (Node U γ)) (newNode : Node U γ) : Procedure U γ κ PUnit := do
  let oldId ← ask fun _ ↦ old.getId
  ask fun g ↦ ensure (g.hasNode oldId) .relationError
  ask fun g ↦ ensure (!g.hasNode newNode.id) .relationError
  insertNode newNode
  let mapping ← ask fun g ↦ g.adjacency oldId
  redirectInEdges newNode.id mapping.inEdges.entries
  let mapping ← ask fun g ↦ g.adjacency oldId
  redirectOutEdges newNode.id mapping.outEdges.entries
  invalidateAdjacency [oldId, newNode.id]
  popNode oldId

/-- The statements of an iteration of `splice_after` behind the construction of the new edge. -/
def relink (anchorId newId edgeId tailId : U) (replacement : Edge U κ) : Procedure U γ κ PUnit := do
  insertEdge replacement
  change fun g ↦ g.setOut newId replacement.id tailId
  change fun g ↦ g.setIn tailId replacement.id newId
  change fun g ↦ g.popIn tailId edgeId
  change fun g ↦ g.popOut anchorId edgeId
  popEdge edgeId
  invalidateAdjacency [tailId]

variable [ParseUuid U]

def spliceEdges (v : ElementValidators U κ) (anchorId newId : U) (freshIds : ℕ → U) :
    List (U × U) → Procedure U γ κ PUnit
  | [] => return ⟨⟩
  | (edgeId, tailId) :: rest => do
    let oldEdge ← ask fun g ↦ g.edge edgeId
    let replacement ← ask fun _ ↦ Edge.make v newId tailId (oldEdge.property "condition")
      (oldEdge.property "label") oldEdge.extraProperties (freshIds rest.length)
    relink anchorId newId edgeId tailId replacement
    spliceEdges v anchorId newId freshIds rest

/-- The edge from the anchor to the new node. -/
def linkNodes (v : ElementValidators U κ) (anchorId newId linkId : U) : Procedure U γ κ PUnit := do
  let link ← ask fun _ ↦ Edge.make v anchorId newId .none .none OrderedDict.empty linkId
  insertEdge link
  change fun g ↦ g.setOut anchorId link.id newId
  change fun g ↦ g.setIn newId link.id anchorId
  invalidateAdjacency [anchorId, newId]

def spliceAfter (v : ElementValidators U κ) (anchor : Ref U (Node U γ)) (newNode : Node U γ)
    (linkId : U) (freshIds : ℕ → U) : Procedure U γ κ PUnit := do
  let anchorId ← ask fun _ ↦ anchor.getId
  ask fun g ↦ ensure (g.hasNode anchorId) .relationError
  ask fun g ↦ ensure (!g.hasNode newNode.id) .relationError
  insertNode newNode
  let a ← ask fun g ↦ g.adjacency anchorId
  spliceEdges v anchorId newNode.id freshIds a.outEdges.entries
  linkNodes v anchorId newNode.id linkId

/-- A call. A cached read raises before it remembers anything. -/
def call (v : ElementValidators U κ) : GraphCall U γ κ → Procedure U γ κ PUnit
  | .addNode node => addNode node
  | .addEdge edge => addEdge edge
  | .removeNode node => removeNode node
  | .removeEdge edge => removeEdge edge
  | .replaceNode old newNode => replaceNode old newNode
  | .spliceAfter anchor newNode linkId freshIds => spliceAfter v anchor newNode linkId freshIds
  | .getPredecessorsCached node => change fun g ↦ (g.getPredecessorsCached node).map Prod.snd
  | .getSuccessorsCached node => change fun g ↦ (g.getSuccessorsCached node).map Prod.snd

/-! ## Agreement -/

variable {α β : Type}

theorem onNodes_eq_ok_iff {call : Pile U (Node U γ) Unit → Pile U (Node U γ) Unit × Except PyError β}
    {g g' : Graph U γ κ} {b : β} : onNodes call g = .ok b g' ↔
      ∃ p, call g.internalNodes = (p, .ok b) ∧ g' = { g with internalNodes := p } := by
  unfold onNodes
  split
  · next p b' heq => simp [heq, eq_comm]
  · next p e heq => simp [heq]

theorem onEdges_eq_ok_iff {call : Pile U (Edge U κ) Unit → Pile U (Edge U κ) Unit × Except PyError β}
    {g g' : Graph U γ κ} {b : β} : onEdges call g = .ok b g' ↔
      ∃ p, call g.internalEdges = (p, .ok b) ∧ g' = { g with internalEdges := p } := by
  unfold onEdges
  split
  · next p b' heq => simp [heq, eq_comm]
  · next p e heq => simp [heq]

theorem insertLast_eq_ok_iff [Observable α U Unit] {p p' : Pile U α Unit} {a : α} :
    insertLast p a = .ok p' ↔ p.insert p.len (.item a) = (p', .ok ()) := by
  unfold insertLast
  split
  · next q e heq => simp [heq]
  · next q heq => simp [heq]

theorem popOne_eq_ok_iff [Observable α U Unit] {p p' : Pile U α Unit} {uid : U} :
    popOne p uid = .ok p' ↔ ∃ b, p.popRef (.uuid uid) false = (p', .ok b) := by
  unfold popOne
  split
  · next q e heq => simp [heq]
  · next q b heq => simp [heq]

theorem agrees_insertNode (node : Node U γ) :
    Agrees (insertNode node : Procedure U γ κ PUnit) fun g ↦ g.insertNode node := by
  intro g g'
  unfold insertNode Graph.insertNode
  rw [run_bind_eq_ok_iff, Statements.bind_eq_ok_iff]
  constructor
  · rintro ⟨_, g₁, hinsert, hset⟩
    obtain ⟨p, hp, rfl⟩ := onNodes_eq_ok_iff.1 hinsert
    cases hset
    exact ⟨p, insertLast_eq_ok_iff.2 hp, rfl⟩
  · rintro ⟨p, hp, hset⟩
    cases hset
    exact ⟨⟨⟩, _, onNodes_eq_ok_iff.2 ⟨p, insertLast_eq_ok_iff.1 hp, rfl⟩, rfl⟩

theorem agrees_insertEdge (edge : Edge U κ) :
    Agrees (insertEdge edge : Procedure U γ κ PUnit) fun g ↦ g.insertEdge edge := by
  intro g g'
  unfold insertEdge Graph.insertEdge
  rw [onEdges_eq_ok_iff, Statements.bind_eq_ok_iff]
  constructor
  · rintro ⟨p, hp, rfl⟩
    exact ⟨p, insertLast_eq_ok_iff.2 hp, rfl⟩
  · rintro ⟨p, hp, hset⟩
    cases hset
    exact ⟨p, insertLast_eq_ok_iff.1 hp, rfl⟩

theorem agrees_popEdge (uid : U) :
    Agrees (popEdge uid : Procedure U γ κ PUnit) fun g ↦ g.popEdge uid := by
  intro g g'
  unfold popEdge Graph.popEdge
  rw [run_bind_eq_ok_iff, Statements.bind_eq_ok_iff]
  constructor
  · rintro ⟨b, g₁, hpop, hset⟩
    obtain ⟨p, hp, rfl⟩ := onEdges_eq_ok_iff.1 hpop
    cases hset
    exact ⟨p, popOne_eq_ok_iff.2 ⟨b, hp⟩, rfl⟩
  · rintro ⟨p, hp, hset⟩
    cases hset
    obtain ⟨b, hb⟩ := popOne_eq_ok_iff.1 hp
    exact ⟨b, _, onEdges_eq_ok_iff.2 ⟨p, hb, rfl⟩, rfl⟩

theorem agrees_popNode (uid : U) :
    Agrees (popNode uid : Procedure U γ κ PUnit) fun g ↦ g.popNode uid := by
  intro g g'
  unfold popNode Graph.popNode
  by_cases hmem : uid ∈ g.nodeEdgeMapping
  · have herase : change (fun g : Graph U γ κ ↦ do
        ensure (uid ∈ g.nodeEdgeMapping) .keyError
        return { g with nodeEdgeMapping := g.nodeEdgeMapping.erase uid }) g =
        .ok ⟨⟩ { g with nodeEdgeMapping := g.nodeEdgeMapping.erase uid } :=
      change_of_ok (by simp [ensure, hmem, bind, Except.bind, pure, Except.pure])
    rw [bind_of_ok herase, run_bind_eq_ok_iff]
    simp only [ensure, hmem, decide_true, if_true]
    constructor
    · rintro ⟨b, g₁, hpop, hset⟩
      obtain ⟨p, hp, rfl⟩ := onNodes_eq_ok_iff.1 hpop
      cases hset
      exact Statements.bind_eq_ok_iff.2 ⟨⟨⟩, rfl, Statements.bind_eq_ok_iff.2
        ⟨p, popOne_eq_ok_iff.2 ⟨b, hp⟩, rfl⟩⟩
    · intro h
      obtain ⟨_, -, h⟩ := Statements.bind_eq_ok_iff.1 h
      obtain ⟨p, hp, hset⟩ := Statements.bind_eq_ok_iff.1 h
      cases hset
      obtain ⟨b, hb⟩ := popOne_eq_ok_iff.1 hp
      exact ⟨b, _, onNodes_eq_ok_iff.2 ⟨p, hb, rfl⟩, rfl⟩
  · have herror : change (fun g : Graph U γ κ ↦ do
        ensure (uid ∈ g.nodeEdgeMapping) .keyError
        return { g with nodeEdgeMapping := g.nodeEdgeMapping.erase uid }) g = .error .keyError g := by
      simp [change, ensure, hmem, bind, Except.bind]
    rw [bind_of_error herror]
    simp [ensure, hmem, bind, Except.bind]

theorem agrees_invalidateAdjacency (nodeIds : List U) :
    Agrees (invalidateAdjacency nodeIds : Procedure U γ κ PUnit)
      fun g ↦ .ok (g.invalidateAdjacency nodeIds) :=
  agrees_change _

theorem relationOnExists_eq_ok_iff {x : Except PyError β} {b : β} : relationOnExists x = .ok b ↔ x = .ok b := by
  constructor
  · exact relationOnExists_ok
  · rintro rfl
    rfl

theorem agrees_addNode (node : Node U γ) :
    Agrees (addNode node : Procedure U γ κ PUnit) fun g ↦ g.addNode node :=
  ((agrees_insertNode node).rethrow asRelationError).congr fun _ _ ↦ relationOnExists_eq_ok_iff.symm

theorem agrees_addEdge (edge : Edge U κ) :
    Agrees (addEdge edge : Procedure U γ κ PUnit) fun g ↦ g.addEdge edge := by
  have hlink := (agrees_insertEdge (γ := γ) edge).bind <|
    (agrees_change fun g : Graph U γ κ ↦ g.setOut edge.head edge.id edge.tail).bind <|
    (agrees_change fun g ↦ g.setIn edge.tail edge.id edge.head).bind <|
    agrees_invalidateAdjacency [edge.head, edge.tail]
  exact Agrees.ask_bind fun _ ↦
    (hlink.rethrow asRelationError).congr fun _ _ ↦ relationOnExists_eq_ok_iff.symm

variable (rest : List (U × U))

theorem agrees_removeInEdges : Agrees (removeInEdges rest : Procedure U γ κ PUnit) fun g ↦ g.removeInEdges rest := by
  induction rest with
  | nil => exact agrees_pure
  | cons entry rest ih =>
    exact (agrees_change _).bind <| (agrees_popEdge entry.1).bind <|
      (agrees_invalidateAdjacency [entry.2]).bind ih

theorem agrees_removeOutEdges : Agrees (removeOutEdges rest : Procedure U γ κ PUnit) fun g ↦ g.removeOutEdges rest := by
  induction rest with
  | nil => exact agrees_pure
  | cons entry rest ih =>
    exact (agrees_change _).bind <| (agrees_popEdge entry.1).bind <|
      (agrees_invalidateAdjacency [entry.2]).bind ih

theorem agrees_removeNode (node : Ref U (Node U γ)) :
    Agrees (removeNode node : Procedure U γ κ PUnit) fun g ↦ g.removeNode node :=
  Agrees.ask_bind fun uid ↦ Agrees.ask_bind fun _ ↦ Agrees.ask_bind fun a ↦
    (agrees_removeInEdges a.inEdges.entries).bind <| Agrees.ask_bind fun a ↦
    (agrees_removeOutEdges a.outEdges.entries).bind <|
    (agrees_invalidateAdjacency [uid]).bind (agrees_popNode uid)

theorem agrees_removeEdge (edge : Ref U (Edge U κ)) :
    Agrees (removeEdge edge : Procedure U γ κ PUnit) fun g ↦ g.removeEdge edge :=
  Agrees.ask_bind fun uid ↦ Agrees.ask_bind fun _ ↦ Agrees.ask_bind fun edge ↦
    (agrees_change _).bind <| (agrees_change _).bind <|
    (agrees_invalidateAdjacency [edge.head, edge.tail]).bind (agrees_popEdge uid)

variable (newId : U)

theorem agrees_redirectInEdges (rest : List (U × U)) :
    Agrees (redirectInEdges newId rest : Procedure U γ κ PUnit)
      fun g ↦ g.redirectInEdges newId rest := by
  induction rest with
  | nil => exact agrees_pure
  | cons entry rest ih =>
    exact (agrees_change _).bind <| (agrees_change _).bind <| (agrees_change _).bind <|
      (agrees_invalidateAdjacency [entry.2]).bind ih

theorem agrees_redirectOutEdges (rest : List (U × U)) :
    Agrees (redirectOutEdges newId rest : Procedure U γ κ PUnit)
      fun g ↦ g.redirectOutEdges newId rest := by
  induction rest with
  | nil => exact agrees_pure
  | cons entry rest ih =>
    exact (agrees_change _).bind <| (agrees_change _).bind <| (agrees_change _).bind <|
      (agrees_invalidateAdjacency [entry.2]).bind ih

theorem agrees_replaceNode (old : Ref U (Node U γ)) (newNode : Node U γ) :
    Agrees (replaceNode old newNode : Procedure U γ κ PUnit) fun g ↦ g.replaceNode old newNode :=
  Agrees.ask_bind fun oldId ↦ Agrees.ask_bind fun _ ↦ Agrees.ask_bind fun _ ↦
    (agrees_insertNode newNode).bind <| Agrees.ask_bind fun mapping ↦
    (agrees_redirectInEdges newNode.id mapping.inEdges.entries).bind <| Agrees.ask_bind fun mapping ↦
    (agrees_redirectOutEdges newNode.id mapping.outEdges.entries).bind <|
    (agrees_invalidateAdjacency [oldId, newNode.id]).bind (agrees_popNode oldId)

/-- What an iteration of `splice_after` comes to where it returns. -/
def relinked (g : Graph U γ κ) (anchorId newId edgeId tailId : U) (replacement : Edge U κ) :
    Except PyError (Graph U γ κ) := do
  let g ← g.insertEdge replacement
  let g ← g.setOut newId replacement.id tailId
  let g ← g.setIn tailId replacement.id newId
  let g ← g.popIn tailId edgeId
  let g ← g.popOut anchorId edgeId
  let g ← g.popEdge edgeId
  return g.invalidateAdjacency [tailId]

theorem agrees_relink (anchorId newId edgeId tailId : U) (replacement : Edge U κ) :
    Agrees (relink anchorId newId edgeId tailId replacement : Procedure U γ κ PUnit)
      fun g ↦ relinked g anchorId newId edgeId tailId replacement :=
  (agrees_insertEdge replacement).bind <| (agrees_change _).bind <| (agrees_change _).bind <|
    (agrees_change _).bind <| (agrees_change _).bind <| (agrees_popEdge edgeId).bind <|
    agrees_invalidateAdjacency [tailId]

theorem new_of_make {v : ElementValidators U κ} {head tail freshId : U} {condition label : Property U κ}
    {kwargs : OrderedDict String (Property U κ)} {edge : Edge U κ}
    (h : Edge.make v head tail condition label kwargs freshId = .ok edge) :
    Edge.new head tail condition label kwargs freshId = .ok edge := by
  obtain ⟨edge', hnew, h⟩ := Statements.bind_eq_ok_iff.1 h
  obtain ⟨_, -, h⟩ := Statements.bind_eq_ok_iff.1 h
  obtain ⟨_, -, h⟩ := Statements.bind_eq_ok_iff.1 h
  cases h
  exact hnew

end Stepwise

end Graph

/-! ## Edges that can be made anew -/

namespace Property

variable {U κ : Type}

def isCondition : Property U κ → Bool
  | condition _ => true
  | _ => false

def isLabel : Property U κ → Bool
  | str _ => true
  | strs _ => true
  | _ => false

def isDict : Property U κ → Bool
  | none => true
  | dict _ => true
  | _ => false

end Property

namespace Edge

variable {U κ : Type} [DecidableEq U] [ParseUuid U]

/-- The properties of an edge can be passed to the constructor again: no key repeats a parameter, and
what stands under a key that the constructor reads is of the kind it asks for. -/
structure Recreatable (v : ElementValidators U κ) (e : Edge U κ) : Prop where
  names : ∀ name ∈ ["self", "head", "tail"], name ∉ e.properties
  properties : ∀ p, e.properties.get? "properties" = some p → p.isDict = true
  condition : (e.property "condition").truthy = true → (e.property "condition").isCondition = true
  label : (e.property "label").truthy = true → (e.property "label").isLabel = true
  id : ∀ p, e.properties.get? "id" = some p → ∃ uid, p.toId = .ok uid
  createdAt : ∀ p, e.properties.get? "created_at" = some p → v.createdAt p = true
  metadata : ∀ p, e.properties.get? "metadata" = some p → v.metadata p = true

/-- The identifier of the edge that is made anew. -/
def newId (e : Edge U κ) (freshId : U) : U :=
  match e.properties.get? "id" with
  | none => freshId
  | some p => (p.toId.toOption).getD freshId

theorem get?_extraProperties (e : Edge U κ) {key : String} (hcondition : key ≠ "condition")
    (hlabel : key ≠ "label") : e.extraProperties.get? key = e.properties.get? key := by
  apply Option.ext
  intro p
  rw [extraProperties, OrderedDict.get?_filter_eq_some_iff]
  simp [hcondition, hlabel]

variable {kwargs : OrderedDict String (Property U κ)} {condition label : Property U κ}

theorem setCondition_ok_iff :
    (∃ result, setCondition kwargs condition = .ok result) ↔
      (condition.truthy = true → condition.isCondition = true) := by
  unfold setCondition
  split
  · next htruthy => cases condition <;> simp_all [Property.isCondition]
  · next htruthy => simp [htruthy]

theorem setLabel_ok_iff :
    (∃ result, setLabel kwargs label = .ok result) ↔
      (label.truthy = true → label.isLabel = true) := by
  unfold setLabel
  split
  · next htruthy => cases label <;> simp_all [Property.isLabel]
  · next htruthy => simp [htruthy]

theorem mergeProperties_ok_iff :
    (∃ result, mergeProperties kwargs = .ok result) ↔
      ∀ p, kwargs.get? "properties" = some p → p.isDict = true := by
  unfold mergeProperties
  cases hget : kwargs.get? "properties" with
  | none => simp
  | some p => cases p <;> simp [Property.isDict]

variable {p : Option (Property U κ)}

theorem ensure_all_iff {accepts : Property U κ → Bool} {e : PyError} :
    (∃ x : PUnit.{1}, ensure (p.all accepts) e = .ok x) ↔ ∀ q, p = some q → accepts q = true := by
  cases p with
  | none => simp [ensure_eq_ok]
  | some q => simp [ensure_eq_ok]

variable {freshId : U}

theorem id_ok_iff :
    (∃ uid, p.elim (.ok freshId) Property.toId = .ok uid) ↔
      ∀ q, p = some q → ∃ uid, q.toId = .ok uid := by
  cases p with
  | none => simp
  | some q => simp

/-- The constructor without the inherited fields returns where every keyword is of the right kind. -/
theorem new_ok_iff {head tail : U} :
    (∃ edge, Edge.new head tail condition label kwargs freshId = .ok edge) ↔
      (∀ name ∈ ["self", "head", "tail"], name ∉ kwargs) ∧
      (∀ p, kwargs.get? "properties" = some p → p.isDict = true) ∧
      (condition.truthy = true → condition.isCondition = true) ∧
      (label.truthy = true → label.isLabel = true) ∧
      ∀ p, kwargs.get? "id" = some p → ∃ uid, p.toId = .ok uid := by
  have hnames : (∃ x : PUnit.{1}, ensure (["self", "head", "tail"].all (· ∉ kwargs)) .typeError = .ok x) ↔
      ∀ name ∈ ["self", "head", "tail"], name ∉ kwargs := by
    simp [ensure_eq_ok]
  have hproperties : (((kwargs.erase "id").erase "created_at").erase "metadata").get? "properties" =
      kwargs.get? "properties" := by
    rw [OrderedDict.get?_erase_of_ne _ (by decide), OrderedDict.get?_erase_of_ne _ (by decide),
      OrderedDict.get?_erase_of_ne _ (by decide)]
  rw [← hproperties, ← hnames, ← mergeProperties_ok_iff, ← id_ok_iff]
  refine exists_bind_iff fun _ _ ↦ exists_bind_iff fun merged _ ↦ ?_
  have hcondition : (∃ result, setCondition merged condition = .ok result) ↔
      (condition.truthy = true → condition.isCondition = true) := setCondition_ok_iff
  rw [← hcondition]
  refine exists_bind_iff fun conditioned _ ↦ ?_
  have hlabel : (∃ result, setLabel conditioned label = .ok result) ↔
      (label.truthy = true → label.isLabel = true) := setLabel_ok_iff
  rw [← hlabel]
  refine exists_bind_iff fun labelled _ ↦ ?_
  constructor
  · rintro ⟨edge, hedge⟩
    obtain ⟨uid, huid, -⟩ := Statements.bind_eq_ok_iff.1 hedge
    exact ⟨uid, huid⟩
  · rintro ⟨uid, huid⟩
    exact ⟨_, Statements.bind_eq_ok_iff.2 ⟨uid, huid, rfl⟩⟩

/-- The edge of `splice_after` is made exactly where the old one can be made anew. -/
theorem make_ok_iff (v : ElementValidators U κ) (e : Edge U κ) (head tail freshId : U) :
    (∃ edge, Edge.make v head tail (e.property "condition") (e.property "label") e.extraProperties
      freshId = .ok edge) ↔ e.Recreatable v := by
  have hget : ∀ key ∈ ["self", "head", "tail", "properties", "id", "created_at", "metadata"],
      e.extraProperties.get? key = e.properties.get? key := by
    intro key hkey
    apply e.get?_extraProperties
    · rintro rfl
      simp at hkey
    · rintro rfl
      simp at hkey
  have hnames : (∀ name ∈ ["self", "head", "tail"], name ∉ e.extraProperties) ↔
      ∀ name ∈ ["self", "head", "tail"], name ∉ e.properties := by
    apply forall₂_congr
    intro name hname
    rw [OrderedDict.mem_iff_isSome, OrderedDict.mem_iff_isSome, hget name (by simp at hname ⊢; tauto)]
  have hfields : ∀ edge : Edge U κ, (∃ edge' : Edge U κ, (do
      ensure ((e.extraProperties.get? "created_at").all v.createdAt) .validationError
      ensure ((e.extraProperties.get? "metadata").all v.metadata) .validationError
      return edge) = .ok edge') ↔
      (∀ p, e.properties.get? "created_at" = some p → v.createdAt p = true) ∧
        ∀ p, e.properties.get? "metadata" = some p → v.metadata p = true := by
    intro edge
    rw [hget "created_at" (by simp), hget "metadata" (by simp), ← ensure_all_iff, ← ensure_all_iff]
    refine exists_bind_iff fun _ _ ↦ ?_
    constructor
    · rintro ⟨_, h⟩
      obtain ⟨x, hx, -⟩ := Statements.bind_eq_ok_iff.1 h
      exact ⟨x, hx⟩
    · rintro ⟨x, hx⟩
      exact ⟨edge, Statements.bind_eq_ok_iff.2 ⟨x, hx, rfl⟩⟩
  refine (exists_bind_iff fun edge _ ↦ hfields edge).trans ?_
  rw [new_ok_iff, hnames, hget "properties" (by simp), hget "id" (by simp)]
  constructor
  · rintro ⟨⟨hnames, hproperties, hcondition, hlabel, hid⟩, hcreated, hmetadata⟩
    exact ⟨hnames, hproperties, hcondition, hlabel, hid, hcreated, hmetadata⟩
  · intro h
    exact ⟨⟨h.names, h.properties, h.condition, h.label, h.id⟩, h.createdAt, h.metadata⟩

/-- The ends and the identifier of the edge that is made anew. -/
theorem make_ok {v : ElementValidators U κ} {e edge : Edge U κ} {head tail : U}
    (h : Edge.make v head tail (e.property "condition") (e.property "label") e.extraProperties freshId = .ok edge) :
    edge.head = head ∧ edge.tail = tail ∧ edge.id = e.newId freshId := by
  have hnew := Graph.Stepwise.new_of_make h
  refine ⟨(Graph.edge_new_ok hnew).1, (Graph.edge_new_ok hnew).2, ?_⟩
  obtain ⟨_, -, hnew⟩ := Statements.bind_eq_ok_iff.1 hnew
  obtain ⟨_, -, hnew⟩ := Statements.bind_eq_ok_iff.1 hnew
  obtain ⟨_, -, hnew⟩ := Statements.bind_eq_ok_iff.1 hnew
  obtain ⟨_, -, hnew⟩ := Statements.bind_eq_ok_iff.1 hnew
  obtain ⟨uid, huid, hnew⟩ := Statements.bind_eq_ok_iff.1 hnew
  cases hnew
  rw [e.get?_extraProperties (by decide) (by decide)] at huid
  unfold newId
  cases hid : e.properties.get? "id" with
  | none =>
    rw [hid] at huid
    exact (Except.ok.inj huid).symm
  | some p =>
    rw [hid, Option.elim_some] at huid
    change uid = p.toId.toOption.getD freshId
    rw [huid]
    rfl

end Edge

namespace Graph.Stepwise

variable {U γ κ : Type} [DecidableEq U] [ParseUuid U] {g : Graph U γ κ}

/-! ## Splicing -/

variable {g' g₁ : Graph U γ κ} {edge replacement : Edge U κ}

theorem get?_insertEdge (hs : g.internalEdges.Agrees) (hok : g.insertEdge edge = .ok g') (u : U) :
    g'.internalEdges.collections.get? u =
      if u = edge.id then some edge else g.internalEdges.collections.get? u := by
  obtain ⟨p, hp, hset⟩ := Statements.bind_eq_ok_iff.1 hok
  cases hset
  rw [(insertLast_ok hs hp).2.2]
  exact OrderedDict.get?_set _ _ _ _

variable {a e linkId y : U}

theorem get?_popEdge (hok : g.popEdge e = .ok g') (u : U) :
    g'.internalEdges.collections.get? u =
      if u = e then none else g.internalEdges.collections.get? u := by
  obtain ⟨p, hp, hset⟩ := Statements.bind_eq_ok_iff.1 hok
  cases hset
  cases popOne_ok hp
  exact Pile.get?_popOne _ _ _

/-- With a new identifier an iteration returns: the new edge has taken the place of the old one. -/
theorem relinked_total (hs : g.Sound ∅ ∅ Set.univ) {t : U} (hjoin : g.Joins e a t) (hy : y ∈ g.nodeEdgeMapping)
    (hhead : replacement.head = y) (htail : replacement.tail = t)
    (hfresh : replacement.id ∉ g.internalEdges.collections) :
    ∃ g', relinked g a y e t replacement = .ok g' ∧ g'.Sound ∅ ∅ Set.univ ∧
      (∀ u, g'.internalEdges.collections.get? u = if u = e then none else
        if u = replacement.id then some replacement else g.internalEdges.collections.get? u) ∧
      ∀ u, u ∈ g'.nodeEdgeMapping ↔ u ∈ g.nodeEdgeMapping := by
  have htailKey : t ∈ g.nodeEdgeMapping := mem_of_inHead ((hs.ins _ (Set.notMem_empty _) e a).2 hjoin)
  have hne : e ≠ replacement.id := fun heq ↦ hfresh (heq ▸ hjoin.mem)
  obtain ⟨g₁, hinsert⟩ := insertEdge_total hs hfresh
  obtain ⟨p, hg₁, -⟩ := insertEdge_ok hs.edges hinsert
  have hmapping₁ : g₁.nodeEdgeMapping = g.nodeEdgeMapping := by rw [hg₁]
  obtain ⟨g₂, hsetOut⟩ := setOut_total (g := g₁) (hmapping₁ ▸ hy) replacement.id t
  have hpatched₂ := (setOut_ok hsetOut).1
  obtain ⟨g₃, hsetIn⟩ :=
    setIn_total ((hpatched₂.rewired.keys t).2 (hmapping₁ ▸ htailKey)) replacement.id y
  have hedges₃ : g₃.internalEdges = g₁.internalEdges := (setIn_ok hsetIn).1.edges.trans hpatched₂.edges
  have hlinked := hs.link hinsert (by rw [hhead, htail]; exact hsetOut) (by rw [hhead, htail]; exact hsetIn)
  obtain ⟨hs₃, -, hjoins₃⟩ := hlinked
  have hjoin₃ : g₃.Joins e a t := by
    rw [hjoins₃, if_neg hne]
    exact hjoin
  obtain ⟨g₄, hpopIn⟩ := popIn_total ((hs₃.ins _ (Set.notMem_empty _) e a).2 hjoin₃)
  obtain ⟨hpatched₄, -, hout₄⟩ := popIn_ok hpopIn
  obtain ⟨g₅, hpopOut⟩ := popOut_total
    ((hout₄ a e).trans ((hs₃.outs a (Set.notMem_empty a) e _).2 hjoin₃))
  have hedges₅ : g₅.internalEdges = g₃.internalEdges :=
    (popOut_ok hpopOut).1.edges.trans hpatched₄.edges
  obtain ⟨g₆, hpop⟩ := popEdge_total (g := g₅) (hedges₅ ▸ hjoin₃.mem)
  obtain ⟨hs₆, -, hkeys₆⟩ := splice_step (Set.mem_univ a) (Set.mem_univ y) hs hjoin hhead htail hinsert
    hsetOut hsetIn hpopIn hpopOut hpop
  refine ⟨g₆.invalidateAdjacency [t], ?_, hs₆, fun u ↦ ?_, hkeys₆⟩
  · exact bind_eq_ok.2 ⟨g₁, hinsert, bind_eq_ok.2 ⟨g₂, hsetOut, bind_eq_ok.2 ⟨g₃, hsetIn,
      bind_eq_ok.2 ⟨g₄, hpopIn, bind_eq_ok.2 ⟨g₅, hpopOut, bind_eq_ok.2 ⟨g₆, hpop, rfl⟩⟩⟩⟩⟩⟩
  · change g₆.internalEdges.collections.get? u = _
    rw [get?_popEdge hpop, hedges₅, hedges₃, get?_insertEdge hs.edges hinsert]

/-! ## Insertions that raise -/

theorem insertNode_taken {node : Node U γ} (hmem : node.id ∈ g.internalNodes.order) :
    insertNode node g = .error .itemExistsError g := by
  apply bind_of_error
  rw [onNodes, insert_taken (fun _ _ ↦ rfl) hmem]

theorem insertEdge_taken (hmem : edge.id ∈ g.internalEdges.order) : insertEdge edge g = .error .itemExistsError g := by
  rw [insertEdge, onEdges, insert_taken (fun _ _ ↦ rfl) hmem]

/-! ## When every edge is made anew -/

/-- Every outgoing edge can be made anew, its identifier and that of the link are free when they are
needed. -/
def Respliced (v : ElementValidators U κ) (g : Graph U γ κ) (linkId : U) (freshIds : ℕ → U) :
    List (U × U) → List U → Prop
  | [], taken => linkId ∉ taken
  | (e, _) :: rest, taken => ∃ edge, g.internalEdges.collections.get? e = some edge ∧
      edge.Recreatable v ∧ edge.newId (freshIds rest.length) ∉ taken ∧
      Respliced v g linkId freshIds rest (edge.newId (freshIds rest.length) :: taken.filter (· ≠ e))

theorem linkNodes_ok_iff {S : Set U} (hs : g.Sound ∅ ∅ S) (v : ElementValidators U κ) (ha : a ∈ g.nodeEdgeMapping)
    (hy : y ∈ g.nodeEdgeMapping) (linkId : U) :
    (∃ g', linkNodes v a y linkId g = .ok ⟨⟩ g') ↔ linkId ∉ g.internalEdges.collections := by
  have hmake : Edge.make v a y .none .none OrderedDict.empty linkId =
      .ok ⟨linkId, a, y, OrderedDict.empty⟩ := rfl
  have hlink : linkNodes v a y linkId g = (do
      insertEdge ⟨linkId, a, y, OrderedDict.empty⟩
      change fun g ↦ g.setOut a linkId y
      change fun g ↦ g.setIn y linkId a
      invalidateAdjacency [a, y]) g :=
    bind_of_ok (ask_of_ok hmake)
  rw [hlink]
  constructor
  · rintro ⟨g', hok⟩ hmem
    rw [bind_of_error (insertEdge_taken ((hs.edges.mem_iff _).2 hmem))] at hok
    cases hok
  · intro hfresh
    obtain ⟨g₁, hinsert⟩ : ∃ g₁, g.insertEdge ⟨linkId, a, y, OrderedDict.empty⟩ = .ok g₁ :=
      insertEdge_total hs hfresh
    obtain ⟨p, hg₁, -⟩ := insertEdge_ok hs.edges hinsert
    have hmapping : g₁.nodeEdgeMapping = g.nodeEdgeMapping := by rw [hg₁]
    obtain ⟨g₂, hout⟩ := setOut_total (g := g₁) (hmapping ▸ ha) linkId y
    have hkeys := (setOut_ok hout).1.rewired.keys y
    obtain ⟨g₃, hin⟩ := setIn_total (hkeys.2 (hmapping ▸ hy)) linkId a
    refine ⟨g₃.invalidateAdjacency [a, y], ?_⟩
    rw [bind_of_ok ((agrees_insertEdge _ g g₁).2 hinsert), bind_of_ok (change_of_ok hout),
      bind_of_ok (change_of_ok hin)]
    rfl

variable {v : ElementValidators U κ} {freshIds : ℕ → U} {rest : List (U × U)}

/-- An iteration whose edge can be made anew, under a new identifier. -/
theorem spliceEdges_step {t : U} (hedge : g.edge e = .ok edge)
    (hmake : Edge.make v y t (edge.property "condition") (edge.property "label") edge.extraProperties
      (freshIds rest.length) = .ok replacement) (hrelink : relink a y e t replacement g = .ok ⟨⟩ g') :
    spliceEdges v a y freshIds ((e, t) :: rest) g = spliceEdges v a y freshIds rest g' := by
  have hasked : ask (fun g : Graph U γ κ ↦ g.edge e) g = .ok edge g := ask_of_ok hedge
  have hmade : ask (fun _ : Graph U γ κ ↦ Edge.make v y t (edge.property "condition")
      (edge.property "label") edge.extraProperties (freshIds rest.length)) g = .ok replacement g :=
    ask_of_ok hmake
  rw [spliceEdges, bind_of_ok hasked, bind_of_ok hmade, bind_of_ok hrelink]

/-- The loop and the link return exactly where every edge can be made anew. -/
theorem spliced_ok_iff {g₀ : Graph U γ κ} {taken : List U} (hs : g.Sound ∅ ∅ Set.univ)
    (hnodup : (rest.map Prod.fst).Nodup) (hrest : ∀ e t, (e, t) ∈ rest → g.Joins e a t)
    (hsame : ∀ e t, (e, t) ∈ rest → g.internalEdges.collections.get? e = g₀.internalEdges.collections.get? e)
    (ha : a ∈ g.nodeEdgeMapping) (hy : y ∈ g.nodeEdgeMapping)
    (htaken : ∀ u, u ∈ g.internalEdges.collections ↔ u ∈ taken) :
    (∃ g', (spliceEdges v a y freshIds rest >>= fun _ ↦ linkNodes v a y linkId) g = .ok ⟨⟩ g') ↔
      Respliced v g₀ linkId freshIds rest taken := by
  induction rest generalizing g taken with
  | nil =>
    rw [bind_of_ok (m := spliceEdges v a y freshIds []) rfl, linkNodes_ok_iff hs v ha hy, htaken]
    rfl
  | cons entry rest ih =>
    obtain ⟨e, t⟩ := entry
    have hjoin := hrest e t List.mem_cons_self
    obtain ⟨edge, hget, -, -⟩ := id hjoin
    have hedge : g.edge e = .ok edge := edge_eq_ok.2 hget
    have hasked : ask (fun g : Graph U γ κ ↦ g.edge e) g = .ok edge g := ask_of_ok hedge
    have honly : (∃ edge', some edge = some edge' ∧ edge'.Recreatable v ∧
        edge'.newId (freshIds rest.length) ∉ taken ∧ Respliced v g₀ linkId freshIds rest
          (edge'.newId (freshIds rest.length) :: taken.filter (· ≠ e))) ↔
        edge.Recreatable v ∧ edge.newId (freshIds rest.length) ∉ taken ∧ Respliced v g₀ linkId freshIds rest
          (edge.newId (freshIds rest.length) :: taken.filter (· ≠ e)) := by
      simp
    rw [Respliced, ← hsame e t List.mem_cons_self, hget, honly, ← Edge.make_ok_iff v edge y t
      (freshIds rest.length)]
    cases hmake : Edge.make v y t (edge.property "condition") (edge.property "label")
        edge.extraProperties (freshIds rest.length) with
    | error err =>
      have hraised : spliceEdges v a y freshIds ((e, t) :: rest) g = .error err g := by
        rw [spliceEdges, bind_of_ok hasked]
        exact bind_of_error (ask_of_error hmake)
      rw [bind_of_error hraised]
      exact iff_of_false (fun ⟨_, h⟩ ↦ by cases h) fun ⟨⟨_, h⟩, _⟩ ↦ by cases h
    | ok replacement =>
      obtain ⟨hhead, htail, hid⟩ := Edge.make_ok hmake
      rw [← hid, ← htaken replacement.id]
      by_cases hfresh : replacement.id ∈ g.internalEdges.collections
      · have hraised : spliceEdges v a y freshIds ((e, t) :: rest) g = .error .itemExistsError g := by
          have hmade : ask (fun _ : Graph U γ κ ↦ Edge.make v y t (edge.property "condition")
              (edge.property "label") edge.extraProperties (freshIds rest.length)) g =
              .ok replacement g := ask_of_ok hmake
          rw [spliceEdges, bind_of_ok hasked, bind_of_ok hmade]
          exact bind_of_error (bind_of_error (insertEdge_taken ((hs.edges.mem_iff _).2 hfresh)))
        rw [bind_of_error hraised]
        exact iff_of_false (fun ⟨_, h⟩ ↦ by cases h) fun h ↦ h.2.1 hfresh
      · obtain ⟨g', hrelinked, hs', hget', hkeys'⟩ := relinked_total hs hjoin hy hhead htail hfresh
        have hstep := spliceEdges_step hedge hmake ((agrees_relink a y e t replacement g g').2 hrelinked)
        rw [bind_congr_run hstep]
        have hkept : ∀ e' t', (e', t') ∈ rest →
            g'.internalEdges.collections.get? e' = g.internalEdges.collections.get? e' := by
          intro e' t' hmem
          have hj := hrest e' t' (List.mem_cons_of_mem _ hmem)
          rw [hget', if_neg ((mem_rest_iff hnodup e' t').2 hmem).1,
            if_neg fun heq : e' = replacement.id ↦ hfresh (heq ▸ hj.mem)]
        have htaken' : ∀ u, u ∈ g'.internalEdges.collections ↔
            u ∈ replacement.id :: taken.filter (· ≠ e) := by
          intro u
          rw [OrderedDict.mem_iff_isSome, hget', List.mem_cons, List.mem_filter, ← htaken u,
            OrderedDict.mem_iff_isSome]
          by_cases hu : u = e
          · subst hu
            have hne : u ≠ replacement.id := fun heq ↦ hfresh (heq ▸ hjoin.mem)
            simp [hne]
          · by_cases hu' : u = replacement.id
            · subst hu'
              simp [hu]
            · simp [hu, hu']
        refine (ih hs' (List.nodup_cons.1 hnodup).2 (fun e' t' hmem ↦ ?_) (fun e' t' hmem ↦ ?_)
          ((hkeys' a).2 ha) ((hkeys' y).2 hy) htaken').trans ?_
        · obtain ⟨edge', hedge', hends⟩ := hrest e' t' (List.mem_cons_of_mem _ hmem)
          exact ⟨edge', (hkept e' t' hmem).trans hedge', hends⟩
        · rw [hkept e' t' hmem]
          exact hsame e' t' (List.mem_cons_of_mem _ hmem)
        · constructor
          · intro h
            exact ⟨⟨replacement, rfl⟩, hfresh, h⟩
          · intro h
            exact h.2.2

/-! ## What the procedures leave alone -/

theorem keeps_nodes_insertEdge (edge : Edge U κ) :
    Keeps internalNodes (insertEdge edge : Procedure U γ κ PUnit) := by
  intro g
  unfold insertEdge onEdges
  split <;> rfl

theorem keeps_nodes_popEdge (uid : U) : Keeps internalNodes (popEdge uid : Procedure U γ κ PUnit) := by
  refine Keeps.bind (fun g ↦ ?_) fun _ ↦ keeps_pure _
  unfold onEdges
  split <;> rfl

theorem keeps_nodes_invalidate (nodeIds : List U) :
    Keeps internalNodes (invalidateAdjacency nodeIds : Procedure U γ κ PUnit) :=
  keeps_change fun g g' h ↦ by
    cases h
    rfl

variable {f : Graph U γ κ → Except PyError (Graph U γ κ)}

/-- The four statements on the mapping. -/
theorem keeps_nodes_patch {n : U} (h : ∀ g g', f g = .ok g' → Patched g g' n) : Keeps internalNodes (change f) :=
  keeps_change fun g g' hok ↦ (h g g' hok).rewired.nodes

theorem keeps_nodes_relink (a y e t : U) (replacement : Edge U κ) :
    Keeps internalNodes (relink a y e t replacement : Procedure U γ κ PUnit) :=
  (keeps_nodes_insertEdge replacement).bind fun _ ↦
    (keeps_nodes_patch fun _ _ h ↦ (setOut_ok h).1).bind fun _ ↦
    (keeps_nodes_patch fun _ _ h ↦ (setIn_ok h).1).bind fun _ ↦
    (keeps_nodes_patch fun _ _ h ↦ (popIn_ok h).1).bind fun _ ↦
    (keeps_nodes_patch fun _ _ h ↦ (popOut_ok h).1).bind fun _ ↦
    (keeps_nodes_popEdge e).bind fun _ ↦ keeps_nodes_invalidate [t]

theorem keeps_nodes_spliceEdges (v : ElementValidators U κ) (a y : U) (freshIds : ℕ → U)
    (rest : List (U × U)) :
    Keeps internalNodes (spliceEdges v a y freshIds rest : Procedure U γ κ PUnit) := by
  induction rest with
  | nil => exact keeps_pure _
  | cons entry rest ih =>
    exact (keeps_ask _).bind fun _ ↦ (keeps_ask _).bind fun replacement ↦
      (keeps_nodes_relink a y entry.1 entry.2 replacement).bind fun _ ↦ ih

theorem keeps_nodes_linkNodes (v : ElementValidators U κ) (a y linkId : U) :
    Keeps internalNodes (linkNodes v a y linkId : Procedure U γ κ PUnit) :=
  (keeps_ask _).bind fun link ↦ (keeps_nodes_insertEdge link).bind fun _ ↦
    (keeps_nodes_patch fun _ _ h ↦ (setOut_ok h).1).bind fun _ ↦
    (keeps_nodes_patch fun _ _ h ↦ (setIn_ok h).1).bind fun _ ↦ keeps_nodes_invalidate [a, y]

/-! ## Atomicity -/

/-- Where the call raises, the nodes, the edges and the mapping are those of before. -/
def AtomicAt (m : Procedure U γ κ PUnit) (g : Graph U γ κ) : Prop :=
  ∀ e g', m g = .error e g' → SameContents g g'

variable {m : Procedure U γ κ PUnit}

theorem atomicAt_of_ok (h : m g = .ok ⟨⟩ g') : AtomicAt m g := by
  intro e g'' herror
  rw [h] at herror
  cases herror

theorem atomicAt_of_error {e : PyError} (h : m g = .error e g) : AtomicAt m g := by
  intro e' g' herror
  rw [h] at herror
  cases herror
  exact ⟨rfl, rfl, rfl⟩

theorem atomicAt_change (f : Graph U γ κ → Except PyError (Graph U γ κ)) : AtomicAt (change f) g := by
  cases hf : f g with
  | ok g' => exact atomicAt_of_ok (change_of_ok hf)
  | error e =>
    apply atomicAt_of_error (e := e)
    rw [change, hf]

/-- A question asked first may raise; what it answers is passed on. -/
theorem atomicAt_ask {α : Type} {q : Graph U γ κ → Except PyError α} {k : α → Procedure U γ κ PUnit}
    (h : ∀ a, q g = .ok a → AtomicAt (k a) g) : AtomicAt (ask q >>= k) g := by
  cases hq : q g with
  | error e => exact atomicAt_of_error (bind_of_error (ask_of_error hq))
  | ok a =>
    intro e g' herror
    rw [bind_of_ok (ask_of_ok hq)] at herror
    exact h a hq e g' herror

/-- Only where the function gives no graph there is something to show. -/
theorem atomicAt_of_agrees (hagrees : Agrees m f) (h : (¬ ∃ g', f g = .ok g') → AtomicAt m g) : AtomicAt m g := by
  by_cases hok : ∃ g', f g = .ok g'
  · obtain ⟨g', hok⟩ := hok
    exact atomicAt_of_ok ((hagrees g g').2 hok)
  · exact h hok

theorem atomic_addNode (node : Node U γ) : AtomicAt (addNode node) g :=
  atomicAt_of_agrees (agrees_addNode node) fun hnot ↦ by
    cases hfresh : g.hasNode node.id with
    | false => exact absurd (addNode_total hfresh) hnot
    | true =>
      have hmem := mem_order_iff_hasNode.2 hfresh
      exact atomicAt_of_error (rethrow_of_error (insertNode_taken hmem))

theorem atomic_addEdge (hs : g.Sound ∅ ∅ Set.univ) (edge : Edge U κ) : AtomicAt (addEdge edge) g :=
  atomicAt_of_agrees (agrees_addEdge edge) fun hnot ↦ atomicAt_ask fun _ hends ↦ by
    rw [ensure_eq_ok, Bool.and_eq_true] at hends
    have htaken : edge.id ∈ g.internalEdges.collections := by
      by_contra hfresh
      exact hnot ((addEdge_total_iff hs edge).2 ⟨hends.1, hends.2, hfresh⟩)
    have hmem := (hs.edges.mem_iff _).2 htaken
    exact atomicAt_of_error (rethrow_of_error (bind_of_error (insertEdge_taken hmem)))

theorem atomic_removeNode (hs : g.Sound ∅ ∅ Set.univ) (node : Ref U (Node U γ)) :
    AtomicAt (removeNode node) g :=
  atomicAt_of_agrees (agrees_removeNode node) fun hnot ↦ atomicAt_ask fun _ hid ↦
    atomicAt_ask fun _ hmem ↦ absurd (removeNode_total hs hid (ensure_eq_ok.1 hmem)) hnot

theorem atomic_removeEdge (hs : g.Sound ∅ ∅ Set.univ) (edge : Ref U (Edge U κ)) :
    AtomicAt (removeEdge edge) g :=
  atomicAt_of_agrees (agrees_removeEdge edge) fun hnot ↦ atomicAt_ask fun _ hid ↦
    atomicAt_ask fun _ hmem ↦ absurd (removeEdge_total hs hid (ensure_eq_ok.1 hmem)) hnot

theorem atomic_replaceNode (hs : g.Sound ∅ ∅ Set.univ) (old : Ref U (Node U γ)) (newNode : Node U γ) :
    AtomicAt (replaceNode old newNode) g :=
  atomicAt_of_agrees (agrees_replaceNode old newNode) fun hnot ↦ atomicAt_ask fun _ hid ↦
    atomicAt_ask fun _ hmem ↦ atomicAt_ask fun _ hfresh ↦ by
      have hfresh := ensure_eq_ok.1 hfresh
      rw [Bool.not_eq_true'] at hfresh
      exact absurd (replaceNode_total hs hid (ensure_eq_ok.1 hmem) hfresh) hnot

/-- `splice_after` is atomic where it returns or its first checks fail. -/
def SpliceSafe (v : ElementValidators U κ) (g : Graph U γ κ) (anchor : Ref U (Node U γ))
    (newNode : Node U γ) (linkId : U) (freshIds : ℕ → U) : Prop :=
  ∀ anchorId, anchor.getId = .ok anchorId → g.hasNode anchorId = true →
    g.hasNode newNode.id = false →
      Respliced v g linkId freshIds (g.outEntries anchorId) g.internalEdges.order

/-- The condition under which a call is atomic. -/
def Harmless (v : ElementValidators U κ) (g : Graph U γ κ) : GraphCall U γ κ → Prop
  | .spliceAfter anchor newNode linkId freshIds => SpliceSafe v g anchor newNode linkId freshIds
  | _ => True

/-- With the checks passed the new node is in, and the loop and the link are what is left. -/
theorem spliceAfter_checked {anchor : Ref U (Node U γ)} {newNode : Node U γ} {anchorId : U}
    (hid : anchor.getId = .ok anchorId) (hmem : g.hasNode anchorId = true) (hfresh : g.hasNode newNode.id = false)
    (hinsert : g.insertNode newNode = .ok g₁) {a : Adjacency U} (ha : g₁.nodeEdgeMapping.get? anchorId = some a) :
    spliceAfter v anchor newNode linkId freshIds g =
      (spliceEdges v anchorId newNode.id freshIds a.outEdges.entries >>=
        fun _ ↦ linkNodes v anchorId newNode.id linkId) g₁ := by
  have hasked : ask (fun _ : Graph U γ κ ↦ anchor.getId) g = .ok anchorId g := ask_of_ok hid
  have hpresent : ask (fun g : Graph U γ κ ↦ ensure (g.hasNode anchorId) .relationError) g =
      .ok ⟨⟩ g := ask_of_ok (ensure_eq_ok.2 hmem)
  have habsent : ask (fun g : Graph U γ κ ↦ ensure (!g.hasNode newNode.id) .relationError) g =
      .ok ⟨⟩ g := ask_of_ok (ensure_eq_ok.2 (by rw [hfresh]; rfl))
  have hinserted : insertNode newNode g = .ok ⟨⟩ g₁ := (agrees_insertNode newNode g g₁).2 hinsert
  have hread : ask (fun g : Graph U γ κ ↦ g.adjacency anchorId) g₁ = .ok a g₁ :=
    ask_of_ok (adjacency_ok.2 ha)
  rw [spliceAfter, bind_of_ok hasked, bind_of_ok hpresent, bind_of_ok habsent, bind_of_ok hinserted,
    bind_of_ok hread]

/-- Once the new node is in, an exception leaves it there. -/
theorem not_atomicAt_of_inserted {node : Node U γ} (hs : g.Sound ∅ ∅ Set.univ) (hinsert : g.insertNode node = .ok g₁)
    {e : PyError} (hrun : m g = .error e g') (hnodes : g'.internalNodes = g₁.internalNodes) : ¬ AtomicAt m g := by
  intro hatomic
  have hsame := (hatomic e g' hrun).nodes
  obtain ⟨p, hp, hset⟩ := Statements.bind_eq_ok_iff.1 hinsert
  cases hset
  obtain ⟨hfresh, -, hcollections⟩ := insertLast_ok hs.nodes hp
  have hkept : p.collections = g.internalNodes.collections :=
    congrArg Pile.collections (hnodes.symm.trans hsame)
  apply hfresh
  rw [← hkept, hcollections]
  exact (OrderedDict.mem_set _ _ _ _).2 (Or.inl rfl)

theorem atomic_spliceAfter_iff (hs : g.Sound ∅ ∅ Set.univ) (v : ElementValidators U κ)
    (anchor : Ref U (Node U γ)) (newNode : Node U γ) (linkId : U) (freshIds : ℕ → U) :
    AtomicAt (spliceAfter v anchor newNode linkId freshIds) g ↔
      SpliceSafe v g anchor newNode linkId freshIds := by
  -- The three checks come before anything is changed.
  by_cases hchecks : ∃ anchorId, anchor.getId = .ok anchorId ∧ g.hasNode anchorId = true ∧
      g.hasNode newNode.id = false
  · obtain ⟨anchorId, hid, hmem, hfresh⟩ := hchecks
    obtain ⟨g₁, hinsert⟩ := insertNode_total hfresh
    have hs₁ := sound_insertNode hs hinsert
    have hkey := hs.mem_nodeEdgeMapping hmem
    have hne : anchorId ≠ newNode.id := by
      rintro rfl
      rw [hmem] at hfresh
      cases hfresh
    obtain ⟨a, ha⟩ := (OrderedDict.mem_iff_exists_get? _ _).1 hkey
    have hedges₁ : g₁.internalEdges = g.internalEdges := by
      obtain ⟨p, -, hset⟩ := Statements.bind_eq_ok_iff.1 hinsert
      cases hset
      rfl
    have ha₁ : g₁.nodeEdgeMapping.get? anchorId = some a := by
      obtain ⟨p, -, hset⟩ := Statements.bind_eq_ok_iff.1 hinsert
      cases hset
      exact (OrderedDict.get?_set_of_ne _ hne _).trans ha
    have hentries : g.outEntries anchorId = a.outEdges.entries := by
      rw [outEntries, ha, Option.elim_some]
    have hrun : spliceAfter v anchor newNode linkId freshIds g =
        (spliceEdges v anchorId newNode.id freshIds a.outEdges.entries >>=
          fun _ ↦ linkNodes v anchorId newNode.id linkId) g₁ :=
      spliceAfter_checked hid hmem hfresh hinsert ha₁
    have hsafe : SpliceSafe v g anchor newNode linkId freshIds ↔
        Respliced v g linkId freshIds a.outEdges.entries g.internalEdges.order := by
      rw [← hentries]
      constructor
      · intro h
        exact h anchorId hid hmem hfresh
      · intro h anchorId' hid' _ _
        rw [hid] at hid'
        cases hid'
        exact h
    have hreturns : (∃ g', (spliceEdges v anchorId newNode.id freshIds a.outEdges.entries >>=
        fun _ ↦ linkNodes v anchorId newNode.id linkId) g₁ = .ok ⟨⟩ g') ↔
        Respliced v g linkId freshIds a.outEdges.entries g.internalEdges.order :=
      spliced_ok_iff hs₁ a.outEdges.nodup_keys
      (fun e t hmem ↦ by
        rw [← hs₁.outs anchorId (Set.notMem_empty anchorId), outTail_of_get? ha₁,
          OrderedDict.get?_eq_some_iff]
        exact hmem)
      (fun e t _ ↦ by rw [hedges₁]) (mem_insertNode hinsert hkey)
      (mem_nodeEdgeMapping_insertNode hinsert) fun u ↦ by rw [hedges₁, hs.edges.mem_iff]
    rw [hsafe, ← hreturns]
    constructor
    · intro hatomic
      cases hresult : spliceAfter v anchor newNode linkId freshIds g with
      | ok _ g' => exact ⟨g', hrun ▸ hresult⟩
      | error e g' =>
        have hkeeps := ((keeps_nodes_spliceEdges v anchorId newNode.id freshIds a.outEdges.entries).bind
          fun _ ↦ keeps_nodes_linkNodes v anchorId newNode.id linkId) g₁
        rw [← hrun, hresult] at hkeeps
        exact absurd hatomic (not_atomicAt_of_inserted hs hinsert hresult hkeeps)
    · rintro ⟨g', hok⟩
      exact atomicAt_of_ok (hrun.trans hok)
  · have hatomic : AtomicAt (spliceAfter v anchor newNode linkId freshIds) g :=
      atomicAt_ask fun anchorId hid ↦ atomicAt_ask fun _ hmem ↦ atomicAt_ask fun _ hfresh ↦ by
        have hfresh := ensure_eq_ok.1 hfresh
        rw [Bool.not_eq_true'] at hfresh
        exact absurd ⟨anchorId, hid, ensure_eq_ok.1 hmem, hfresh⟩ hchecks
    exact iff_of_true hatomic fun anchorId hid hmem hfresh ↦
      absurd ⟨anchorId, hid, hmem, hfresh⟩ hchecks

section Example

/-- Two edges leave a node; one of them has a property named like a parameter of the constructor. -/
def headedCalls : List (GraphCall ℕ Unit Unit) :=
  [.addNode ⟨0, ()⟩, .addNode ⟨1, ()⟩, .addEdge ⟨10, 0, 1, .empty⟩,
    .addEdge ⟨11, 0, 1, OrderedDict.empty.set "head" (.str "x")⟩]

def headed : Graph ℕ Unit Unit := (replay headedCalls (new 90 91)).getD (new 90 91)

theorem sound_headed : headed.Sound ∅ ∅ Set.univ := by
  have hreplay : replay headedCalls (new 90 91) = some headed := rfl
  exact (sound_of_replay hreplay).mono (Set.empty_subset _) (Set.empty_subset _) (Set.empty_subset _)

def lenient : ElementValidators ℕ Unit := ⟨fun _ ↦ true, fun _ ↦ true⟩

end Example

end Graph.Stepwise

end Lionagi.Protocols
