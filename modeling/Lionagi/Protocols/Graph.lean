import Lionagi.Protocols.Pile

/-!
# Graphs

Nodes and edges live in two piles. `node_edge_mapping` repeats every edge at both of its ends, and two
memo tables repeat the neighbours of a node until a mutator invalidates them. A call that raises gives
no graph here: what is said about graphs is said after calls that return.
-/

universe u

namespace Lionagi.Protocols

structure Node (U γ : Type u) where
  id : U
  content : γ

/-- The value of an edge property. `κ` is the type of the conditions. -/
inductive Property (U κ : Type u) where
  | none
  | condition (c : κ)
  | str (s : String)
  | strs (labels : List String)
  | uuid (uid : U)
  | dict (entries : List (String × Property U κ))
  | other (truthy : Bool)

structure Edge (U κ : Type u) where
  id : U
  head : U
  tail : U
  properties : OrderedDict String (Property U κ)

/-- Elements are equal when their identifiers are. -/
instance (U γ : Type u) [DecidableEq U] : Observable (Node U γ) U Unit where
  id n := n.id
  type _ := ()
  issubclass _ _ := true
  eq n m := n.id = m.id
  eq_refl _ := decide_eq_true rfl

instance (U κ : Type u) [DecidableEq U] : Observable (Edge U κ) U Unit where
  id e := e.id
  type _ := ()
  issubclass _ _ := true
  eq e f := e.id = f.id
  eq_refl _ := decide_eq_true rfl

/-! ## Edges -/

section Edges

variable {U κ : Type u} [DecidableEq U] [ParseUuid U]

namespace Property

def truthy : Property U κ → Bool
  | none => false
  | condition _ => true
  | str s => s ≠ ""
  | strs labels => !labels.isEmpty
  | uuid _ => true
  | dict entries => !entries.isEmpty
  | other truthy => truthy

/-- The validation of an `id` field. -/
def toId : Property U κ → Except PyError U
  | uuid uid => .ok uid
  | str s => (ParseUuid.parse s).elim (.error .validationError) .ok
  | _ => .error .validationError

end Property

namespace Edge

/-- The keyword `properties` is a dictionary whose entries stand behind the other keywords. -/
def mergeProperties (kwargs : OrderedDict String (Property U κ)) :
    Except PyError (OrderedDict String (Property U κ)) :=
  match kwargs.get? "properties" with
  | none => .ok kwargs
  | some .none => .ok (kwargs.erase "properties")
  | some (.dict entries) => .ok ((OrderedDict.ofList entries).update (kwargs.erase "properties"))
  | some _ => .error .valueError

def setCondition (kwargs : OrderedDict String (Property U κ)) (condition : Property U κ) :
    Except PyError (OrderedDict String (Property U κ)) :=
  if condition.truthy then
    match condition with
    | .condition c => .ok (kwargs.set "condition" (.condition c))
    | _ => .error .valueError
  else .ok kwargs

def setLabel (kwargs : OrderedDict String (Property U κ)) (label : Property U κ) :
    Except PyError (OrderedDict String (Property U κ)) :=
  if label.truthy then
    match label with
    | .str s => .ok (kwargs.set "label" (.strs [s]))
    | .strs labels => .ok (kwargs.set "label" (.strs labels))
    | _ => .error .valueError
  else .ok kwargs

/-- The constructor. `freshId` is the identifier drawn when the keywords give none; a keyword that
repeats a parameter is a `TypeError`. -/
def new (head tail : U) (condition label : Property U κ)
    (kwargs : OrderedDict String (Property U κ)) (freshId : U) : Except PyError (Edge U κ) := do
  ensure (["self", "head", "tail"].all (· ∉ kwargs)) .typeError
  let elementId := kwargs.get? "id"
  let kwargs ← mergeProperties (((kwargs.erase "id").erase "created_at").erase "metadata")
  let kwargs ← setCondition kwargs condition
  let properties ← setLabel kwargs label
  let uid ← elementId.elim (.ok freshId) Property.toId
  return { id := uid, head, tail, properties }

def property (e : Edge U κ) (key : String) : Property U κ :=
  (e.properties.get? key).getD .none

/-- The properties that `splice_after` hands on as extra keywords. -/
def extraProperties (e : Edge U κ) : OrderedDict String (Property U κ) :=
  e.properties.filter fun key _ ↦ key ≠ "condition" ∧ key ≠ "label"

end Edge

end Edges

/-! ## Adjacency -/

/-- The two dictionaries of a node, from edge identifiers to the node at the other end. -/
structure Adjacency (U : Type u) where
  inEdges : OrderedDict U U
  outEdges : OrderedDict U U

def Adjacency.empty {U : Type u} : Adjacency U := ⟨OrderedDict.empty, OrderedDict.empty⟩

structure Graph (U γ κ : Type u) where
  internalNodes : Pile U (Node U γ) Unit
  internalEdges : Pile U (Edge U κ) Unit
  nodeEdgeMapping : OrderedDict U (Adjacency U)
  predecessorCache : OrderedDict U (List (Node U γ))
  successorCache : OrderedDict U (List (Node U γ))

namespace Graph

variable {U γ κ : Type u} [DecidableEq U]

/-- A new graph, whose piles draw the identifiers of their own progressions. -/
def new (nodesId edgesId : U) : Graph U γ κ where
  internalNodes :=
    { collections := OrderedDict.empty, itemType := some [()], strictType := false,
      progression := { id := nodesId, order := [], name := none } }
  internalEdges :=
    { collections := OrderedDict.empty, itemType := some [()], strictType := false,
      progression := { id := edgesId, order := [], name := none } }
  nodeEdgeMapping := OrderedDict.empty
  predecessorCache := OrderedDict.empty
  successorCache := OrderedDict.empty

/-- `uid in self.internal_nodes` -/
def hasNode (g : Graph U γ κ) (uid : U) : Bool := g.internalNodes.contains (.uuid uid)

/-- `self.node_edge_mapping[uid]` -/
def adjacency (g : Graph U γ κ) (uid : U) : Except PyError (Adjacency U) :=
  (g.nodeEdgeMapping.get? uid).elim (.error .keyError) .ok

def setAdjacency (g : Graph U γ κ) (uid : U) (a : Adjacency U) : Graph U γ κ :=
  { g with nodeEdgeMapping := g.nodeEdgeMapping.set uid a }

/-- `self.node_edge_mapping[node]["out"][edge] = tail` -/
def setOut (g : Graph U γ κ) (node edge tail : U) : Except PyError (Graph U γ κ) := do
  let a ← g.adjacency node
  return g.setAdjacency node { a with outEdges := a.outEdges.set edge tail }

/-- `self.node_edge_mapping[node]["in"][edge] = head` -/
def setIn (g : Graph U γ κ) (node edge head : U) : Except PyError (Graph U γ κ) := do
  let a ← g.adjacency node
  return g.setAdjacency node { a with inEdges := a.inEdges.set edge head }

/-- `self.node_edge_mapping[node]["out"].pop(edge)` -/
def popOut (g : Graph U γ κ) (node edge : U) : Except PyError (Graph U γ κ) := do
  let a ← g.adjacency node
  ensure (edge ∈ a.outEdges) .keyError
  return g.setAdjacency node { a with outEdges := a.outEdges.erase edge }

/-- `self.node_edge_mapping[node]["in"].pop(edge)` -/
def popIn (g : Graph U γ κ) (node edge : U) : Except PyError (Graph U γ κ) := do
  let a ← g.adjacency node
  ensure (edge ∈ a.inEdges) .keyError
  return g.setAdjacency node { a with inEdges := a.inEdges.erase edge }

def invalidateAdjacency (g : Graph U γ κ) (nodeIds : List U) : Graph U γ κ :=
  { g with
    predecessorCache := nodeIds.foldl OrderedDict.erase g.predecessorCache
    successorCache := nodeIds.foldl OrderedDict.erase g.successorCache }

/-! ## The piles -/

/-- `insert(len(pile), item)` -/
def insertLast {α : Type u} [Observable α U Unit] (p : Pile U α Unit) (a : α) :
    Except PyError (Pile U α Unit) :=
  match p.insert p.len (.item a) with
  | (_, .error e) => .error e
  | (p', .ok ()) => .ok p'

/-- `pop(uid)` -/
def popOne {α : Type u} [Observable α U Unit] (p : Pile U α Unit) (uid : U) :
    Except PyError (Pile U α Unit) :=
  match p.popRef (.uuid uid) false with
  | (_, .error e) => .error e
  | (p', .ok _) => .ok p'

/-- `self.internal_edges[uid]` -/
def edge (g : Graph U γ κ) (uid : U) : Except PyError (Edge U κ) :=
  (g.internalEdges.collections.get? uid).elim (.error .itemNotFoundError) .ok

/-- The node enters the pile, with an empty entry of the mapping. -/
def insertNode (g : Graph U γ κ) (node : Node U γ) : Except PyError (Graph U γ κ) := do
  let internalNodes ← insertLast g.internalNodes node
  return ({ g with internalNodes } : Graph U γ κ).setAdjacency node.id Adjacency.empty

def insertEdge (g : Graph U γ κ) (edge : Edge U κ) : Except PyError (Graph U γ κ) := do
  let internalEdges ← insertLast g.internalEdges edge
  return { g with internalEdges }

def popEdge (g : Graph U γ κ) (uid : U) : Except PyError (Graph U γ κ) := do
  let internalEdges ← popOne g.internalEdges uid
  return { g with internalEdges }

/-- The last two statements of `remove_node` and `replace_node`: the node leaves the mapping and the
pile. -/
def popNode (g : Graph U γ κ) (uid : U) : Except PyError (Graph U γ κ) := do
  ensure (uid ∈ g.nodeEdgeMapping) .keyError
  let internalNodes ← popOne g.internalNodes uid
  return { g with internalNodes, nodeEdgeMapping := g.nodeEdgeMapping.erase uid }

/-- Assignment to a field of the edge object that the graph holds. -/
def modifyEdge (g : Graph U γ κ) (uid : U) (change : Edge U κ → Edge U κ) :
    Except PyError (Graph U γ κ) := do
  let _ ← g.edge uid
  return { g with
    internalEdges :=
      { g.internalEdges with collections := g.internalEdges.collections.modify uid change } }

/-- `except ItemExistsError as e: raise RelationError` -/
def relationOnExists {β : Type u} : Except PyError β → Except PyError β
  | .error .itemExistsError => .error .relationError
  | result => result

/-! ## Mutators -/

def addNode (g : Graph U γ κ) (node : Node U γ) : Except PyError (Graph U γ κ) :=
  relationOnExists (g.insertNode node)

def addEdge (g : Graph U γ κ) (edge : Edge U κ) : Except PyError (Graph U γ κ) := do
  ensure (g.hasNode edge.head && g.hasNode edge.tail) .relationError
  relationOnExists do
    let g ← g.insertEdge edge
    let g ← g.setOut edge.head edge.id edge.tail
    let g ← g.setIn edge.tail edge.id edge.head
    return g.invalidateAdjacency [edge.head, edge.tail]

/-- The loop of `remove_node` over the edges that come in. It takes entries off the `out`
dictionaries only, so the dictionary it iterates over stays as it was. -/
def removeInEdges (g : Graph U γ κ) : List (U × U) → Except PyError (Graph U γ κ)
  | [] => .ok g
  | (edgeId, nodeId) :: rest => do
    let g ← g.popOut nodeId edgeId
    let g ← g.popEdge edgeId
    (g.invalidateAdjacency [nodeId]).removeInEdges rest

/-- The loop of `remove_node` over the edges that go out. -/
def removeOutEdges (g : Graph U γ κ) : List (U × U) → Except PyError (Graph U γ κ)
  | [] => .ok g
  | (edgeId, nodeId) :: rest => do
    let g ← g.popIn nodeId edgeId
    let g ← g.popEdge edgeId
    (g.invalidateAdjacency [nodeId]).removeOutEdges rest

def removeNode (g : Graph U γ κ) (node : Ref U (Node U γ)) : Except PyError (Graph U γ κ) := do
  let uid ← node.getId
  ensure (g.hasNode uid) .relationError
  let a ← g.adjacency uid
  let g ← g.removeInEdges a.inEdges.entries
  let a ← g.adjacency uid
  let g ← g.removeOutEdges a.outEdges.entries
  (g.invalidateAdjacency [uid]).popNode uid

def removeEdge (g : Graph U γ κ) (edge : Ref U (Edge U κ)) : Except PyError (Graph U γ κ) := do
  let uid ← edge.getId
  ensure (g.internalEdges.contains (.uuid uid)) .relationError
  let edge ← g.edge uid
  let g ← g.popOut edge.head uid
  let g ← g.popIn edge.tail uid
  (g.invalidateAdjacency [edge.head, edge.tail]).popEdge uid

/-- The loop of `replace_node` over a copy of the edges that come in. -/
def redirectInEdges (g : Graph U γ κ) (newId : U) : List (U × U) → Except PyError (Graph U γ κ)
  | [] => .ok g
  | (edgeId, headId) :: rest => do
    let g ← g.modifyEdge edgeId fun edge ↦ { edge with tail := newId }
    let g ← g.setIn newId edgeId headId
    let g ← g.setOut headId edgeId newId
    (g.invalidateAdjacency [headId]).redirectInEdges newId rest

/-- The loop of `replace_node` over a copy of the edges that go out. -/
def redirectOutEdges (g : Graph U γ κ) (newId : U) : List (U × U) → Except PyError (Graph U γ κ)
  | [] => .ok g
  | (edgeId, tailId) :: rest => do
    let g ← g.modifyEdge edgeId fun edge ↦ { edge with head := newId }
    let g ← g.setOut newId edgeId tailId
    let g ← g.setIn tailId edgeId newId
    (g.invalidateAdjacency [tailId]).redirectOutEdges newId rest

def replaceNode (g : Graph U γ κ) (old : Ref U (Node U γ)) (newNode : Node U γ) :
    Except PyError (Graph U γ κ) := do
  let oldId ← old.getId
  ensure (g.hasNode oldId) .relationError
  ensure (!g.hasNode newNode.id) .relationError
  let g ← g.insertNode newNode
  let mapping ← g.adjacency oldId
  let g ← g.redirectInEdges newNode.id mapping.inEdges.entries
  let mapping ← g.adjacency oldId
  let g ← g.redirectOutEdges newNode.id mapping.outEdges.entries
  (g.invalidateAdjacency [oldId, newNode.id]).popNode oldId

variable [ParseUuid U]

/-- The loop of `splice_after` over a copy of the anchor's outgoing edges; `freshIds` are the
identifiers that the new edges draw. -/
def spliceEdges (g : Graph U γ κ) (anchorId newId : U) :
    List (U × U) → (ℕ → U) → Except PyError (Graph U γ κ)
  | [], _ => .ok g
  | (edgeId, tailId) :: rest, freshIds => do
    let oldEdge ← g.edge edgeId
    let replacement ← Edge.new newId tailId (oldEdge.property "condition") (oldEdge.property "label")
      oldEdge.extraProperties (freshIds rest.length)
    let g ← g.insertEdge replacement
    let g ← g.setOut newId replacement.id tailId
    let g ← g.setIn tailId replacement.id newId
    let g ← g.popIn tailId edgeId
    let g ← g.popOut anchorId edgeId
    let g ← g.popEdge edgeId
    (g.invalidateAdjacency [tailId]).spliceEdges anchorId newId rest freshIds

def spliceAfter (g : Graph U γ κ) (anchor : Ref U (Node U γ)) (newNode : Node U γ)
    (linkId : U) (freshIds : ℕ → U) : Except PyError (Graph U γ κ) := do
  let anchorId ← anchor.getId
  ensure (g.hasNode anchorId) .relationError
  ensure (!g.hasNode newNode.id) .relationError
  let g ← g.insertNode newNode
  let a ← g.adjacency anchorId
  let g ← g.spliceEdges anchorId newNode.id a.outEdges.entries freshIds
  let link ← Edge.new anchorId newNode.id .none .none OrderedDict.empty linkId
  let g ← g.insertEdge link
  let g ← g.setOut anchorId link.id newNode.id
  let g ← g.setIn newNode.id link.id anchorId
  return g.invalidateAdjacency [anchorId, newNode.id]

/-! ## Cached reads -/

/-- The tuple of predecessor nodes read off the mapping. -/
def predecessors (g : Graph U γ κ) (uid : U) : Except PyError (List (Node U γ)) := do
  let a ← g.adjacency uid
  Pile.lookupAll g.internalNodes.collections a.inEdges.values

/-- The tuple of successor nodes read off the mapping. -/
def successors (g : Graph U γ κ) (uid : U) : Except PyError (List (Node U γ)) := do
  let a ← g.adjacency uid
  Pile.lookupAll g.internalNodes.collections a.outEdges.values

def getPredecessorsCached (g : Graph U γ κ) (node : Ref U (Node U γ)) :
    Except PyError (List (Node U γ) × Graph U γ κ) := do
  let uid ← node.getId
  match g.predecessorCache.get? uid with
  | some cached => return (cached, g)
  | none =>
    ensure (g.hasNode uid) .relationError
    let result ← g.predecessors uid
    return (result, { g with predecessorCache := g.predecessorCache.set uid result })

def getSuccessorsCached (g : Graph U γ κ) (node : Ref U (Node U γ)) :
    Except PyError (List (Node U γ) × Graph U γ κ) := do
  let uid ← node.getId
  match g.successorCache.get? uid with
  | some cached => return (cached, g)
  | none =>
    ensure (g.hasNode uid) .relationError
    let result ← g.successors uid
    return (result, { g with successorCache := g.successorCache.set uid result })

end Graph

/-! ## Calls -/

inductive GraphCall (U γ κ : Type u) where
  | addNode (node : Node U γ)
  | addEdge (edge : Edge U κ)
  | removeNode (node : Ref U (Node U γ))
  | removeEdge (edge : Ref U (Edge U κ))
  | replaceNode (old : Ref U (Node U γ)) (newNode : Node U γ)
  | spliceAfter (anchor : Ref U (Node U γ)) (newNode : Node U γ) (linkId : U) (freshIds : ℕ → U)
  | getPredecessorsCached (node : Ref U (Node U γ))
  | getSuccessorsCached (node : Ref U (Node U γ))

namespace Graph

variable {U γ κ : Type u} [DecidableEq U] [ParseUuid U]

/-- The graph after a call that returns normally. -/
def call (g : Graph U γ κ) : GraphCall U γ κ → Except PyError (Graph U γ κ)
  | .addNode node => g.addNode node
  | .addEdge edge => g.addEdge edge
  | .removeNode node => g.removeNode node
  | .removeEdge edge => g.removeEdge edge
  | .replaceNode old newNode => g.replaceNode old newNode
  | .spliceAfter anchor newNode linkId freshIds => g.spliceAfter anchor newNode linkId freshIds
  | .getPredecessorsCached node => (g.getPredecessorsCached node).map Prod.snd
  | .getSuccessorsCached node => (g.getSuccessorsCached node).map Prod.snd

end Graph

end Lionagi.Protocols
