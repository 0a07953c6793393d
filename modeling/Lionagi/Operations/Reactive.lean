import Mathlib
import Lionagi.Operations.Lifecycle
import Lionagi.Protocols.GraphSearch

/-!
# The reactive executor

`ReactiveExecutor` lets the graph grow while its operations run. Requests to spawn, requests to escalate
and calls of `inject` all go through `_accept_node`, and each of the three schedules what was accepted
on its own. The tasks of the group are numbered in the order in which they are scheduled.
-/

namespace Lionagi.Operations

open Ln Protocols Transition

/-- What the executor reads off a graph. -/
def OperationGraph.ofGraph {U κ : Type} [DecidableEq U] (g : Graph U (Option Operation) κ) :
    OperationGraph U κ where
  nodes := g.internalNodes.progression.order
  operation n := (g.internalNodes.collections.get? n).bind Node.content
  incoming n :=
    match g.nodeEdgeMapping.get? n with
    | none => []
    | some a => a.inEdges.entries.filterMap fun entry ↦
      (g.internalEdges.collections.get? entry.1).map fun edge ↦
        { head := edge.head
          condition :=
            match edge.properties.get? "condition" with
            | some (.condition c) => some c
            | _ => none }

/-! ## Growing -/

/-- An operation on its way into the graph. -/
structure Child (U : Type) where
  id : U
  operation : Operation
  initial : Initial

inductive DropReason where
  | duplicate
  | builderError
  | nullChild
  | maxSpawnExceeded
  | cycle
deriving DecidableEq, Repr

/-- An entry of `_dropped_spawns`. -/
structure DroppedSpawn (U : Type) where
  reason : DropReason
  emitterId : Option U
  opId : Option U

/-- What `_accept_node` comes to. -/
inductive Verdict where
  | accepted (newlyAdded : Bool)
  | refused (reason : DropReason)
  | raised
deriving DecidableEq, Repr

inductive Source where
  | spawn
  | escalation
  | inject
deriving DecidableEq, Repr

/-- A call of `_accept_node`; `grouped` says that there was a task group. -/
structure Attempt (U : Type) where
  source : Source
  child : U
  grouped : Bool
  verdict : Verdict

/-- The executor while `execute` or `execute_stream` runs. `initial` are the operations that were in
the graph when it began, `stream` tells the two entry points apart, `opened` whether the task group has
been entered. `announced` gives each announced operation the status it then had, and `attempts` is the
history of the calls of `_accept_node`. -/
structure Reactive (U κ : Type) where
  run : RunState ℕ U κ
  graph : Graph U (Option Operation) κ
  initial : List U
  nextKey : ℕ
  announced : List (U × EventStatus)
  maxSpawn : ℕ
  spawnCount : ℕ
  spawnedIds : List U
  escalatedIds : List U
  droppedSpawns : List (DroppedSpawn U)
  seenReqs : List ℕ
  running : Bool
  taskGroup : Bool
  opened : Bool
  stream : Bool
  attempts : List (Attempt U)

namespace Reactive

variable {U κ : Type} [DecidableEq U]

def modifyExecutor (s : Reactive U κ) (f : Executor U → Executor U) : Reactive U κ :=
  { s with run := { s.run with executor := f s.run.executor } }

/-- `_announce_queued` -/
def announce (s : Reactive U κ) (n : U) : Reactive U κ :=
  { s.modifyExecutor fun e ↦ e.emitProgress n .queued with
    announced := s.announced ++ [(n, (s.run.executor.record n).status)] }

/-- `self._tg.start_soon(self._run_tracked, n)` -/
def schedule (s : Reactive U κ) (n : U) : Reactive U κ :=
  { s with
    run := { s.run with task := Function.update s.run.task s.nextKey (some ⟨n, .created⟩) }
    nextKey := s.nextKey + 1 }

/-- `_record_dropped_spawn` -/
def drop (s : Reactive U κ) (reason : DropReason) (emitterId opId : Option U) : Reactive U κ :=
  { s with droppedSpawns := s.droppedSpawns ++ [⟨reason, emitterId, opId⟩] }

/-- The child enters the graph with an unset completion event. -/
def addChild (s : Reactive U κ) (child : Child U) : Except PyError (Reactive U κ) :=
  (s.graph.addNode ⟨child.id, some child.operation⟩).map fun graph ↦
    { s.modifyExecutor fun e ↦ e.modify child.id fun r ↦
        { r with
          status := child.initial.status
          response := child.initial.response
          parameters := child.initial.parameters
          event := some false } with
      graph }

/-- `Edge(head=emitter_id, tail=child.id, label=["spawn"])` -/
def spawnEdge (edgeId emitterId childId : U) : Edge U κ where
  id := edgeId
  head := emitterId
  tail := childId
  properties := OrderedDict.empty.set "label" (.strs ["spawn"])

/-- The edge of a dependent child. -/
def edgeTo (childId : U) (emitterId : Option U) (independent : Bool) (edgeId : U) :
    Option (Edge U κ) :=
  if independent then none else emitterId.map fun emitter ↦ spawnEdge edgeId emitter childId

def attach (s : Reactive U κ) : Option (Edge U κ) → Except PyError (Reactive U κ)
  | none => .ok s
  | some edge => (s.graph.addEdge edge).map fun graph ↦ { s with graph }

def detach (s : Reactive U κ) : Option (Edge U κ) → Except PyError (Reactive U κ)
  | none => .ok s
  | some edge => (s.graph.removeEdge (.item edge)).map fun graph ↦ { s with graph }

/-- `remove_node` and the end of the completion event. -/
def removeChild (s : Reactive U κ) (childId : U) : Except PyError (Reactive U κ) :=
  (s.graph.removeNode (.uuid childId)).map fun graph ↦
    { s.modifyExecutor fun e ↦ e.modify childId fun r ↦ { r with event := none } with graph }

/-- What a cycle takes back. -/
def rollback (s : Reactive U κ) (childId : U) (newlyAdded : Bool) (edge : Option (Edge U κ)) :
    Except PyError (Reactive U κ) := do
  let s ← s.detach edge
  if newlyAdded then s.removeChild childId else return s

/-- The count and the announcement of a new child. -/
def commit (s : Reactive U κ) (childId : U) (newlyAdded : Bool) : Reactive U κ :=
  if newlyAdded then
    { s with spawnCount := s.spawnCount + 1, spawnedIds := s.spawnedIds ++ [childId] }.announce childId
  else s

/-- `_accept_node`. Where a call on the graph raises, what was done before it stays. -/
def acceptNode (s : Reactive U κ) (child : Child U) (emitterId : Option U) (independent : Bool)
    (edgeId : U) : Verdict × Reactive U κ :=
  if s.maxSpawn ≤ s.spawnCount then
    (.refused .maxSpawnExceeded, s.drop .maxSpawnExceeded emitterId (some child.id))
  else
    let newlyAdded := !s.graph.hasNode child.id
    let edge := edgeTo child.id emitterId independent edgeId
    match if newlyAdded then s.addChild child else .ok s with
    | .error _ => (.raised, s)
    | .ok s =>
      match s.attach edge with
      | .error _ => (.raised, s)
      | .ok s =>
        match s.graph.isAcyclic with
        | .error _ => (.raised, s)
        | .ok true => (.accepted newlyAdded, s.commit child.id newlyAdded)
        | .ok false =>
          match s.rollback child.id newlyAdded edge with
          | .error _ => (.raised, s)
          | .ok s => (.refused .cycle, s.drop .cycle emitterId (some child.id))

/-- A call of `_accept_node`, remembered. -/
def attempt (s : Reactive U κ) (source : Source) (child : Child U) (emitterId : Option U)
    (independent : Bool) (edgeId : U) : Verdict × Reactive U κ :=
  let (verdict, s') := s.acceptNode child emitterId independent edgeId
  (verdict, { s' with attempts := s.attempts ++ [⟨source, child.id, s.taskGroup, verdict⟩] })

/-! ## The three ways in -/

/-- `inject` -/
def inject (s : Reactive U κ) (child : Child U) (after : Option U) (independent : Bool) (edgeId : U) :
    Reactive U κ :=
  if !s.running || !s.taskGroup then s
  else
    match s.attempt .inject child after independent edgeId with
    | (.accepted _, s) => s.schedule child.id
    | (_, s) => s

/-- What `node_builder` makes of a request. -/
inductive Built (U : Type) where
  | child (child : Child U)
  | error
  | null

/-- `_inject_request`. Without a task group `start_soon` raises once the child has been accepted. -/
def injectRequest (s : Reactive U κ) (req : ℕ) (emitterId : Option U) (built : Built U)
    (independent : Bool) (edgeId : U) : Reactive U κ :=
  if req ∈ s.seenReqs then s.drop .duplicate emitterId none
  else
    let s := { s with seenReqs := req :: s.seenReqs }
    match built with
    | .error => s.drop .builderError emitterId none
    | .null => s.drop .nullChild emitterId none
    | .child child =>
      match s.attempt .spawn child emitterId independent edgeId with
      | (.accepted _, s) => if s.taskGroup then s.schedule child.id else s
      | (_, s) => s

def higherTier : String := "higher_tier"

/-- The route of an escalation, where the context names none. -/
def defaultRoute (urgency : String) : String := if urgency = "blocked" then higherTier else "notify"

/-- `_schedule_escalation`. The retry `child` is the one that `create_operation` builds; it is accepted
without an edge, and nothing follows. -/
def scheduleEscalation (s : Reactive U κ) (req : ℕ) (emitterId : Option U) (urgency : String)
    (route : Option String) (child : Child U) (edgeId : U) : Reactive U κ :=
  if req ∈ s.seenReqs then s
  else
    let s := { s with seenReqs := req :: s.seenReqs }
    let route := route.getD (defaultRoute urgency)
    if route = higherTier ∧ emitterId.isSome = true ∧ s.taskGroup = true then
      match s.attempt .escalation child emitterId true edgeId with
      | (.accepted _, s) => { s with escalatedIds := emitterId.toList ++ s.escalatedIds }
      | (_, s) => s
    else if route = "notify" then s
    else { s with escalatedIds := emitterId.toList ++ s.escalatedIds }

/-! ## Runs -/

/-- Where a request comes from: the session bus, while some operation is current, or the results of
an operation whose task has returned. -/
inductive Origin (U : Type) where
  | bus (current : Option U)
  | result (key : ℕ)

end Reactive

/-- `_run_tracked` goes on to read the results. -/
def Exit.returns : Exit → Bool
  | .cancelled => false
  | .abandoned => false
  | _ => true

namespace Reactive

section Runs

variable {U κ : Type} [DecidableEq U]

/-- The emitter of a request, where one can come from there. -/
def Origin.emitter (origin : Origin U) (s : Reactive U κ) : Option (Option U) :=
  match origin with
  | .bus current => if s.running then some current else none
  | .result key =>
    match s.run.task key with
    | some ⟨n, .finished exit⟩ =>
      if exit.returns && (s.taskGroup || s.stream) then some (some n) else none
    | _ => none

inductive Label (U : Type) where
  | run (l : Operations.Label ℕ)
  | enter
  | inject (child : Child U) (after : Option U) (independent : Bool) (edgeId : U)
  | spawn (origin : Origin U) (req : ℕ) (built : Built U) (independent : Bool) (edgeId : U)
  | escalate (origin : Origin U) (req : ℕ) (urgency : String) (route : Option String)
      (child : Child U) (edgeId : U)
  | close

/-- The start of the task group: every initial operation is announced and scheduled. -/
def openGroup (s : Reactive U κ) : Reactive U κ :=
  s.initial.foldl (fun s n ↦ (s.announce n).schedule n) { s with taskGroup := true, opened := true }

/-- Every task that was scheduled has come to its end. -/
def settled (s : Reactive U κ) : Bool :=
  (List.range s.nextKey).all fun key ↦
    match s.run.task key with
    | some ⟨_, .finished _⟩ => true
    | _ => false

variable [ToString U] [JsonLoads]

/-- The consumer of a stream may close it at any time; `execute` gives up its task group when all
tasks have ended. -/
def next (capacity : ℕ) (s : Reactive U κ) : Label U → Option (Reactive U κ)
  | .run l => (s.run.next (.ofGraph s.graph) capacity l).map fun run ↦ { s with run }
  | .enter => if s.opened then none else some s.openGroup
  | .inject child after independent edgeId => some (s.inject child after independent edgeId)
  | .spawn origin req built independent edgeId =>
    (origin.emitter s).map fun emitter ↦ s.injectRequest req emitter built independent edgeId
  | .escalate origin req urgency route child edgeId =>
    (origin.emitter s).map fun emitter ↦ s.scheduleEscalation req emitter urgency route child edgeId
  | .close =>
    if s.stream || s.settled then some { s with running := false, taskGroup := false } else none

def Permitted (W : World U κ) (s : Reactive U κ) : Label U → Prop
  | .run l => s.run.Permitted W l
  | _ => True

def Step (W : World U κ) (capacity : ℕ) (s : Reactive U κ) (l : Label U) (t : Reactive U κ) : Prop :=
  s.next capacity l = some t ∧ s.Permitted W l

/-- `ReactiveExecutor(...)` and the beginning of `execute` or of `execute_stream`. The driver of a
stream enters its task group later. -/
def start (graph : Graph U (Option Operation) κ) (initial : U → Initial) (workspace : Entries)
    (maxSpawn : ℕ) (stream : Bool) : Reactive U κ :=
  let G := OperationGraph.ofGraph graph
  let s : Reactive U κ :=
    { run :=
        { executor := { (Operations.start G initial workspace).executor with progress := [] }
          task := fun _ ↦ none
          cancelling := false }
      graph
      initial := G.nodes.filter fun n ↦ (G.operation n).isSome
      nextKey := 0
      announced := []
      maxSpawn
      spawnCount := 0
      spawnedIds := []
      escalatedIds := []
      droppedSpawns := []
      seenReqs := []
      running := true
      taskGroup := false
      opened := false
      stream
      attempts := [] }
  if stream then s else s.openGroup

end Runs

end Reactive

end Lionagi.Operations
