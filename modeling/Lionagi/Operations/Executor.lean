import Mathlib.Logic.Function.Basic
import Lionagi.Ln.ToDict

/-!
# The dependency-aware executor

The bookkeeping of `DependencyAwareExecutor` and the path that one operation takes through
`_execute_operation`, cut at the points where its task waits. What conditions and operations do is
outside: a task is handed the outcome when it goes on.
-/

namespace Lionagi.Operations

open Ln

inductive EventStatus where
  | pending
  | processing
  | completed
  | failed
  | cancelled
  | skipped
  | aborted
deriving DecidableEq, Repr

/-- `Event._TERMINAL_STATUSES` -/
def EventStatus.terminal : EventStatus → Bool
  | pending => false
  | processing => false
  | _ => true

/-- What `on_progress` is told about an operation. -/
inductive Progress where
  | queued
  | started
  | completed
  | failed
  | skipped
  | cancelled
deriving DecidableEq, Repr

def Progress.terminal : Progress → Bool
  | queued => false
  | started => false
  | _ => true

abbrev Entries := List (DictKey × Value)

/-! ## Operations and their graph -/

/-- What the executor reads of an operation's metadata, and the name of the branch it runs on. -/
structure Operation where
  isGate : Bool
  displayName : Option String
  referenceId : Option String
  branchName : Option String
  aggregationSources : List String

inductive Parameters where
  | dict (entries : Entries)
  | model (className : String)

structure InEdge (U κ : Type) where
  head : U
  condition : Option κ

/-- The nodes in the order of the pile. Nodes that are no operations have no entry in `operation`. -/
structure OperationGraph (U κ : Type) where
  nodes : List U
  operation : U → Option Operation
  incoming : U → List (InEdge U κ)

namespace OperationGraph

variable {U κ : Type}

/-- `_get_predecessors` -/
def predecessors (G : OperationGraph U κ) (n : U) : List U := (G.incoming n).map InEdge.head

/-- The operation that an aggregation source names. -/
def resolve [ToString U] (G : OperationGraph U κ) (source : String) : Option U :=
  G.nodes.find? fun n ↦ (G.operation n).isSome && toString n = source

/-- An edge of the graph leads from `h` to `n`. -/
def Edge (G : OperationGraph U κ) (h n : U) : Prop := h ∈ G.predecessors n

end OperationGraph

/-- `_display_name` -/
def Operation.name {U : Type} [ToString U] (op : Operation) (n : U) : String :=
  (op.displayName.or op.referenceId).getD (String.ofList ((toString n).toList.take 8))

/-- `_branch_display_name` -/
def Operation.nameOnBranch {U : Type} [ToString U] (op : Operation) (n : U) : String :=
  match op.branchName with
  | none => op.name n
  | some name => if name = "" then op.name n else name

/-! ## Bookkeeping -/

/-- The payload that a gate reject attributes to whatever lies downstream. -/
structure GateReason (U : Type) where
  gateId : U
  gateName : String
deriving DecidableEq

def upstreamGateReject : String := "upstream_gate_reject"

def GateReason.toResult {U : Type} [ToString U] (reason : GateReason U) : Value :=
  .dict [(.str "skipped", .bool true), (.str "reason_code", .str upstreamGateReject),
    (.str "gate_id", .str (toString reason.gateId)), (.str "gate_name", .str reason.gateName)]

def errorResult (message : String) : Value := .dict [(.str "error", .str message)]

/-- The entries of one operation in `results`, `skipped_operations`, `failed_operations`,
`_preterminal_failed_operations`, `_gate_rejections` and `_skip_reasons`. -/
structure Book (U : Type) where
  result : Option Value
  skipped : Bool
  failed : Bool
  preterminalFailed : Bool
  gateRejection : Option (GateReason U)
  skipReason : Option (GateReason U)

def Book.empty {U : Type} : Book U := ⟨none, false, false, false, none, none⟩

/-- `upstream_reason` -/
def Book.upstreamReason {U : Type} (b : Book U) : Option (GateReason U) :=
  b.skipReason.or b.gateRejection

/-- The operation opens no path, whatever the condition of the edge. -/
def Book.closed {U : Type} (b : Book U) : Bool := b.skipped || b.preterminalFailed

/-- One operation: its execution, and what the executor keeps under its id. `event` is the completion
event, `none` where there is none. -/
structure Record (U : Type) where
  status : EventStatus
  response : Value
  error : String
  parameters : Parameters
  event : Option Bool
  started : Bool
  terminalEmitted : Bool
  book : Book U

/-- A node that the executor keeps nothing about. -/
def Record.absent {U : Type} : Record U :=
  ⟨.pending, .none, "None", .dict [], none, false, false, Book.empty⟩

/-- `borrowed` are the tokens taken from the limiter, `gates` counts the pause events made so far.
`invocations` lists the calls of `invoke` in the order in which they begin. -/
structure Executor (U : Type) where
  record : U → Record U
  workspace : Entries
  borrowed : ℕ
  pauseEvent : Option ℕ
  gates : ℕ
  progress : List (U × Progress)
  invocations : List U

/-- What an operation is invoked with. `predContext` is what its predecessors contributed. -/
structure Prepared (U : Type) where
  predContext : List (U × Value)
  parameters : Entries

/-- How the body of an operation ends; `cancelled` stands for any exception that is not an
`Exception`. -/
inductive Outcome where
  | completed (response : Value)
  | failed (message : String)
  | cancelled

namespace Executor

variable {U κ : Type} [DecidableEq U]

/-- The bookkeeping, operation by operation. -/
def book (e : Executor U) (n : U) : Book U := (e.record n).book

def modify (e : Executor U) (n : U) (f : Record U → Record U) : Executor U :=
  { e with record := Function.update e.record n (f (e.record n)) }

def modifyBook (e : Executor U) (n : U) (f : Book U → Book U) : Executor U :=
  e.modify n fun r ↦ { r with book := f r.book }

def emitProgress (e : Executor U) (n : U) (p : Progress) : Executor U :=
  { e with progress := e.progress ++ [(n, p)] }

/-- `self.completion_events[n].set()` -/
def setEvent (e : Executor U) (n : U) : Executor U :=
  e.modify n fun r ↦ { r with event := r.event.map fun _ ↦ true }

def emitTerminalOnce (e : Executor U) (n : U) (p : Progress) : Executor U :=
  if (e.record n).terminalEmitted then e
  else (e.modify n fun r ↦ { r with terminalEmitted := true }).emitProgress n p

def emitAbandonedTerminal (e : Executor U) (n : U) (p : Progress) (requireStarted : Bool) :
    Executor U :=
  if requireStarted && !(e.record n).started then e else e.emitTerminalOnce n p

/-! ## Exits -/

/-- `_PRETERMINAL_ANNOUNCE_STATUS` -/
def announceStatus : EventStatus → Option Progress
  | .completed => some .completed
  | .failed => some .failed
  | .skipped => some .skipped
  | .cancelled => some .cancelled
  | _ => none

/-- The bookkeeping of an operation that is terminal on arrival. -/
def preterminalBook (r : Record U) : Book U :=
  { r.book with
    failed := r.book.failed || r.status = .failed
    preterminalFailed := r.book.preterminalFailed || r.status = .failed
    result := r.book.result.or (if r.response.isNone then none else some r.response) }

def preterminal (e : Executor U) (n : U) : Executor U :=
  let status := (e.record n).status
  let e := e.modify n fun r ↦ { r with book := preterminalBook r }
  match announceStatus status with
  | none => e.setEvent n
  | some p => (e.emitTerminalOnce n p).setEvent n

/-- The bookkeeping of a skipped operation. -/
def skippedBook [ToString U] (b : Book U) (reason : Option (GateReason U)) : Book U :=
  let skipReason := reason.or b.skipReason
  { b with skipped := true, skipReason, result := (skipReason.map GateReason.toResult).or b.result }

def skip [ToString U] (e : Executor U) (n : U) (reason : Option (GateReason U)) : Executor U :=
  let e := e.modify n fun r ↦ { r with status := .skipped, book := skippedBook r.book reason }
  (e.emitTerminalOnce n .skipped).setEvent n

/-- `except Exception` -/
def fail (e : Executor U) (n : U) (message : String) : Executor U :=
  let e := e.modifyBook n fun b ↦
    { b with result := b.result.or (some (errorResult message)), failed := true }
  (e.emitAbandonedTerminal n .failed true).setEvent n

/-- `except (get_cancelled_exc_class(), KeyboardInterrupt, SystemExit)` -/
def cancel (e : Executor U) (n : U) : Executor U :=
  let e := (e.setEvent n).modify n fun r ↦
    { r with status := if r.status.terminal then r.status else .cancelled }
  e.emitAbandonedTerminal n .cancelled false

/-! ## Preparation -/

/-- What the predecessors contribute to the context. -/
def predContext [JsonLoads] (book : U → Book U) : List U → Except String (List (U × Value))
  | [] => .ok []
  | pred :: rest =>
    if (book pred).closed then predContext book rest
    else
      match (book pred).result with
      | none => predContext book rest
      | some result => do
        let value ← result.plain
        let context ← predContext book rest
        return (pred, value) :: context

/-- `pred_ctx.content` -/
def predEntries [ToString U] (context : List (U × Value)) : Entries :=
  context.foldl (fun entries item ↦ Value.setEntry (.str s!"{item.1}_result") item.2 entries) []

/-- `existing.update(extra)` -/
def updateEntries (existing extra : Entries) : Entries :=
  extra.foldl (fun entries item ↦ Value.setEntry item.1 item.2 entries) existing

/-- How a context enters the parameters of an operation. -/
def mergeContext (parameters extra : Entries) : Entries :=
  match Value.lookup parameters (.str "context") with
  | none => Value.setEntry (.str "context") (.dict extra) parameters
  | some (.dict existing) =>
    Value.setEntry (.str "context") (.dict (updateEntries existing extra)) parameters
  | some other =>
    Value.setEntry (.str "context")
      (.dict (updateEntries [(.str "original_context", other)] extra)) parameters

/-- `_prepare_operation` -/
def prepare [JsonLoads] [ToString U] (book : U → Book U) (parameters : Parameters)
    (workspace : Entries) (predecessors : List U) : Except String (Prepared U) := do
  let context ← predContext book predecessors
  match parameters with
  | .model className =>
    if predecessors.isEmpty && workspace.isEmpty then
      .error s!"'{className}' object has no attribute 'get'"
    else .error s!"'{className}' object does not support item assignment"
  | .dict entries =>
    let entries := if predecessors.isEmpty then entries else mergeContext entries (predEntries context)
    let entries := if workspace.isEmpty then entries else mergeContext entries workspace
    return { predContext := context, parameters := entries }

/-! ## After the invocation -/

/-- The verdict in the response of a gate. -/
def gateRejects [JsonLoads] (response : Value) : Except String Bool :=
  match response.plain with
  | .error message => .error message
  | .ok (.dict entries) =>
    match Value.lookup entries (.str "gate_verdict") with
    | some (.str verdict) => .ok (Value.matchesWord "reject" verdict)
    | _ => .ok false
  | .ok _ => .ok false

/-- `_record_gate_verdict`; an exception ends in the handler of `_execute_operation`. -/
def recordGateVerdict [JsonLoads] [ToString U] (n : U) (op : Operation) (response : Value)
    (b : Book U) : Book U :=
  match gateRejects response with
  | .error _ => { b with failed := true }
  | .ok true => { b with gateRejection := some { gateId := n, gateName := op.name n } }
  | .ok false => b

/-- `response["context"]`, where the response is a dictionary that has it. -/
def responseContext : Value → Option Value
  | .dict entries => Value.lookup entries (.str "context")
  | _ => none

/-- The status and the bookkeeping after an operation completed with a response whose context, if
any, is a mapping. -/
def completedBook [JsonLoads] [ToString U] (n : U) (op : Operation) (response : Value)
    (b : Book U) : Book U :=
  let b := { b with result := some response }
  if op.isGate then recordGateVerdict n op response b else b

def contextMessage [ToString U] (n : U) (op : Operation) (context : Value) : String :=
  s!"Operation {op.nameOnBranch n} response['context'] must be a Mapping, got {context.typeName}."

def failedBook (message : String) (b : Book U) : Book U :=
  { b with result := some (errorResult message), failed := true }

/-- What follows the return of `invoke`, up to the completion event. -/
def settle [JsonLoads] [ToString U] (e : Executor U) (n : U) (op : Operation) : Executor U :=
  let response := (e.record n).response
  match (e.record n).status with
  | .completed =>
    match responseContext response with
    | none =>
      ((e.modifyBook n (completedBook n op response)).emitTerminalOnce n .completed).setEvent n
    | some (.dict context) =>
      let e := { e with workspace := Value.deepUpdate e.workspace context }
      ((e.modifyBook n (completedBook n op response)).emitTerminalOnce n .completed).setEvent n
    | some context =>
      let e := e.modify n fun r ↦
        { r with status := .failed, error := contextMessage n op context,
                 book := failedBook (contextMessage n op context) r.book }
      (e.emitTerminalOnce n .failed).setEvent n
  | .failed =>
    let e := e.modify n fun r ↦ { r with book := failedBook r.error r.book }
    (e.emitTerminalOnce n .failed).setEvent n
  | .cancelled => (e.emitTerminalOnce n .cancelled).setEvent n
  | _ => e.setEvent n

/-- From the preparation to the call of `invoke`. -/
def begin (e : Executor U) (n : U) (parameters : Entries) : Executor U :=
  let e := e.modify n fun r ↦ { r with parameters := .dict parameters, started := true }
  { e.emitProgress n .started with invocations := e.invocations ++ [n] }

/-- `invoke` up to its body. -/
def process (e : Executor U) (n : U) : Executor U :=
  { e.modify n fun r ↦ { r with status := .processing } with borrowed := e.borrowed + 1 }

/-- The end of `invoke` and of the operation. -/
def conclude [JsonLoads] [ToString U] (e : Executor U) (n : U) (op : Operation) (outcome : Outcome) :
    Executor U :=
  let e := { e with borrowed := e.borrowed - 1 }
  match outcome with
  | .completed response =>
    (e.modify n fun r ↦ { r with status := .completed, response }).settle n op
  | .failed message =>
    (e.modify n fun r ↦ { r with status := .failed, error := message }).settle n op
  | .cancelled => (e.modify n fun r ↦ { r with status := .cancelled }).cancel n

end Executor

/-! ## Tasks -/

/-- How the task of an operation came to its end. -/
inductive Exit where
  | preterminal
  | skipped
  | scanError
  | error
  | settled
  | cancelled
  | abandoned
deriving DecidableEq, Repr

/-- Where the task of an operation stands. The scan of the incoming edges carries `has_valid_path`
and `gate_reason`; `checking` is the call of an edge condition. -/
inductive TaskState (U κ : Type) where
  | created
  | scanning (rest : List (InEdge U κ)) (hasValidPath : Bool) (gateReason : Option (GateReason U))
  | checking (edge : InEdge U κ) (value : Value) (rest : List (InEdge U κ))
      (gateReason : Option (GateReason U))
  | aggregating (rest : List String)
  | waiting (rest : List U)
  | paused (gate : ℕ)
  | acquiring
  | invoking (prepared : Prepared U)
  | finished (exit : Exit)

/-- A task goes on until it next waits, is handed an outcome, or is cancelled. -/
inductive Action where
  | run
  | condition (outcome : Except String Bool)
  | returned (outcome : Outcome)
  | cancel

section Advance

variable {U κ : Type} [DecidableEq U] [ToString U] [JsonLoads]

/-- The entry of `_execute_operation`. -/
def enter (G : OperationGraph U κ) (n : U) (op : Operation) (e : Executor U) :
    Executor U × TaskState U κ :=
  if (e.record n).status.terminal then (e.preterminal n, .finished .preterminal)
  else
    match G.incoming n with
    | [] => (e, .aggregating op.aggregationSources)
    | edges => (e, .scanning edges false none)

/-- One round of the loop of `_check_edge_conditions`, once the head's event is set. -/
def scanEdge (n : U) (e : Executor U) (edge : InEdge U κ) (rest : List (InEdge U κ))
    (hasValidPath : Bool) (gateReason : Option (GateReason U)) : Executor U × TaskState U κ :=
  let book := (e.record edge.head).book
  match book.upstreamReason with
  | some reason => (e, .scanning rest hasValidPath (gateReason.or (some reason)))
  | none =>
    if book.closed || hasValidPath then (e, .scanning rest hasValidPath gateReason)
    else
      match (book.result.getD .none).plain with
      | .error message => (e.fail n message, .finished .scanError)
      | .ok value => (e, .checking edge value rest gateReason)

/-- The end of `_check_edge_conditions` and what `_execute_operation` makes of it. -/
def concludeScan (n : U) (op : Operation) (e : Executor U) (hasValidPath : Bool)
    (gateReason : Option (GateReason U)) : Executor U × TaskState U κ :=
  if gateReason.isSome || !hasValidPath then (e.skip n gateReason, .finished .skipped)
  else (e, .aggregating op.aggregationSources)

open Executor in
/-- What happens once the limiter has admitted the operation. -/
def launch (G : OperationGraph U κ) (n : U) (op : Operation) (e : Executor U) :
    Executor U × TaskState U κ :=
  match prepare e.book (e.record n).parameters e.workspace (G.predecessors n) with
  | .error message => (e.fail n message, .finished .error)
  | .ok prepared =>
    let e := e.begin n prepared.parameters
    if (e.record n).status = .pending then (e.process n, .invoking prepared)
    else (e.settle n op, .finished .settled)

/-- What a task does next; `none` where it has to wait or the action does not fit. -/
def advance (G : OperationGraph U κ) (capacity : ℕ) (n : U) (op : Operation) (e : Executor U) :
    TaskState U κ → Action → Option (Executor U × TaskState U κ)
  | .created, .run => some (enter G n op e)
  | .created, .cancel => some (e, .finished .abandoned)
  | .scanning [] hasValidPath gateReason, .run => some (concludeScan n op e hasValidPath gateReason)
  | .scanning (edge :: rest) hasValidPath gateReason, .run =>
    if (e.record edge.head).event = some false then none
    else some (scanEdge n e edge rest hasValidPath gateReason)
  | .checking _ _ rest gateReason, .condition (.ok valid) => some (e, .scanning rest valid gateReason)
  | .checking _ _ _ _, .condition (.error message) =>
    some (e.fail n message, .finished .scanError)
  | .aggregating [], .run => some (e, .waiting (G.predecessors n))
  | .aggregating (source :: rest), .run =>
    match G.resolve source with
    | none => some (e, .aggregating rest)
    | some m => if (e.record m).event = some false then none else some (e, .aggregating rest)
  | .waiting [], .run =>
    match e.pauseEvent with
    | some gate => some (e, .paused gate)
    | none => some (e, .acquiring)
  | .waiting (pred :: rest), .run =>
    match (e.record pred).event with
    | none => some (e.fail n s!"UUID('{pred}')", .finished .error)
    | some false => none
    | some true => some (e, .waiting rest)
  | .paused gate, .run => if e.pauseEvent = some gate then none else some (e, .waiting [])
  | .acquiring, .run => if e.borrowed < capacity then some (launch G n op e) else none
  | .invoking _, .returned .cancelled => some (e.conclude n op .cancelled, .finished .cancelled)
  | .invoking _, .returned outcome => some (e.conclude n op outcome, .finished .settled)
  | .invoking _, .cancel => some (e.conclude n op .cancelled, .finished .cancelled)
  | .finished _, .cancel => none
  | _, .cancel => some (e.cancel n, .finished .cancelled)
  | _, _ => none

end Advance

/-! ## Runs -/

/-- What the code outside the executor may do: the outcomes of an edge condition on an upstream value
in a context, and those of an operation invoked with prepared parameters. -/
structure World (U κ : Type) where
  condition : κ → Value → Entries → Except String Bool → Prop
  invoke : U → Prepared U → Outcome → Prop

/-- An edge without a condition passes. -/
def World.Permits {U κ : Type} (W : World U κ) (e : Executor U) (n : U) :
    TaskState U κ → Action → Prop
  | .checking edge value _ _, .condition outcome =>
    match edge.condition with
    | none => outcome = .ok true
    | some c => W.condition c value e.workspace outcome
  | .invoking prepared, .returned outcome => W.invoke n prepared outcome
  | _, _ => True

structure Task (U κ : Type) where
  node : U
  state : TaskState U κ

/-- An executor and the tasks of its task group under their keys. `cancelling` says that the group is
being cancelled. -/
structure RunState (K U κ : Type) where
  executor : Executor U
  task : K → Option (Task U κ)
  cancelling : Bool

inductive Label (K : Type) where
  | task (key : K) (action : Action)
  | pause
  | resume
  | cancel

/-- Cancellation is delivered only in a group that is being cancelled. -/
def Action.deliverable (cancelling : Bool) : Action → Bool
  | .cancel => cancelling
  | _ => true

/-- An operation that ends with a cancellation takes the group down. -/
def Action.cancels : Action → Bool
  | .returned .cancelled => true
  | _ => false

namespace RunState

variable {K U κ : Type} [DecidableEq K] [DecidableEq U] [ToString U] [JsonLoads]

def next (G : OperationGraph U κ) (capacity : ℕ) (s : RunState K U κ) :
    Label K → Option (RunState K U κ)
  | .task key action =>
    match s.task key with
    | none => none
    | some t =>
      match G.operation t.node with
      | none => none
      | some op =>
        if action.deliverable s.cancelling then
          (advance G capacity t.node op s.executor t.state action).map fun out ↦
            { executor := out.1
              task := Function.update s.task key (some ⟨t.node, out.2⟩)
              cancelling := s.cancelling || action.cancels }
        else none
  | .pause =>
    match s.executor.pauseEvent with
    | some _ => some s
    | none =>
      some { s with executor :=
        { s.executor with pauseEvent := some s.executor.gates, gates := s.executor.gates + 1 } }
  | .resume => some { s with executor := { s.executor with pauseEvent := none } }
  | .cancel => some { s with cancelling := true }

/-- A task is only handed outcomes that the world permits. -/
def Permitted (W : World U κ) (s : RunState K U κ) : Label K → Prop
  | .task key action => ∀ t, s.task key = some t → W.Permits s.executor t.node t.state action
  | _ => True

def Step (W : World U κ) (G : OperationGraph U κ) (capacity : ℕ) (s : RunState K U κ) (l : Label K)
    (t : RunState K U κ) : Prop :=
  s.next G capacity l = some t ∧ s.Permitted W l

/-- Every task has come to its end. -/
def Complete (s : RunState K U κ) : Prop :=
  ∀ key t, s.task key = some t → ∃ exit, t.state = .finished exit

end RunState

/-! ## The start of a run -/

/-- An operation of the graph as the executor finds it. -/
structure Initial where
  status : EventStatus
  response : Value
  parameters : Parameters

/-- What `__init__` keeps about an operation. -/
def Initial.record {U : Type} (i : Initial) : Record U where
  status := i.status
  response := i.response
  error := "None"
  parameters := i.parameters
  event := some (i.status = .completed)
  started := false
  terminalEmitted := false
  book := { Book.empty with result := if i.status = .completed then some i.response else none }

/-- `DependencyAwareExecutor(...)` and `execute` up to its task group: every operation is announced
and has a task. -/
def start {U κ : Type} (G : OperationGraph U κ) (initial : U → Initial) (workspace : Entries) :
    RunState U U κ where
  executor :=
    { record := fun n ↦ if (G.operation n).isSome then (initial n).record else Record.absent
      workspace
      borrowed := 0
      pauseEvent := none
      gates := 0
      progress := (G.nodes.filter fun n ↦ (G.operation n).isSome).map fun n ↦ (n, .queued)
      invocations := [] }
  task := fun n ↦ if (G.operation n).isSome then some ⟨n, .created⟩ else none
  cancelling := false

end Lionagi.Operations
