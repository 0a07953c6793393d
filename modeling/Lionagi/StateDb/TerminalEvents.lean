import Mathlib.Data.Fintype.EquivFin
import Lionagi.Library.SortedTable
import Lionagi.Library.Transition
import Lionagi.StateDb.LifecycleHistory

/-!
# Terminal events

The service pushes an envelope to the registered callbacks after a transition to a terminal status, and a
consumer pulls the terminal transitions it has not acknowledged from the history. The two decide apart
what a terminal transition is, and they are compared over runs of all the writers of the history.
-/

namespace Lionagi.StateDb

open Checks OrderedDict Transition

/-! ## The push -/

def executionEntityKinds : List String := ["invocation", "play", "schedule_run", "session"]

structure EntityRef where
  kind : String
  id : String
  deriving DecidableEq

/-- Correlation keys, of which only the one of the entity itself is known. -/
structure Correlation where
  invocationId : Option String := none
  sessionId : Option String := none
  scheduleRunId : Option String := none
  runId : Option String := none
  deriving DecidableEq

structure RunTerminalEnvelope where
  eventId : ℕ
  entity : EntityRef
  previousStatus : Cell
  terminalStatus : String
  reasonCode : String
  occurredAt : ℚ
  correlation : Correlation := {}
  artifacts : List (List (String × Cell)) := []
  durable : Bool := true
  schema : String := "lionagi.run-terminal"
  schemaVersion : ℕ := 1
  deriving DecidableEq

def correlationFor (entityType entityId : String) : Correlation :=
  if entityType = "session" then { sessionId := some entityId }
  else if entityType = "invocation" then { invocationId := some entityId }
  else if entityType = "schedule_run" then { scheduleRunId := some entityId }
  else {}

def buildTerminalEnvelope (command : TransitionCommand) (previousStatus : Cell) (transitionId : ℕ)
    (occurredAt : ℚ) : RunTerminalEnvelope where
  eventId := transitionId
  entity := ⟨command.entityType, command.entityId⟩
  previousStatus := previousStatus
  terminalStatus := command.toStatus
  reasonCode := command.reason.code
  occurredAt := occurredAt
  correlation := correlationFor command.entityType command.entityId

/-- The status of an execution entity changes to one of its terminal statuses. -/
def EndsExecution (policy : LifecyclePolicy) (entityType : String) (previousStatus : Cell)
    (toStatus : String) : Prop :=
  previousStatus ≠ Cell.text toStatus ∧ entityType ∈ executionEntityKinds ∧
    toStatus ∈ policy.terminalStatuses

instance (policy : LifecyclePolicy) (entityType : String) (previousStatus : Cell) (toStatus : String) :
    Decidable (EndsExecution policy entityType previousStatus toStatus) :=
  inferInstanceAs (Decidable (_ ∧ _ ∧ _))

/-- What `_transition` emits once its transaction is committed. -/
def terminalEvents (registry : PolicyRegistry) (command : TransitionCommand) (now : ℚ)
    (outcome : TransitionOutcome) : List RunTerminalEnvelope :=
  match registry.byEntityType.get? command.entityType, outcome.transitionId with
  | some policy, some transitionId =>
    if EndsExecution policy command.entityType outcome.previousStatus command.toStatus then
      [buildTerminalEnvelope command outcome.previousStatus transitionId now]
    else []
  | _, _ => []

namespace TransitionOp

variable (registry : PolicyRegistry) (validReasonCodes : List String) (db : Db) (now : ℚ)

/-- The call of `_transition` that an entry point makes after its own checks. -/
def call : TransitionOp → Except LifecycleError (Db × TransitionOutcome)
  | .transition command => StateDb.transition registry validReasonCodes db command now
  | .updateStatus update =>
    guardedTransition registry db update.command { raiseOnUnguardedConflict := true } now
  | .legacyTransition request => runLegacyTransition registry db request now

def events (op : TransitionOp) : List RunTerminalEnvelope :=
  match op.call registry validReasonCodes db now with
  | .ok committed => terminalEvents registry op.command now committed.2
  | .error _ => []

theorem exec_eq (op : TransitionOp) : op.exec registry validReasonCodes db now =
    (commit db (op.call registry validReasonCodes db now)).1 := by
  cases op with
  | transition command => rfl
  | updateStatus update => exact runUpdateStatus_fst update
  | legacyTransition request => rfl

end TransitionOp

/-! ## The pull -/

/-- A row of `terminal_deliveries`. -/
structure Delivery where
  transitionId : ℕ
  consumer : String
  ackedAt : ℚ
  deriving DecidableEq

def isAcknowledged (deliveries : List Delivery) (transitionId : ℕ) (consumer : String) : Prop :=
  ∃ delivery ∈ deliveries, delivery.transitionId = transitionId ∧ delivery.consumer = consumer

instance (deliveries : List Delivery) (transitionId : ℕ) (consumer : String) :
    Decidable (isAcknowledged deliveries transitionId consumer) :=
  inferInstanceAs (Decidable (∃ delivery ∈ deliveries,
    delivery.transitionId = transitionId ∧ delivery.consumer = consumer))

/-- The ledger refers to the history by a foreign key and ignores a second row for one key. -/
def ackDelivery (db : Db) (deliveries : List Delivery) (transitionId : ℕ) (consumer : String) (now : ℚ) :
    Except LifecycleError (List Delivery) :=
  if transitionId ∉ db.history.map HistoryRow.id then .error .integrity
  else if isAcknowledged deliveries transitionId consumer then .ok deliveries
  else .ok (deliveries ++ [⟨transitionId, consumer, now⟩])

/-- A row that `reconcile_unacknowledged` returns. -/
structure ReconciledRow where
  transitionId : ℕ
  entityType : String
  entityId : String
  previousStatus : Cell
  terminalStatus : String
  reasonCode : String
  occurredAt : ℚ
  deriving DecidableEq

def HistoryRow.reconciled (row : HistoryRow) : ReconciledRow :=
  ⟨row.id, row.entityType, row.entityId, row.previousStatus, row.status, row.reason.code, row.createdAt⟩

/-- A kind of entity and its terminal statuses, for the kinds that have any. -/
def terminalClauses (registry : PolicyRegistry) (kinds : List String) :
    Except LifecycleError (List (String × List String)) := do
  let clauses ← kinds.mapM fun kind ↦ (registry.get kind).map fun policy ↦ (kind, policy.terminalStatuses)
  return clauses.filter fun clause ↦ clause.2 ≠ []

/-- The conditions of the query on the history alone, where NULL compares to nothing. -/
def HistoryRow.Matches (row : HistoryRow) (clauses : List (String × List String)) : Prop :=
  (∃ clause ∈ clauses, row.entityType = clause.1 ∧ row.status ∈ clause.2) ∧
    row.previousStatus ≠ none ∧ row.previousStatus ≠ Cell.text row.status

instance (row : HistoryRow) (clauses : List (String × List String)) : Decidable (row.Matches clauses) :=
  inferInstanceAs (Decidable (_ ∧ _ ∧ _))

/-- The rows of the query, oldest first. -/
def pending (db : Db) (deliveries : List Delivery) (consumer : String)
    (clauses : List (String × List String)) : List HistoryRow :=
  SortedTable.sortBy HistoryRow.createdAt (db.history.filter fun row ↦
    row.Matches clauses ∧ ¬ isAcknowledged deliveries row.id consumer)

/-- A negative limit is none. -/
def limitRows (limit : Option ℤ) (rows : List ReconciledRow) : List ReconciledRow :=
  match limit with
  | none => rows
  | some n => if n < 0 then rows else rows.take n.toNat

def reconcileUnacknowledged (registry : PolicyRegistry) (db : Db) (deliveries : List Delivery)
    (consumer : String) (kinds : Option (List String)) (limit : Option ℤ) :
    Except LifecycleError (List ReconciledRow) := do
  let clauses ← terminalClauses registry (kinds.getD executionEntityKinds)
  if clauses = [] then return []
  return limitRows limit ((pending db deliveries consumer clauses).map HistoryRow.reconciled)

/-! ## The administrator's transition -/

/-- An unhealthy session that `transition_sessions` ends, with what was read of its row beforehand and the
reason that the health check leaves. -/
structure AdminTransition where
  sessionId : String
  targetStatus : String
  reason : ReasonRecord
  actor : String
  lastMessageAt : Cell
  updatedAt : Cell
  startedAt : Cell

def adminTransitionTargets : List String := ["aborted", "cancelled", "failed"]

namespace AdminTransition

variable (request : AdminTransition) (now : ℚ)

/-- The row is the one that was read, and is running. -/
def Hits (row : Row) : Prop :=
  row "status" = Cell.text "running" ∧ row "last_message_at" = request.lastMessageAt ∧
    row "updated_at" = request.updatedAt

instance (row : Row) : Decidable (request.Hits row) := inferInstanceAs (Decidable (_ ∧ _ ∧ _))

def durationMs : Cell :=
  match request.startedAt with
  | some (.num startedAt) => Cell.num (max 0 ((now - startedAt) * 1000))
  | _ => none

def setClauses : List (String × Cell) :=
  [("status", Cell.text request.targetStatus), ("ended_at", Cell.num now), ("updated_at", Cell.num now),
    ("duration_ms", request.durationMs now), ("status_reason_code", Cell.text request.reason.code),
    ("status_reason_summary", Cell.text request.reason.summary),
    ("status_evidence_refs", Cell.text request.reason.evidenceRefs)]

/-- `transition_sessions` for one session. The compare-and-swap and the history row are its own. -/
def exec (validReasonCodes : List String) (db : Db) : Db :=
  if request.targetStatus ∈ adminTransitionTargets ∧ request.reason.code ∈ validReasonCodes then
    match db.select "sessions" request.sessionId with
    | some row =>
      if request.Hits row then
        (db.put "sessions" request.sessionId (some (row.assign (request.setClauses now)))).appendHistory
          "session" request.sessionId (Cell.text "running") request.targetStatus request.reason
          ⟨"admin", some request.actor⟩ now
      else db
    | none => db
  else db

end AdminTransition

/-! ## Runs -/

/-- The database, the envelopes that were emitted and the ledger of the consumers. -/
structure TerminalLog where
  db : Db
  emitted : List RunTerminalEnvelope
  deliveries : List Delivery

/-- The writers of the history and the ledger. Rows of entities may change in any way besides. -/
inductive TerminalOp where
  | lifecycle (op : LifecycleOp)
  | adminTransition (request : AdminTransition)
  | ackDelivery (transitionId : ℕ) (consumer : String)
  | storeRows (rows : String → String → Option Row)

/-- The envelopes that an operation of the lifecycle emits. -/
def lifecycleEvents (validReasonCodes : List String) (db : Db) (now : ℚ) :
    LifecycleOp → List RunTerminalEnvelope
  | .transition op => op.events defaultRegistry validReasonCodes db now
  | _ => []

namespace TerminalLog

variable (validReasonCodes : List String) (log : TerminalLog)

def acknowledge (transitionId : ℕ) (consumer : String) (now : ℚ) : TerminalLog :=
  match StateDb.ackDelivery log.db log.deliveries transitionId consumer now with
  | .ok deliveries => { log with deliveries := deliveries }
  | .error _ => log

def exec : TerminalOp × ℚ → TerminalLog
  | (.lifecycle op, now) =>
    { log with
      db := execOp validReasonCodes log.db (op, now)
      emitted := log.emitted ++ lifecycleEvents validReasonCodes log.db now op }
  | (.adminTransition request, now) => { log with db := request.exec now validReasonCodes log.db }
  | (.ackDelivery transitionId consumer, now) => log.acknowledge transitionId consumer now
  | (.storeRows rows, _) => { log with db := { log.db with rows := rows } }

/-- A database without a history. -/
def start (rows : String → String → Option Row) : TerminalLog := ⟨⟨rows, [], []⟩, [], []⟩

/-- What a consumer is told, the default kinds taken and no limit set. -/
def reconciled (consumer : String) : Except LifecycleError (List ReconciledRow) :=
  reconcileUnacknowledged defaultRegistry log.db log.deliveries consumer none none

/-- Acknowledgements of a consumer, each at its time. -/
def acknowledgeAll (consumer : String) (acks : List (ℕ × ℚ)) : TerminalLog :=
  acks.foldl (fun log ack ↦ log.acknowledge ack.1 consumer ack.2) log

/-- The consumer never acknowledged anything. -/
def Fresh (consumer : String) : Prop := ∀ delivery ∈ log.deliveries, delivery.consumer ≠ consumer

/-- The envelope says of its history row what the row says. -/
def Carries (envelope : RunTerminalEnvelope) (row : HistoryRow) : Prop :=
  row.id = envelope.eventId ∧ row.entityType = envelope.entity.kind ∧ row.entityId = envelope.entity.id ∧
    row.previousStatus = envelope.previousStatus ∧ row.status = envelope.terminalStatus ∧
    row.reason.code = envelope.reasonCode ∧ row.createdAt = envelope.occurredAt

/-- The transitions that were pushed are those a consumer can pull, until it acknowledges them. -/
structure Agrees : Prop where
  carries : ∀ envelope ∈ log.emitted, ∃ row ∈ log.db.history, Carries envelope row
  agree : ∀ consumer, log.Fresh consumer → ∃ rows, log.reconciled consumer = .ok rows ∧
    ∀ transitionId, transitionId ∈ rows.map ReconciledRow.transitionId ↔
      transitionId ∈ log.emitted.map RunTerminalEnvelope.eventId
  acknowledged : ∀ consumer, log.Fresh consumer → ∀ acks, ∃ rows, log.reconciled consumer = .ok rows ∧
    (log.acknowledgeAll consumer acks).reconciled consumer =
      .ok (rows.filter fun row ↦ row.transitionId ∉ acks.map Prod.fst)

end TerminalLog

/-! ## The rows of the query -/

section Pending

variable {db : Db} {deliveries : List Delivery} {consumer : String} {row : HistoryRow}

/-- The kinds of execution entities and their terminal statuses. -/
def executionClauses : List (String × List String) :=
  [("invocation", invocationPolicy.terminalStatuses), ("play", playPolicy.terminalStatuses),
    ("schedule_run", scheduleRunPolicy.terminalStatuses), ("session", sessionPolicy.terminalStatuses)]

theorem terminalClauses_default :
    terminalClauses defaultRegistry executionEntityKinds = .ok executionClauses := by
  rfl

theorem reconcileUnacknowledged_default :
    reconcileUnacknowledged defaultRegistry db deliveries consumer none none =
      .ok ((pending db deliveries consumer executionClauses).map HistoryRow.reconciled) := by
  unfold reconcileUnacknowledged
  rw [Option.getD_none, terminalClauses_default]
  rfl

/-- What the query looks for is what the service pushes, unless the previous status is NULL. -/
theorem matches_iff {policy : LifecyclePolicy}
    (hpolicy : defaultRegistry.byEntityType.get? row.entityType = some policy) :
    row.Matches executionClauses ↔
      row.previousStatus ≠ none ∧ EndsExecution policy row.entityType row.previousStatus row.status := by
  have hclause : (∃ clause ∈ executionClauses, row.entityType = clause.1 ∧ row.status ∈ clause.2) ↔
      row.entityType ∈ executionEntityKinds ∧ row.status ∈ policy.terminalStatuses := by
    constructor
    · intro h
      obtain ⟨clause, hclause, htype, hstatus⟩ := h
      have hregistered : ∀ clause ∈ executionClauses, clause.1 ∈ executionEntityKinds ∧
          (defaultRegistry.byEntityType.get? clause.1).map LifecyclePolicy.terminalStatuses =
            some clause.2 := by
        decide
      obtain ⟨hkind, hterminal⟩ := hregistered clause hclause
      rw [← htype, hpolicy, Option.map_some, Option.some.injEq] at hterminal
      exact ⟨htype ▸ hkind, hterminal ▸ hstatus⟩
    · intro h
      obtain ⟨hkind, hstatus⟩ := h
      have hlisted : ∀ kind ∈ executionEntityKinds, ∃ clause ∈ executionClauses, kind = clause.1 ∧
          (defaultRegistry.byEntityType.get? kind).map LifecyclePolicy.terminalStatuses =
            some clause.2 := by
        decide
      obtain ⟨clause, hclause, htype, hterminal⟩ := hlisted _ hkind
      rw [hpolicy, Option.map_some, Option.some.injEq] at hterminal
      exact ⟨clause, hclause, htype, hterminal ▸ hstatus⟩
  unfold HistoryRow.Matches EndsExecution
  rw [hclause]
  tauto

theorem mem_pending {clauses : List (String × List String)} :
    row ∈ pending db deliveries consumer clauses ↔ row ∈ db.history ∧ row.Matches clauses ∧
      ¬ isAcknowledged deliveries row.id consumer := by
  unfold pending
  rw [SortedTable.mem_sortBy, List.mem_filter, decide_eq_true_eq]

end Pending

/-! ## What a call commits -/

/-- What the public entry point checks before `_transition`. -/
structure TransitionCommand.Admitted (command : TransitionCommand) (validReasonCodes : List String)
    (policy : LifecyclePolicy) : Prop where
  reasonCode : command.reason.code ∈ validReasonCodes
  reasonPrefix : reasonPrefix command.reason.code ∈ policy.reasonPrefixes
  actorId : command.actor.id ≠ none ∧ command.actor.id ≠ some ""
  actorType : command.actor.type ∈ actorTypes

def TransitionOp.Admitted (validReasonCodes : List String) (policy : LifecyclePolicy) :
    TransitionOp → Prop
  | .transition command => command.Admitted validReasonCodes policy
  | _ => True

/-- The call is written to the row it reads. -/
structure TransitionOp.Commits (op : TransitionOp) (validReasonCodes : List String)
    (policy : LifecyclePolicy) (row : Row) (now : ℚ) : Prop where
  admitted : op.Admitted validReasonCodes policy
  valid : op.command.Valid policy
  status : ¬ op.command.StatusDiffers row
  permitted : ∃ override, op.command.Permits policy (op.options policy) (row "status") override
  version : ¬ op.command.VersionDiffers row
  guard : ¬ (op.options policy).GuardDiffers row
  notNull : ∀ entry ∈ (op.options policy).extraGuard.entries, entry.2 ≠ none
  patched : ∃ patch, op.command.completePatch policy row now = .ok patch

section Commits

variable {validReasonCodes : List String} {policy : LifecyclePolicy} {row : Row} {now : ℚ} {db : Db}
variable {op : TransitionOp}

theorem transition_eq_ok_iff {command : TransitionCommand} {committed : Db × TransitionOutcome} :
    transition defaultRegistry validReasonCodes db command now = .ok committed ↔
      ∃ policy, defaultRegistry.byEntityType.get? command.entityType = some policy ∧
        command.Admitted validReasonCodes policy ∧
        guardedTransition defaultRegistry db command (publicOptions policy) now = .ok committed := by
  unfold transition
  rw [then_eq_ok_iff, ensure_eq_ok_iff, bind_eq_ok_iff]
  simp only [then_eq_ok_iff, ensure_eq_ok_iff, PolicyRegistry.get_eq_ok_iff]
  constructor
  · intro h
    obtain ⟨hcode, policy, hpolicy, hprefix, hid, htype, hguarded⟩ := h
    exact ⟨policy, hpolicy, ⟨hcode, hprefix, hid, htype⟩, hguarded⟩
  · intro h
    obtain ⟨policy, hpolicy, hadmitted, hguarded⟩ := h
    exact ⟨hadmitted.reasonCode, policy, hpolicy, hadmitted.reasonPrefix, hadmitted.actorId,
      hadmitted.actorType, hguarded⟩

theorem TransitionOp.call_eq_ok_iff {committed : Db × TransitionOutcome} :
    op.call defaultRegistry validReasonCodes db now = .ok committed ↔
      ∃ policy, defaultRegistry.byEntityType.get? op.command.entityType = some policy ∧
        op.Admitted validReasonCodes policy ∧
        guardedTransition defaultRegistry db op.command (op.options policy) now = .ok committed := by
  have hregistered : ∀ {command options},
      guardedTransition defaultRegistry db command options now = .ok committed →
        ∃ policy, defaultRegistry.byEntityType.get? command.entityType = some policy := by
    intro command options h
    obtain ⟨policy, -, hpolicy, -⟩ := guardedTransition_eq_ok h
    exact ⟨policy, hpolicy⟩
  cases op with
  | transition command => exact transition_eq_ok_iff
  | updateStatus update =>
    constructor
    · intro h
      obtain ⟨policy, hpolicy⟩ := hregistered h
      exact ⟨policy, hpolicy, trivial, h⟩
    · intro h
      obtain ⟨_, _, _, hguarded⟩ := h
      exact hguarded
  | legacyTransition request =>
    constructor
    · intro h
      obtain ⟨policy, hpolicy⟩ := hregistered h
      exact ⟨policy, hpolicy, trivial, h⟩
    · intro h
      obtain ⟨_, _, _, hguarded⟩ := h
      exact hguarded

/-- The history row that a call appends. -/
def TransitionOp.historyRow (op : TransitionOp) (db : Db) (row : Row) (now : ℚ) : HistoryRow :=
  ⟨db.history.length, op.command.entityType, op.command.entityId, row "status", op.command.toStatus,
    op.command.reason, op.command.actor, now⟩

/-- A call that returns has either left the history, without the number of a transition, or committed. -/
theorem TransitionOp.call_history {db' : Db} {outcome : TransitionOutcome}
    (h : op.call defaultRegistry validReasonCodes db now = .ok (db', outcome)) :
    outcome.transitionId = none ∧ db'.history = db.history ∨
      ∃ policy row, defaultRegistry.byEntityType.get? op.command.entityType = some policy ∧
        db.select policy.table op.command.entityId = some row ∧
        op.Commits validReasonCodes policy row now ∧ db'.history = db.history ++ [op.historyRow db row now] ∧
        outcome = ⟨.applied, row "status", Cell.text op.command.toStatus, some db.history.length⟩ := by
  obtain ⟨policy, hpolicy, hadmitted, hguarded⟩ := call_eq_ok_iff.1 h
  obtain ⟨other, row, hother, hvalid, hrow, hexit⟩ := guardedTransition_eq_ok hguarded
  cases hpolicy.symm.trans hother
  cases hexit with
  | statusConflict => exact .inl ⟨rfl, rfl⟩
  | noop => exact .inl ⟨rfl, rfl⟩
  | rejected => exact .inl ⟨rfl, rfl⟩
  | versionConflict => exact .inl ⟨rfl, rfl⟩
  | guardConflict => exact .inl ⟨rfl, recordOverride_history _⟩
  | nullGuard => exact .inl ⟨rfl, recordOverride_history _⟩
  | @applied override patch stored hstatus hpermits hversion hguard hpatch hnull hreplace =>
    have hhistory : stored.history = db.history :=
      (Db.replace_history hreplace).1.trans (recordOverride_history _)
    refine .inr ⟨policy, row, hpolicy, hrow, ⟨hadmitted, hvalid, hstatus, ⟨override, hpermits⟩, hversion,
      hguard, hnull, patch, hpatch⟩, ?_, ?_⟩
    · rw [Db.appendHistory, hhistory]
      rfl
    · rw [hhistory]

/-- A call that may be written to its row returns, and commits. -/
theorem TransitionOp.call_of_commits
    (hpolicy : defaultRegistry.byEntityType.get? op.command.entityType = some policy)
    (hrow : db.select policy.table op.command.entityId = some row)
    (h : op.Commits validReasonCodes policy row now) :
    ∃ db', op.call defaultRegistry validReasonCodes db now =
        .ok (db', ⟨.applied, row "status", Cell.text op.command.toStatus, some db.history.length⟩) ∧
      db'.history = db.history ++ [op.historyRow db row now] := by
  have hid : "id" ∉ op.command.patch :=
    fun hmem ↦ (not_mem_patchFields hpolicy).2 (h.valid.patch "id" hmem)
  obtain ⟨patch, hpatch⟩ := h.patched
  have hpermitted : ∀ verdict, (∀ override, verdict ≠ .ok (.proceed override)) →
      op.command.verdict policy (op.options policy) (row "status") ≠ verdict := by
    intro verdict hne heq
    obtain ⟨override, hpermits⟩ := h.permitted
    exact hne override (heq.symm.trans (TransitionCommand.verdict_eq_proceed_iff.2 hpermits))
  have hguarded : guardedTransition defaultRegistry db op.command (op.options policy) now =
      op.command.transitionRow policy (op.options policy) row now db := by
    rw [guardedTransition_eq hpolicy hrow, TransitionCommand.check_eq_ok_iff.2 h.valid]
    rfl
  have hexit : Exit policy op.command (op.options policy) row now db
      (guardedTransition defaultRegistry db op.command (op.options policy) now) :=
    hguarded ▸ transitionRow_exit hrow
  have hcall : ∀ committed,
      guardedTransition defaultRegistry db op.command (op.options policy) now = .ok committed →
        op.call defaultRegistry validReasonCodes db now = .ok committed :=
    fun _ hok ↦ call_eq_ok_iff.2 ⟨policy, hpolicy, h.admitted, hok⟩
  generalize guardedTransition defaultRegistry db op.command (op.options policy) now = result at hexit hcall
  cases hexit with
  | statusConflict hstatus => exact absurd hstatus h.status
  | refused _ hverdict => exact absurd hverdict (hpermitted _ fun _ heq ↦ by cases heq)
  | noop _ hverdict => exact absurd hverdict (hpermitted _ fun _ heq ↦ by cases heq)
  | rejected _ hverdict => exact absurd hverdict (hpermitted _ fun _ heq ↦ by cases heq)
  | versionConflict _ _ hversion => exact absurd hversion h.version
  | guardConflict _ _ _ hguard => exact absurd hguard h.guard
  | badEnd _ _ _ _ hbad => cases hbad.symm.trans hpatch
  | nullGuard _ _ _ _ _ hentry =>
    obtain ⟨entry, hmem, hnone⟩ := hentry
    exact absurd hnone (h.notNull entry hmem)
  | duplicateKey _ _ _ _ hpatch' _ hreplace =>
    cases (replace_updated hrow hid hpatch').symm.trans hreplace
  | @applied override _ stored _ _ _ _ _ _ hreplace =>
    have hhistory : stored.history = db.history :=
      (Db.replace_history hreplace).1.trans (recordOverride_history _)
    have hcommitted := hcall _ rfl
    rw [hhistory] at hcommitted
    refine ⟨_, hcommitted, ?_⟩
    rw [Db.appendHistory, hhistory]
    rfl

end Commits

/-! ## Steps -/

def HistoryRow.envelope (row : HistoryRow) : RunTerminalEnvelope where
  eventId := row.id
  entity := ⟨row.entityType, row.entityId⟩
  previousStatus := row.previousStatus
  terminalStatus := row.status
  reasonCode := row.reason.code
  occurredAt := row.createdAt
  correlation := correlationFor row.entityType row.entityId

/-- The history rows are numbered in their order, and an envelope was emitted for each that the query
looks for. -/
structure TerminalLog.Sound (log : TerminalLog) : Prop where
  ids : log.db.history.map HistoryRow.id = List.range log.db.history.length
  pushed : log.emitted =
    (log.db.history.filter fun row ↦ row.Matches executionClauses).map HistoryRow.envelope

section Steps

variable {validReasonCodes : List String} {log log' : TerminalLog} {row : HistoryRow} {now : ℚ}

namespace TerminalLog

theorem Sound.id_lt (h : log.Sound) (hrow : row ∈ log.db.history) : row.id < log.db.history.length := by
  rw [← List.mem_range, ← h.ids]
  exact List.mem_map_of_mem hrow

theorem Sound.of_history (h : log.Sound) (hhistory : log'.db.history = log.db.history)
    (hemitted : log'.emitted = log.emitted) : log'.Sound where
  ids := by rw [hhistory, h.ids]
  pushed := by rw [hhistory, hemitted, h.pushed]

/-- A row is added, and an envelope with it when the query looks for it. -/
theorem Sound.of_append (h : log.Sound) (hhistory : log'.db.history = log.db.history ++ [row])
    (hid : row.id = log.db.history.length)
    (hemitted : log'.emitted =
      log.emitted ++ if row.Matches executionClauses then [row.envelope] else []) : log'.Sound where
  ids := by
    rw [hhistory, List.map_append, h.ids, List.map_singleton, hid, List.length_append,
      List.length_singleton, List.range_succ]
  pushed := by
    rw [hhistory, hemitted, h.pushed, List.filter_append, List.map_append]
    apply congrArg
    by_cases hmatches : row.Matches executionClauses <;> simp [hmatches]

/-- An initial row is not looked for. -/
theorem Sound.of_initial (h : log.Sound) (hhistory : log'.db.history = log.db.history ++ [row])
    (hid : row.id = log.db.history.length) (hinitial : row.previousStatus = none)
    (hemitted : log'.emitted = log.emitted) : log'.Sound := by
  apply h.of_append hhistory hid
  rw [if_neg fun hmatches ↦ hmatches.2.1 hinitial, hemitted, List.append_nil]

end TerminalLog

/-! ### The initial rows -/

theorem initialized_history {db db' : Db} {status actorId id : String}
    (h : initializeManagedEntityInTx db "schedule_run" id status actorId now = .ok db') :
    db'.history = db.history ∨ ∃ row : HistoryRow, db'.history = db.history ++ [row] ∧
      row.id = db.history.length ∧ row.previousStatus = none := by
  cases hcode : initialReasonCodes.get? ("schedule_run", status) with
  | none =>
    rw [initializeManagedEntityInTx, hcode] at h
    cases h
    exact .inl rfl
  | some code =>
    obtain ⟨n, hcreates⟩ := (initializeScheduleRun_eq_ok_iff hcode).1 h
    obtain ⟨policy, -, -, -, rfl⟩ := initializeInTransaction_eq_ok_iff.1 hcreates
    exact .inr ⟨_, congrArg (· ++ [_]) update_history, congrArg List.length update_history, rfl⟩

theorem tombstone_history {db db' : Db} {orphanId expectedOrphanStatus : String} {run : ScheduleRun}
    {replaced : Bool}
    (h : tombstoneAndReplaceScheduleRun db orphanId run expectedOrphanStatus now = .ok (db', replaced)) :
    db'.history = db.history ∨ ∃ row : HistoryRow, db'.history = db.history ++ [row] ∧
      row.id = db.history.length ∧ row.previousStatus = none := by
  cases replaced with
  | false => exact .inl (congrArg Db.history (tombstone_eq_false h))
  | true =>
    obtain ⟨_, _, _, _, _, hcreates⟩ := tombstone_steps h
    have hput : ∀ clauses, ((db.update "schedule_runs" orphanId clauses).put "schedule_runs" run.id
        (some (run.row now))).history = db.history := fun _ ↦ update_history
    have hinitialized := initialized_history hcreates
    rw [hput] at hinitialized
    exact hinitialized

namespace TerminalLog

theorem Sound.tombstone (h : log.Sound) (orphanId expectedOrphanStatus : String) (run : ScheduleRun) :
    (log.exec validReasonCodes
      (.lifecycle (.tombstoneAndReplace orphanId run expectedOrphanStatus), now)).Sound := by
  have hemitted : (log.exec validReasonCodes (.lifecycle (.tombstoneAndReplace orphanId run
      expectedOrphanStatus), now)).emitted = log.emitted := List.append_nil _
  have hdb : (log.exec validReasonCodes (.lifecycle (.tombstoneAndReplace orphanId run
      expectedOrphanStatus), now)).db = (commit log.db (tombstoneAndReplaceScheduleRun log.db orphanId run
        expectedOrphanStatus now)).1 := rfl
  cases hresult : tombstoneAndReplaceScheduleRun log.db orphanId run expectedOrphanStatus now with
  | error e =>
    rw [hresult] at hdb
    exact h.of_history (congrArg Db.history hdb) hemitted
  | ok committed =>
    rw [hresult] at hdb
    obtain hsame | ⟨row, hhistory, hid, hinitial⟩ := tombstone_history hresult
    · exact h.of_history ((congrArg Db.history hdb).trans hsame) hemitted
    · exact h.of_initial ((congrArg Db.history hdb).trans hhistory) hid hinitial hemitted

theorem Sound.initialize (h : log.Sound) (command : InitialStateCommand) :
    (log.exec validReasonCodes (.lifecycle (.initializeInTransaction command), now)).Sound := by
  have hemitted : (log.exec validReasonCodes (.lifecycle (.initializeInTransaction command),
      now)).emitted = log.emitted := List.append_nil _
  have hdb : (log.exec validReasonCodes (.lifecycle (.initializeInTransaction command), now)).db =
      (commit log.db (initializeInTransaction defaultRegistry log.db command now)).1 := rfl
  cases hresult : initializeInTransaction defaultRegistry log.db command now with
  | error e =>
    rw [hresult] at hdb
    exact h.of_history (congrArg Db.history hdb) hemitted
  | ok committed =>
    rw [hresult] at hdb
    obtain ⟨policy, -, -, -, heq⟩ := initializeInTransaction_eq_ok_iff.1 hresult
    exact h.of_initial (congrArg Db.history (hdb.trans heq)) rfl rfl hemitted

end TerminalLog

/-! ### Transitions -/

/-- The call ends an execution entity whose stored status is NULL. -/
def TransitionOp.EndsUnset (op : TransitionOp) (validReasonCodes : List String) (db : Db) (now : ℚ) :
    Prop :=
  ∃ policy row, defaultRegistry.byEntityType.get? op.command.entityType = some policy ∧
    db.select policy.table op.command.entityId = some row ∧ op.Commits validReasonCodes policy row now ∧
    row "status" = none ∧ EndsExecution policy op.command.entityType none op.command.toStatus

theorem terminalEvents_of_none {registry : PolicyRegistry} {command : TransitionCommand}
    {outcome : TransitionOutcome} (h : outcome.transitionId = none) :
    terminalEvents registry command now outcome = [] := by
  unfold terminalEvents
  rw [h]
  cases registry.byEntityType.get? command.entityType <;> rfl

theorem terminalEvents_of_some {registry : PolicyRegistry} {command : TransitionCommand}
    {policy : LifecyclePolicy} {outcome : TransitionOutcome} {transitionId : ℕ}
    (hpolicy : registry.byEntityType.get? command.entityType = some policy)
    (h : outcome.transitionId = some transitionId) :
    terminalEvents registry command now outcome =
      if EndsExecution policy command.entityType outcome.previousStatus command.toStatus then
        [buildTerminalEnvelope command outcome.previousStatus transitionId now]
      else [] := by
  unfold terminalEvents
  rw [hpolicy, h]

namespace TerminalLog

variable {op : TransitionOp} {policy : LifecyclePolicy} {row : Row}

theorem exec_of_call_error {e : LifecycleError}
    (h : op.call defaultRegistry validReasonCodes log.db now = .error e) :
    log.exec validReasonCodes (.lifecycle (.transition op), now) = log := by
  have hdb : op.exec defaultRegistry validReasonCodes log.db now = log.db := by
    rw [op.exec_eq, h]
    rfl
  have hevents : op.events defaultRegistry validReasonCodes log.db now = [] := by
    unfold TransitionOp.events
    rw [h]
  simp only [exec, execOp, lifecycleEvents, hdb, hevents, List.append_nil]

theorem exec_of_call_ok {db' : Db} {outcome : TransitionOutcome}
    (h : op.call defaultRegistry validReasonCodes log.db now = .ok (db', outcome)) :
    log.exec validReasonCodes (.lifecycle (.transition op), now) =
      ⟨db', log.emitted ++ terminalEvents defaultRegistry op.command now outcome, log.deliveries⟩ := by
  have hdb : op.exec defaultRegistry validReasonCodes log.db now = db' := by
    rw [op.exec_eq, h]
    rfl
  have hevents : op.events defaultRegistry validReasonCodes log.db now =
      terminalEvents defaultRegistry op.command now outcome := by
    unfold TransitionOp.events
    rw [h]
  simp only [exec, execOp, lifecycleEvents, hdb, hevents]

theorem Sound.transition (h : log.Sound) (hset : ¬ op.EndsUnset validReasonCodes log.db now) :
    (log.exec validReasonCodes (.lifecycle (.transition op), now)).Sound := by
  cases hcall : op.call defaultRegistry validReasonCodes log.db now with
  | error e =>
    rw [exec_of_call_error hcall]
    exact h
  | ok committed =>
    obtain ⟨db', outcome⟩ := committed
    rw [exec_of_call_ok hcall]
    obtain ⟨hnone, hhistory⟩ | ⟨policy, row, hpolicy, hrow, hcommits, hhistory, rfl⟩ :=
      op.call_history hcall
    · rw [terminalEvents_of_none hnone, List.append_nil]
      exact h.of_history hhistory rfl
    · apply h.of_append hhistory rfl
      rw [terminalEvents_of_some hpolicy rfl]
      have hiff : EndsExecution policy op.command.entityType ( row "status") op.command.toStatus ↔
          (op.historyRow log.db row now).Matches executionClauses := by
        rw [matches_iff hpolicy]
        apply Iff.symm
        apply and_iff_right_of_imp
        intro hends hnull
        have hunset : row "status" = none := hnull
        exact hset ⟨policy, row, hpolicy, hrow, hcommits, hunset, hunset ▸ hends⟩
      exact congrArg (log.emitted ++ ·) (if_congr hiff rfl rfl)

end TerminalLog

/-! ### The other writers -/

/-- The compare-and-swap of the administrator finds its row. -/
def AdminTransition.Finds (request : AdminTransition) (validReasonCodes : List String) (db : Db) : Prop :=
  (request.targetStatus ∈ adminTransitionTargets ∧ request.reason.code ∈ validReasonCodes) ∧
    ∃ row, db.select "sessions" request.sessionId = some row ∧ request.Hits row

theorem AdminTransition.exec_of_not_finds {request : AdminTransition} {db : Db}
    (h : ¬ request.Finds validReasonCodes db) : request.exec now validReasonCodes db = db := by
  unfold AdminTransition.exec
  split
  · next hvalid =>
    split
    · next row hrow =>
      rw [if_neg]
      exact fun hhits ↦ h ⟨hvalid, row, hrow, hhits⟩
    · rfl
  · rfl

theorem AdminTransition.history_of_finds {request : AdminTransition} {db : Db}
    (h : request.Finds validReasonCodes db) :
    (request.exec now validReasonCodes db).history = db.history ++ [⟨db.history.length, "session",
      request.sessionId, Cell.text "running", request.targetStatus, request.reason,
      ⟨"admin", some request.actor⟩, now⟩] := by
  obtain ⟨hvalid, row, hrow, hhits⟩ := h
  unfold AdminTransition.exec
  rw [if_pos hvalid, hrow]
  change (if request.Hits row then _ else db).history = _
  rw [if_pos hhits]
  rfl

namespace TerminalLog

theorem acknowledge_eq (transitionId : ℕ) (consumer : String) :
    (log.acknowledge transitionId consumer now).db = log.db ∧
      (log.acknowledge transitionId consumer now).emitted = log.emitted := by
  unfold acknowledge
  split <;> exact ⟨rfl, rfl⟩

/-- What the runs are held to: no call ends an execution entity whose stored status is NULL, and no
transition of the administrator finds its row. -/
def Comparable (validReasonCodes : List String) (log : TerminalLog) : TerminalOp × ℚ → Prop
  | (.lifecycle (.transition op), now) => ¬ op.EndsUnset validReasonCodes log.db now
  | (.adminTransition request, _) => ¬ request.Finds validReasonCodes log.db
  | _ => True

theorem Sound.exec (h : log.Sound) (step : TerminalOp × ℚ) (hstep : Comparable validReasonCodes log step) :
    (log.exec validReasonCodes step).Sound := by
  obtain ⟨op, now⟩ := step
  cases op with
  | lifecycle op =>
    cases op with
    | initializeInTransaction command => exact h.initialize command
    | transition op => exact h.transition hstep
    | tombstoneAndReplace orphanId run expectedOrphanStatus =>
      exact h.tombstone orphanId expectedOrphanStatus run
  | adminTransition request =>
    exact h.of_history (congrArg Db.history (AdminTransition.exec_of_not_finds hstep)) rfl
  | ackDelivery transitionId consumer =>
    have hkept : (log.acknowledge transitionId consumer now).db = log.db ∧
        (log.acknowledge transitionId consumer now).emitted = log.emitted :=
      acknowledge_eq transitionId consumer
    exact h.of_history (congrArg Db.history hkept.1) hkept.2
  | storeRows rows => exact h.of_history rfl rfl

end TerminalLog

end Steps

/-! ## Agreement -/

namespace TerminalLog

variable {validReasonCodes : List String} {log : TerminalLog} {consumer : String}

theorem reconciled_eq : log.reconciled consumer =
    .ok ((pending log.db log.deliveries consumer executionClauses).map HistoryRow.reconciled) :=
  reconcileUnacknowledged_default

theorem mem_reconciled (hfresh : log.Fresh consumer) {transitionId : ℕ} :
    transitionId ∈ ((pending log.db log.deliveries consumer executionClauses).map
        HistoryRow.reconciled).map ReconciledRow.transitionId ↔
      ∃ row ∈ log.db.history, row.Matches executionClauses ∧ row.id = transitionId := by
  have hnot : ∀ id, ¬ isAcknowledged log.deliveries id consumer := by
    intro id hacknowledged
    obtain ⟨delivery, hdelivery, -, hconsumer⟩ := hacknowledged
    exact hfresh delivery hdelivery hconsumer
  simp only [List.map_map, List.mem_map, mem_pending, hnot, not_false_iff, and_true, and_assoc]
  rfl

/-! ### Acknowledgements -/

theorem isAcknowledged_acknowledge {ack transitionId : ℕ} {now : ℚ} :
    isAcknowledged (log.acknowledge ack consumer now).deliveries transitionId consumer ↔
      isAcknowledged log.deliveries transitionId consumer ∨
        ack ∈ log.db.history.map HistoryRow.id ∧ ack = transitionId := by
  unfold acknowledge StateDb.ackDelivery
  split
  · next deliveries h =>
    split at h
    · cases h
    · next hforeign =>
      rw [not_not] at hforeign
      split at h
      · next hknown =>
        cases h
        constructor
        · exact .inl
        · intro hor
          exact hor.elim id fun heq ↦ heq.2 ▸ hknown
      · cases h
        simp [isAcknowledged, hforeign, or_and_right, exists_or]
  · next h =>
    split at h
    · next hforeign =>
      constructor
      · exact .inl
      · intro hor
        exact hor.elim id fun heq ↦ absurd heq.1 hforeign
    · split at h <;> cases h

theorem acknowledgeAll_eq (acks : List (ℕ × ℚ)) : (log.acknowledgeAll consumer acks).db = log.db ∧
    ∀ transitionId, isAcknowledged (log.acknowledgeAll consumer acks).deliveries transitionId consumer ↔
      isAcknowledged log.deliveries transitionId consumer ∨
        transitionId ∈ log.db.history.map HistoryRow.id ∧ transitionId ∈ acks.map Prod.fst := by
  induction acks generalizing log with
  | nil => exact ⟨rfl, fun transitionId ↦ by simp [acknowledgeAll]⟩
  | cons ack acks ih =>
    have hrest : (log.acknowledgeAll consumer (ack :: acks)) =
        (log.acknowledge ack.1 consumer ack.2).acknowledgeAll consumer acks := rfl
    obtain ⟨hdb, hacknowledged⟩ := @ih (log.acknowledge ack.1 consumer ack.2)
    rw [hrest]
    refine ⟨hdb.trans (acknowledge_eq ..).1, fun transitionId ↦ ?_⟩
    rw [hacknowledged, isAcknowledged_acknowledge, (acknowledge_eq ..).1, List.map_cons, List.mem_cons]
    constructor
    · intro h
      obtain (h | ⟨hmem, rfl⟩) | ⟨hmem, hrest⟩ := h
      · exact .inl h
      · exact .inr ⟨hmem, .inl rfl⟩
      · exact .inr ⟨hmem, .inr hrest⟩
    · intro h
      obtain h | ⟨hmem, rfl | hrest⟩ := h
      · exact .inl (.inl h)
      · exact .inl (.inr ⟨hmem, rfl⟩)
      · exact .inr ⟨hmem, hrest⟩

/-- After acknowledgements a consumer is told the same list without what it acknowledged. -/
theorem pending_acknowledgeAll (acks : List (ℕ × ℚ)) :
    pending (log.acknowledgeAll consumer acks).db (log.acknowledgeAll consumer acks).deliveries consumer
        executionClauses =
      (pending log.db log.deliveries consumer executionClauses).filter
        fun row ↦ row.id ∉ acks.map Prod.fst := by
  obtain ⟨hdb, hacknowledged⟩ := @acknowledgeAll_eq log consumer acks
  unfold pending
  rw [hdb, SortedTable.filter_sortBy, List.filter_filter]
  apply congrArg
  apply List.filter_congr
  intro row hrow
  have hmem : row.id ∈ log.db.history.map HistoryRow.id := List.mem_map_of_mem hrow
  rw [← Bool.decide_and, decide_eq_decide, hacknowledged]
  tauto

/-! ### The invariant and the property -/

theorem Sound.carries (h : log.Sound) {envelope : RunTerminalEnvelope} (henvelope : envelope ∈ log.emitted) :
    ∃ row ∈ log.db.history, Carries envelope row := by
  rw [h.pushed, List.mem_map] at henvelope
  obtain ⟨row, hrow, rfl⟩ := henvelope
  exact ⟨row, List.mem_of_mem_filter hrow, rfl, rfl, rfl, rfl, rfl, rfl, rfl⟩

theorem Sound.mem_emitted (h : log.Sound) {transitionId : ℕ} :
    transitionId ∈ log.emitted.map RunTerminalEnvelope.eventId ↔
      ∃ row ∈ log.db.history, row.Matches executionClauses ∧ row.id = transitionId := by
  rw [h.pushed, List.map_map]
  simp only [List.mem_map, List.mem_filter, decide_eq_true_eq, and_assoc]
  rfl

theorem Sound.agrees (h : log.Sound) : log.Agrees where
  carries _ henvelope := h.carries henvelope
  agree consumer hfresh := by
    refine ⟨_, reconciled_eq, fun transitionId ↦ ?_⟩
    rw [mem_reconciled hfresh, h.mem_emitted]
  acknowledged consumer _ acks := by
    refine ⟨_, reconciled_eq, ?_⟩
    rw [reconciled_eq, pending_acknowledgeAll, List.filter_map]
    rfl

/-- Some consumer has never acknowledged anything. -/
theorem exists_fresh (log : TerminalLog) : ∃ consumer, log.Fresh consumer := by
  obtain ⟨consumer, hconsumer⟩ := Infinite.exists_notMem_finset (log.deliveries.map Delivery.consumer).toFinset
  refine ⟨consumer, fun delivery hdelivery heq ↦ hconsumer ?_⟩
  rw [List.mem_toFinset, ← heq]
  exact List.mem_map_of_mem hdelivery

/-- A transition is told to a new consumer exactly if an envelope was emitted for it. -/
theorem Agrees.mem_emitted (h : log.Agrees) {transitionId : ℕ} :
    transitionId ∈ log.emitted.map RunTerminalEnvelope.eventId ↔
      ∃ row ∈ log.db.history, row.Matches executionClauses ∧ row.id = transitionId := by
  obtain ⟨consumer, hfresh⟩ := exists_fresh log
  obtain ⟨rows, hrows, hagree⟩ := h.agree consumer hfresh
  cases hrows.symm.trans reconciled_eq
  rw [← hagree, mem_reconciled hfresh]

/-! ### The steps that break it -/

/-- The push is made though the query passes over a previous status that is NULL. -/
theorem Sound.not_agrees_of_endsUnset (h : log.Sound) {op : TransitionOp} {now : ℚ}
    (hunset : op.EndsUnset validReasonCodes log.db now) :
    ¬ (log.exec validReasonCodes (.lifecycle (.transition op), now)).Agrees := by
  obtain ⟨policy, row, hpolicy, hrow, hcommits, hnull, hends⟩ := hunset
  obtain ⟨db', hcall, hhistory⟩ := op.call_of_commits hpolicy hrow hcommits
  rw [exec_of_call_ok hcall]
  intro hagrees
  have hnew : log.db.history.length ∈ (log.emitted ++ terminalEvents defaultRegistry op.command now
      ⟨.applied, row "status", Cell.text op.command.toStatus, some log.db.history.length⟩).map
        RunTerminalEnvelope.eventId := by
    rw [terminalEvents_of_some hpolicy rfl, if_pos (hnull ▸ hends), List.map_append]
    exact List.mem_append_right _ List.mem_cons_self
  obtain ⟨found, hfound, hmatches, hid⟩ := hagrees.mem_emitted.1 hnew
  change found ∈ db'.history at hfound
  rw [hhistory, List.mem_append, List.mem_singleton] at hfound
  obtain hold | rfl := hfound
  · exact absurd (h.id_lt hold) (hid ▸ lt_irrefl _)
  · exact hmatches.2.1 hnull

/-- The query finds the row of the administrator, for which no envelope was emitted. -/
theorem Sound.not_agrees_of_finds (h : log.Sound) {request : AdminTransition} {now : ℚ}
    (hfinds : request.Finds validReasonCodes log.db) :
    ¬ (log.exec validReasonCodes (.adminTransition request, now)).Agrees := by
  intro hagrees
  have htargets : ∀ target ∈ adminTransitionTargets,
      Cell.text "running" ≠ Cell.text target ∧ target ∈ sessionPolicy.terminalStatuses := by
    decide
  obtain ⟨hne, hterminal⟩ := htargets _ hfinds.1.1
  have hnew : log.db.history.length ∈ log.emitted.map RunTerminalEnvelope.eventId := by
    refine hagrees.mem_emitted.2 ⟨⟨log.db.history.length, "session", request.sessionId,
      Cell.text "running", request.targetStatus, request.reason, ⟨"admin", some request.actor⟩, now⟩,
      ?_, ?_, rfl⟩
    · change _ ∈ (request.exec now validReasonCodes log.db).history
      rw [AdminTransition.history_of_finds hfinds]
      exact List.mem_append_right _ List.mem_cons_self
    · refine ⟨⟨("session", sessionPolicy.terminalStatuses), ?_, rfl, hterminal⟩, ?_, hne⟩
      · decide
      · exact Cell.text_ne_none _
  obtain ⟨row, hrow, -, hid⟩ := h.mem_emitted.1 hnew
  exact absurd (h.id_lt hrow) (hid ▸ lt_irrefl _)

end TerminalLog

/-- Over every run from a database without a history, what is pushed and what can be pulled agree
throughout exactly if no call ends an execution entity whose stored status is NULL and no transition of
the administrator finds its row. -/
theorem agrees_throughout_iff (validReasonCodes : List String) (rows : String → String → Option Row)
    (steps : List (TerminalOp × ℚ)) :
    Throughout (TerminalLog.exec validReasonCodes) TerminalLog.Agrees (TerminalLog.start rows) steps ↔
      Along (TerminalLog.exec validReasonCodes) (TerminalLog.Comparable validReasonCodes)
        (TerminalLog.start rows) steps := by
  have hinit : (TerminalLog.start rows).Sound := ⟨rfl, rfl⟩
  refine throughout_iff_along (fun _ h ↦ h.agrees) (fun _ step h hstep ↦ h.exec step hstep) ?_ hinit
  intro log step h hstep
  obtain ⟨op, now⟩ := step
  unfold TerminalLog.Comparable at hstep
  split at hstep
  · next heq =>
    cases heq
    exact h.not_agrees_of_endsUnset (not_not.1 hstep)
  · next heq =>
    cases heq
    exact h.not_agrees_of_finds (not_not.1 hstep)
  · exact absurd trivial hstep

/-! ## A session without a status and one that is ended by hand -/

section Runs

def sessionRows (status : Cell) (table id : String) : Option Row :=
  if table = "sessions" ∧ id = "s1" then
    some (Row.assign (fun _ ↦ none) [("id", Cell.text "s1"), ("status", status),
      ("updated_at", Cell.num 1), ("started_at", Cell.num 1)])
  else none

def completeSession : TransitionOp :=
  .updateStatus {
    entityType := "session"
    entityId := "s1"
    newStatus := "completed"
    reason := { code := "run.completed.ok" }
    source := "executor"
    actor := none }

def failByHand : AdminTransition where
  sessionId := "s1"
  targetStatus := "failed"
  reason := { code := "session.phantom.process_dead" }
  actor := "admin"
  lastMessageAt := none
  updatedAt := Cell.num 1
  startedAt := Cell.num 1

/-- The envelope of the session without a status is never pulled, and the row of the one that was ended by
hand was never pushed. -/
theorem not_agrees_throughout :
    (¬ Throughout (TerminalLog.exec []) TerminalLog.Agrees (TerminalLog.start (sessionRows none))
      [(.lifecycle (.transition completeSession), 5)]) ∧
    ¬ Throughout (TerminalLog.exec ["session.phantom.process_dead"]) TerminalLog.Agrees
      (TerminalLog.start (sessionRows (Cell.text "running"))) [(.adminTransition failByHand, 5)] := by
  constructor
  · intro h
    have hpulled := (@TerminalLog.Agrees.mem_emitted _ h.final 0).1 (by decide +kernel)
    exact absurd hpulled (by decide +kernel)
  · intro h
    have hpushed := (@TerminalLog.Agrees.mem_emitted _ h.final 0).2 (by decide +kernel)
    exact absurd hpushed (by decide +kernel)

end Runs

end Lionagi.StateDb
