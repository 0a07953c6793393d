import Lionagi.StateDb.LifecycleService

/-!
# The managed entities of the state database

The built-in policies, the initial history row that is written when an entity is created, and the
recovery of a schedule run that was never dispatched.
-/

namespace Lionagi.StateDb

open Checks OrderedDict

/-! ## The built-in policies -/

def edgesTo (statuses : List String) : List EdgePolicy := statuses.map fun status ↦ { toStatus := status }

/-- Every status of a list leads to all the others of a second list. -/
def edgesAmong (sources statuses : List String) : OrderedDict String (List EdgePolicy) :=
  ofList (sources.map fun source ↦ (source, edgesTo (statuses.filter (· ≠ source))))

def sessionTerminal : List String :=
  ["aborted", "cancelled", "completed", "completed_empty", "failed", "timed_out"]

def sessionPolicy : LifecyclePolicy where
  entityType := "session"
  table := "sessions"
  statuses := "running" :: sessionTerminal
  initialStatuses := ["running"]
  terminalStatuses := sessionTerminal
  edges := ofList [("running", edgesTo sessionTerminal)]
  sameStatus := .append
  patchFields := ["ended_at", "ended_at_is_approximate", "input_tokens", "output_tokens",
    "total_cost_usd", "num_turns", "duration_ms", "node_metadata"]
  reasonPrefixes := ["run", "session"]

def invocationPolicy : LifecyclePolicy where
  entityType := "invocation"
  table := "invocations"
  statuses := "running" :: sessionTerminal
  initialStatuses := ["running"]
  terminalStatuses := sessionTerminal
  edges := ofList [("running", edgesTo sessionTerminal)]
  sameStatus := .append
  patchFields := ["ended_at"]
  reasonPrefixes := ["run"]

def showPolicy : LifecyclePolicy where
  entityType := "show"
  table := "shows"
  statuses := ["aborted", "active", "completed", "imported"]
  initialStatuses := ["active", "imported"]
  terminalStatuses := ["completed", "aborted"]
  edges := edgesAmong ["active", "imported"] ["aborted", "active", "completed", "imported"]
  sameStatus := .append
  patchFields := ["status_source"]
  reasonPrefixes := ["show"]

def playStatuses : List String :=
  ["aborted_after_finish", "blocked", "escalated", "gate_failed", "gated", "merged", "pending",
    "prepared", "redoing", "running", "running_complete"]

def playPolicy : LifecyclePolicy where
  entityType := "play"
  table := "plays"
  statuses := playStatuses
  initialStatuses := ["pending"]
  terminalStatuses := ["merged", "escalated", "gate_failed", "blocked", "aborted_after_finish"]
  edges := edgesAmong ["gated", "pending", "prepared", "redoing", "running", "running_complete"]
    playStatuses
  sameStatus := .append
  patchFields := ["ended_at", "exit_code", "merge_sha", "merged_at", "gate_passed", "gate_feedback"]
  reasonPrefixes := ["play"]

def teamPolicy : LifecyclePolicy where
  entityType := "team"
  table := "teams"
  statuses := ["active", "archived"]
  initialStatuses := ["active"]
  terminalStatuses := ["archived"]
  edges := ofList [("active", edgesTo ["archived"])]
  sameStatus := .append
  patchFields := []
  reasonPrefixes := ["team"]

def scheduleRunStatuses : List String :=
  ["queued", "waiting_dependency", "running", "retry_wait", "completed", "failed", "timed_out",
    "skipped", "cancelled"]

def scheduleRunPolicy : LifecyclePolicy where
  entityType := "schedule_run"
  table := "schedule_runs"
  statuses := scheduleRunStatuses
  initialStatuses := ["queued", "running", "failed", "skipped"]
  terminalStatuses := ["completed", "failed", "timed_out", "skipped", "cancelled"]
  edges := ofList [
    ("queued", edgesTo ["waiting_dependency", "running", "skipped", "cancelled"]),
    ("waiting_dependency", edgesTo ["queued", "cancelled"]),
    ("running", edgesTo ["completed", "failed", "timed_out", "retry_wait", "queued", "cancelled"]),
    ("retry_wait", edgesTo ["queued", "cancelled"])]
  sameStatus := .append
  patchFields := ["ended_at", "exit_code", "error_detail", "invocation_id", "queued_at", "leased_by",
    "lease_expires_at", "lease_attempts"]
  reasonPrefixes := ["run", "schedule"]

/-- The way back of a dispatch that was given up. -/
def retryEdge : EdgePolicy where
  toStatus := "pending"
  actorTypes := some ["operator"]
  requiredPatchFields := ["attempt", "next_attempt_at", "last_error"]

def dispatchPolicy : LifecyclePolicy where
  entityType := "dispatch"
  table := "dispatch_outbox"
  statuses := ["pending", "delivering", "delivered", "acked", "dead_letter", "expired"]
  initialStatuses := ["pending"]
  terminalStatuses := ["delivered", "acked", "dead_letter", "expired"]
  edges := ofList [
    ("pending", edgesTo ["delivering", "expired", "acked"]),
    ("delivering", { toStatus := "delivering", requiredGuardFields := ["attempt"] } ::
      edgesTo ["pending", "delivered", "acked", "dead_letter", "expired"]),
    ("dead_letter", [retryEdge]),
    ("expired", [retryEdge])]
  sameStatus := .append
  patchFields := ["attempt", "next_attempt_at", "last_error"]
  reasonPrefixes := ["dispatch"]
  reasonColumns := false

def buildDefaultRegistry : Except RegistryError PolicyRegistry := do
  let registry ← PolicyRegistry.empty.register sessionPolicy
  let registry ← registry.register invocationPolicy
  let registry ← registry.register showPolicy
  let registry ← registry.register playPolicy
  let registry ← registry.register teamPolicy
  let registry ← registry.register scheduleRunPolicy
  let registry ← registry.register dispatchPolicy
  return { registry with sealed := true }

def defaultRegistry : PolicyRegistry :=
  match buildDefaultRegistry with
  | .ok registry => registry
  | .error _ => .empty

/-- The built-in policies pass their own registration. -/
theorem buildDefaultRegistry_eq_ok : buildDefaultRegistry = .ok defaultRegistry := by
  rfl

theorem defaultRegistry_values : defaultRegistry.byEntityType.values =
    [sessionPolicy, invocationPolicy, showPolicy, playPolicy, teamPolicy, scheduleRunPolicy,
      dispatchPolicy] := by
  rfl

/-- No built-in policy lets a patch assign the status or the key. -/
theorem not_mem_patchFields {entityType : String} {policy : LifecyclePolicy}
    (h : defaultRegistry.byEntityType.get? entityType = some policy) :
    "status" ∉ policy.patchFields ∧ "id" ∉ policy.patchFields := by
  have hmem : policy ∈ defaultRegistry.byEntityType.values := mem_values_of_get? h
  rw [defaultRegistry_values] at hmem
  have hall : ∀ policy ∈ [sessionPolicy, invocationPolicy, showPolicy, playPolicy, teamPolicy,
      scheduleRunPolicy, dispatchPolicy],
      "status" ∉ policy.patchFields ∧ "id" ∉ policy.patchFields := by
    decide
  exact hall policy hmem

theorem get?_scheduleRun :
    defaultRegistry.byEntityType.get? "schedule_run" = some scheduleRunPolicy := by
  rfl

/-! ## Creation -/

/-- The reason codes of `_INITIAL_REASON_CODES`. -/
def initialReasonCodes : OrderedDict (String × String) String := ofList [
  (("session", "running"), "run.started.ok"),
  (("invocation", "running"), "run.started.ok"),
  (("show", "active"), "show.active.created"),
  (("show", "imported"), "legacy.imported"),
  (("play", "pending"), "play.pending.created"),
  (("schedule_run", "queued"), "schedule.queued.created"),
  (("schedule_run", "running"), "run.started.ok"),
  (("schedule_run", "failed"), "run.failed.exception"),
  (("schedule_run", "skipped"), "schedule.skipped.precondition")]

/-- Columns of the row under a key are assigned, if there is one. -/
def Db.update (db : Db) (table id : String) (clauses : List (String × Cell)) : Db :=
  match db.select table id with
  | some row => db.put table id (some (row.assign clauses))
  | none => db

/-- A row inserted with a status that is no initial one gets no history row. -/
def initializeManagedEntityInTx (db : Db) (entityType entityId status actorId : String) (now : ℚ) :
    Except LifecycleError Db :=
  match initialReasonCodes.get? (entityType, status) with
  | none => .ok db
  | some reasonCode => do
    let policy ← defaultRegistry.get entityType
    let initialized ← initializeInTransaction defaultRegistry
      (db.update policy.table entityId [("status_reason_code", Cell.text reasonCode),
        ("status_reason_summary", Cell.text ""), ("status_evidence_refs", Cell.text "[]")])
      ⟨entityType, entityId, status, { code := reasonCode }, ⟨"system", some actorId⟩⟩ now
    return initialized.1

/-! ## Schedule runs -/

/-- What is known of a schedule run that is inserted. -/
structure ScheduleRun where
  id : String
  scheduleId : Option String
  invocationId : Option String := none
  triggerContext : String
  actionKind : String
  actionArgs : String
  status : String := "running"
  exitCode : Option ℤ := none
  chainParentId : Option String := none
  chainDepth : ℕ := 0
  firedAt : ℚ
  endedAt : Option ℚ := none
  errorDetail : Option String := none
  createdAt : Option ℚ := none

def ScheduleRun.row (run : ScheduleRun) (now : ℚ) : Row :=
  Row.assign (fun _ ↦ none) [
    ("lease_attempts", Cell.num 0),
    ("id", Cell.text run.id),
    ("schedule_id", run.scheduleId.map Scalar.text),
    ("invocation_id", run.invocationId.map Scalar.text),
    ("trigger_context", Cell.text run.triggerContext),
    ("action_kind", Cell.text run.actionKind),
    ("action_args", Cell.text run.actionArgs),
    ("status", Cell.text run.status),
    ("exit_code", run.exitCode.map fun code ↦ Scalar.num code),
    ("chain_parent_id", run.chainParentId.map Scalar.text),
    ("chain_depth", Cell.num run.chainDepth),
    ("fired_at", Cell.num run.firedAt),
    ("ended_at", run.endedAt.map Scalar.num),
    ("error_detail", run.errorDetail.map Scalar.text),
    ("created_at", Cell.num (run.createdAt.getD now))]

theorem ScheduleRun.row_status (run : ScheduleRun) (now : ℚ) :
    run.row now "status" = Cell.text run.status := by
  simp [ScheduleRun.row, Row.assign, Function.update]

theorem ScheduleRun.row_id (run : ScheduleRun) (now : ℚ) : run.row now "id" = Cell.text run.id := by
  simp [ScheduleRun.row, Row.assign, Function.update]

/-- The table checks the key and the status of a row that is inserted. -/
def insertScheduleRun (db : Db) (run : ScheduleRun) (now : ℚ) : Except LifecycleError Db := do
  ensure (run.status ∈ scheduleRunStatuses) .integrity
  ensure ((db.rows "schedule_runs" run.id).isSome = false) .integrity
  return db.put "schedule_runs" run.id (some (run.row now))

/-- The orphan has the status that is expected and was never dispatched. -/
def Undispatched (row : Row) (expectedStatus : String) : Prop :=
  sqlEq (row "status") (Cell.text expectedStatus) ∧ row "dispatched_at" = none

instance (row : Row) (expectedStatus : String) : Decidable (Undispatched row expectedStatus) :=
  inferInstanceAs (Decidable (sqlEq (row "status") (Cell.text expectedStatus) ∧
    row "dispatched_at" = none))

def tombstoneAndReplaceScheduleRun (db : Db) (orphanId : String) (replacementRun : ScheduleRun)
    (expectedOrphanStatus : String) (now : ℚ) : Except LifecycleError (Db × Bool) :=
  match db.select "schedule_runs" orphanId with
  | none => .ok (db, false)
  | some row =>
    if Undispatched row expectedOrphanStatus then do
      let db ← insertScheduleRun (db.update "schedule_runs" orphanId
        [("status", Cell.text "failed"), ("updated_at", Cell.num now)]) replacementRun now
      let db ← initializeManagedEntityInTx db "schedule_run" replacementRun.id replacementRun.status
        "tombstone_and_replace_schedule_run" now
      return (db, true)
    else .ok (db, false)

end Lionagi.StateDb
