import Mathlib.Algebra.Order.Ring.Rat
import Mathlib.Logic.Function.Basic
import Lionagi.StateDb.LifecyclePolicy

/-!
# The lifecycle service

One guarded sequence of reads, checks and writes moves the status of every managed entity: the row is
read, the policy decides, the row is updated under a compare-and-swap and a history row is appended.
Refused moves and overrides leave administrative events. The functions return the database after the
transaction, and an exception rolls it back.
-/

namespace Lionagi.StateDb

open Checks OrderedDict

inductive ValidationError where
  | emptyEntityId
  | emptyActorId
  | emptyActorType
  | emptyReasonCode
  | emptyToStatus
  | notInitialStatus (entityType status : String) (allowed : List String)
  | alreadyInitialized (entityType entityId : String)
  | unknownStatus (entityType toStatus : String) (statuses : List String)
  | unknownPatch (entityType : String) (fields allowed : List String)
  | incompleteOverride
  | actorNotPermitted (entityType actorType : String) (previousStatus : Cell) (edge : EdgePolicy)
  | missingPatch (entityType : String) (previousStatus : Cell) (edge : EdgePolicy) (fields : List String)
  | missingGuard (entityType : String) (previousStatus : Cell) (edge : EdgePolicy)
  | undeclaredEdge (entityType : String) (previousStatus : Cell) (toStatus : String)
      (allowed : List String)
  | invalidReasonCode (code : String)
  | foreignReasonCode (code entityType : String) (prefixes : List String)
  | invalidActorType (actorType : String)
  deriving DecidableEq

inductive LifecycleError where
  | validation (error : ValidationError)
  | unknownEntityType (entityType : String)
  | notFound (entityType entityId table : String)
  | transitionRejected (entityType entityId : String) (previousStatus : Cell) (attemptedStatus : String)
  | casLost (entityType entityId : String)
  | typeError
  | integrity
  deriving DecidableEq

/-! ## The database -/

/-- A row of `status_transitions`. Its number stands for the generated key. -/
structure HistoryRow where
  id : ℕ
  entityType : String
  entityId : String
  previousStatus : Cell
  status : String
  reason : ReasonRecord
  actor : ActorRecord
  createdAt : ℚ
  deriving DecidableEq

/-- A row of `admin_events`. -/
structure AdminEvent where
  createdAt : ℚ
  action : String
  targetId : String
  details : List (String × Cell)
  actor : String
  deriving DecidableEq

/-- The columns of a row, of which those the table lacks are NULL. -/
abbrev Row := String → Cell

/-- Assignments are made from left to right, so that of two for one column the last counts. -/
def Row.assign (row : Row) (clauses : List (String × Cell)) : Row :=
  clauses.foldl (fun row clause ↦ Function.update row clause.1 clause.2) row

/-- The tables of managed entities by key, and the two append-only tables in commit order. -/
structure Db where
  rows : String → String → Option Row
  history : List HistoryRow
  adminEvents : List AdminEvent

namespace Db

variable (db : Db)

def put (table id : String) (row : Option Row) : Db :=
  { db with rows := Function.update db.rows table (Function.update (db.rows table) id row) }

def select (table id : String) : Option Row :=
  (db.rows table id).map fun row ↦ Function.update row "id" (Cell.text id)

/-- The row under a key is updated. An update of the key moves the row, and one that makes two keys equal
fails. A row whose key is no text is out of reach of every query. -/
def replace (table id : String) (row : Row) : Except LifecycleError Db :=
  match row "id" with
  | some (.text id') =>
    if id' = id then .ok (db.put table id (some row))
    else if (db.rows table id').isSome then .error .integrity
    else .ok ((db.put table id none).put table id' (some row))
  | _ => .ok (db.put table id none)

def appendHistory (entityType entityId : String) (previousStatus : Cell) (status : String)
    (reason : ReasonRecord) (actor : ActorRecord) (now : ℚ) : Db :=
  { db with
    history := db.history ++ [⟨db.history.length, entityType, entityId, previousStatus, status, reason,
      actor, now⟩] }

def addAdminEvent (event : AdminEvent) : Db := { db with adminEvents := db.adminEvents ++ [event] }

/-- The history rows of an entity in commit order. -/
def historyOf (entityType entityId : String) : List HistoryRow :=
  db.history.filter fun row ↦ row.entityType = entityType ∧ row.entityId = entityId

/-- Some history row of the entity starts from NULL. -/
def hasInitial (entityType entityId : String) : Prop :=
  ∃ row ∈ db.history, row.entityType = entityType ∧ row.entityId = entityId ∧ row.previousStatus = none

instance (entityType entityId : String) : Decidable (db.hasInitial entityType entityId) :=
  inferInstanceAs (Decidable (∃ row ∈ db.history, row.entityType = entityType ∧
    row.entityId = entityId ∧ row.previousStatus = none))

end Db

/-- A transaction that returns is committed, and one that raises is rolled back. -/
def commit {α : Type} (db : Db) : Except LifecycleError (Db × α) → Db × Except LifecycleError α
  | .ok (db', a) => (db', .ok a)
  | .error e => (db, .error e)

def PolicyRegistry.get (registry : PolicyRegistry) (entityType : String) :
    Except LifecycleError LifecyclePolicy :=
  match registry.byEntityType.get? entityType with
  | some policy => .ok policy
  | none => .error (.unknownEntityType entityType)

/-! ## Initial states -/

def InitialStateCommand.check (command : InitialStateCommand) (policy : LifecyclePolicy) (db : Db) :
    Except LifecycleError Unit := do
  ensure (command.entityId ≠ "") (.validation .emptyEntityId)
  ensure (command.actor.id ≠ none ∧ command.actor.id ≠ some "") (.validation .emptyActorId)
  ensure (command.reason.code ≠ "") (.validation .emptyReasonCode)
  ensure (command.status ∈ policy.initialStatuses)
    (.validation (.notInitialStatus command.entityType command.status policy.initialStatuses))
  ensure ((db.select policy.table command.entityId).isSome = true)
    (.notFound command.entityType command.entityId policy.table)
  ensure (¬ db.hasInitial command.entityType command.entityId)
    (.validation (.alreadyInitialized command.entityType command.entityId))

def initializeInTransaction (registry : PolicyRegistry) (db : Db) (command : InitialStateCommand)
    (now : ℚ) : Except LifecycleError (Db × ℕ) := do
  let policy ← registry.get command.entityType
  command.check policy db
  return (db.appendHistory command.entityType command.entityId none command.status command.reason
    command.actor now, db.history.length)

/-! ## Transitions -/

inductive UndeclaredEdgeMode where
  | raise
  | reject
  deriving DecidableEq

/-- The keyword arguments of `_transition`. -/
structure TransitionOptions where
  extraGuard : OrderedDict String Cell := .empty
  enforceEdges : Bool := false
  undeclaredEdgeMode : UndeclaredEdgeMode := .raise
  raiseOnUnguardedConflict : Bool := false
  writeReasonColumns : Bool := true

/-- What the policy makes of a command: a same-status write that does nothing, a refusal, or a write,
which may be the use of an override. -/
inductive Verdict where
  | noop
  | rejected
  | proceed (override : Bool)
  deriving DecidableEq

namespace TransitionCommand

variable (command : TransitionCommand) (policy : LifecyclePolicy) (options : TransitionOptions)
variable (row : Row) (previousStatus : Cell) (now : ℚ)

def check : Except LifecycleError Unit := do
  ensure (command.entityId ≠ "") (.validation .emptyEntityId)
  ensure (command.actor.type ≠ "") (.validation .emptyActorType)
  ensure (command.reason.code ≠ "") (.validation .emptyReasonCode)
  ensure (command.toStatus ≠ "") (.validation .emptyToStatus)
  ensure (command.toStatus ∈ policy.statuses)
    (.validation (.unknownStatus command.entityType command.toStatus policy.statuses))
  let unknownPatch := outside command.patch.keys policy.patchFields
  ensure (unknownPatch = [])
    (.validation (.unknownPatch command.entityType unknownPatch policy.patchFields))
  ensure (∀ override ∈ command.override, override.actor ≠ "" ∧ override.justification ≠ "")
    (.validation .incompleteOverride)

/-- The declared edges, which only some entry points enforce. -/
def declaredEdges : List EdgePolicy :=
  if options.enforceEdges then policy.edgesFrom previousStatus else []

def selfEdge : Option EdgePolicy :=
  (declaredEdges policy options previousStatus).find? fun edge ↦ edge.toStatus = command.toStatus

def checkEdge (edge : EdgePolicy) : Except LifecycleError Unit := do
  ensure (∀ actorTypes ∈ edge.actorTypes, command.actor.type ∈ actorTypes)
    (.validation (.actorNotPermitted command.entityType command.actor.type previousStatus edge))
  let missingPatch := outside edge.requiredPatchFields command.patch.keys
  ensure (missingPatch = [])
    (.validation (.missingPatch command.entityType previousStatus edge missingPatch))
  ensure (edge.requiredGuardFields = [] ∨
      outside edge.requiredGuardFields options.extraGuard.keys = [] ∨ command.expectedVersion ≠ none)
    (.validation (.missingGuard command.entityType previousStatus edge))

def sameStatus : Prop := previousStatus = Cell.text command.toStatus

instance : Decidable (command.sameStatus previousStatus) :=
  inferInstanceAs (Decidable (previousStatus = Cell.text command.toStatus))

def verdict : Except LifecycleError Verdict :=
  match command.selfEdge policy options previousStatus with
  | some edge => do
    command.checkEdge options previousStatus edge
    return .proceed false
  | none =>
    if command.sameStatus previousStatus then
      match policy.sameStatus with
      | .noop => .ok .noop
      | .reject => .ok .rejected
      | .append => .ok (.proceed false)
    else if options.enforceEdges then
      if command.override.isSome then .ok (.proceed true)
      else match options.undeclaredEdgeMode with
        | .reject => .ok .rejected
        | .raise => .error (.validation (.undeclaredEdge command.entityType previousStatus
            command.toStatus ((declaredEdges policy options previousStatus).map EdgePolicy.toStatus)))
    else if policy.isTerminal previousStatus then
      if command.override.isSome then .ok (.proceed true) else .ok .rejected
    else .ok (.proceed false)

/-! ### Expectations -/

/-- The stored status is none of those expected. -/
def StatusDiffers : Prop := ∃ expected ∈ command.expectedStatuses, row "status" ∉ expected

instance : Decidable (command.StatusDiffers row) :=
  inferInstanceAs (Decidable (∃ expected ∈ command.expectedStatuses, row "status" ∉ expected))

/-- The row was written since the version expected. -/
def VersionDiffers : Prop := ∃ version ∈ command.expectedVersion, row "updated_at" ≠ Cell.num version

instance : Decidable (command.VersionDiffers row) :=
  inferInstanceAs (Decidable (∃ version ∈ command.expectedVersion, row "updated_at" ≠ Cell.num version))

/-! ### Administrative events -/

def rejectedEvent : AdminEvent where
  createdAt := now
  action := "status_transition_rejected"
  targetId := command.entityId
  details := [("entity_type", Cell.text command.entityType), ("previous_status", previousStatus),
    ("attempted_status", Cell.text command.toStatus), ("reason_code", Cell.text command.reason.code),
    ("source", Cell.text command.actor.type)]
  actor := if command.actor.id = none ∨ command.actor.id = some "" then command.actor.type
    else command.actor.id.getD ""

def overrideEvent : AdminEvent where
  createdAt := now
  action := "status_transition_override"
  targetId := command.entityId
  details := [("entity_type", Cell.text command.entityType), ("previous_status", previousStatus),
    ("new_status", Cell.text command.toStatus), ("reason_code", Cell.text command.reason.code),
    ("justification", ((command.override.map OverrideRecord.justification).map Scalar.text))]
  actor := (command.override.map OverrideRecord.actor).getD ""

end TransitionCommand

/-- A guarded column differs from the value it is expected to hold, as Python compares them. -/
def TransitionOptions.GuardDiffers (options : TransitionOptions) (row : Row) : Prop :=
  ∃ entry ∈ options.extraGuard.entries, row entry.1 ≠ entry.2

instance (options : TransitionOptions) (row : Row) : Decidable (options.GuardDiffers row) :=
  inferInstanceAs (Decidable (∃ entry ∈ options.extraGuard.entries, row entry.1 ≠ entry.2))

/-! ### The end of a session -/

section SessionEnd

variable (patch : OrderedDict String Cell) (row : Row) (now : ℚ)

/-- The end the patch gives, or else the one stored. -/
def givenEnd : Cell := (patch.get? "ended_at").getD (row "ended_at")

/-- No end is known but a guessed one, and this transition is the measurement. -/
def MeasuredHere : Prop :=
  givenEnd patch row = none ∨ "ended_at" ∉ patch ∧ (row "ended_at_is_approximate").truthy = true

instance : Decidable (MeasuredHere patch row) :=
  inferInstanceAs (Decidable (givenEnd patch row = none ∨
    "ended_at" ∉ patch ∧ (row "ended_at_is_approximate").truthy = true))

def endedAt : Cell := if MeasuredHere patch row then Cell.num now else givenEnd patch row

/-- A measured end and its flag win over the patch, and a given end leaves the flag to the patch. -/
def settleEnd : OrderedDict String Cell :=
  if MeasuredHere patch row then
    (patch.set "ended_at" (endedAt patch row now)).set "ended_at_is_approximate" (Cell.num 0)
  else
    (patch.setdefault "ended_at" (endedAt patch row now)).setdefault "ended_at_is_approximate"
      (Cell.num 0)

/-- The flag of an end that was not measured. -/
def approximateEnd : Bool := (((settleEnd patch row now).get? "ended_at_is_approximate").getD none).truthy

/-- The duration of a measured end, where both ends are numbers. An end that is no number cannot be
subtracted from. -/
def deriveDuration : Except LifecycleError (OrderedDict String Cell) :=
  match row "started_at", endedAt patch row now with
  | some (.num startedAt), some (.num endedAt) =>
    .ok ((settleEnd patch row now).set "duration_ms" (Cell.num (max 0 ((endedAt - startedAt) * 1000))))
  | some (.num _), _ => .error .typeError
  | _, _ => .ok (settleEnd patch row now)

def sessionEndPatch : Except LifecycleError (OrderedDict String Cell) :=
  if approximateEnd patch row now then .ok ((settleEnd patch row now).set "duration_ms" none)
  else if "duration_ms" ∈ settleEnd patch row now then .ok (settleEnd patch row now)
  else deriveDuration patch row now

end SessionEnd

namespace TransitionCommand

variable (command : TransitionCommand) (policy : LifecyclePolicy) (options : TransitionOptions)
variable (row : Row) (previousStatus : Cell) (now : ℚ)

/-- The command ends a session, so its patch is completed by the end and the duration. -/
def EndsSession : Prop :=
  (command.entityType = "session" ∧ command.toStatus ∈ policy.terminalStatuses) ∧
    ¬ command.sameStatus (row "status")

instance : Decidable (command.EndsSession policy row) :=
  inferInstanceAs (Decidable ((command.entityType = "session" ∧
    command.toStatus ∈ policy.terminalStatuses) ∧ ¬ command.sameStatus (row "status")))

def completePatch : Except LifecycleError (OrderedDict String Cell) :=
  if command.EndsSession policy row then sessionEndPatch command.patch row now else .ok command.patch

/-! ### The write -/

def setClauses (patch : OrderedDict String Cell) : List (String × Cell) :=
  ("status", Cell.text command.toStatus) ::
    (if options.writeReasonColumns then
      [("status_reason_code", Cell.text command.reason.code),
        ("status_reason_summary", Cell.text command.reason.summary),
        ("status_evidence_refs", Cell.text command.reason.evidenceRefs)]
    else []) ++
    ("updated_at", Cell.num now) :: patch.entries

end TransitionCommand

/-- Equality in SQL, which NULL never meets. -/
def sqlEq (a b : Cell) : Prop := a = b ∧ a ≠ none

instance (a b : Cell) : Decidable (sqlEq a b) := inferInstanceAs (Decidable (a = b ∧ a ≠ none))

/-- The `WHERE` clause of the guarded update, the key apart. -/
def WhereClause (command : TransitionCommand) (options : TransitionOptions) (previousStatus : Cell)
    (row : Row) : Prop :=
  (sqlEq (row "status") previousStatus ∨ row "status" = none ∧ previousStatus = none) ∧
    (∀ version ∈ command.expectedVersion, sqlEq (row "updated_at") (Cell.num version)) ∧
    ∀ entry ∈ options.extraGuard.entries, sqlEq (row entry.1) entry.2

instance (command : TransitionCommand) (options : TransitionOptions) (previousStatus : Cell)
    (row : Row) : Decidable (WhereClause command options previousStatus row) :=
  inferInstanceAs (Decidable (_ ∧ _ ∧ _))

/-- The guarded update and the history row, or `none` when no row was updated. -/
def write (db : Db) (policy : LifecyclePolicy) (command : TransitionCommand)
    (patch : OrderedDict String Cell) (options : TransitionOptions) (previousStatus : Cell) (now : ℚ) :
    Except LifecycleError (Option (Db × ℕ)) :=
  match db.select policy.table command.entityId with
  | none => .ok none
  | some row =>
    if WhereClause command options previousStatus row then do
      let db' ← db.replace policy.table command.entityId
        (row.assign (command.setClauses options now patch))
      return some (db'.appendHistory command.entityType command.entityId previousStatus
        command.toStatus command.reason command.actor now, db'.history.length)
    else .ok none

namespace TransitionCommand

variable (command : TransitionCommand) (policy : LifecyclePolicy) (options : TransitionOptions)
variable (row : Row) (previousStatus : Cell) (now : ℚ)

def conflict : TransitionOutcome := ⟨.conflict, previousStatus, previousStatus, none⟩

/-- Some expectation is stated at all. -/
def Guarded : Prop :=
  command.expectedStatuses ≠ none ∨ command.expectedVersion ≠ none ∨ options.extraGuard.entries ≠ []

instance : Decidable (command.Guarded options) :=
  inferInstanceAs (Decidable (command.expectedStatuses ≠ none ∨ command.expectedVersion ≠ none ∨
    options.extraGuard.entries ≠ []))

/-- The end of `_transition`: the patch is completed and the row written. -/
def finish (db : Db) : Except LifecycleError (Db × TransitionOutcome) := do
  let patch ← command.completePatch policy row now
  match ← write db policy command patch options (row "status") now with
  | some (db', transitionId) =>
    return (db', ⟨.applied, row "status", Cell.text command.toStatus, some transitionId⟩)
  | none =>
    ensure (¬ (options.raiseOnUnguardedConflict = true ∧ ¬ command.Guarded options))
      (.casLost command.entityType command.entityId)
    return (db, conflict (row "status"))

/-- The event of an override, which is written before the guards are compared. -/
def recordOverride (db : Db) (override : Bool) : Db :=
  if override then db.addAdminEvent (command.overrideEvent (row "status") now) else db

/-- What follows the verdict that the row may be written. -/
def proceed (db : Db) (override : Bool) : Except LifecycleError (Db × TransitionOutcome) :=
  if command.VersionDiffers row then .ok (db, conflict (row "status"))
  else if options.GuardDiffers row then
    .ok (command.recordOverride row now db override, conflict (row "status"))
  else command.finish policy options row now (command.recordOverride row now db override)

/-- `_transition` once the row is read. -/
def transitionRow (db : Db) : Except LifecycleError (Db × TransitionOutcome) :=
  if command.StatusDiffers row then .ok (db, conflict (row "status"))
  else do
    match ← command.verdict policy options (row "status") with
    | .noop => return (db, ⟨.applied, row "status", Cell.text command.toStatus, none⟩)
    | .rejected =>
      return (db.addAdminEvent (command.rejectedEvent (row "status") now),
        ⟨.rejected, row "status", row "status", none⟩)
    | .proceed override => command.proceed policy options row now db override

end TransitionCommand

/-- `_transition` -/
def guardedTransition (registry : PolicyRegistry) (db : Db) (command : TransitionCommand)
    (options : TransitionOptions) (now : ℚ) : Except LifecycleError (Db × TransitionOutcome) := do
  let policy ← registry.get command.entityType
  command.check policy
  match db.select policy.table command.entityId with
  | none => .error (.notFound command.entityType command.entityId policy.table)
  | some row => command.transitionRow policy options row now db

/-! ## Entry points -/

/-- The part of a reason code before its first dot. -/
def reasonPrefix (code : String) : String := String.ofList (code.toList.takeWhile (· ≠ '.'))

def actorTypes : List String :=
  ["executor", "agent", "admin", "system", "scheduler", "operator", "webhook"]

/-- The public service, over the reason codes it knows. -/
def transition (registry : PolicyRegistry) (validReasonCodes : List String) (db : Db)
    (command : TransitionCommand) (now : ℚ) : Except LifecycleError (Db × TransitionOutcome) := do
  ensure (command.reason.code ∈ validReasonCodes) (.validation (.invalidReasonCode command.reason.code))
  let policy ← registry.get command.entityType
  ensure (reasonPrefix command.reason.code ∈ policy.reasonPrefixes)
    (.validation (.foreignReasonCode command.reason.code command.entityType policy.reasonPrefixes))
  ensure (command.actor.id ≠ none ∧ command.actor.id ≠ some "") (.validation .emptyActorId)
  ensure (command.actor.type ∈ actorTypes) (.validation (.invalidActorType command.actor.type))
  guardedTransition registry db command {
    enforceEdges := true
    undeclaredEdgeMode := .reject
    writeReasonColumns := policy.reasonColumns } now

/-- The keyword arguments of `run_update_status`. -/
structure StatusUpdate where
  entityType : String
  entityId : String
  newStatus : String
  reason : ReasonRecord
  source : String
  actor : Option String
  expectedStatuses : Option (List Cell) := none
  expectedUpdatedAt : Option ℚ := none
  extraFields : OrderedDict String Cell := .empty
  override : Bool := false
  overrideActor : Option String := none
  overrideJustification : Option String := none

def StatusUpdate.command (update : StatusUpdate) : TransitionCommand where
  entityType := update.entityType
  entityId := update.entityId
  toStatus := update.newStatus
  reason := update.reason
  actor := ⟨update.source, update.actor⟩
  expectedStatuses := update.expectedStatuses
  expectedVersion := update.expectedUpdatedAt
  patch := update.extraFields
  override :=
    if update.override then
      some ⟨update.overrideActor.getD "", update.overrideJustification.getD ""⟩
    else none

/-- A rejection is raised after its event has been committed. -/
def runUpdateStatus (registry : PolicyRegistry) (db : Db) (update : StatusUpdate) (now : ℚ) :
    Db × Except LifecycleError Bool :=
  match commit db (guardedTransition registry db update.command { raiseOnUnguardedConflict := true }
      now) with
  | (db', .error e) => (db', .error e)
  | (db', .ok outcome) =>
    match outcome.result with
    | .applied => (db', .ok true)
    | .rejected => (db', .error (.transitionRejected update.entityType update.entityId
        outcome.previousStatus update.newStatus))
    | .conflict => (db', .ok false)

/-- The keyword arguments of `run_legacy_transition`. -/
structure LegacyTransition where
  entityType : String
  entityId : String
  fromState : Option String
  toState : String
  reason : ReasonRecord
  actor : ActorRecord
  guard : OrderedDict String Cell := .empty
  patch : OrderedDict String Cell := .empty

def LegacyTransition.command (request : LegacyTransition) : TransitionCommand where
  entityType := request.entityType
  entityId := request.entityId
  toStatus := request.toState
  reason := request.reason
  actor := request.actor
  expectedStatuses := request.fromState.map fun state ↦ [Cell.text state]
  patch := request.patch

def runLegacyTransition (registry : PolicyRegistry) (db : Db) (request : LegacyTransition) (now : ℚ) :
    Except LifecycleError (Db × TransitionOutcome) :=
  guardedTransition registry db request.command {
    extraGuard := request.guard
    enforceEdges := true
    writeReasonColumns := false } now

/-! ## What the operations on the database change -/

namespace Row

variable {row : Row} {clauses : List (String × Cell)} {column : String}

theorem assign_append {clauses' : List (String × Cell)} :
    row.assign (clauses ++ clauses') = (row.assign clauses).assign clauses' := by
  rw [assign, List.foldl_append]
  rfl

theorem assign_of_not_mem (h : column ∉ clauses.map Prod.fst) : row.assign clauses column = row column := by
  induction clauses generalizing row with
  | nil => rfl
  | cons clause clauses ih =>
    rw [List.map_cons, List.mem_cons, not_or] at h
    calc row.assign (clause :: clauses) column
      _ = Row.assign (Function.update row clause.1 clause.2) clauses column := rfl
      _ = Function.update row clause.1 clause.2 column := ih h.2
      _ = row column := Function.update_of_ne h.1 _ _

/-- Assigning a dictionary stores its values and leaves the other columns. -/
theorem assign_entries (row : Row) (patch : OrderedDict String Cell) (column : String) :
    row.assign patch.entries column = (patch.get? column).getD (row column) := by
  obtain ⟨entries, hnodup⟩ := patch
  change row.assign entries column = (lookup column entries).getD (row column)
  induction entries generalizing row with
  | nil => rfl
  | cons entry entries ih =>
    rw [List.map_cons, List.nodup_cons] at hnodup
    by_cases hcolumn : entry.1 = column
    · subst hcolumn
      calc row.assign (entry :: entries) entry.1
        _ = Row.assign (Function.update row entry.1 entry.2) entries entry.1 := rfl
        _ = Function.update row entry.1 entry.2 entry.1 := assign_of_not_mem hnodup.1
        _ = entry.2 := Function.update_self ..
        _ = (lookup entry.1 (entry :: entries)).getD (row entry.1) := by simp [lookup]
    · calc row.assign (entry :: entries) column
        _ = Row.assign (Function.update row entry.1 entry.2) entries column := rfl
        _ = (lookup column entries).getD (Function.update row entry.1 entry.2 column) :=
          ih _ hnodup.2
        _ = (lookup column (entry :: entries)).getD (row column) := by
          rw [Function.update_of_ne (Ne.symm hcolumn)]
          simp [lookup, hcolumn]

end Row

theorem PolicyRegistry.get_eq_ok_iff {registry : PolicyRegistry} {entityType : String}
    {policy : LifecyclePolicy} :
    registry.get entityType = .ok policy ↔ registry.byEntityType.get? entityType = some policy := by
  unfold PolicyRegistry.get
  cases registry.byEntityType.get? entityType <;> simp

namespace Db

variable {db db' : Db} {table table' id id' : String} {row : Row}

theorem select_id (h : db.select table id = some row) : row "id" = Cell.text id := by
  obtain ⟨stored, -, rfl⟩ := Option.map_eq_some_iff.1 h
  exact Function.update_self ..

variable {stored : Option Row}

theorem put_rows_self : (db.put table id stored).rows table id = stored := by
  simp only [put, Function.update_self]

theorem put_rows_of_ne (h : ¬ (table' = table ∧ id' = id)) :
    (db.put table id stored).rows table' id' = db.rows table' id' := by
  by_cases htable : table' = table
  · subst htable
    have hid : id' ≠ id := fun heq ↦ h ⟨rfl, heq⟩
    simp only [put, Function.update_self, Function.update_of_ne hid]
  · simp only [put, Function.update_of_ne htable]

theorem select_put_self (h : row "id" = Cell.text id) :
    (db.put table id (some row)).select table id = some row := by
  rw [select, put_rows_self, Option.map_some, ← h, Function.update_eq_self]

theorem select_put_of_ne (h : ¬ (table' = table ∧ id' = id)) :
    (db.put table id stored).select table' id' = db.select table' id' := by
  rw [select, put_rows_of_ne h, select]

theorem replace_of_id (h : row "id" = Cell.text id) :
    db.replace table id row = .ok (db.put table id (some row)) := by
  simp only [replace, h, Cell.text, if_true]

theorem select_replace_of_table (htable : table' ≠ table) (h : db.replace table id row = .ok db') :
    db'.select table' id' = db.select table' id' := by
  have hne : ∀ key, ¬ (table' = table ∧ id' = key) := fun _ hkey ↦ htable hkey.1
  unfold replace at h
  split at h
  · split at h
    · cases h
      exact select_put_of_ne (hne id)
    · split at h
      · cases h
      · cases h
        rw [select_put_of_ne (hne _), select_put_of_ne (hne id)]
  · cases h
    exact select_put_of_ne (hne id)

/-- No update moves a row onto another one. -/
theorem select_replace_of_stored {stored : Row} (hne : id' ≠ id)
    (hstored : db.select table id' = some stored) (h : db.replace table id row = .ok db') :
    db'.select table id' = some stored := by
  have hother : ¬ (table = table ∧ id' = id) := fun hkey ↦ hne hkey.2
  unfold replace at h
  split at h
  · next key _ =>
    split at h
    · cases h
      exact (select_put_of_ne hother).trans hstored
    · split at h
      · cases h
      · next hfree =>
        cases h
        have hkey : id' ≠ key := by
          intro heq
          rw [select, heq] at hstored
          obtain ⟨row', hrow', -⟩ := Option.map_eq_some_iff.1 hstored
          rw [hrow'] at hfree
          exact hfree rfl
        rw [select_put_of_ne fun hboth ↦ hkey hboth.2, select_put_of_ne hother]
        exact hstored
  · cases h
    exact (select_put_of_ne hother).trans hstored

theorem replace_history (h : db.replace table id row = .ok db') :
    db'.history = db.history ∧ db'.adminEvents = db.adminEvents := by
  unfold replace at h
  split at h
  · split at h
    · cases h
      exact ⟨rfl, rfl⟩
    · split at h
      · cases h
      · cases h
        exact ⟨rfl, rfl⟩
  · cases h
    exact ⟨rfl, rfl⟩

end Db

section HistoryOf

variable {db db' : Db} {entityType entityId : String} {row : HistoryRow}

theorem historyOf_concat (h : db'.history = db.history ++ [row]) :
    db'.historyOf row.entityType row.entityId = db.historyOf row.entityType row.entityId ++ [row] := by
  simp [Db.historyOf, h, List.filter_append]

theorem historyOf_of_ne (h : db'.history = db.history ++ [row])
    (hne : ¬ (entityType = row.entityType ∧ entityId = row.entityId)) :
    db'.historyOf entityType entityId = db.historyOf entityType entityId := by
  have hrow : ¬ (row.entityType = entityType ∧ row.entityId = entityId) :=
    fun heq ↦ hne ⟨heq.1.symm, heq.2.symm⟩
  simp [Db.historyOf, h, List.filter_append, hrow]

end HistoryOf

/-! ### The columns of an updated row -/

section Assigned

variable (command : TransitionCommand) (options : TransitionOptions) (row : Row) (now : ℚ)
variable (patch : OrderedDict String Cell)

/-- The columns the update assigns whatever the patch. -/
def statusColumns : List String :=
  ["status", "status_reason_code", "status_reason_summary", "status_evidence_refs", "updated_at"]

theorem assign_setClauses (column : String) :
    row.assign (command.setClauses options now patch) column =
      (patch.get? column).getD (row.assign (command.setClauses options now .empty) column) := by
  have happend : command.setClauses options now patch =
      command.setClauses options now .empty ++ patch.entries := by
    simp [TransitionCommand.setClauses, OrderedDict.empty]
  rw [happend, Row.assign_append, Row.assign_entries]

theorem assign_setClauses_status :
    row.assign (command.setClauses options now patch) "status" =
      (patch.get? "status").getD (Cell.text command.toStatus) := by
  rw [assign_setClauses]
  apply congrArg
  unfold TransitionCommand.setClauses
  split
  · rfl
  · rfl

theorem assign_setClauses_of_not_mem {column : String} (h : column ∉ statusColumns) :
    row.assign (command.setClauses options now patch) column = (patch.get? column).getD (row column) := by
  rw [assign_setClauses]
  apply congrArg
  apply Row.assign_of_not_mem
  unfold TransitionCommand.setClauses
  simp only [statusColumns, List.mem_cons, List.not_mem_nil, or_false, not_or] at h
  split
  · simp [OrderedDict.empty, h]
  · simp [OrderedDict.empty, h]

theorem assign_setClauses_id (hid : row "id" = Cell.text command.entityId) (h : "id" ∉ patch) :
    row.assign (command.setClauses options now patch) "id" = Cell.text command.entityId := by
  rw [assign_setClauses_of_not_mem command options row now patch (by decide),
    (get?_eq_none_iff patch "id").2 h, Option.getD_none, hid]

end Assigned

end Lionagi.StateDb
