import Mathlib.Algebra.Order.Field.Rat
import Mathlib.Data.List.Nodup

/-!
# Declared schedules

A schedule set is a document of named members. All members are resolved before anything is written, and what
they resolve to is compared with the rows of the schedules by name, digest and enabled flag. The plan creates
the members that have no row, updates the rows that differ, and disables those of the set that the document
leaves out. A row of another owner under the name of a member is an error. The writes of a plan are one
transaction.
-/

namespace Lionagi.Studio

/-! ## Members -/

inductive MissedFirePolicy where
  | skip
  | runOnce
  deriving DecidableEq

inductive OverlapPolicy where
  | skip
  | allow
  deriving DecidableEq

structure Budget where
  usd : Option ℚ := none
  tokens : Option ℕ := none
  deriving DecidableEq

structure Policies (J : Type) where
  missedFire : MissedFirePolicy := .skip
  overlap : OverlapPolicy := .skip
  maxRuns : Option ℕ := none
  budget : Option Budget := none
  rateLimit : Option J := none
  deriving DecidableEq

structure Notify where
  on : List String
  command : String
  deriving DecidableEq

structure Execution where
  cwd : Option String := none
  project : Option String := none
  deriving DecidableEq

/-- A member as it was authored, with a trigger, a target and JSON values. -/
structure ScheduleMember (T G J : Type) where
  description : Option String := none
  enabled : Bool := true
  trigger : T
  target : G
  execution : Execution := {}
  policies : Policies J := {}
  notify : Option Notify := none
  deriving DecidableEq

/-- The members have different names. -/
structure ScheduleSetDocument (T G J : Type) where
  project : String
  name : String
  isGlobal : Bool := false
  schedules : List (String × ScheduleMember T G J)
  nodup : (schedules.map (·.1)).Nodup

/-! ## Resolved members -/

inductive ResolvedTrigger (J : Type) where
  | cron (expression timezone : String)
  | every (intervalSec : ℕ) (raw : String)
  | pointInTime (iso : String) (epoch : ℚ)
  | github (repo : String) (filter : Option J)
  deriving DecidableEq

def ResolvedTrigger.timezone {J : Type} : ResolvedTrigger J → Option String
  | cron _ timezone => some timezone
  | _ => none

inductive ResolvedTarget (J : Type) where
  | agent (profile prompt model profileDigest : String)
  | flow (file content contentDigest : String)
  | playbook (name : String) (args : J)
  | command (executable : String) (args : List String)
  deriving DecidableEq

/-- What the digest of a member is computed from. -/
structure Resolved (J : Type) where
  trigger : ResolvedTrigger J
  target : ResolvedTarget J
  cwd : String
  project : Option String
  policies : Policies J
  notify : Option Notify
  enabled : Bool
  deriving DecidableEq

inductive TriggerType where
  | cron
  | interval
  | githubPoll
  | pointInTime
  deriving DecidableEq

inductive ActionKind where
  | agent
  | flow
  | fanout
  | play
  | flowYaml
  | command
  deriving DecidableEq

/-- The columns of a schedule that a declaration writes. -/
structure Definition (J : Type) where
  triggerType : TriggerType
  actionKind : ActionKind
  actionCwd : Option String
  actionProject : Option String
  enabled : Bool
  missedFirePolicy : MissedFirePolicy
  overlapPolicy : OverlapPolicy
  maxRuns : Option ℕ
  budgetUsd : Option ℚ
  budgetTokens : Option ℕ
  rateLimit : Option J
  description : Option String
  notifyOn : Option (List String)
  notifyCommand : Option String
  cronExpr : Option String := none
  intervalSec : Option ℕ := none
  githubRepo : Option String := none
  githubFilter : Option J := none
  actionModel : Option String := none
  actionPrompt : Option String := none
  actionAgent : Option String := none
  actionPlaybook : Option String := none
  actionCommand : Option String := none
  actionCommandArgs : List String := []
  actionFlowYaml : Option String := none
  deriving DecidableEq

/-- The columns of a member, and its due instant where the trigger is a point in time. -/
structure DbFields (J : Type) extends Definition J where
  nextFireAt : Option ℚ := none
  deriving DecidableEq

section Resolution

variable {T G J D : Type}

def ResolvedTrigger.triggerType : ResolvedTrigger J → TriggerType
  | cron .. => .cron
  | every .. => .interval
  | pointInTime .. => .pointInTime
  | github .. => .githubPoll

/-- A flow is always launched from the content of its file. -/
def targetKindToActionKind : ResolvedTarget J → ActionKind
  | .agent .. => .agent
  | .flow .. => .flowYaml
  | .playbook .. => .play
  | .command .. => .command

def toDbFields (resolvedTrigger : ResolvedTrigger J) (resolvedTarget : ResolvedTarget J)
    (member : ScheduleMember T G J) (cwd : String) (project : Option String) : DbFields J :=
  let fields : DbFields J := {
    triggerType := resolvedTrigger.triggerType
    actionKind := targetKindToActionKind resolvedTarget
    actionCwd := some cwd
    actionProject := project
    enabled := member.enabled
    missedFirePolicy := member.policies.missedFire
    overlapPolicy := member.policies.overlap
    maxRuns := member.policies.maxRuns
    budgetUsd := member.policies.budget.bind (·.usd)
    budgetTokens := member.policies.budget.bind (·.tokens)
    rateLimit := member.policies.rateLimit
    description := member.description
    notifyOn := member.notify.map (·.on)
    notifyCommand := member.notify.map (·.command) }
  let fields := match resolvedTrigger with
    | .cron expression _ => { fields with cronExpr := some expression }
    | .every intervalSec _ => { fields with intervalSec := some intervalSec }
    | .pointInTime _ epoch => { fields with nextFireAt := some epoch, maxRuns := some 1 }
    | .github repo filter => { fields with githubRepo := some repo, githubFilter := filter }
  match resolvedTarget with
  | .agent profile prompt model _ =>
    { fields with actionModel := some model, actionPrompt := some prompt, actionAgent := some profile }
  | .flow _ content _ => { fields with actionFlowYaml := some content }
  | .playbook name _ => { fields with actionPlaybook := some name }
  | .command executable args =>
    { fields with actionCommand := some executable, actionCommandArgs := args }

/-- What members are resolved against: the files, the profiles and the allowed commands, and the digest. -/
structure Environment (T G J D : Type) where
  resolveTrigger : T → Except String (ResolvedTrigger J)
  resolveTarget : G → Except String (ResolvedTarget J)
  resolveCwd : Option String → Bool → Except String String
  digestOf : Resolved J → D

structure ResolvedMember (T G J D : Type) where
  qualifiedName : String
  authored : ScheduleMember T G J
  resolved : Resolved J
  digest : D
  timezone : Option String
  dbFields : DbFields J
  deriving DecidableEq

def qualify (isGlobal : Bool) (project name : String) : String :=
  (if isGlobal then "global" else project) ++ "/" ++ name

variable (env : Environment T G J D)

def resolveMember (name : String) (member : ScheduleMember T G J) (project : String) (isGlobal : Bool) :
    Except String (ResolvedMember T G J D) := do
  let resolvedTrigger ← env.resolveTrigger member.trigger
  let resolvedTarget ← env.resolveTarget member.target
  let cwd ← env.resolveCwd member.execution.cwd isGlobal
  let resolvedProject := match member.execution.project with
    | some own => if own = "" then (if isGlobal then none else some project) else some own
    | none => if isGlobal then none else some project
  let resolved : Resolved J := {
    trigger := resolvedTrigger
    target := resolvedTarget
    cwd := cwd
    project := resolvedProject
    policies := member.policies
    notify := member.notify
    enabled := member.enabled }
  return {
    qualifiedName := qualify isGlobal project name
    authored := member
    resolved := resolved
    digest := env.digestOf resolved
    timezone := resolvedTrigger.timezone
    dbFields := toDbFields resolvedTrigger resolvedTarget member cwd resolvedProject }

/-- All members are resolved, or the messages of those that fail are collected. -/
def resolveScheduleSet (doc : ScheduleSetDocument T G J) :
    Except (List (String × String)) (List (ResolvedMember T G J D)) :=
  let results := doc.schedules.map fun schedule ↦
    (schedule.1, resolveMember env schedule.1 schedule.2 doc.project doc.isGlobal)
  let errors := results.filterMap fun result ↦
    match result.2 with
    | .error message => some (result.1, message)
    | .ok _ => none
  if errors.isEmpty then .ok (results.filterMap (·.2.toOption)) else .error errors

end Resolution

/-! ## The schedules -/

/-- A schedule, with the columns that declarations write and those that only others do. -/
structure ScheduleRow (T G J D E : Type) where
  id : String
  name : String
  specVersion : Option String
  managedBy : Option String
  ownerKey : Option String
  authoredSpec : Option (ScheduleMember T G J)
  resolvedTarget : Option (Resolved J)
  resolvedDigest : Option D
  resolvedTimezone : Option String
  definition : Definition J
  nextFireAt : Option ℚ
  createdAt : ℚ
  updatedAt : ℚ
  engine : E
  deriving DecidableEq

/-- Names and ids are unique. -/
structure Schedules (T G J D E : Type) where
  rows : List (ScheduleRow T G J D E)
  names : (rows.map (·.name)).Nodup
  ids : (rows.map (·.id)).Nodup

section Tables

variable {T G J D E : Type}

/-- An update of a row, which keeps its id and its name. -/
structure RowWrite (T G J D E : Type) where
  write : ScheduleRow T G J D E → ScheduleRow T G J D E
  id_write : ∀ row, (write row).id = row.id
  name_write : ∀ row, (write row).name = row.name

namespace Schedules

variable (table : Schedules T G J D E)

def getScheduleByName (name : String) : Option (ScheduleRow T G J D E) :=
  table.rows.find? fun row ↦ row.name = name

def listSchedulesByOwnerKey (ownerKey : String) : List (ScheduleRow T G J D E) :=
  table.rows.filter fun row ↦ row.ownerKey = some ownerKey

/-- A row is inserted, unless its id or its name is taken. -/
def insert (row : ScheduleRow T G J D E) : Option (Schedules T G J D E) :=
  if h : row.name ∉ table.rows.map (·.name) ∧ row.id ∉ table.rows.map (·.id) then
    some {
      rows := table.rows ++ [row]
      names := by
        rw [List.map_append]
        exact table.names.append (List.nodup_singleton _) (List.disjoint_singleton.2 h.1)
      ids := by
        rw [List.map_append]
        exact table.ids.append (List.nodup_singleton _) (List.disjoint_singleton.2 h.2) }
  else none

/-- The row with the id is updated. -/
def update (id : String) (write : RowWrite T G J D E) : Schedules T G J D E where
  rows := table.rows.map fun row ↦ if row.id = id then write.write row else row
  names := by
    rw [List.map_map]
    refine (List.map_congr_left fun row _ ↦ ?_).symm ▸ table.names
    rw [Function.comp_apply]
    split
    · exact write.name_write row
    · rfl
  ids := by
    rw [List.map_map]
    refine (List.map_congr_left fun row _ ↦ ?_).symm ▸ table.ids
    rw [Function.comp_apply]
    split
    · exact write.id_write row
    · rfl

end Schedules

/-! ## Plans -/

def specVersion : String := "lionagi.io/v1alpha1"

inductive PlanEntry (T G J D : Type) where
  | create (resolved : ResolvedMember T G J D)
  | update (resolved : ResolvedMember T G J D) (existingId : String)
  | unchanged (resolved : ResolvedMember T G J D) (existingId : String)
  | disable (qualifiedName existingId : String)
  | error (qualifiedName detail : String)
  deriving DecidableEq

def adoptNotSupportedMessage : String :=
  "--adopt is not yet supported: migrating a same-named row from another " ++
    "owner (another ScheduleSet or a CLI quick-create) into this set " ++
      "requires an explicit adoption path that does not exist yet. Rename " ++
        "the member or resolve the ownership conflict out of band."

def ScheduleSetDocument.ownerKey (doc : ScheduleSetDocument T G J) : String := doc.project ++ "/" ++ doc.name

/-- Who owns a row that the set does not own. -/
def ownerDesc (row : ScheduleRow T G J D E) : String :=
  let unowned := if row.managedBy = some "cli" then "a CLI quick-create" else "a legacy schedule"
  match row.ownerKey with
  | some ownerKey => if ownerKey = "" then unowned else ownerKey
  | none => unowned

/-- The row has the digest and the enabled flag of the member. -/
def Matches (row : ScheduleRow T G J D E) (resolved : ResolvedMember T G J D) : Prop :=
  row.resolvedDigest = some resolved.digest ∧ row.definition.enabled = resolved.dbFields.enabled

variable [DecidableEq D]

instance (row : ScheduleRow T G J D E) (resolved : ResolvedMember T G J D) :
    Decidable (Matches row resolved) := inferInstanceAs (Decidable (_ ∧ _))

/-- What the set does with a member. -/
def planMember (table : Schedules T G J D E) (ownerKey : String) (adopt : Bool)
    (resolved : ResolvedMember T G J D) : PlanEntry T G J D :=
  match table.getScheduleByName resolved.qualifiedName with
  | none => .create resolved
  | some row =>
    if row.ownerKey ≠ some ownerKey then
      .error resolved.qualifiedName (if adopt then adoptNotSupportedMessage else
        resolved.qualifiedName ++ " is already owned by " ++ ownerDesc row ++ ", not by " ++ ownerKey ++
          "; use --adopt to migrate it explicitly")
    else if Matches row resolved then .unchanged resolved row.id
    else .update resolved row.id

def buildPlan (table : Schedules T G J D E) (ownerKey : String) (adopt : Bool)
    (resolvedMembers : List (ResolvedMember T G J D)) : List (PlanEntry T G J D) :=
  let seenQualified := resolvedMembers.map (·.qualifiedName)
  let existingOwned := table.listSchedulesByOwnerKey ownerKey
  resolvedMembers.map (planMember table ownerKey adopt) ++
    (existingOwned.filter fun row ↦ row.name ∉ seenQualified).map fun row ↦ .disable row.name row.id

/-! ## Applying -/

/-- The due instant that an update writes, if any: a point in time only where it has not passed. -/
def DbFields.rearmed (fields : DbFields J) (now : ℚ) : Option ℚ :=
  if fields.triggerType = .pointInTime ∧ fields.nextFireAt.getD 0 ≤ now then none else fields.nextFireAt

/-- The row of a member that has none. -/
def createdRow (ownerKey id : String) (now : ℚ) (engine : E) (resolved : ResolvedMember T G J D) :
    ScheduleRow T G J D E where
  id := id
  name := resolved.qualifiedName
  specVersion := some specVersion
  managedBy := some "declaration"
  ownerKey := some ownerKey
  authoredSpec := some resolved.authored
  resolvedTarget := some resolved.resolved
  resolvedDigest := some resolved.digest
  resolvedTimezone := resolved.timezone
  definition := resolved.dbFields.toDefinition
  nextFireAt := resolved.dbFields.nextFireAt
  createdAt := now
  updatedAt := now
  engine := engine

def declareWrite (now : ℚ) (resolved : ResolvedMember T G J D) : RowWrite T G J D E where
  write row := { row with
    specVersion := some specVersion
    authoredSpec := some resolved.authored
    resolvedTarget := some resolved.resolved
    resolvedDigest := some resolved.digest
    resolvedTimezone := resolved.timezone
    definition := resolved.dbFields.toDefinition
    nextFireAt := (resolved.dbFields.rearmed now).or row.nextFireAt
    updatedAt := now }
  id_write _ := rfl
  name_write _ := rfl

def disableWrite (now : ℚ) : RowWrite T G J D E where
  write row := { row with definition := { row.definition with enabled := false }, updatedAt := now }
  id_write _ := rfl
  name_write _ := rfl

/-- The rows of a plan are written in one transaction, which fails where a new row cannot be inserted. -/
def Schedules.applyScheduleSet (table : Schedules T G J D E) (creates : List (ScheduleRow T G J D E))
    (updates : List (String × RowWrite T G J D E)) (disables : List String) (now : ℚ) :
    Option (Schedules T G J D E) :=
  (creates.foldlM Schedules.insert table).map fun created ↦
    let updated := updates.foldl (fun table write ↦ table.update write.1 write.2) created
    disables.foldl (fun table id ↦ table.update id (disableWrite now)) updated

namespace PlanEntry

def toError : PlanEntry T G J D → Option (String × String)
  | error qualifiedName detail => some (qualifiedName, detail)
  | _ => none

def toCreate (ownerKey : String) (newId : String → String) (now : ℚ) (fresh : E) :
    PlanEntry T G J D → Option (ScheduleRow T G J D E)
  | create resolved => some (createdRow ownerKey (newId resolved.qualifiedName) now fresh resolved)
  | _ => none

def toUpdate (now : ℚ) : PlanEntry T G J D → Option (String × RowWrite T G J D E)
  | update resolved existingId => some (existingId, declareWrite now resolved)
  | _ => none

def toDisable : PlanEntry T G J D → Option String
  | disable _ existingId => some existingId
  | _ => none

end PlanEntry

inductive ApplyError where
  | scheduleSetError (errors : List (String × String))
  | integrityError
  deriving DecidableEq

variable (env : Environment T G J D) (newId : String → String) (fresh : E)

/-- The document is resolved, compared and written at the time `now`, with the ids that new rows get. -/
def applyScheduleSet (doc : ScheduleSetDocument T G J) (adopt : Bool) (now : ℚ)
    (table : Schedules T G J D E) :
    Except ApplyError (List (PlanEntry T G J D)) × Schedules T G J D E :=
  match resolveScheduleSet env doc with
  | .error errors => (.error (.scheduleSetError errors), table)
  | .ok resolvedMembers =>
    let plan := buildPlan table doc.ownerKey adopt resolvedMembers
    let errors := plan.filterMap PlanEntry.toError
    if errors.isEmpty then
      match table.applyScheduleSet (plan.filterMap (PlanEntry.toCreate doc.ownerKey newId now fresh))
        (plan.filterMap (PlanEntry.toUpdate now)) (plan.filterMap PlanEntry.toDisable) now with
      | some applied => (.ok plan, applied)
      | none => (.error .integrityError, table)
    else (.error (.scheduleSetError errors), table)

end Tables

end Lionagi.Studio
