import Lionagi.Library.Transition
import Lionagi.StateDb.LifecycleExit
import Lionagi.StateDb.ManagedEntity

/-!
# Terminal statuses

An entity whose status is terminal gets a different status only by an override, which leaves its event,
or along a declared edge whose requirements are met. A call that names the terminal status itself can
still append to the history.
-/

namespace Lionagi.StateDb

open Checks OrderedDict Transition

section Finality

variable (policy : LifecyclePolicy) (entityType entityId : String) (row : Row) (db db' : Db)
variable (op : TransitionOp) (now : ℚ)

/-- The row of the entity and its history stay. -/
structure Untouched : Prop where
  row : db'.select policy.table entityId = some row
  history : db'.historyOf entityType entityId = db.historyOf entityType entityId

/-- The call names the entity and another status than the stored one, which is stored afterwards. -/
structure Moved : Prop where
  entity : op.command.entityType = entityType ∧ op.command.entityId = entityId
  differs : ¬ op.command.sameStatus (row "status")
  status : ∃ row', db'.select policy.table entityId = some row' ∧
    row' "status" = Cell.text op.command.toStatus

/-- The entity is moved by a justified override with its event or along a declared edge, or it stays. -/
inductive Final : Prop
  | untouched : Untouched policy entityType entityId row db db' → Final
  | override (override : OverrideRecord) : Moved policy entityType entityId row db' op →
      op.command.override = some override → override.actor ≠ "" → override.justification ≠ "" →
      db'.adminEvents = db.adminEvents ++ [op.command.overrideEvent (row "status") now] → Final
  | edge (edge : EdgePolicy) : Moved policy entityType entityId row db' op →
      edge ∈ policy.edgesFrom (row "status") → edge.toStatus = op.command.toStatus →
      edge.MetBy op.command (op.options policy) → db'.adminEvents = db.adminEvents → Final

/-- The call names the stored status, which stays, and the policy has same-status writes appended or
declares them. -/
structure Rewritten : Prop where
  entity : op.command.entityType = entityType ∧ op.command.entityId = entityId
  same : op.command.sameStatus (row "status")
  permitted : policy.sameStatus = .append ∨ ∃ edge ∈ policy.edgesFrom (row "status"),
    edge.toStatus = op.command.toStatus ∧ edge.MetBy op.command (op.options policy)
  status : ∃ row', db'.select policy.table entityId = some row' ∧ row' "status" = row "status"

end Finality

/-- Every terminal entity of the policy is moved by an override or along an edge, or it stays. -/
def FinalStep (registry : PolicyRegistry) (validReasonCodes : List String) (policy : LifecyclePolicy)
    (entityType : String) (db : Db) (step : TransitionOp × ℚ) : Prop :=
  ∀ entityId row, db.select policy.table entityId = some row → policy.isTerminal (row "status") →
    Final policy entityType entityId row db (step.1.exec registry validReasonCodes db step.2) step.1 step.2

/-- The patch of a call that names the entity assigns neither the status nor the key. -/
def TransitionOp.KeepsKey (op : TransitionOp) (entityType entityId : String) : Prop :=
  op.command.entityType = entityType → op.command.entityId = entityId →
    "status" ∉ op.command.patch ∧ "id" ∉ op.command.patch

/-- Every terminal entity of the policy is moved by an override or along an edge, rewritten with the
status it has, or it stays. -/
def KeepsTerminal (registry : PolicyRegistry) (validReasonCodes : List String) (policy : LifecyclePolicy)
    (entityType : String) (db : Db) (step : TransitionOp × ℚ) : Prop :=
  ∀ entityId row, db.select policy.table entityId = some row → policy.isTerminal (row "status") →
    step.1.KeepsKey entityType entityId →
    Final policy entityType entityId row db (step.1.exec registry validReasonCodes db step.2) step.1
      step.2 ∨
    Rewritten policy entityType entityId row (step.1.exec registry validReasonCodes db step.2) step.1

section Step

variable {registry : PolicyRegistry} {validReasonCodes : List String} {policy : LifecyclePolicy}
variable {entityType entityId : String} {row : Row} {db db' : Db} {op : TransitionOp} {now : ℚ}
variable {outcome : TransitionOutcome}

/-- The exits that write no history row leave every entity. -/
theorem untouched_of_rows (hrow : db.select policy.table entityId = some row)
    (hselect : ∀ table id, db'.select table id = db.select table id) (hhistory : db'.history = db.history) :
    Untouched policy entityType entityId row db db' where
  row := (hselect _ _).trans hrow
  history := by rw [Db.historyOf, hhistory, Db.historyOf]

variable {other : LifecyclePolicy}

/-- The write of another policy, or of the same policy to another key, leaves the entity. -/
theorem select_of_other {row' : Row} {stored : Db} (hpolicy : registry.byEntityType.get? entityType = some policy)
    (hother : registry.byEntityType.get? op.command.entityType = some other)
    (hne : ¬ (op.command.entityType = entityType ∧ op.command.entityId = entityId))
    (hrow : db.select policy.table entityId = some row)
    (hreplace : db.replace other.table op.command.entityId row' = .ok stored) :
    stored.select policy.table entityId = some row := by
  by_cases htable : policy.table = other.table
  · have htype : entityType = op.command.entityType := registry.eq_of_table hpolicy hother htable
    have hkey : entityId ≠ op.command.entityId := fun heq ↦ hne ⟨htype.symm, heq.symm⟩
    rw [htable] at hrow ⊢
    exact Db.select_replace_of_stored hkey hrow hreplace
  · rw [Db.select_replace_of_table htable hreplace]
    exact hrow

/-- One exit keeps a terminal entity final. -/
theorem final_of_exit {row' : Row} (hpolicy : registry.byEntityType.get? entityType = some policy)
    (hrow : db.select policy.table entityId = some row) (hterminal : policy.isTerminal (row "status"))
    (hkeeps : op.KeepsKey entityType entityId) (hother : registry.byEntityType.get? op.command.entityType = some other)
    (hvalid : op.command.Valid other) (hrow' : db.select other.table op.command.entityId = some row')
    (hexit : Exit other op.command (op.options other) row' now db (.ok (db', outcome))) :
    Final policy entityType entityId row db db' op now ∨
      Rewritten policy entityType entityId row db' op := by
  cases hexit with
  | statusConflict => exact .inl (.untouched ⟨hrow, rfl⟩)
  | noop => exact .inl (.untouched ⟨hrow, rfl⟩)
  | versionConflict => exact .inl (.untouched ⟨hrow, rfl⟩)
  | rejected => exact .inl (.untouched (untouched_of_rows hrow (fun _ _ ↦ rfl) rfl))
  | guardConflict =>
    exact .inl (.untouched (untouched_of_rows hrow (select_recordOverride _) (recordOverride_history _)))
  | nullGuard =>
    exact .inl (.untouched (untouched_of_rows hrow (select_recordOverride _) (recordOverride_history _)))
  | @applied override patch stored _ hpermits _ _ hpatch _ hreplace =>
    by_cases hentity : op.command.entityType = entityType ∧ op.command.entityId = entityId
    · obtain ⟨rfl, rfl⟩ := hentity
      cases hpolicy.symm.trans hother
      cases hrow.symm.trans hrow'
      obtain ⟨hstatus, hid⟩ := hkeeps rfl rfl
      cases (replace_updated hrow hid hpatch).symm.trans hreplace
      have hselect : ((op.command.recordOverride row now db override).put policy.table
          op.command.entityId (some (updated op.command (op.options policy) row now patch))).select
            policy.table op.command.entityId = some (updated op.command (op.options policy) row now patch) :=
        Db.select_put_self (updated_id hrow hid hpatch)
      have hto : updated op.command (op.options policy) row now patch "status" =
          Cell.text op.command.toStatus := updated_status hstatus hpatch
      cases hpermits with
      | @edge edge hedge hmet =>
        obtain ⟨-, hmem, hedgeTo⟩ := TransitionCommand.selfEdge_eq_some hedge
        by_cases hsame : op.command.sameStatus (row "status")
        · exact .inr ⟨⟨rfl, rfl⟩, hsame, .inr ⟨edge, hmem, hedgeTo, hmet⟩, _, hselect, hto.trans hsame.symm⟩
        · exact .inl (.edge edge ⟨⟨rfl, rfl⟩, hsame, _, hselect, hto⟩ hmem hedgeTo hmet rfl)
      | append _ hsame hrule =>
        exact .inr ⟨⟨rfl, rfl⟩, hsame, .inl hrule, _, hselect, hto.trans hsame.symm⟩
      | unenforced _ _ _ hnot => exact absurd hterminal hnot
      | override _ hdiffers _ hoverride =>
        obtain ⟨override, hsome⟩ := Option.isSome_iff_exists.1 hoverride
        obtain ⟨hactor, hjustification⟩ := hvalid.override override hsome
        exact .inl (.override override ⟨⟨rfl, rfl⟩, hdiffers, _, hselect, hto⟩ hsome hactor
          hjustification rfl)
    · have hselect : stored.select policy.table entityId = some row :=
        select_of_other hpolicy hother hentity ((select_recordOverride override _ _).trans hrow) hreplace
      have hhistory : stored.history = db.history :=
        (Db.replace_history hreplace).1.trans (recordOverride_history override)
      have happend : (stored.appendHistory op.command.entityType op.command.entityId ( row' "status")
          op.command.toStatus op.command.reason op.command.actor now).history = db.history ++ [_] :=
        congrArg (· ++ [_]) hhistory
      refine .inl (.untouched ⟨hselect, historyOf_of_ne happend ?_⟩)
      intro h
      obtain ⟨htype, hkey⟩ := h
      exact hentity ⟨htype.symm, hkey.symm⟩

end Step

/-! ## The audit trail -/

/-- What a call adds to the tables of the past: nothing, the event of a refusal or of an override that found its
guards broken, or a history row from the stored status to one that the policy permits, with the override's event. -/
inductive Audited (registry : PolicyRegistry) (db db' : Db) (op : TransitionOp) (now : ℚ) : Prop
  | unwritten (events : List AdminEvent) : db'.history = db.history →
      db'.adminEvents = db.adminEvents ++ events → events.length ≤ 1 → Audited registry db db' op now
  | written {policy : LifecyclePolicy} {row : Row} {override : Bool} :
      registry.byEntityType.get? op.command.entityType = some policy →
      db.select policy.table op.command.entityId = some row →
      op.command.Permits policy (op.options policy) (row "status") override →
      db'.history = (db.appendHistory op.command.entityType op.command.entityId (row "status")
        op.command.toStatus op.command.reason op.command.actor now).history →
      db'.adminEvents = (op.command.recordOverride row now db override).adminEvents → Audited registry db db' op now

def oneRow (table id status : String) : Db where
  rows table' id' := if table' = table ∧ id' = id then
    some (Row.assign (fun _ ↦ none) [("status", Cell.text status), ("updated_at", Cell.num 1)]) else none
  history := []
  adminEvents := []

def repeatedCompletion : TransitionOp := .updateStatus {
  entityType := "session"
  entityId := "s1"
  newStatus := "completed"
  reason := { code := "run.completed.ok" }
  source := "executor"
  actor := none }

/-- A policy that lets a patch assign the status and the key. -/
def jobPolicy : LifecyclePolicy where
  entityType := "job"
  table := "jobs"
  statuses := ["open", "done"]
  initialStatuses := ["open"]
  terminalStatuses := ["done"]
  edges := ofList [("open", edgesTo ["done"])]
  sameStatus := .append
  patchFields := ["status", "id"]
  reasonPrefixes := ["run"]

def jobRegistry : PolicyRegistry :=
  match PolicyRegistry.empty.register jobPolicy with
  | .ok registry => registry
  | .error _ => .empty

def patchedCompletion (column value : String) : TransitionOp := .updateStatus {
  entityType := "job"
  entityId := "j1"
  newStatus := "done"
  reason := { code := "run.completed.ok" }
  source := "executor"
  actor := none
  extraFields := ofList [(column, Cell.text value)] }

end Lionagi.StateDb
