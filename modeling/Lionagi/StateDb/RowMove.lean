import Lionagi.StateDb.LegacyTransition

/-!
# Moved rows

What a run of transitions of one table rests on: a transition moves one row of the table as the policy
allows and leaves the other rows, or it leaves all of them.
-/

namespace Lionagi.StateDb

open Checks OrderedDict

/-- One row of a table is moved, or none is. -/
inductive RowMove (table id : String) (Moves : Row → Row → Prop) (db db' : Db) : Bool → Prop
  | moved {row row' : Row} : db.select table id = some row → db'.select table id = some row' →
      Moves row row' → (∀ other, other ≠ id → db'.select table other = db.select table other) →
      RowMove table id Moves db db' true
  | kept : (∀ other, db'.select table other = db.select table other) → RowMove table id Moves db db' false

section Moves

variable {table id other : String} {Moves : Row → Row → Prop} {db db' : Db} {applied : Bool} {row row' : Row}

/-- A row that is found before is found afterwards, as it was or moved. -/
theorem RowMove.select (h : RowMove table id Moves db db' applied) (hrow : db.select table other = some row) :
    ∃ row', db'.select table other = some row' ∧ (row' = row ∨ other = id ∧ applied = true ∧ Moves row row') := by
  cases h with
  | @moved old new hold hnew hmoves hothers =>
    by_cases hid : other = id
    · subst hid
      cases hrow.symm.trans hold
      exact ⟨new, hnew, .inr ⟨rfl, rfl, hmoves⟩⟩
    · exact ⟨row, (hothers other hid).trans hrow, .inl rfl⟩
  | kept hothers => exact ⟨row, (hothers other).trans hrow, .inl rfl⟩

end Moves

section Legacy

variable {db : Db} {request : LegacyTransition} {policy : LifecyclePolicy} {now : ℚ}

theorem select_eq_of_rows {db' : Db} (h : db'.rows = db.rows) (table id : String) :
    db'.select table id = db.select table id := by
  rw [Db.select, Db.select, h]

/-- The row is moved as it was requested. -/
def LegacyTransition.MovesRow (request : LegacyTransition) (policy : LifecyclePolicy) (now : ℚ)
    (row row' : Row) : Prop :=
  request.Expects policy row ∧ row' = request.stored row now

theorem legacyTransition_rowMove
    (hpolicy : defaultRegistry.byEntityType.get? request.entityType = some policy)
    (hsame : policy.sameStatus = .append) (hsession : request.entityType ≠ "session") :
    RowMove policy.table request.entityId (request.MovesRow policy now) db
      (legacyTransition db request now).1 (isApplied (legacyTransition db request now).2) := by
  have hresult : request.Result policy now db (legacyTransition db request now) :=
    legacyTransition_result hpolicy hsame hsession
  generalize legacyTransition db request now = result at hresult
  cases hresult with
  | @moved db' outcome row hrow happlied hmoves =>
    have hid : request.stored row now "id" = Cell.text request.entityId := by
      have hpatch : "id" ∉ request.patch :=
        fun hmem ↦ (not_mem_patchFields hpolicy).2 (hmoves.expects.patch "id" hmem)
      rw [LegacyTransition.stored_column (by decide), (get?_eq_none_iff _ _).2 hpatch]
      exact Db.select_id hrow
    have htrue : isApplied (.ok outcome) = true := decide_eq_true happlied
    rw [htrue]
    refine .moved hrow ?_ ⟨hmoves.expects, rfl⟩ fun other hne ↦ ?_
    · exact (select_eq_of_rows hmoves.rows _ _).trans (Db.select_put_self hid)
    · exact (select_eq_of_rows hmoves.rows _ _).trans (Db.select_put_of_ne fun heq ↦ hne heq.2)
  | @conflict outcome hconflict =>
    have hfalse : isApplied (.ok outcome) = false := decide_eq_false (by rw [hconflict]; decide)
    rw [hfalse]
    exact .kept fun _ ↦ rfl
  | raised => exact .kept fun _ ↦ rfl

end Legacy

section Update

variable {db : Db} {update : StatusUpdate} {policy : LifecyclePolicy} {now : ℚ}

/-- The row has one of the expected statuses, and gets the new one with its reason. -/
def StatusUpdate.MovesRow (update : StatusUpdate) (row row' : Row) : Prop :=
  (∀ statuses ∈ update.expectedStatuses, row "status" ∈ statuses) ∧
    row' "status" = Cell.text update.newStatus ∧ ∀ column ∉ statusColumns, row' column = row column

/-- The caller is told that the status was updated. -/
def isUpdated : Except LifecycleError Bool → Bool
  | .ok updated => updated
  | .error _ => false

/-- Where same-status writes are appended no update is dropped. -/
theorem StatusUpdate.verdict_ne_noop {previousStatus : Cell} (hsame : policy.sameStatus = .append) :
    update.command.verdict policy { raiseOnUnguardedConflict := true } previousStatus ≠ .ok .noop := by
  intro h
  cases hedge : update.command.selfEdge policy { raiseOnUnguardedConflict := true } previousStatus with
  | some edge => cases ((TransitionCommand.verdict_of_edge hedge).1 h).2
  | none =>
    by_cases hstatus : update.command.sameStatus previousStatus
    · obtain ⟨hrule, -⟩ | ⟨-, hverdict⟩ | ⟨-, hverdict⟩ :=
        (TransitionCommand.verdict_of_sameStatus hedge hstatus).1 h
      · cases hsame.symm.trans hrule
      · cases hverdict
      · cases hverdict
    · obtain ⟨-, -, hverdict⟩ | ⟨-, -, hverdict⟩ | ⟨-, hverdict⟩ :=
        (TransitionCommand.verdict_of_unenforced hedge hstatus rfl).1 h
      · cases hverdict
      · cases hverdict
      · cases hverdict

/-- A status update without a patch moves its row, or leaves the table. -/
theorem runUpdateStatus_rowMove
    (hpolicy : defaultRegistry.byEntityType.get? update.entityType = some policy)
    (hsame : policy.sameStatus = .append) (hsession : update.entityType ≠ "session")
    (hextra : update.extraFields = .empty) :
    RowMove policy.table update.entityId update.MovesRow db (runUpdateStatus defaultRegistry db update now).1
      (isUpdated (runUpdateStatus defaultRegistry db update now).2) := by
  unfold runUpdateStatus
  cases hresult : guardedTransition defaultRegistry db update.command { raiseOnUnguardedConflict := true }
      now with
  | error e => exact .kept fun _ ↦ rfl
  | ok committed =>
    obtain ⟨db', outcome⟩ := committed
    obtain ⟨other, row, hother, hvalid, hrow, hexit⟩ := guardedTransition_eq_ok hresult
    cases hpolicy.symm.trans hother
    cases hexit with
    | statusConflict => exact .kept fun _ ↦ rfl
    | noop _ hverdict => exact absurd hverdict (StatusUpdate.verdict_ne_noop hsame)
    | rejected => exact .kept fun _ ↦ rfl
    | versionConflict => exact .kept fun _ ↦ rfl
    | guardConflict => exact .kept fun _ ↦ select_recordOverride _ _ _
    | nullGuard => exact .kept fun _ ↦ select_recordOverride _ _ _
    | @applied override patch stored hstatus _ _ _ hpatch _ hreplace =>
      have hid : "id" ∉ update.command.patch := by
        change "id" ∉ update.extraFields
        rw [hextra]
        exact List.not_mem_nil
      have hends : ¬ update.command.EndsSession policy row := fun hends ↦ hsession hends.1.1
      rw [replace_updated hrow hid hpatch] at hreplace
      cases hreplace
      rw [TransitionCommand.completePatch, if_neg hends] at hpatch
      cases hpatch
      have hpatch : update.command.patch = .empty := hextra
      have hstored : ∀ db : Db, (db.put policy.table update.command.entityId (some (updated update.command
          { raiseOnUnguardedConflict := true } row now update.command.patch))).select policy.table
            update.command.entityId = some (updated update.command
              { raiseOnUnguardedConflict := true } row now update.command.patch) := by
        intro db
        apply Db.select_put_self
        exact assign_setClauses_id _ _ _ _ _ (Db.select_id hrow) hid
      refine .moved hrow (hstored _) ⟨?_, ?_, ?_⟩ fun id hne ↦ ?_
      · intro statuses hstatuses
        by_contra hdiffers
        exact hstatus ⟨statuses, hstatuses, hdiffers⟩
      · rw [updated, assign_setClauses_status, hpatch]
        rfl
      · intro column hcolumn
        rw [updated, assign_setClauses_of_not_mem _ _ _ _ _ hcolumn, hpatch]
        rfl
      · have hother : ¬ (policy.table = policy.table ∧ id = update.command.entityId) := fun heq ↦ hne heq.2
        exact (Db.select_put_of_ne hother).trans (select_recordOverride _ _ _)

end Update

end Lionagi.StateDb
