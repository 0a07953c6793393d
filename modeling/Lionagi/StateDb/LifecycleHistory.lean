import Lionagi.Library.ChangeLog
import Lionagi.Library.Transition
import Lionagi.StateDb.LifecycleExit
import Lionagi.StateDb.ManagedEntity

/-!
# The history of a managed entity

Over a run of lifecycle operations the history rows of an entity lead from NULL to the status on its own
row, as long as initial rows name the status that is stored and no tombstone is put on an entity that
has a history. The operations that do otherwise break the chain.
-/

namespace Lionagi.StateDb

open Checks OrderedDict ChangeLog Transition

/-- The recorded changes of the status of an entity, in commit order. -/
def Db.changes (db : Db) (entityType entityId : String) : List (Cell × Cell) :=
  (db.historyOf entityType entityId).map fun row ↦ (row.previousStatus, Cell.text row.status)

/-- Every managed entity with an initial history row has a history that leads from NULL to the status on
its own row. -/
def Faithful (db : Db) : Prop :=
  ∀ entityType policy, defaultRegistry.byEntityType.get? entityType = some policy → ∀ entityId,
    db.hasInitial entityType entityId → ∃ row, db.select policy.table entityId = some row ∧
      Leads none (db.changes entityType entityId) (row "status")

/-- The operations that write a status or a history row. -/
inductive LifecycleOp where
  | initializeInTransaction (command : InitialStateCommand)
  | transition (op : TransitionOp)
  | tombstoneAndReplace (orphanId : String) (replacementRun : ScheduleRun) (expectedOrphanStatus : String)

/-- The database after an operation at a point of time. -/
def execOp (validReasonCodes : List String) (db : Db) : LifecycleOp × ℚ → Db
  | (.initializeInTransaction command, now) =>
    (commit db (StateDb.initializeInTransaction defaultRegistry db command now)).1
  | (.transition op, now) => op.exec defaultRegistry validReasonCodes db now
  | (.tombstoneAndReplace orphanId replacementRun expectedOrphanStatus, now) =>
    (commit db (tombstoneAndReplaceScheduleRun db orphanId replacementRun expectedOrphanStatus now)).1

/-! ## The condition -/

/-- What is checked of an initial state. -/
structure InitialStateCommand.Accepted (command : InitialStateCommand) (policy : LifecyclePolicy)
    (db : Db) : Prop where
  entityId : command.entityId ≠ ""
  actorId : command.actor.id ≠ none ∧ command.actor.id ≠ some ""
  reasonCode : command.reason.code ≠ ""
  status : command.status ∈ policy.initialStatuses
  row : (db.select policy.table command.entityId).isSome = true
  first : ¬ db.hasInitial command.entityType command.entityId

/-- The orphan qualifies, and the replacement can be inserted and is given its initial row. -/
structure Tombstones (db : Db) (orphanId : String) (replacementRun : ScheduleRun)
    (expectedOrphanStatus : String) : Prop where
  orphan : ∃ row, db.select "schedule_runs" orphanId = some row ∧ Undispatched row expectedOrphanStatus
  status : replacementRun.status ∈ scheduleRunStatuses
  new : db.rows "schedule_runs" replacementRun.id = none
  entityId : replacementRun.id = "" →
    initialReasonCodes.get? ("schedule_run", replacementRun.status) = none

/-- An initial state that is recorded is the one stored and comes first, and an orphan with an initial
history row that is tombstoned had failed before. -/
def KeepsHistory (db : Db) : LifecycleOp × ℚ → Prop
  | (.initializeInTransaction command, _) =>
    ∀ policy, defaultRegistry.byEntityType.get? command.entityType = some policy →
      command.Accepted policy db → db.changes command.entityType command.entityId = [] ∧
        ∃ row, db.select policy.table command.entityId = some row ∧
          row "status" = Cell.text command.status
  | (.tombstoneAndReplace orphanId replacementRun expectedOrphanStatus, _) =>
    Tombstones db orphanId replacementRun expectedOrphanStatus → db.hasInitial "schedule_run" orphanId →
      expectedOrphanStatus = "failed"
  | _ => True

/-! ## Changes -/

section Changes

variable {db db' : Db} {entityType entityId : String}

theorem hasInitial_iff :
    db.hasInitial entityType entityId ↔ ∃ change ∈ db.changes entityType entityId, change.1 = none := by
  unfold Db.hasInitial Db.changes Db.historyOf
  simp only [List.mem_map, List.mem_filter, decide_eq_true_eq]
  constructor
  · intro h
    obtain ⟨row, hrow, htype, hid, hnull⟩ := h
    exact ⟨_, ⟨row, ⟨hrow, htype, hid⟩, rfl⟩, hnull⟩
  · intro h
    obtain ⟨change, ⟨row, ⟨hrow, htype, hid⟩, heq⟩, hnull⟩ := h
    subst heq
    exact ⟨row, hrow, htype, hid, hnull⟩

theorem changes_concat {row : HistoryRow} (h : db'.history = db.history ++ [row]) :
    db'.changes row.entityType row.entityId = db.changes row.entityType row.entityId ++
      [(row.previousStatus, Cell.text row.status)] := by
  rw [Db.changes, historyOf_concat h, List.map_append, List.map_singleton, Db.changes]

theorem changes_of_ne {row : HistoryRow} (h : db'.history = db.history ++ [row])
    (hne : ¬ (entityType = row.entityType ∧ entityId = row.entityId)) :
    db'.changes entityType entityId = db.changes entityType entityId := by
  rw [Db.changes, historyOf_of_ne h hne, Db.changes]

theorem changes_of_history (h : db'.history = db.history) :
    db'.changes entityType entityId = db.changes entityType entityId := by
  rw [Db.changes, Db.historyOf, h, Db.changes, Db.historyOf]

/-- A chain from NULL back to NULL through rows none of which starts from NULL is empty. -/
theorem changes_eq_nil {b : Cell} (h : Leads none (db.changes entityType entityId) b)
    (hfirst : ¬ db.hasInitial entityType entityId) : db.changes entityType entityId = [] := by
  rw [hasInitial_iff] at hfirst
  cases hchanges : db.changes entityType entityId with
  | nil => rfl
  | cons change log =>
    rw [hchanges] at h hfirst
    exact absurd ⟨change, List.mem_cons_self, h.1⟩ hfirst

end Changes

/-! ## The invariant -/

/-- The histories are faithful, and the entities that have one are stored with a status. -/
structure Traced (db : Db) : Prop where
  faithful : Faithful db
  stored : ∀ entityType policy, defaultRegistry.byEntityType.get? entityType = some policy →
    ∀ entityId, db.changes entityType entityId ≠ [] → ∃ row,
      db.select policy.table entityId = some row ∧ row "status" ≠ none

section Invariant

variable {db db' : Db}

theorem traced_of_history_nil (h : db.history = []) : Traced db where
  faithful := by
    intro entityType policy _ entityId h
    obtain ⟨row, hrow, _⟩ := h
    rw [h] at hrow
    cases hrow
  stored := by
    intro entityType policy _ entityId hchanges
    rw [Db.changes, Db.historyOf, h] at hchanges
    exact absurd rfl hchanges

/-- A step that keeps the history and the statuses of the entities that have one. -/
theorem Traced.of_rows (hdb : Traced db) (hhistory : db'.history = db.history)
    (hrows : ∀ table entityId, db'.select table entityId = db.select table entityId) : Traced db' where
  faithful := by
    intro entityType policy hpolicy entityId hinitial
    rw [hasInitial_iff, changes_of_history hhistory, ← hasInitial_iff] at hinitial
    rw [hrows, changes_of_history hhistory]
    exact hdb.faithful entityType policy hpolicy entityId hinitial
  stored := by
    intro entityType policy hpolicy entityId hchanges
    rw [changes_of_history hhistory] at hchanges
    rw [hrows]
    exact hdb.stored entityType policy hpolicy entityId hchanges

/-- An entity is given a status and a history row that continues its chain. -/
theorem Traced.record (hdb : Traced db) (new : HistoryRow) {policy : LifecyclePolicy} {row row' : Row}
    (hpolicy : defaultRegistry.byEntityType.get? new.entityType = some policy)
    (hhistory : db'.history = db.history ++ [new])
    (hothers : ∀ table entityId, ¬ (table = policy.table ∧ entityId = new.entityId) →
      db'.select table entityId = db.select table entityId)
    (hrow : db.select policy.table new.entityId = some row)
    (hrow' : db'.select policy.table new.entityId = some row')
    (hstatus : row' "status" = Cell.text new.status)
    (hnext : db.hasInitial new.entityType new.entityId → new.previousStatus = row "status")
    (hfirst : ¬ db.hasInitial new.entityType new.entityId → new.previousStatus = none →
      db.changes new.entityType new.entityId = []) : Traced db' where
  faithful := by
    intro entityType other hother entityId hinitial
    by_cases hentity : entityType = new.entityType ∧ entityId = new.entityId
    · obtain ⟨rfl, rfl⟩ := hentity
      cases hpolicy.symm.trans hother
      refine ⟨row', hrow', ?_⟩
      rw [changes_concat hhistory, leads_concat]
      refine ⟨?_, hstatus.symm⟩
      by_cases hold : db.hasInitial new.entityType new.entityId
      · obtain ⟨stored, hstored, hleads⟩ := hdb.faithful _ _ hpolicy _ hold
        cases hrow.symm.trans hstored
        exact (hnext hold) ▸ hleads
      · have hnull : new.previousStatus = none := by
          rw [hasInitial_iff, changes_concat hhistory] at hinitial
          obtain ⟨change, hmem, hchange⟩ := hinitial
          obtain hmem | hmem := List.mem_append.1 hmem
          · exact absurd (hasInitial_iff.2 ⟨change, hmem, hchange⟩) hold
          · rw [List.mem_singleton.1 hmem] at hchange
            exact hchange
        rw [hfirst hold hnull]
        exact hnull.symm
    · rw [hasInitial_iff, changes_of_ne hhistory hentity, ← hasInitial_iff] at hinitial
      rw [changes_of_ne hhistory hentity, hothers]
      · exact hdb.faithful entityType other hother entityId hinitial
      · intro h
        obtain ⟨htable, hid⟩ := h
        exact hentity ⟨defaultRegistry.eq_of_table hother hpolicy htable, hid⟩
  stored := by
    intro entityType other hother entityId hchanges
    by_cases hentity : entityType = new.entityType ∧ entityId = new.entityId
    · obtain ⟨rfl, rfl⟩ := hentity
      cases hpolicy.symm.trans hother
      exact ⟨row', hrow', hstatus ▸ Cell.text_ne_none _⟩
    · rw [changes_of_ne hhistory hentity] at hchanges
      rw [hothers]
      · exact hdb.stored entityType other hother entityId hchanges
      · intro h
        obtain ⟨htable, hid⟩ := h
        exact hentity ⟨defaultRegistry.eq_of_table hother hpolicy htable, hid⟩

end Invariant

/-! ## Transitions -/

variable {policy : LifecyclePolicy} {row : Row}

/-- A guarded transition continues the chain of its entity. -/
theorem Traced.exit {db db' : Db} {command : TransitionCommand} {options : TransitionOptions} {now : ℚ}
    {outcome : TransitionOutcome} (hdb : Traced db)
    (hpolicy : defaultRegistry.byEntityType.get? command.entityType = some policy) (hvalid : command.Valid policy)
    (hrow : db.select policy.table command.entityId = some row)
    (hexit : Exit policy command options row now db (.ok (db', outcome))) : Traced db' := by
  obtain ⟨hstatus, hid⟩ := not_mem_patchFields hpolicy
  cases hexit with
  | statusConflict => exact hdb
  | noop => exact hdb
  | versionConflict => exact hdb
  | rejected => exact hdb.of_rows rfl fun _ _ ↦ rfl
  | guardConflict => exact hdb.of_rows (recordOverride_history _) (select_recordOverride _)
  | nullGuard => exact hdb.of_rows (recordOverride_history _) (select_recordOverride _)
  | @applied override patch stored _ _ _ _ hpatch _ hreplace =>
    have hid : "id" ∉ command.patch := fun hmem ↦ hid (hvalid.patch _ hmem)
    have hstatus : "status" ∉ command.patch := fun hmem ↦ hstatus (hvalid.patch _ hmem)
    cases (replace_updated hrow hid hpatch).symm.trans hreplace
    have hrow' : ((command.recordOverride row now db override).put policy.table command.entityId
        (some (updated command options row now patch))).select policy.table command.entityId =
          some (updated command options row now patch) :=
      Db.select_put_self (updated_id hrow hid hpatch)
    refine hdb.record ⟨db.history.length, command.entityType, command.entityId, row "status",
      command.toStatus, command.reason, command.actor, now⟩ hpolicy ?_ ?_ hrow hrow'
      (updated_status hstatus hpatch) (fun _ ↦ rfl) ?_
    · simp [Db.appendHistory, Db.put]
    · intro table entityId hother
      calc ((command.recordOverride row now db override).put policy.table command.entityId
          (some (updated command options row now patch))).select table entityId
        _ = (command.recordOverride row now db override).select table entityId :=
          Db.select_put_of_ne hother
        _ = db.select table entityId := select_recordOverride override table entityId
    · intro _ hnull
      apply Classical.not_not.1
      intro hchanges
      obtain ⟨stored, hstored, hset⟩ := hdb.stored _ policy hpolicy _ hchanges
      cases hrow.symm.trans hstored
      exact hset hnull

/-! ## Initial states -/

section Initial

variable {command : InitialStateCommand} {policy : LifecyclePolicy} {db db' : Db} {now : ℚ} {n : ℕ}

theorem InitialStateCommand.check_eq_ok_iff :
    command.check policy db = .ok () ↔ command.Accepted policy db := by
  simp only [InitialStateCommand.check, then_eq_ok_iff, ensure_eq_ok_iff]
  constructor
  · intro h
    obtain ⟨hentity, hactor, hreason, hstatus, hrow, hfirst⟩ := h
    exact ⟨hentity, hactor, hreason, hstatus, hrow, hfirst⟩
  · intro h
    exact ⟨h.entityId, h.actorId, h.reasonCode, h.status, h.row, h.first⟩

theorem initializeInTransaction_eq_ok_iff :
    initializeInTransaction defaultRegistry db command now = .ok (db', n) ↔
      ∃ policy, defaultRegistry.byEntityType.get? command.entityType = some policy ∧
        command.Accepted policy db ∧ n = db.history.length ∧
        db' = db.appendHistory command.entityType command.entityId none command.status command.reason
          command.actor now := by
  unfold initializeInTransaction
  rw [bind_eq_ok_iff]
  apply exists_congr
  intro policy
  rw [PolicyRegistry.get_eq_ok_iff, then_eq_ok_iff, InitialStateCommand.check_eq_ok_iff]
  apply and_congr_right
  intro _
  apply and_congr_right
  intro _
  constructor
  · intro h
    cases h
    exact ⟨rfl, rfl⟩
  · intro h
    obtain ⟨hn, hdb⟩ := h
    rw [hn, hdb]
    rfl

/-- An initial state that is stored and comes first starts a chain. -/
theorem Traced.initializeInTransaction (hdb : Traced db)
    (h : StateDb.initializeInTransaction defaultRegistry db command now = .ok (db', n))
    (hkeeps : KeepsHistory db (.initializeInTransaction command, now)) : Traced db' := by
  obtain ⟨policy, hpolicy, haccepted, -, rfl⟩ := initializeInTransaction_eq_ok_iff.1 h
  obtain ⟨hchanges, row, hrow, hstatus⟩ := hkeeps policy hpolicy haccepted
  exact hdb.record ⟨db.history.length, command.entityType, command.entityId, none, command.status,
    command.reason, command.actor, now⟩ hpolicy rfl (fun _ _ _ ↦ rfl) hrow hrow hstatus
    (fun hinitial ↦ absurd hinitial haccepted.first) (fun _ _ ↦ hchanges)

/-- A history that is faithful after an initial row was empty, and the row names the stored status. -/
theorem first_of_faithful {new : HistoryRow} (hpolicy :
      defaultRegistry.byEntityType.get? new.entityType = some policy)
    (hhistory : db'.history = db.history ++ [new]) (hnull : new.previousStatus = none)
    (hfirst : ¬ db.hasInitial new.entityType new.entityId) (h : Faithful db') :
    db.changes new.entityType new.entityId = [] ∧ ∃ row,
      db'.select policy.table new.entityId = some row ∧ row "status" = Cell.text new.status := by
  have hinitial : db'.hasInitial new.entityType new.entityId := by
    rw [hasInitial_iff, changes_concat hhistory]
    exact ⟨_, List.mem_append_right _ (List.mem_singleton_self _), hnull⟩
  obtain ⟨row, hrow, hleads⟩ := h _ policy hpolicy _ hinitial
  rw [changes_concat hhistory, leads_concat] at hleads
  exact ⟨changes_eq_nil hleads.1 hfirst, row, hrow, hleads.2.symm⟩

end Initial

/-! ## Tombstones -/

section Tombstone

variable {db db' : Db} {table id : String} {clauses : List (String × Cell)}

theorem select_update_self (hrow : db.select table id = some row) (hid : "id" ∉ clauses.map Prod.fst) :
    (db.update table id clauses).select table id = some (row.assign clauses) := by
  rw [Db.update, hrow]
  apply Db.select_put_self
  rw [Row.assign_of_not_mem hid]
  exact Db.select_id hrow

variable {code id' status table' : String}

theorem select_update_of_ne (h : ¬ (table' = table ∧ id' = id)) :
    (db.update table id clauses).select table' id' = db.select table' id' := by
  unfold Db.update
  split
  · exact Db.select_put_of_ne h
  · rfl

theorem update_history : (db.update table id clauses).history = db.history := by
  unfold Db.update
  split <;> rfl

/-- The columns that an initial row assigns leave the status. -/
theorem select_update_status (hrow : db.select table id = some row) (hid : "id" ∉ clauses.map Prod.fst)
    (hstatus : "status" ∉ clauses.map Prod.fst) :
    ∃ row', (db.update table id clauses).select table id = some row' ∧ row' "status" = row "status" :=
  ⟨_, select_update_self hrow hid, Row.assign_of_not_mem hstatus⟩

theorem select_eq_none_iff : db.select table id = none ↔ db.rows table id = none := by
  rw [Db.select, Option.map_eq_none_iff]

/-- What a tombstone and its replacement leave: the orphan has failed, the replacement is new and its
history, if it has one, starts with its status. -/
structure Replaced (db db' : Db) (orphanId : String) (replacementRun : ScheduleRun)
    (expectedOrphanStatus : String) : Prop where
  orphan : ∃ row, db.select "schedule_runs" orphanId = some row ∧ Undispatched row expectedOrphanStatus
  new : db.rows "schedule_runs" replacementRun.id = none
  tombstone : ∃ row, db'.select "schedule_runs" orphanId = some row ∧ row "status" = Cell.text "failed"
  replacement : ∃ row, db'.select "schedule_runs" replacementRun.id = some row ∧
    row "status" = Cell.text replacementRun.status
  others : ∀ table id, ¬ (table = "schedule_runs" ∧ id = orphanId) →
    ¬ (table = "schedule_runs" ∧ id = replacementRun.id) → db'.select table id = db.select table id
  history : db'.history = db.history ∨ ∃ new : HistoryRow, db'.history = db.history ++ [new] ∧
    new.entityType = "schedule_run" ∧ new.entityId = replacementRun.id ∧ new.previousStatus = none ∧
    new.status = replacementRun.status

theorem update_rows_eq_none_iff : (db.update table id clauses).rows table' id' = none ↔ db.rows table' id' = none := by
  unfold Db.update
  split
  · next row hrow =>
    by_cases hkey : table' = table ∧ id' = id
    · obtain ⟨rfl, rfl⟩ := hkey
      rw [Db.put_rows_self, ← select_eq_none_iff, hrow]
      exact iff_of_false (Option.some_ne_none _) (Option.some_ne_none _)
    · rw [Db.put_rows_of_ne hkey]
  · rfl

variable {run : ScheduleRun} {orphanId expectedOrphanStatus actorId : String} {now : ℚ}

theorem insertScheduleRun_eq_ok_iff : insertScheduleRun db run now = .ok db' ↔
    run.status ∈ scheduleRunStatuses ∧ db.rows "schedule_runs" run.id = none ∧
      db' = db.put "schedule_runs" run.id (some (run.row now)) := by
  unfold insertScheduleRun
  rw [then_eq_ok_iff, then_eq_ok_iff, ensure_eq_ok_iff, ensure_eq_ok_iff, Option.isSome_eq_false_iff,
    Option.isNone_iff_eq_none]
  apply and_congr_right
  intro _
  apply and_congr_right
  intro _
  exact ⟨fun h ↦ (Except.ok.inj h).symm, fun h ↦ congrArg Except.ok h.symm⟩

/-- Where a schedule run is given an initial row, its status is an initial one. -/
theorem initialReasonCodes_scheduleRun (h : initialReasonCodes.get? ("schedule_run", status) = some code) :
    code ≠ "" ∧ status ∈ scheduleRunPolicy.initialStatuses := by
  have hmem : (("schedule_run", status), code) ∈ initialReasonCodes.entries :=
    (get?_eq_some_iff _ _ _).1 h
  have hall : ∀ entry ∈ initialReasonCodes.entries, entry.1.1 = "schedule_run" →
      entry.2 ≠ "" ∧ entry.1.2 ∈ scheduleRunPolicy.initialStatuses := by
    decide
  exact hall _ hmem rfl

/-- The columns of the reason. -/
def reasonClauses (reasonCode : String) : List (String × Cell) :=
  [("status_reason_code", Cell.text reasonCode), ("status_reason_summary", Cell.text ""),
    ("status_evidence_refs", Cell.text "[]")]

/-- The initial row of a schedule run is written by the service over the row with its reason columns. -/
theorem initializeScheduleRun_eq_ok_iff (hcode : initialReasonCodes.get? ("schedule_run", status) = some code) :
    initializeManagedEntityInTx db "schedule_run" id status actorId now = .ok db' ↔
      ∃ n, initializeInTransaction defaultRegistry
        (db.update "schedule_runs" id (reasonClauses code))
        ⟨"schedule_run", id, status, { code := code }, ⟨"system", some actorId⟩⟩ now = .ok (db', n) := by
  unfold initializeManagedEntityInTx
  rw [hcode]
  simp only [PolicyRegistry.get_eq_ok_iff.2 get?_scheduleRun]
  change (do
    let initialized ← initializeInTransaction defaultRegistry
      (db.update "schedule_runs" id (reasonClauses code))
      ⟨"schedule_run", id, status, { code := code }, ⟨"system", some actorId⟩⟩ now
    return initialized.1) = Except.ok db' ↔ _
  rw [bind_eq_ok_iff]
  constructor
  · intro h
    obtain ⟨⟨stored, n⟩, hcreates, heq⟩ := h
    cases heq
    exact ⟨n, hcreates⟩
  · intro h
    obtain ⟨n, hcreates⟩ := h
    exact ⟨(db', n), hcreates, rfl⟩

/-- What the creation of a schedule run changes: its reason columns, and its history by at most its
initial row. -/
structure Initialized (db db' : Db) (id status : String) : Prop where
  others : ∀ table id', ¬ (table = "schedule_runs" ∧ id' = id) → db'.select table id' = db.select table id'
  keeps : ∀ row, db.select "schedule_runs" id = some row →
    ∃ row', db'.select "schedule_runs" id = some row' ∧ row' "status" = row "status"
  history : db'.history = db.history ∨ ∃ new : HistoryRow, db'.history = db.history ++ [new] ∧
    new.entityType = "schedule_run" ∧ new.entityId = id ∧ new.previousStatus = none ∧ new.status = status

theorem initialized_of_eq_ok (h : initializeManagedEntityInTx db "schedule_run" id status actorId now = .ok db') :
    Initialized db db' id status := by
  cases hcode : initialReasonCodes.get? ("schedule_run", status) with
  | none =>
    rw [initializeManagedEntityInTx, hcode] at h
    cases h
    exact ⟨fun _ _ _ ↦ rfl, fun row hrow ↦ ⟨row, hrow, rfl⟩, .inl rfl⟩
  | some code =>
    obtain ⟨n, hcreates⟩ := (initializeScheduleRun_eq_ok_iff hcode).1 h
    obtain ⟨policy, hpolicy, -, -, rfl⟩ := initializeInTransaction_eq_ok_iff.1 hcreates
    exact {
      others := fun table id' hother ↦ select_update_of_ne hother
      keeps := fun row hrow ↦ select_update_status hrow (by simp [reasonClauses])
        (by simp [reasonClauses])
      history := .inr ⟨_, congrArg (· ++ [_]) update_history, rfl, rfl, rfl, rfl⟩ }

/-- The steps of a tombstone that is put. -/
theorem tombstone_steps
    (h : tombstoneAndReplaceScheduleRun db orphanId run expectedOrphanStatus now = .ok (db', true)) :
    ∃ row, db.select "schedule_runs" orphanId = some row ∧ Undispatched row expectedOrphanStatus ∧
      run.status ∈ scheduleRunStatuses ∧ db.rows "schedule_runs" run.id = none ∧
      initializeManagedEntityInTx ((db.update "schedule_runs" orphanId
        [("status", Cell.text "failed"), ("updated_at", Cell.num now)]).put "schedule_runs" run.id
          (some (run.row now))) "schedule_run" run.id run.status "tombstone_and_replace_schedule_run"
        now = .ok db' := by
  unfold tombstoneAndReplaceScheduleRun at h
  split at h
  · cases h
  · next row hrow =>
    split at h
    · next hundispatched =>
      obtain ⟨inserted, hinsert, h⟩ := bind_eq_ok_iff.1 h
      obtain ⟨stored, hcreates, h⟩ := bind_eq_ok_iff.1 h
      cases h
      obtain ⟨hstatus, hnew, rfl⟩ := insertScheduleRun_eq_ok_iff.1 hinsert
      exact ⟨row, hrow, hundispatched, hstatus, update_rows_eq_none_iff.1 hnew, hcreates⟩
    · cases h

/-- A tombstone that is put replaces the orphan. -/
theorem tombstone_replaced
    (h : tombstoneAndReplaceScheduleRun db orphanId run expectedOrphanStatus now = .ok (db', true)) :
    Replaced db db' orphanId run expectedOrphanStatus := by
  obtain ⟨row, hrow, hundispatched, -, hnew, hcreates⟩ := tombstone_steps h
  have hinitialized := initialized_of_eq_ok hcreates
  have hne : ¬ ("schedule_runs" = "schedule_runs" ∧ orphanId = run.id) := by
    intro h
    obtain ⟨_, heq⟩ := h
    rw [← select_eq_none_iff, ← heq, hrow] at hnew
    cases hnew
  obtain ⟨replacement, hreplacement, hstatus⟩ := hinitialized.keeps _
    (Db.select_put_self (run.row_id now))
  exact {
    orphan := ⟨row, hrow, hundispatched⟩
    new := hnew
    tombstone := by
      refine ⟨row.assign [("status", Cell.text "failed"), ("updated_at", Cell.num now)], ?_, rfl⟩
      rw [hinitialized.others _ _ hne, Db.select_put_of_ne hne]
      exact select_update_self hrow (by simp)
    replacement := ⟨replacement, hreplacement, hstatus.trans (run.row_status now)⟩
    others := by
      intro table id horphan hrun
      rw [hinitialized.others _ _ hrun, Db.select_put_of_ne hrun, select_update_of_ne horphan]
    history := by
      obtain hsame | ⟨new, hhistory, hentry⟩ := hinitialized.history
      · exact .inl (hsame.trans update_history)
      · exact .inr ⟨new, hhistory.trans (congrArg (· ++ [new]) update_history), hentry⟩ }

theorem tombstones_of_eq_ok
    (h : tombstoneAndReplaceScheduleRun db orphanId run expectedOrphanStatus now = .ok (db', true)) :
    Tombstones db orphanId run expectedOrphanStatus := by
  obtain ⟨row, hrow, hundispatched, hstatus, hnew, hcreates⟩ := tombstone_steps h
  refine ⟨⟨row, hrow, hundispatched⟩, hstatus, hnew, ?_⟩
  intro hempty
  cases hcode : initialReasonCodes.get? ("schedule_run", run.status) with
  | none => rfl
  | some code =>
    obtain ⟨n, hcreates⟩ := (initializeScheduleRun_eq_ok_iff hcode).1 hcreates
    obtain ⟨policy, -, haccepted, -⟩ := initializeInTransaction_eq_ok_iff.1 hcreates
    exact absurd hempty haccepted.entityId

/-- A tombstone that is not put changes nothing. -/
theorem tombstone_eq_false
    (h : tombstoneAndReplaceScheduleRun db orphanId run expectedOrphanStatus now = .ok (db', false)) :
    db' = db := by
  unfold tombstoneAndReplaceScheduleRun at h
  split at h
  · cases h
    rfl
  · split at h
    · obtain ⟨inserted, -, h⟩ := bind_eq_ok_iff.1 h
      obtain ⟨stored, -, h⟩ := bind_eq_ok_iff.1 h
      cases h
    · cases h
      rfl

theorem initializeScheduleRun_eq_ok (hrow : (db.select "schedule_runs" id).isSome = true)
    (hfirst : ¬ db.hasInitial "schedule_run" id) (hactor : actorId ≠ "")
    (hid : id = "" → initialReasonCodes.get? ("schedule_run", status) = none) :
    ∃ db', initializeManagedEntityInTx db "schedule_run" id status actorId now = .ok db' := by
  cases hcode : initialReasonCodes.get? ("schedule_run", status) with
  | none =>
    rw [initializeManagedEntityInTx, hcode]
    exact ⟨db, rfl⟩
  | some code =>
    obtain ⟨hnonempty, hstatus⟩ := initialReasonCodes_scheduleRun hcode
    obtain ⟨row, hrow⟩ := Option.isSome_iff_exists.1 hrow
    refine ⟨_, (initializeScheduleRun_eq_ok_iff hcode).2 ⟨_, initializeInTransaction_eq_ok_iff.2
      ⟨scheduleRunPolicy, get?_scheduleRun, ?_, rfl, rfl⟩⟩⟩
    exact {
      entityId := by
        intro hempty
        cases hcode.symm.trans (hid hempty)
      actorId := ⟨Option.some_ne_none _, fun heq ↦ hactor (Option.some.inj heq)⟩
      reasonCode := hnonempty
      status := hstatus
      row := by
        have hselect : (db.update "schedule_runs" id (reasonClauses code)).select "schedule_runs" id =
            some (row.assign (reasonClauses code)) :=
          select_update_self hrow (by simp [reasonClauses])
        exact Option.isSome_iff_exists.2 ⟨_, hselect⟩
      first := by
        unfold Db.hasInitial
        rw [update_history]
        exact hfirst }

/-- Where the orphan qualifies and the replacement can be stored, the tombstone is put. -/
theorem tombstone_eq_ok (hdb : Traced db) (h : Tombstones db orphanId run expectedOrphanStatus) :
    ∃ db', tombstoneAndReplaceScheduleRun db orphanId run expectedOrphanStatus now = .ok (db', true) := by
  obtain ⟨row, hrow, hundispatched⟩ := h.orphan
  have hinsert : insertScheduleRun (db.update "schedule_runs" orphanId
      [("status", Cell.text "failed"), ("updated_at", Cell.num now)]) run now = .ok _ :=
    insertScheduleRun_eq_ok_iff.2 ⟨h.status, update_rows_eq_none_iff.2 h.new, rfl⟩
  have hfirst : ¬ db.hasInitial "schedule_run" run.id := by
    intro hinitial
    obtain ⟨stored, hstored, -⟩ := hdb.faithful _ _ get?_scheduleRun _ hinitial
    cases hstored.symm.trans (select_eq_none_iff.2 h.new)
  obtain ⟨db', hcreates⟩ : ∃ db', initializeManagedEntityInTx ((db.update "schedule_runs" orphanId
      [("status", Cell.text "failed"), ("updated_at", Cell.num now)]).put "schedule_runs" run.id
        (some (run.row now))) "schedule_run" run.id run.status "tombstone_and_replace_schedule_run" now =
      .ok db' := by
    apply initializeScheduleRun_eq_ok
    · rw [Db.select_put_self (run.row_id now)]
      rfl
    · change ¬ (db.update "schedule_runs" orphanId _).hasInitial "schedule_run" run.id
      unfold Db.hasInitial
      rw [update_history]
      exact hfirst
    · decide
    · exact h.entityId
  refine ⟨db', ?_⟩
  rw [tombstoneAndReplaceScheduleRun, hrow]
  simp only [hundispatched, if_true, hinsert, bind, Except.bind]
  rw [hcreates]
  rfl

end Tombstone

section Replacement

variable {db db' : Db} {orphanId expectedOrphanStatus entityType entityId : String} {run : ScheduleRun}

/-- Only the history of the replacement grows. -/
theorem Replaced.changes (h : Replaced db db' orphanId run expectedOrphanStatus)
    (hother : ¬ (entityType = "schedule_run" ∧ entityId = run.id)) :
    db'.changes entityType entityId = db.changes entityType entityId := by
  obtain hsame | ⟨new, hhistory, htype, hid, -, -⟩ := h.history
  · exact changes_of_history hsame
  · apply changes_of_ne hhistory
    rw [htype, hid]
    exact hother

/-- The replacement has no history before it is inserted. -/
theorem Replaced.changes_new (hdb : Traced db) (h : Replaced db db' orphanId run expectedOrphanStatus) :
    db.changes "schedule_run" run.id = [] := by
  apply Classical.not_not.1
  intro hchanges
  obtain ⟨row, hrow, -⟩ := hdb.stored _ _ get?_scheduleRun _ hchanges
  cases hrow.symm.trans (select_eq_none_iff.2 h.new)

/-- The entities of one table have one type. -/
theorem entityType_of_table (hpolicy : defaultRegistry.byEntityType.get? entityType = some policy)
    (htable : policy.table = "schedule_runs") : entityType = "schedule_run" :=
  defaultRegistry.eq_of_table hpolicy get?_scheduleRun htable

/-- The row of an entity that is neither replaced nor new stays. -/
theorem Replaced.select (h : Replaced db db' orphanId run expectedOrphanStatus)
    (hpolicy : defaultRegistry.byEntityType.get? entityType = some policy)
    (hrun : ¬ (entityType = "schedule_run" ∧ entityId = run.id))
    (horphan : ¬ (entityType = "schedule_run" ∧ entityId = orphanId)) :
    db'.select policy.table entityId = db.select policy.table entityId := by
  apply h.others
  · intro h
    obtain ⟨htable, hid⟩ := h
    exact horphan ⟨entityType_of_table hpolicy htable, hid⟩
  · intro h
    obtain ⟨htable, hid⟩ := h
    exact hrun ⟨entityType_of_table hpolicy htable, hid⟩

/-- A tombstone on an orphan that has no initial history row, or had failed before, breaks no chain. -/
theorem Traced.replaced (hdb : Traced db) (h : Replaced db db' orphanId run expectedOrphanStatus)
    (hkeeps : db.hasInitial "schedule_run" orphanId → expectedOrphanStatus = "failed") : Traced db' where
  faithful := by
    intro entityType policy hpolicy entityId hinitial
    by_cases hrun : entityType = "schedule_run" ∧ entityId = run.id
    · obtain ⟨rfl, rfl⟩ := hrun
      cases get?_scheduleRun.symm.trans hpolicy
      obtain ⟨row, hrow, hstatus⟩ := h.replacement
      refine ⟨row, hrow, ?_⟩
      obtain hsame | ⟨new, hhistory, htype, hid, hnull, hnew⟩ := h.history
      · rw [hasInitial_iff, changes_of_history hsame, h.changes_new hdb] at hinitial
        obtain ⟨change, hmem, -⟩ := hinitial
        cases hmem
      · have hchanges := changes_concat hhistory
        rw [htype, hid, h.changes_new hdb, hnull, hnew] at hchanges
        rw [hchanges]
        exact ⟨rfl, hstatus.symm⟩
    · rw [hasInitial_iff, h.changes hrun, ← hasInitial_iff] at hinitial
      rw [h.changes hrun]
      obtain ⟨row, hrow, hleads⟩ := hdb.faithful _ _ hpolicy _ hinitial
      by_cases horphan : entityType = "schedule_run" ∧ entityId = orphanId
      · obtain ⟨rfl, rfl⟩ := horphan
        cases get?_scheduleRun.symm.trans hpolicy
        obtain ⟨orphan, hselect, hundispatched⟩ := h.orphan
        obtain ⟨tombstone, htombstone, hfailed⟩ := h.tombstone
        cases hrow.symm.trans hselect
        refine ⟨tombstone, htombstone, ?_⟩
        have hstatus : tombstone "status" = row "status" :=
          calc tombstone "status"
            _ = Cell.text "failed" := hfailed
            _ = Cell.text expectedOrphanStatus := congrArg Cell.text (hkeeps hinitial).symm
            _ = row "status" := hundispatched.1.1.symm
        exact hstatus ▸ hleads
      · exact ⟨row, (h.select hpolicy hrun horphan).trans hrow, hleads⟩
  stored := by
    intro entityType policy hpolicy entityId hchanges
    by_cases hrun : entityType = "schedule_run" ∧ entityId = run.id
    · obtain ⟨rfl, rfl⟩ := hrun
      cases get?_scheduleRun.symm.trans hpolicy
      obtain ⟨row, hrow, hstatus⟩ := h.replacement
      exact ⟨row, hrow, hstatus ▸ Cell.text_ne_none _⟩
    · rw [h.changes hrun] at hchanges
      obtain ⟨row, hrow, hset⟩ := hdb.stored _ _ hpolicy _ hchanges
      by_cases horphan : entityType = "schedule_run" ∧ entityId = orphanId
      · obtain ⟨rfl, rfl⟩ := horphan
        cases get?_scheduleRun.symm.trans hpolicy
        obtain ⟨tombstone, htombstone, hfailed⟩ := h.tombstone
        exact ⟨tombstone, htombstone, hfailed ▸ Cell.text_ne_none _⟩
      · exact ⟨row, (h.select hpolicy hrun horphan).trans hrow, hset⟩

/-- The tombstone of an orphan with a history that had not failed is missing from that history. -/
theorem Replaced.not_faithful (hdb : Traced db) (h : Replaced db db' orphanId run expectedOrphanStatus)
    (hinitial : db.hasInitial "schedule_run" orphanId) (hne : expectedOrphanStatus ≠ "failed") :
    ¬ Faithful db' := by
  intro hfaithful
  obtain ⟨orphan, horphan, hundispatched⟩ := h.orphan
  have hrun : ¬ ("schedule_run" = "schedule_run" ∧ orphanId = run.id) := by
    intro h
    obtain ⟨_, heq⟩ := h
    rw [heq, select_eq_none_iff.2 h.new] at horphan
    cases horphan
  have hinitial' : db'.hasInitial "schedule_run" orphanId := by
    rw [hasInitial_iff, h.changes hrun, ← hasInitial_iff]
    exact hinitial
  obtain ⟨row, hrow, hleads⟩ := hdb.faithful _ _ get?_scheduleRun _ hinitial
  obtain ⟨row', hrow', hleads'⟩ := hfaithful _ _ get?_scheduleRun _ hinitial'
  obtain ⟨tombstone, htombstone, hfailed⟩ := h.tombstone
  cases hrow.symm.trans horphan
  cases hrow'.symm.trans htombstone
  rw [h.changes hrun] at hleads'
  apply hne
  rw [← Cell.text_inj, ← hfailed, ← hundispatched.1.1]
  exact hleads.unique hleads'

end Replacement

/-! ## Runs -/

section Runs

variable {validReasonCodes : List String} {db : Db}

/-- An operation under the condition keeps the chains. -/
theorem Traced.execOp (hdb : Traced db) (op : LifecycleOp × ℚ) (hkeeps : KeepsHistory db op) :
    Traced (execOp validReasonCodes db op) := by
  obtain ⟨op, now⟩ := op
  cases op with
  | initializeInTransaction command =>
    exact commit_fst hdb fun db' n h ↦ hdb.initializeInTransaction h hkeeps
  | transition op =>
    exact op.exec_of_guarded hdb fun policy row db' outcome hpolicy hvalid hrow hexit ↦
      hdb.exit hpolicy hvalid hrow hexit
  | tombstoneAndReplace orphanId run expectedOrphanStatus =>
    apply commit_fst hdb
    intro db' put h
    cases put with
    | false => exact tombstone_eq_false h ▸ hdb
    | true => exact hdb.replaced (tombstone_replaced h) (hkeeps (tombstones_of_eq_ok h))

/-- An operation that does not meet the condition breaks a chain. -/
theorem not_faithful_execOp (hdb : Traced db) (op : LifecycleOp × ℚ) (hbreaks : ¬ KeepsHistory db op) :
    ¬ Faithful (StateDb.execOp validReasonCodes db op) := by
  obtain ⟨op, now⟩ := op
  cases op with
  | initializeInTransaction command =>
    simp only [KeepsHistory, Classical.not_forall] at hbreaks
    obtain ⟨policy, hpolicy, haccepted, hbreaks⟩ := hbreaks
    have hok : StateDb.initializeInTransaction defaultRegistry db command now = .ok _ :=
      initializeInTransaction_eq_ok_iff.2 ⟨policy, hpolicy, haccepted, rfl, rfl⟩
    rw [StateDb.execOp, hok]
    intro hfaithful
    exact hbreaks (first_of_faithful hpolicy rfl rfl haccepted.first hfaithful)
  | transition op => exact absurd trivial hbreaks
  | tombstoneAndReplace orphanId run expectedOrphanStatus =>
    simp only [KeepsHistory, Classical.not_imp] at hbreaks
    obtain ⟨htombstones, hinitial, hne⟩ := hbreaks
    obtain ⟨db', hok⟩ : ∃ db', tombstoneAndReplaceScheduleRun db orphanId run expectedOrphanStatus now =
        .ok (db', true) := tombstone_eq_ok hdb htombstones
    rw [StateDb.execOp, hok]
    exact (tombstone_replaced hok).not_faithful hdb hinitial hne

/-- The histories are faithful throughout a run exactly when every initial row that is recorded names the
stored status and comes first, and no orphan with an initial row is tombstoned that had not failed. A
run may start from any database without history. -/
theorem faithful_throughout_iff {ops : List (LifecycleOp × ℚ)} (hstart : Traced db) :
    Throughout (StateDb.execOp validReasonCodes) Faithful db ops ↔
      Along (StateDb.execOp validReasonCodes) KeepsHistory db ops :=
  throughout_iff_along (fun _ hdb ↦ hdb.faithful) (fun _ op hdb hkeeps ↦ hdb.execOp op hkeeps)
    (fun _ op hdb hbreaks ↦ not_faithful_execOp hdb op hbreaks) hstart

end Runs

/-! ### Runs of one schedule run -/

def systemReason (code : String) : ReasonRecord := { code := code }

def schedulerActor : ActorRecord := ⟨"scheduler", some "engine"⟩

def undispatchedRun (status : String) : Row :=
  Row.assign (fun _ ↦ none) [("status", Cell.text status), ("updated_at", Cell.num 1)]

/-- A database with one schedule run. -/
def oneRun (status : String) : Db where
  rows table id := if table = "schedule_runs" ∧ id = "r1" then some (undispatchedRun status) else none
  history := []
  adminEvents := []

def created : InitialStateCommand :=
  ⟨"schedule_run", "r1", "running", systemReason "run.started.ok", schedulerActor⟩

def replacement : ScheduleRun where
  id := "r2"
  scheduleId := some "s1"
  triggerContext := "null"
  actionKind := "command"
  actionArgs := "null"
  firedAt := 2

def timedOut : StatusUpdate where
  entityType := "schedule_run"
  entityId := "r1"
  newStatus := "timed_out"
  reason := systemReason "run.timed_out.deadline"
  source := "system"
  actor := none

def createdThenTombstoned : List (LifecycleOp × ℚ) :=
  [(.initializeInTransaction created, 1), (.tombstoneAndReplace "r1" replacement "running", 2)]

def createdThenTimedOut : List (LifecycleOp × ℚ) :=
  [(.initializeInTransaction created, 1), (.transition (.updateStatus timedOut), 2)]

theorem not_faithful_of_status {db : Db} (last status : String)
    (hchanges : db.changes "schedule_run" "r1" = [(none, Cell.text last)])
    (hstatus : (db.select "schedule_runs" "r1").map (fun row ↦ row "status") = some (Cell.text status))
    (hne : last ≠ status) : ¬ Faithful db := by
  intro h
  have hinitial : db.hasInitial "schedule_run" "r1" := by
    rw [hasInitial_iff, hchanges]
    exact ⟨_, List.mem_singleton_self _, rfl⟩
  obtain ⟨row, hrow, hleads⟩ := h _ _ get?_scheduleRun "r1" hinitial
  rw [hchanges] at hleads
  change (db.select scheduleRunPolicy.table "r1").map _ = _ at hstatus
  rw [hrow, Option.map_some, Option.some.injEq, ← hleads.2, Cell.text_inj] at hstatus
  exact hne hstatus

/-- The tombstone of a run that was created as running is missing from its history, and an initial row
can name another status than the stored one. -/
theorem not_faithful_throughout :
    ¬ Throughout (execOp []) Faithful (oneRun "running") createdThenTombstoned ∧
    ¬ Throughout (execOp []) Faithful (oneRun "completed") [(.initializeInTransaction created, 1)] :=
  ⟨fun h ↦ not_faithful_of_status "running" "failed" (by decide) (by decide) (by decide) h.final,
    fun h ↦ not_faithful_of_status "running" "completed" (by decide) (by decide) (by decide) h.final⟩

/-- The history of a run that is created and times out is faithful. -/
theorem faithful_createdThenTimedOut :
    Throughout (execOp []) Faithful (oneRun "running") createdThenTimedOut := by
  apply (faithful_throughout_iff (traced_of_history_nil rfl)).2
  refine ⟨?_, trivial, trivial⟩
  intro policy hpolicy _
  cases get?_scheduleRun.symm.trans hpolicy
  exact ⟨by decide, _, rfl, by decide⟩

end Lionagi.StateDb
