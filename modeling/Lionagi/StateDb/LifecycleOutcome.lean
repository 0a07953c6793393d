import Lionagi.StateDb.LifecycleFinality

/-!
# What an outcome tells

The outcome of a transition is compared with what the transaction writes. The expectations are compared
in the order of the source: the status before the policy decides, the version and the guards after.
-/

namespace Lionagi.StateDb

open Checks OrderedDict

section Outcome

variable (policy : LifecyclePolicy) (command : TransitionCommand) (options : TransitionOptions)
variable (row : Row) (now : ℚ) (db : Db) (result : Except LifecycleError (Db × TransitionOutcome))

/-- Some stated expectation differs from the row. -/
def Differs : Prop :=
  command.StatusDiffers row ∨ command.VersionDiffers row ∨ options.GuardDiffers row

/-- The transaction commits with an outcome of the given kind. -/
def Results (kind : TransitionResultKind) : Prop :=
  ∃ db' outcome, result = .ok (db', outcome) ∧ outcome.result = kind

/-- A write is reported, which a same-status command under the `noop` rule does not make. -/
def Writes : Prop :=
  ∃ db' outcome, result = .ok (db', outcome) ∧ outcome.result = .applied ∧ outcome.transitionId ≠ none

/-- The stored row has the new status and the values of a patch, and one history row was added. -/
def Stores (patch : OrderedDict String Cell) (db' : Db) : Prop :=
  (∃ row', db'.select policy.table command.entityId = some row' ∧
    row' "status" = Cell.text command.toStatus ∧
    ∀ column value, patch.get? column = some value → row' column = value) ∧
  db'.history = db.history ++ [⟨db.history.length, command.entityType, command.entityId, row "status",
    command.toStatus, command.reason, command.actor, now⟩]

/-- The condition under which a write is reported. -/
def MayWrite : Prop :=
  command.Valid policy ∧ ¬ Differs command options row ∧
    (∃ override, command.Permits policy options (row "status") override) ∧
    ∃ patch, command.completePatch policy row now = .ok patch

/-- The condition under which a conflict is reported. -/
def MayConflict : Prop :=
  command.Valid policy ∧ (command.StatusDiffers row ∨
    (∃ override, command.Permits policy options (row "status") override) ∧ Differs command options row)

/-- The outcome tells exactly what was written, whatever the order of the checks. -/
structure TellsAll : Prop where
  writes : Writes result ↔ command.Valid policy ∧ ¬ Differs command options row ∧
    ∃ override, command.Permits policy options (row "status") override
  stores : ∀ db' outcome, result = .ok (db', outcome) → outcome.result = .applied →
    outcome.transitionId ≠ none → Stores policy command row now db command.patch db'
  conflict : Results result .conflict ↔ Differs command options row
  unwritten : ∀ db' outcome, result = .ok (db', outcome) → outcome.result = .conflict → db' = db
  rejected : ∀ db' outcome, result = .ok (db', outcome) → outcome.result = .rejected →
    db' = db.addAdminEvent (command.rejectedEvent (row "status") now)
  raised : ∀ e, result = .error e → (commit db result).1 = db
  override : ∀ db' outcome, result = .ok (db', outcome) →
    (db'.adminEvents = db.adminEvents ++ [command.overrideEvent (row "status") now] ↔
      outcome.result = .applied ∧ command.Permits policy options (row "status") true)

/-- The outcome tells what was written: the policy decides after the status is compared and before the
version and the guards are, and the end of a session completes the patch. -/
structure Tells : Prop where
  writes : Writes result ↔ MayWrite policy command options row now
  stores : ∀ db' outcome, result = .ok (db', outcome) → outcome.result = .applied →
    outcome.transitionId ≠ none → ∃ patch, command.completePatch policy row now = .ok patch ∧
      Stores policy command row now db patch db'
  patched : ∀ patch, command.completePatch policy row now = .ok patch →
    (¬ command.EndsSession policy row → patch = command.patch) ∧
      ∀ column, column ∉ endColumns → patch.get? column = command.patch.get? column
  noop : ∀ db' outcome, result = .ok (db', outcome) → outcome.result = .applied →
    outcome.transitionId = none → db' = db
  conflict : Results result .conflict ↔ MayConflict policy command options row
  unwritten : ∀ db' outcome, result = .ok (db', outcome) → outcome.result = .conflict → db' = db
  rejected : ∀ db' outcome, result = .ok (db', outcome) → outcome.result = .rejected →
    db' = db.addAdminEvent (command.rejectedEvent (row "status") now)
  raised : ∀ e, result = .error e → (commit db result).1 = db
  override : ∀ db' outcome, result = .ok (db', outcome) →
    (db'.adminEvents = db.adminEvents ++ [command.overrideEvent (row "status") now] ↔
      outcome.result = .applied ∧ command.Permits policy options (row "status") true)

end Outcome

theorem commit_of_error {db : Db} {result : Except LifecycleError (Db × TransitionOutcome)}
    {e : LifecycleError} (h : result = .error e) : (commit db result).1 = db := by
  rw [h]
  rfl

section Tells

variable {policy : LifecyclePolicy} {command : TransitionCommand} {options : TransitionOptions}
variable {row : Row} {now : ℚ} {db : Db} {result : Except LifecycleError (Db × TransitionOutcome)}

theorem rejectedEvent_ne_overrideEvent (previousStatus : Cell) :
    command.rejectedEvent previousStatus now ≠ command.overrideEvent previousStatus now := by
  intro h
  have haction := congrArg AdminEvent.action h
  simp [TransitionCommand.rejectedEvent, TransitionCommand.overrideEvent] at haction

variable {patch : OrderedDict String Cell}

theorem completePatch_patched (h : command.completePatch policy row now = .ok patch) :
    (¬ command.EndsSession policy row → patch = command.patch) ∧
      ∀ column, column ∉ endColumns → patch.get? column = command.patch.get? column := by
  constructor
  · intro hends
    rw [TransitionCommand.completePatch, if_neg hends] at h
    exact (Except.ok.inj h).symm
  · intro column hcolumn
    exact get?_completePatch hcolumn h

section Kinds

variable {db' : Db} {outcome : TransitionOutcome}

theorem results_ok {kind : TransitionResultKind} :
    Results (.ok (db', outcome)) kind ↔ outcome.result = kind := by
  constructor
  · intro h
    obtain ⟨_, _, heq, hkind⟩ := h
    cases heq
    exact hkind
  · intro hkind
    exact ⟨db', outcome, rfl, hkind⟩

theorem writes_ok :
    Writes (.ok (db', outcome)) ↔ outcome.result = .applied ∧ outcome.transitionId ≠ none := by
  constructor
  · intro h
    obtain ⟨_, _, heq, hkind⟩ := h
    cases heq
    exact hkind
  · intro hkind
    exact ⟨db', outcome, rfl, hkind⟩

theorem append_ne_self {α : Type} (l : List α) (a : α) : l ≠ l ++ [a] := by
  intro h
  have hlength := congrArg List.length h
  simp at hlength

end Kinds

/-! ## The outcomes one by one -/

theorem tells_of_error {e : LifecycleError} (hwrite : ¬ MayWrite policy command options row now)
    (hconflict : ¬ MayConflict policy command options row) :
    Tells policy command options row now db (.error e) where
  writes := iff_of_false (fun ⟨_, _, h, _⟩ ↦ by cases h) hwrite
  stores _ _ h := by cases h
  patched _ := completePatch_patched
  raised _ := commit_of_error
  noop _ _ h := by cases h
  conflict := iff_of_false (fun ⟨_, _, h, _⟩ ↦ by cases h) hconflict
  unwritten _ _ h := by cases h
  rejected _ _ h := by cases h
  override _ _ h := by cases h

theorem tells_of_conflict (hwrite : ¬ MayWrite policy command options row now)
    (hconflict : MayConflict policy command options row) :
    Tells policy command options row now db (.ok (db, TransitionCommand.conflict (row "status"))) where
  writes := iff_of_false (fun h ↦ absurd (writes_ok.1 h).1 (by simp [TransitionCommand.conflict])) hwrite
  stores _ _ h happlied := by
    cases h
    cases happlied
  patched _ := completePatch_patched
  raised _ := commit_of_error
  noop _ _ h _ _ := by
    cases h
    rfl
  conflict := iff_of_true (results_ok.2 rfl) hconflict
  unwritten _ _ h _ := by
    cases h
    rfl
  rejected _ _ h hrejected := by
    cases h
    cases hrejected
  override _ _ h := by
    cases h
    exact iff_of_false (append_ne_self _ _) fun h ↦ by cases h.1

theorem tells_of_noop (hwrite : ¬ MayWrite policy command options row now)
    (hconflict : ¬ MayConflict policy command options row)
    (hpermits : ¬ command.Permits policy options (row "status") true) :
    Tells policy command options row now db
      (.ok (db, ⟨.applied, row "status", Cell.text command.toStatus, none⟩)) where
  writes := iff_of_false (fun h ↦ (writes_ok.1 h).2 rfl) hwrite
  stores _ _ h _ hid := by
    cases h
    exact absurd rfl hid
  patched _ := completePatch_patched
  raised _ := commit_of_error
  noop _ _ h _ _ := by
    cases h
    rfl
  conflict := iff_of_false (fun h ↦ by cases results_ok.1 h) hconflict
  unwritten _ _ h hconflict := by
    cases h
    cases hconflict
  rejected _ _ h hrejected := by
    cases h
    cases hrejected
  override _ _ h := by
    cases h
    exact iff_of_false (append_ne_self _ _) fun h ↦ hpermits h.2

theorem tells_of_rejected (hwrite : ¬ MayWrite policy command options row now)
    (hconflict : ¬ MayConflict policy command options row) :
    Tells policy command options row now db
      (.ok (db.addAdminEvent (command.rejectedEvent (row "status") now),
        ⟨.rejected, row "status", row "status", none⟩)) where
  writes := iff_of_false (fun h ↦ (writes_ok.1 h).2 rfl) hwrite
  stores _ _ h _ hid := by
    cases h
    exact absurd rfl hid
  patched _ := completePatch_patched
  raised _ := commit_of_error
  noop _ _ h happlied := by
    cases h
    cases happlied
  conflict := iff_of_false (fun h ↦ by cases results_ok.1 h) hconflict
  unwritten _ _ h hconflict := by
    cases h
    cases hconflict
  rejected _ _ h _ := by
    cases h
    rfl
  override _ _ h := by
    cases h
    refine iff_of_false ?_ fun h ↦ by cases h.1
    intro heq
    exact rejectedEvent_ne_overrideEvent _ (List.singleton_inj.1 (List.append_cancel_left heq))

theorem Permits_unique {override override' : Bool}
    (h : command.Permits policy options (row "status") override)
    (h' : command.Permits policy options (row "status") override') : override = override' := by
  have hverdict := TransitionCommand.verdict_eq_proceed_iff.2 h
  rw [TransitionCommand.verdict_eq_proceed_iff.2 h'] at hverdict
  cases hverdict
  rfl

/-- Where the verdict is another one, the policy does not permit the command to write. -/
theorem not_permits {verdict : Except LifecycleError Verdict}
    (h : command.verdict policy options (row "status") = verdict)
    (hne : ∀ override, verdict ≠ .ok (.proceed override)) (override : Bool) :
    ¬ command.Permits policy options (row "status") override :=
  fun hpermits ↦ hne override (h.symm.trans (TransitionCommand.verdict_eq_proceed_iff.2 hpermits))

theorem tells_of_applied {override : Bool} (hrow : db.select policy.table command.entityId = some row)
    (hkeys : "status" ∉ command.patch ∧ "id" ∉ command.patch)
    (hpermits : command.Permits policy options (row "status") override)
    (hpatch : command.completePatch policy row now = .ok patch) (hwrite : MayWrite policy command options row now)
    (hconflict : ¬ MayConflict policy command options row) :
    Tells policy command options row now db
      (.ok (((command.recordOverride row now db override).put policy.table command.entityId
          (some (updated command options row now patch))).appendHistory command.entityType command.entityId
            (row "status") command.toStatus command.reason command.actor now,
        ⟨.applied, row "status", Cell.text command.toStatus, some db.history.length⟩)) where
  writes := iff_of_true (writes_ok.2 ⟨rfl, Option.some_ne_none _⟩) hwrite
  stores := by
    intro db' outcome h _ _
    cases h
    refine ⟨patch, hpatch,
      ⟨updated command options row now patch, ?_, updated_status hkeys.1 hpatch, ?_⟩, ?_⟩
    · exact Db.select_put_self (updated_id hrow hkeys.2 hpatch)
    · intro column value hvalue
      calc updated command options row now patch column
        _ = (patch.get? column).getD _ := assign_setClauses command options row now patch column
        _ = value := by rw [hvalue, Option.getD_some]
    · cases override <;> rfl
  patched _ := completePatch_patched
  raised _ := commit_of_error
  noop _ _ h _ hid := by
    cases h
    cases hid
  conflict := iff_of_false (fun h ↦ by cases results_ok.1 h) hconflict
  unwritten _ _ h hconflict := by
    cases h
    cases hconflict
  rejected _ _ h hrejected := by
    cases h
    cases hrejected
  override := by
    intro db' outcome h
    cases h
    cases override with
    | true => exact iff_of_true rfl ⟨rfl, hpermits⟩
    | false =>
      apply iff_of_false (append_ne_self _ _)
      intro h
      obtain ⟨_, hoverride⟩ := h
      cases Permits_unique hpermits hoverride

/-- Every exit tells what was written, where no guard expects NULL and no override meets a guard that
differs. -/
theorem tells_of_exit (hvalid : command.Valid policy)
    (hrow : db.select policy.table command.entityId = some row)
    (hkeys : "status" ∉ command.patch ∧ "id" ∉ command.patch)
    (hnull : ∀ entry ∈ options.extraGuard.entries, entry.2 ≠ none)
    (hoverride : command.Permits policy options (row "status") true → ¬ command.StatusDiffers row →
      ¬ command.VersionDiffers row → ¬ options.GuardDiffers row)
    (hexit : Exit policy command options row now db result) :
    Tells policy command options row now db result := by
  cases hexit with
  | statusConflict hstatus =>
    exact tells_of_conflict (fun h ↦ h.2.1 (.inl hstatus)) ⟨hvalid, .inl hstatus⟩
  | refused hstatus hverdict =>
    have hpermits : ∀ override, ¬ command.Permits policy options (row "status") override :=
      not_permits hverdict fun _ h ↦ by cases h
    exact tells_of_error (fun h ↦ h.2.2.1.elim hpermits)
      fun h ↦ h.2.elim hstatus fun h ↦ h.1.elim hpermits
  | noop hstatus hverdict =>
    have hpermits : ∀ override, ¬ command.Permits policy options (row "status") override :=
      not_permits hverdict fun _ h ↦ by cases h
    exact tells_of_noop (fun h ↦ h.2.2.1.elim hpermits)
      (fun h ↦ h.2.elim hstatus fun h ↦ h.1.elim hpermits) (hpermits true)
  | rejected hstatus hverdict =>
    have hpermits : ∀ override, ¬ command.Permits policy options (row "status") override :=
      not_permits hverdict fun _ h ↦ by cases h
    exact tells_of_rejected (fun h ↦ h.2.2.1.elim hpermits)
      fun h ↦ h.2.elim hstatus fun h ↦ h.1.elim hpermits
  | versionConflict _ hpermits hversion =>
    exact tells_of_conflict (fun h ↦ h.2.1 (.inr (.inl hversion)))
      ⟨hvalid, .inr ⟨⟨_, hpermits⟩, .inr (.inl hversion)⟩⟩
  | @guardConflict override hstatus hpermits hversion hguard =>
    cases override with
    | true => exact absurd hguard (hoverride hpermits hstatus hversion)
    | false =>
      exact tells_of_conflict (fun h ↦ h.2.1 (.inr (.inr hguard)))
        ⟨hvalid, .inr ⟨⟨_, hpermits⟩, .inr (.inr hguard)⟩⟩
  | badEnd hstatus _ hversion hguard hpatch =>
    have hagrees : ¬ Differs command options row :=
      fun h ↦ h.elim hstatus fun h ↦ h.elim hversion hguard
    apply tells_of_error
    · intro h
      obtain ⟨_, _, _, patch, hok⟩ := h
      cases hpatch.symm.trans hok
    · exact fun h ↦ h.2.elim hstatus fun h ↦ hagrees h.2
  | nullGuard _ _ _ _ _ hentry =>
    obtain ⟨entry, hmem, hnone⟩ := hentry
    exact absurd hnone (hnull entry hmem)
  | duplicateKey _ _ _ _ hpatch _ hreplace =>
    cases (replace_updated hrow hkeys.2 hpatch).symm.trans hreplace
  | @applied override patch stored hstatus hpermits hversion hguard hpatch _ hreplace =>
    have hagrees : ¬ Differs command options row :=
      fun h ↦ h.elim hstatus fun h ↦ h.elim hversion hguard
    have hlength : stored.history.length = db.history.length := by
      rw [(Db.replace_history hreplace).1, recordOverride_history]
    cases (replace_updated hrow hkeys.2 hpatch).symm.trans hreplace
    rw [hlength]
    exact tells_of_applied hrow hkeys hpermits hpatch
      ⟨hvalid, hagrees, ⟨override, hpermits⟩, patch, hpatch⟩
      fun h ↦ h.2.elim hstatus fun h ↦ hagrees h.2

end Tells

/-! ### Single commands -/

def updateCommand (entityType entityId toStatus : String) : TransitionCommand where
  entityType := entityType
  entityId := entityId
  toStatus := toStatus
  reason := { code := "run.started.ok" }
  actor := ⟨"system", some "worker"⟩

/-- The command is run alone on a database with one row, at the time 2. -/
def TellsAllAlone (registry : PolicyRegistry) (policy : LifecyclePolicy) (status : String)
    (command : TransitionCommand) (options : TransitionOptions) : Prop :=
  ∀ row, (oneRow policy.table command.entityId status).select policy.table command.entityId = some row →
    TellsAll policy command options row 2 (oneRow policy.table command.entityId status)
      (guardedTransition registry (oneRow policy.table command.entityId status) command options 2)

def guardedBy (lease : Cell) : TransitionOptions := { extraGuard := ofList [("leased_by", lease)] }

def startRun : TransitionCommand := updateCommand "schedule_run" "r1" "running"

def endSession : TransitionCommand :=
  { updateCommand "session" "s1" "completed" with patch := ofList [("ended_at", none)] }

def reopenJob : TransitionCommand :=
  { updateCommand "job" "j1" "done" with patch := ofList [("status", Cell.text "open")] }

def queuedRun : Row :=
  Row.assign (fun _ ↦ none) [("status", Cell.text "queued"), ("updated_at", Cell.num 1),
    ("id", Cell.text "r1")]

def queuedDb : Db where
  rows table id := if table = "schedule_runs" ∧ id = "r1" then some queuedRun else none
  history := []
  adminEvents := []

end Lionagi.StateDb
