import Lionagi.StateDb.LifecycleService

/-!
# The exits of a transition

Every way out of a transition is listed with the conditions under which it is taken and the database it
leaves. What the policy permits is stated on its own, and the expectations of the update are those that
were compared before it, except that a guard that expects NULL never holds in SQL.
-/

namespace Lionagi.StateDb

open Checks OrderedDict

/-! ## What is checked of a command -/

/-- What is checked of a command before its row is read. -/
structure TransitionCommand.Valid (command : TransitionCommand) (policy : LifecyclePolicy) : Prop where
  entityId : command.entityId ≠ ""
  actorType : command.actor.type ≠ ""
  reasonCode : command.reason.code ≠ ""
  nonempty : command.toStatus ≠ ""
  declared : command.toStatus ∈ policy.statuses
  patch : ∀ field ∈ command.patch, field ∈ policy.patchFields
  override : ∀ override ∈ command.override, override.actor ≠ "" ∧ override.justification ≠ ""

/-- The command meets what an edge requires of whoever takes it. -/
structure EdgePolicy.MetBy (edge : EdgePolicy) (command : TransitionCommand)
    (options : TransitionOptions) : Prop where
  actor : ∀ actorTypes ∈ edge.actorTypes, command.actor.type ∈ actorTypes
  patch : ∀ field ∈ edge.requiredPatchFields, field ∈ command.patch
  guard : edge.requiredGuardFields = [] ∨
    (∀ field ∈ edge.requiredGuardFields, field ∈ options.extraGuard) ∨ command.expectedVersion ≠ none

namespace TransitionCommand

variable {command : TransitionCommand} {policy : LifecyclePolicy} {options : TransitionOptions}
variable {row : Row} {previousStatus : Cell} {now : ℚ}

theorem check_eq_ok_iff : command.check policy = .ok () ↔ command.Valid policy := by
  simp only [check, then_eq_ok_iff, ensure_eq_ok_iff, outside_eq_nil_iff]
  constructor
  · intro h
    obtain ⟨hentity, hactor, hreason, hto, hdeclared, hpatch, hoverride⟩ := h
    exact ⟨hentity, hactor, hreason, hto, hdeclared, hpatch, hoverride⟩
  · intro h
    exact ⟨h.entityId, h.actorType, h.reasonCode, h.nonempty, h.declared, h.patch, h.override⟩

variable {edge : EdgePolicy}

theorem checkEdge_eq_ok_iff : command.checkEdge options previousStatus edge = .ok () ↔ edge.MetBy command options := by
  simp only [checkEdge, then_eq_ok_iff, ensure_eq_ok_iff, outside_eq_nil_iff]
  constructor
  · intro h
    obtain ⟨hactor, hpatch, hguard⟩ := h
    exact ⟨hactor, hpatch, hguard⟩
  · intro h
    exact ⟨h.actor, h.patch, h.guard⟩

theorem selfEdge_eq_some (h : command.selfEdge policy options previousStatus = some edge) :
    options.enforceEdges = true ∧ edge ∈ policy.edgesFrom previousStatus ∧
      edge.toStatus = command.toStatus := by
  have hmem := List.mem_of_find?_eq_some h
  have hto := List.find?_some h
  unfold declaredEdges at hmem
  split at hmem
  · next henforce => exact ⟨henforce, hmem, of_decide_eq_true hto⟩
  · cases hmem

/-- The policy lets the command write: along a declared edge, as a same-status write, unhindered where
edges are not enforced, or by the override it carries. -/
inductive Permits (command : TransitionCommand) (policy : LifecyclePolicy) (options : TransitionOptions)
    (previousStatus : Cell) : Bool → Prop
  | edge {edge : EdgePolicy} : command.selfEdge policy options previousStatus = some edge →
      edge.MetBy command options → Permits command policy options previousStatus false
  | append : command.selfEdge policy options previousStatus = none →
      command.sameStatus previousStatus → policy.sameStatus = .append →
      Permits command policy options previousStatus false
  | unenforced : command.selfEdge policy options previousStatus = none →
      ¬ command.sameStatus previousStatus → options.enforceEdges = false →
      ¬ policy.isTerminal previousStatus → Permits command policy options previousStatus false
  | override : command.selfEdge policy options previousStatus = none →
      ¬ command.sameStatus previousStatus →
      (options.enforceEdges = true ∨ policy.isTerminal previousStatus) → command.override.isSome = true →
      Permits command policy options previousStatus true

variable {verdict : Verdict}

theorem verdict_of_edge (h : command.selfEdge policy options previousStatus = some edge) :
    command.verdict policy options previousStatus = .ok verdict ↔
      edge.MetBy command options ∧ verdict = .proceed false := by
  rw [TransitionCommand.verdict, h]
  change (do command.checkEdge options previousStatus edge; return Verdict.proceed false) = _ ↔ _
  rw [then_eq_ok_iff, checkEdge_eq_ok_iff]
  apply and_congr_right
  intro _
  exact ⟨fun h ↦ (Except.ok.inj h).symm, fun h ↦ congrArg Except.ok h.symm⟩

theorem verdict_of_sameStatus (h : command.selfEdge policy options previousStatus = none)
    (hsame : command.sameStatus previousStatus) :
    command.verdict policy options previousStatus = .ok verdict ↔
      policy.sameStatus = .noop ∧ verdict = .noop ∨
      policy.sameStatus = .reject ∧ verdict = .rejected ∨
      policy.sameStatus = .append ∧ verdict = .proceed false := by
  rw [TransitionCommand.verdict, h]
  simp only [hsame, if_true]
  cases policy.sameStatus <;> simp [eq_comm]

theorem verdict_of_enforced (h : command.selfEdge policy options previousStatus = none)
    (hsame : ¬ command.sameStatus previousStatus) (henforce : options.enforceEdges = true) :
    command.verdict policy options previousStatus = .ok verdict ↔
      command.override.isSome = true ∧ verdict = .proceed true ∨
      command.override.isSome = false ∧ options.undeclaredEdgeMode = .reject ∧ verdict = .rejected := by
  rw [TransitionCommand.verdict, h]
  simp only [hsame, henforce, if_false, if_true]
  cases command.override.isSome <;> cases options.undeclaredEdgeMode <;> simp [eq_comm]

theorem verdict_of_unenforced (h : command.selfEdge policy options previousStatus = none)
    (hsame : ¬ command.sameStatus previousStatus) (henforce : options.enforceEdges = false) :
    command.verdict policy options previousStatus = .ok verdict ↔
      policy.isTerminal previousStatus ∧ command.override.isSome = true ∧ verdict = .proceed true ∨
      policy.isTerminal previousStatus ∧ command.override.isSome = false ∧ verdict = .rejected ∨
      ¬ policy.isTerminal previousStatus ∧ verdict = .proceed false := by
  rw [TransitionCommand.verdict, h]
  simp only [hsame, henforce, if_false, Bool.false_eq_true]
  by_cases hterminal : policy.isTerminal previousStatus
  · simp only [hterminal, if_true, true_and, not_true, false_and, or_false]
    cases command.override.isSome <;> simp [eq_comm]
  · simp only [hterminal, if_false, false_and, not_false_iff, true_and, false_or, Except.ok.injEq]
    exact eq_comm

theorem verdict_eq_proceed_iff {override : Bool} :
    command.verdict policy options previousStatus = .ok (.proceed override) ↔
      command.Permits policy options previousStatus override := by
  cases hedge : command.selfEdge policy options previousStatus with
  | some edge =>
    rw [verdict_of_edge hedge]
    constructor
    · intro h
      obtain ⟨hmet, heq⟩ := h
      cases heq
      exact .edge hedge hmet
    · intro h
      cases h with
      | edge hedge' hmet =>
        cases hedge.symm.trans hedge'
        exact ⟨hmet, rfl⟩
      | append hnone => cases hedge.symm.trans hnone
      | unenforced hnone => cases hedge.symm.trans hnone
      | override hnone => cases hedge.symm.trans hnone
  | none =>
    by_cases hsame : command.sameStatus previousStatus
    · rw [verdict_of_sameStatus hedge hsame]
      constructor
      · intro h
        obtain ⟨-, heq⟩ | ⟨-, heq⟩ | ⟨hrule, heq⟩ := h
        · cases heq
        · cases heq
        · cases heq
          exact .append hedge hsame hrule
      · intro h
        cases h with
        | edge hedge' => cases hedge.symm.trans hedge'
        | append _ _ hrule => exact .inr (.inr ⟨hrule, rfl⟩)
        | unenforced _ hdiffers => exact absurd hsame hdiffers
        | override _ hdiffers => exact absurd hsame hdiffers
    · cases henforce : options.enforceEdges with
      | true =>
        rw [verdict_of_enforced hedge hsame henforce]
        constructor
        · intro h
          obtain ⟨hoverride, heq⟩ | ⟨-, -, heq⟩ := h
          · cases heq
            exact .override hedge hsame (.inl henforce) hoverride
          · cases heq
        · intro h
          cases h with
          | edge hedge' => cases hedge.symm.trans hedge'
          | append _ hsame' => exact absurd hsame' hsame
          | unenforced _ _ hunenforced => cases henforce.symm.trans hunenforced
          | override _ _ _ hoverride => exact .inl ⟨hoverride, rfl⟩
      | false =>
        rw [verdict_of_unenforced hedge hsame henforce]
        constructor
        · intro h
          obtain ⟨hterminal, hoverride, heq⟩ | ⟨-, -, heq⟩ | ⟨hterminal, heq⟩ := h
          · cases heq
            exact .override hedge hsame (.inr hterminal) hoverride
          · cases heq
          · cases heq
            exact .unenforced hedge hsame henforce hterminal
        · intro h
          cases h with
          | edge hedge' => cases hedge.symm.trans hedge'
          | append _ hsame' => exact absurd hsame' hsame
          | unenforced _ _ _ hterminal => exact .inr (.inr ⟨hterminal, rfl⟩)
          | override _ _ hreason hoverride =>
            obtain henforce' | hterminal := hreason
            · cases henforce.symm.trans henforce'
            · exact .inl ⟨hterminal, hoverride, rfl⟩

/-! ## The update -/

/-- Where the row has the version and the guarded columns that are expected, the update finds it unless
some guard expects NULL. -/
theorem whereClause_iff (hversion : ¬ command.VersionDiffers row) (hguard : ¬ options.GuardDiffers row) :
    WhereClause command options (row "status") row ↔
      ∀ entry ∈ options.extraGuard.entries, entry.2 ≠ none := by
  have hstatus : sqlEq (row "status") (row "status") ∨ row "status" = none ∧ row "status" = none := by
    by_cases hnull : row "status" = none
    · exact .inr ⟨hnull, hnull⟩
    · exact .inl ⟨rfl, hnull⟩
  have hupdated : ∀ version ∈ command.expectedVersion,
      sqlEq (row "updated_at") (Cell.num version) := by
    intro version hmem
    have heq : row "updated_at" = Cell.num version :=
      Classical.not_not.1 fun hne ↦ hversion ⟨version, hmem, hne⟩
    exact ⟨heq, heq ▸ Option.some_ne_none _⟩
  constructor
  · intro hwhere entry hentry
    obtain ⟨heq, hnull⟩ := hwhere.2.2 entry hentry
    exact heq ▸ hnull
  · intro hguards
    refine ⟨hstatus, hupdated, ?_⟩
    intro entry hentry
    have heq : row entry.1 = entry.2 :=
      Classical.not_not.1 fun hne ↦ hguard ⟨entry, hentry, hne⟩
    exact ⟨heq, heq ▸ hguards entry hentry⟩

end TransitionCommand

/-! ## The exits -/

section Exit

variable (policy : LifecyclePolicy) (command : TransitionCommand) (options : TransitionOptions)
variable (row : Row) (now : ℚ) (db : Db)

/-- The row after the update. -/
def updated (patch : OrderedDict String Cell) : Row := row.assign (command.setClauses options now patch)

/-- The ways out of a transition that has read its row, in their order in the source. -/
inductive Exit : Except LifecycleError (Db × TransitionOutcome) → Prop
  | statusConflict : command.StatusDiffers row →
      Exit (.ok (db, TransitionCommand.conflict (row "status")))
  | refused {e : LifecycleError} : ¬ command.StatusDiffers row →
      command.verdict policy options (row "status") = .error e → Exit (.error e)
  | noop : ¬ command.StatusDiffers row → command.verdict policy options (row "status") = .ok .noop →
      Exit (.ok (db, ⟨.applied, row "status", Cell.text command.toStatus, none⟩))
  | rejected : ¬ command.StatusDiffers row →
      command.verdict policy options (row "status") = .ok .rejected →
      Exit (.ok (db.addAdminEvent (command.rejectedEvent (row "status") now),
        ⟨.rejected, row "status", row "status", none⟩))
  | versionConflict {override : Bool} : ¬ command.StatusDiffers row →
      command.Permits policy options (row "status") override → command.VersionDiffers row →
      Exit (.ok (db, TransitionCommand.conflict (row "status")))
  | guardConflict {override : Bool} : ¬ command.StatusDiffers row →
      command.Permits policy options (row "status") override → ¬ command.VersionDiffers row →
      options.GuardDiffers row →
      Exit (.ok (command.recordOverride row now db override, TransitionCommand.conflict (row "status")))
  | badEnd {override : Bool} {e : LifecycleError} : ¬ command.StatusDiffers row →
      command.Permits policy options (row "status") override → ¬ command.VersionDiffers row →
      ¬ options.GuardDiffers row → command.completePatch policy row now = .error e → Exit (.error e)
  | nullGuard {override : Bool} {patch : OrderedDict String Cell} : ¬ command.StatusDiffers row →
      command.Permits policy options (row "status") override → ¬ command.VersionDiffers row →
      ¬ options.GuardDiffers row → command.completePatch policy row now = .ok patch →
      (∃ entry ∈ options.extraGuard.entries, entry.2 = none) →
      Exit (.ok (command.recordOverride row now db override, TransitionCommand.conflict (row "status")))
  | duplicateKey {override : Bool} {patch : OrderedDict String Cell} {e : LifecycleError} :
      ¬ command.StatusDiffers row → command.Permits policy options (row "status") override →
      ¬ command.VersionDiffers row → ¬ options.GuardDiffers row →
      command.completePatch policy row now = .ok patch →
      (∀ entry ∈ options.extraGuard.entries, entry.2 ≠ none) →
      (command.recordOverride row now db override).replace policy.table command.entityId
        (updated command options row now patch) = .error e → Exit (.error e)
  | applied {override : Bool} {patch : OrderedDict String Cell} {db' : Db} :
      ¬ command.StatusDiffers row → command.Permits policy options (row "status") override →
      ¬ command.VersionDiffers row → ¬ options.GuardDiffers row →
      command.completePatch policy row now = .ok patch →
      (∀ entry ∈ options.extraGuard.entries, entry.2 ≠ none) →
      (command.recordOverride row now db override).replace policy.table command.entityId
        (updated command options row now patch) = .ok db' →
      Exit (.ok (db'.appendHistory command.entityType command.entityId (row "status") command.toStatus
        command.reason command.actor now,
        ⟨.applied, row "status", Cell.text command.toStatus, some db'.history.length⟩))

end Exit

section Exits

variable {policy : LifecyclePolicy} {command : TransitionCommand} {options : TransitionOptions}
variable {row : Row} {now : ℚ} {db : Db}

@[simp]
theorem select_recordOverride (override : Bool) (table id : String) :
    (command.recordOverride row now db override).select table id = db.select table id := by
  cases override <;> rfl

@[simp]
theorem recordOverride_history (override : Bool) :
    (command.recordOverride row now db override).history = db.history := by
  cases override <;> rfl

/-- The write that follows the comparisons. -/
theorem finish_exit {override : Bool} (hrow : db.select policy.table command.entityId = some row)
    (hstatus : ¬ command.StatusDiffers row)
    (hpermits : command.Permits policy options (row "status") override)
    (hversion : ¬ command.VersionDiffers row) (hguard : ¬ options.GuardDiffers row) :
    Exit policy command options row now db
      (command.finish policy options row now (command.recordOverride row now db override)) := by
  unfold TransitionCommand.finish
  cases hpatch : command.completePatch policy row now with
  | error e => exact .badEnd hstatus hpermits hversion hguard hpatch
  | ok patch =>
    have hselect : (command.recordOverride row now db override).select policy.table command.entityId =
        some row := (select_recordOverride override _ _).trans hrow
    by_cases hnull : ∀ entry ∈ options.extraGuard.entries, entry.2 ≠ none
    · have hwhere := (TransitionCommand.whereClause_iff hversion hguard).2 hnull
      cases hreplace : (command.recordOverride row now db override).replace policy.table
          command.entityId (updated command options row now patch) with
      | error e =>
        have hwrite : write (command.recordOverride row now db override) policy command patch options
            (row "status") now = .error e := by
          rw [write, hselect]
          simp only [hwhere, if_true]
          unfold updated at hreplace
          rw [hreplace]
          rfl
        simp only [bind, Except.bind, hwrite]
        exact .duplicateKey hstatus hpermits hversion hguard hpatch hnull hreplace
      | ok db' =>
        have hwrite : write (command.recordOverride row now db override) policy command patch options
            (row "status") now = .ok (some (db'.appendHistory command.entityType command.entityId
              (row "status") command.toStatus command.reason command.actor now, db'.history.length)) := by
          rw [write, hselect]
          simp only [hwhere, if_true]
          unfold updated at hreplace
          rw [hreplace]
          rfl
        simp only [bind, Except.bind, hwrite]
        exact .applied hstatus hpermits hversion hguard hpatch hnull hreplace
    · have hwhere : ¬ WhereClause command options (row "status") row :=
        fun hwhere ↦ hnull ((TransitionCommand.whereClause_iff hversion hguard).1 hwhere)
      have hwrite : write (command.recordOverride row now db override) policy command patch options
          (row "status") now = .ok none := by
        rw [write, hselect]
        simp only [hwhere, if_false]
      have hentry : ∃ entry ∈ options.extraGuard.entries, entry.2 = none := by
        push Not at hnull
        exact hnull
      have hguarded : ¬ (options.raiseOnUnguardedConflict = true ∧ ¬ command.Guarded options) := by
        intro h
        obtain ⟨_, hunguarded⟩ := h
        obtain ⟨entry, hmem, -⟩ := hentry
        exact hunguarded (.inr (.inr (List.ne_nil_of_mem hmem)))
      simp only [bind, Except.bind, hwrite, ensure, hguarded, not_false_eq_true, if_true]
      exact .nullGuard hstatus hpermits hversion hguard hpatch hentry

/-- A transition leaves through one of the exits. -/
theorem transitionRow_exit (hrow : db.select policy.table command.entityId = some row) :
    Exit policy command options row now db (command.transitionRow policy options row now db) := by
  unfold TransitionCommand.transitionRow
  by_cases hstatus : command.StatusDiffers row
  · rw [if_pos hstatus]
    exact .statusConflict hstatus
  rw [if_neg hstatus]
  cases hverdict : command.verdict policy options (row "status") with
  | error e => exact .refused hstatus hverdict
  | ok verdict =>
    cases verdict with
    | noop => exact .noop hstatus hverdict
    | rejected => exact .rejected hstatus hverdict
    | proceed override =>
      have hpermits := TransitionCommand.verdict_eq_proceed_iff.1 hverdict
      change Exit policy command options row now db (command.proceed policy options row now db override)
      unfold TransitionCommand.proceed
      by_cases hversion : command.VersionDiffers row
      · rw [if_pos hversion]
        exact .versionConflict hstatus hpermits hversion
      rw [if_neg hversion]
      by_cases hguard : options.GuardDiffers row
      · rw [if_pos hguard]
        exact .guardConflict hstatus hpermits hversion hguard
      rw [if_neg hguard]
      exact finish_exit hrow hstatus hpermits hversion hguard

variable {registry : PolicyRegistry}

theorem guardedTransition_eq (hpolicy : registry.byEntityType.get? command.entityType = some policy)
    (hrow : db.select policy.table command.entityId = some row) :
    guardedTransition registry db command options now =
      (do command.check policy; command.transitionRow policy options row now db) := by
  simp only [guardedTransition, PolicyRegistry.get_eq_ok_iff.2 hpolicy, bind, Except.bind, hrow]

/-- A transition that reads its row is one of a registered policy, by a valid command. -/
theorem guardedTransition_eq_ok {db' : Db} {outcome : TransitionOutcome}
    (h : guardedTransition registry db command options now = .ok (db', outcome)) :
    ∃ policy row, registry.byEntityType.get? command.entityType = some policy ∧ command.Valid policy ∧
      db.select policy.table command.entityId = some row ∧
      Exit policy command options row now db (.ok (db', outcome)) := by
  unfold guardedTransition at h
  obtain ⟨policy, hpolicy, h⟩ := bind_eq_ok_iff.1 h
  rw [then_eq_ok_iff, TransitionCommand.check_eq_ok_iff] at h
  obtain ⟨hvalid, h⟩ := h
  split at h
  · cases h
  · next row hrow =>
    have hexit : Exit policy command options row now db
        (command.transitionRow policy options row now db) := transitionRow_exit hrow
    exact ⟨policy, row, PolicyRegistry.get_eq_ok_iff.1 hpolicy, hvalid, hrow, h ▸ hexit⟩

end Exits

/-! ## The row that is stored -/

section Stored

variable {policy : LifecyclePolicy} {command : TransitionCommand} {options : TransitionOptions}
variable {row : Row} {now : ℚ} {db : Db}

/-- The columns that the end of a session is written to. -/
def endColumns : List String := ["ended_at", "ended_at_is_approximate", "duration_ms"]

variable {patch : OrderedDict String Cell} {column : String}

theorem get?_settleEnd (h : column ∉ endColumns) : (settleEnd patch row now).get? column = patch.get? column := by
  simp only [endColumns, List.mem_cons, List.not_mem_nil, or_false, not_or] at h
  unfold settleEnd
  split
  · rw [get?_set_of_ne _ h.2.1, get?_set_of_ne _ h.1]
  · rw [get?_setdefault_of_ne _ h.2.1, get?_setdefault_of_ne _ h.1]

theorem get?_deriveDuration {patch' : OrderedDict String Cell} (h : column ∉ endColumns)
    (hpatch : deriveDuration patch row now = .ok patch') : patch'.get? column = patch.get? column := by
  have hduration : column ≠ "duration_ms" := fun heq ↦ h (heq ▸ by decide)
  unfold deriveDuration at hpatch
  split at hpatch
  · cases hpatch
    rw [get?_set_of_ne _ hduration, get?_settleEnd h]
  · cases hpatch
  · cases hpatch
    exact get?_settleEnd h

/-- The end of a session leaves what the patch says of the other columns. -/
theorem get?_completePatch (h : column ∉ endColumns) (hpatch : command.completePatch policy row now = .ok patch) :
    patch.get? column = command.patch.get? column := by
  have hduration : column ≠ "duration_ms" := fun heq ↦ h (heq ▸ by decide)
  unfold TransitionCommand.completePatch at hpatch
  split at hpatch
  · unfold sessionEndPatch at hpatch
    split at hpatch
    · cases hpatch
      rw [get?_set_of_ne _ hduration, get?_settleEnd h]
    · split at hpatch
      · cases hpatch
        exact get?_settleEnd h
      · exact get?_deriveDuration h hpatch
  · cases hpatch
    rfl

theorem updated_id (hrow : db.select policy.table command.entityId = some row) (hid : "id" ∉ command.patch)
    (hpatch : command.completePatch policy row now = .ok patch) :
    updated command options row now patch "id" = Cell.text command.entityId := by
  have hnone : patch.get? "id" = none := by
    rw [get?_completePatch (by decide) hpatch]
    exact (get?_eq_none_iff _ _).2 hid
  exact assign_setClauses_id command options row now patch (Db.select_id hrow)
    ((get?_eq_none_iff _ _).1 hnone)

/-- The updated row is stored under the key it had. -/
theorem replace_updated {override : Bool} (hrow : db.select policy.table command.entityId = some row)
    (hid : "id" ∉ command.patch) (hpatch : command.completePatch policy row now = .ok patch) :
    (command.recordOverride row now db override).replace policy.table command.entityId
        (updated command options row now patch) =
      .ok ((command.recordOverride row now db override).put policy.table command.entityId
        (some (updated command options row now patch))) :=
  Db.replace_of_id (updated_id hrow hid hpatch)

theorem updated_status (hstatus : "status" ∉ command.patch) (hpatch : command.completePatch policy row now = .ok patch)
    :
    updated command options row now patch "status" = Cell.text command.toStatus := by
  have hnone : patch.get? "status" = none := by
    rw [get?_completePatch (by decide) hpatch]
    exact (get?_eq_none_iff _ _).2 hstatus
  rw [updated, assign_setClauses_status, hnone, Option.getD_none]

end Stored

/-! ## The entry points -/

section EntryPoints

variable {registry : PolicyRegistry} {validReasonCodes : List String} {db : Db} {now : ℚ}

/-- What holds of the database before a transaction and of every database it returns holds of what is
committed. -/
theorem commit_fst {α : Type} {I : Db → Prop} {result : Except LifecycleError (Db × α)} (hdb : I db)
    (hok : ∀ db' a, result = .ok (db', a) → I db') : I (commit db result).1 := by
  cases result with
  | error e => exact hdb
  | ok committed => exact hok committed.1 committed.2 rfl

/-- The options under which the public service runs. -/
def publicOptions (policy : LifecyclePolicy) : TransitionOptions where
  enforceEdges := true
  undeclaredEdgeMode := .reject
  writeReasonColumns := policy.reasonColumns

/-- A call of one of the three entry points. -/
inductive TransitionOp where
  | transition (command : TransitionCommand)
  | updateStatus (update : StatusUpdate)
  | legacyTransition (request : LegacyTransition)

namespace TransitionOp

def command : TransitionOp → TransitionCommand
  | .transition command => command
  | .updateStatus update => update.command
  | .legacyTransition request => request.command

def options (policy : LifecyclePolicy) : TransitionOp → TransitionOptions
  | .transition _ => publicOptions policy
  | .updateStatus _ => { raiseOnUnguardedConflict := true }
  | .legacyTransition request =>
    { extraGuard := request.guard, enforceEdges := true, writeReasonColumns := false }

/-- The database after the call. -/
def exec (registry : PolicyRegistry) (validReasonCodes : List String) (db : Db) (now : ℚ) :
    TransitionOp → Db
  | .transition command => (commit db (StateDb.transition registry validReasonCodes db command now)).1
  | .updateStatus update => (runUpdateStatus registry db update now).1
  | .legacyTransition request => (commit db (runLegacyTransition registry db request now)).1

end TransitionOp

theorem runUpdateStatus_fst (update : StatusUpdate) : (runUpdateStatus registry db update now).1 =
    (commit db (guardedTransition registry db update.command { raiseOnUnguardedConflict := true }
      now)).1 := by
  unfold runUpdateStatus
  cases guardedTransition registry db update.command { raiseOnUnguardedConflict := true } now with
  | error e => rfl
  | ok committed =>
    obtain ⟨db', outcome⟩ := committed
    cases hresult : outcome.result <;> simp [commit, hresult]

theorem transition_eq_ok {command : TransitionCommand} {db' : Db} {outcome : TransitionOutcome}
    (h : transition registry validReasonCodes db command now = .ok (db', outcome)) :
    ∃ policy, registry.byEntityType.get? command.entityType = some policy ∧
      guardedTransition registry db command (publicOptions policy) now = .ok (db', outcome) := by
  unfold transition at h
  rw [then_eq_ok_iff] at h
  obtain ⟨policy, hpolicy, h⟩ := bind_eq_ok_iff.1 h.2
  rw [then_eq_ok_iff, then_eq_ok_iff, then_eq_ok_iff] at h
  exact ⟨policy, PolicyRegistry.get_eq_ok_iff.1 hpolicy, h.2.2.2⟩

/-- An entry point leaves the database as it was or as a guarded transition leaves it. -/
theorem TransitionOp.exec_of_guarded (op : TransitionOp) {I : Db → Prop} (hdb : I db)
    (hok : ∀ policy row db' outcome, registry.byEntityType.get? op.command.entityType = some policy →
      op.command.Valid policy → db.select policy.table op.command.entityId = some row →
      Exit policy op.command (op.options policy) row now db (.ok (db', outcome)) → I db') :
    I (op.exec registry validReasonCodes db now) := by
  cases op with
  | transition command =>
    apply commit_fst hdb
    intro db' outcome h
    obtain ⟨policy, hpolicy, htransition⟩ := transition_eq_ok h
    obtain ⟨other, row, hother, hvalid, hrow, hexit⟩ := guardedTransition_eq_ok htransition
    cases hpolicy.symm.trans hother
    exact hok policy row db' outcome hpolicy hvalid hrow hexit
  | updateStatus update =>
    change I (runUpdateStatus registry db update now).1
    rw [runUpdateStatus_fst]
    apply commit_fst hdb
    intro db' outcome h
    obtain ⟨policy, row, hpolicy, hvalid, hrow, hexit⟩ := guardedTransition_eq_ok h
    exact hok policy row db' outcome hpolicy hvalid hrow hexit
  | legacyTransition request =>
    apply commit_fst hdb
    intro db' outcome h
    obtain ⟨policy, row, hpolicy, hvalid, hrow, hexit⟩ := guardedTransition_eq_ok h
    exact hok policy row db' outcome hpolicy hvalid hrow hexit

end EntryPoints

end Lionagi.StateDb
