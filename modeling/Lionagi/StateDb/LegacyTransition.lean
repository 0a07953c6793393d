import Lionagi.StateDb.LifecycleExit
import Lionagi.StateDb.ManagedEntity

/-!
# Transitions by compare-and-swap

The schedulers and the outbox move their rows by `transition` of `transitions.py`: the move takes place
when the row has the expected status and guarded columns and the edge is declared, and otherwise nothing
is written.
-/

namespace Lionagi.StateDb

open Checks OrderedDict

/-- `transition` of `transitions.py`, whose checks of the reason code and of the column names the requests
below pass, being made of constants. -/
def legacyTransition (db : Db) (request : LegacyTransition) (now : ℚ) :
    Db × Except LifecycleError TransitionOutcome :=
  commit db (runLegacyTransition defaultRegistry db request now)

/-- The caller is told that the move took place. -/
def isApplied : Except LifecycleError TransitionOutcome → Bool
  | .ok outcome => outcome.result = .applied
  | .error _ => false

namespace LegacyTransition

variable (request : LegacyTransition) (policy : LifecyclePolicy) (row : Row) (now : ℚ) (db : Db)

def options : TransitionOptions :=
  { extraGuard := request.guard, enforceEdges := true, writeReasonColumns := false }

/-- The row is the one that the request expects, and the policy allows the move. -/
structure Expects : Prop where
  source : ∀ status ∈ request.fromState, row "status" = Cell.text status
  edge : row "status" = Cell.text request.toState ∨
    ∃ edge ∈ policy.edgesFrom (row "status"), edge.toStatus = request.toState ∧
      edge.MetBy request.command request.options
  guard : ∀ entry ∈ request.guard.entries, row entry.1 = entry.2
  patch : ∀ column ∈ request.patch, column ∈ policy.patchFields

/-- The row after the move. -/
def stored : Row := row.assign (request.command.setClauses request.options now request.patch)

/-- The move took place. -/
structure Moves (db' : Db) : Prop where
  expects : request.Expects policy row
  rows : db'.rows = (db.put policy.table request.entityId (some (request.stored row now))).rows

/-- Either the caller is told of the move, or nothing was written. -/
inductive Result : Db × Except LifecycleError TransitionOutcome → Prop
  | moved {db' : Db} {outcome : TransitionOutcome} (row : Row) :
      db.select policy.table request.entityId = some row → outcome.result = .applied →
      request.Moves policy row now db db' → Result (db', .ok outcome)
  | conflict {outcome : TransitionOutcome} : outcome.result = .conflict → Result (db, .ok outcome)
  | raised {e : LifecycleError} : Result (db, .error e)

end LegacyTransition

section Cases

variable {request : LegacyTransition} {policy : LifecyclePolicy} {row : Row} {now : ℚ} {db : Db}

theorem LegacyTransition.stored_column {column : String} (h : column ∉ ["status", "updated_at"]) :
    request.stored row now column = (request.patch.get? column).getD (row column) := by
  rw [List.mem_cons, List.mem_singleton, not_or] at h
  rw [stored, assign_setClauses]
  apply congrArg
  apply Row.assign_of_not_mem
  simp [TransitionCommand.setClauses, options, OrderedDict.empty, h]

theorem LegacyTransition.stored_status (h : "status" ∉ request.patch) :
    request.stored row now "status" = Cell.text request.toState := by
  rw [stored, assign_setClauses_status, (get?_eq_none_iff _ _).2 h]
  rfl

/-- Requests carry no override, so what they are permitted follows an edge or names the stored status. -/
theorem LegacyTransition.edge_of_permits {override : Bool}
    (h : request.command.Permits policy request.options (row "status") override) :
    row "status" = Cell.text request.toState ∨
      ∃ edge ∈ policy.edgesFrom (row "status"), edge.toStatus = request.toState ∧
        edge.MetBy request.command request.options := by
  cases h with
  | @edge edge hedge hmet =>
    obtain ⟨-, hmem, hto⟩ := TransitionCommand.selfEdge_eq_some hedge
    exact .inr ⟨edge, hmem, hto, hmet⟩
  | append _ hsame => exact .inl hsame
  | unenforced _ _ henforce => cases henforce
  | override _ _ _ hoverride => cases hoverride

/-- No request is refused without an exception, and none is dropped where same-status writes are
appended. -/
theorem LegacyTransition.verdict_ok (hsame : policy.sameStatus = .append) {verdict : Verdict}
    (h : request.command.verdict policy request.options (row "status") = .ok verdict) :
    ∃ override, verdict = .proceed override := by
  cases hedge : request.command.selfEdge policy request.options (row "status") with
  | some edge =>
    rw [TransitionCommand.verdict_of_edge hedge] at h
    exact ⟨false, h.2⟩
  | none =>
    by_cases hstatus : request.command.sameStatus (row "status")
    · rw [TransitionCommand.verdict_of_sameStatus hedge hstatus] at h
      obtain ⟨hrule, -⟩ | ⟨hrule, -⟩ | ⟨-, hverdict⟩ := h
      · cases hsame.symm.trans hrule
      · cases hsame.symm.trans hrule
      · exact ⟨false, hverdict⟩
    · rw [TransitionCommand.verdict_of_enforced hedge hstatus rfl] at h
      obtain ⟨hoverride, -⟩ | ⟨-, hmode, -⟩ := h
      · cases hoverride
      · cases hmode

/-- A transition of an entity whose policy appends same-status writes moves the row as requested, or
leaves the database. -/
theorem legacyTransition_result (hpolicy : defaultRegistry.byEntityType.get? request.entityType = some policy)
    (hsame : policy.sameStatus = .append) (hsession : request.entityType ≠ "session") :
    request.Result policy now db (legacyTransition db request now) := by
  unfold legacyTransition
  cases hresult : runLegacyTransition defaultRegistry db request now with
  | error e => exact .raised
  | ok committed =>
    obtain ⟨db', outcome⟩ := committed
    obtain ⟨other, row, hother, hvalid, hrow, hexit⟩ := guardedTransition_eq_ok hresult
    cases hpolicy.symm.trans hother
    have hrecord : ∀ override, request.command.Permits policy request.options (row "status") override →
        request.command.recordOverride row now db override = db := by
      intro override hpermits
      cases hpermits with
      | override _ _ _ hoverride => cases hoverride
      | edge | append | unenforced => rfl
    cases hexit with
    | statusConflict => exact .conflict rfl
    | noop _ hverdict =>
      obtain ⟨_, hproceed⟩ := LegacyTransition.verdict_ok hsame hverdict
      cases hproceed
    | rejected _ hverdict =>
      obtain ⟨_, hproceed⟩ := LegacyTransition.verdict_ok hsame hverdict
      cases hproceed
    | versionConflict => exact .conflict rfl
    | guardConflict _ hpermits =>
      rw [hrecord _ hpermits]
      exact .conflict rfl
    | nullGuard _ hpermits =>
      rw [hrecord _ hpermits]
      exact .conflict rfl
    | applied hstatus hpermits hversion hguard hpatch _ hreplace =>
      rw [hrecord _ hpermits] at hreplace
      have hid : "id" ∉ request.command.patch :=
        fun hmem ↦ (not_mem_patchFields hpolicy).2 (hvalid.patch "id" hmem)
      rw [Db.replace_of_id (updated_id hrow hid hpatch)] at hreplace
      cases hreplace
      have hends : ¬ request.command.EndsSession policy row := fun hends ↦ hsession hends.1.1
      rw [TransitionCommand.completePatch, if_neg hends] at hpatch
      cases hpatch
      refine .moved row hrow rfl ⟨⟨?_, LegacyTransition.edge_of_permits hpermits, ?_, hvalid.patch⟩, rfl⟩
      · intro status hexpected
        by_contra hdiffers
        refine hstatus ⟨[Cell.text status], ?_, ?_⟩
        · exact congrArg (Option.map fun state ↦ [Cell.text state]) hexpected
        · rw [List.mem_singleton]
          exact hdiffers
      · intro entry hentry
        by_contra hdiffers
        exact hguard ⟨entry, hentry, hdiffers⟩

end Cases

end Lionagi.StateDb
