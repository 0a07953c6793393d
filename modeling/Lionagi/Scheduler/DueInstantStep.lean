import Lionagi.Library.Processes
import Lionagi.Scheduler.DueInstant

/-!
# The steps of a shared schedule

Every operation adds a visit, moves one on, or writes the cursor: without a claim, by a reservation or with
the row of a fire.
-/

namespace Lionagi.Scheduler

/-- The visit of which the operation advances the cursor without a claim. -/
def CursorOp.advances : CursorOp → Option ℕ
  | .fill i | .skip i | .evaluate i | .recompute i => some i
  | _ => none

/-- The number of writes of the cursor when the visit has read it. -/
def Visit.writesRead : Visit → Option ℕ
  | .visiting _ _ _ writes => some writes
  | _ => none

theorem Trigger.nextFireField_computeNextFire (trigger : Trigger) (now : ℚ) :
    trigger.nextFireField (trigger.computeNextFire now) = some (trigger.computeNextFire now) := by
  cases trigger <;> rfl

namespace SharedSchedule

section Stepped

variable (trigger : Trigger) (threshold : Bool) (shared : SharedSchedule)

/-- The visits that operations add. -/
inductive Arrives : CursorOp → Visit → Prop
  | tick : Arrives .beginTick (.timed shared.clock)
  | pass {pass : CursorPass} : pass ≠ .tick →
      Arrives (.beginPass pass) (.listed pass shared.row.nextFireAt shared.writes)
  | trigger {kind : FireKind} : kind.due = none → Arrives (.trigger kind) (.launched kind none)

/-- The ways in which a visit moves on and leaves the schedule. -/
inductive Moves : Visit → Visit → Prop
  | read {now : ℚ} : Moves (.timed now) (.visiting .tick now shared.row.nextFireAt shared.writes)
  | time {pass : CursorPass} {read : Option ℚ} {writes : ℕ} :
      Moves (.listed pass read writes) (.visiting pass shared.clock read writes)
  | launch {now due : ℚ} {writes : ℕ} : due ≤ now →
      Moves (.visiting .tick now (some due) writes) (.launched (.scheduled due) (some (some due)))
  | enter {kind : FireKind} {claim : Option (Option ℚ)} :
      Moves (.launched kind claim) (.firing kind claim shared.clock)
  | leave {visit : Visit} : Moves visit .ended

/-- A visit that has read the cursor sets it without a claim. -/
inductive Advances (now : ℚ) : CursorPass → Option ℚ → Prop
  | fill : trigger ≠ .pointInTime → Advances now .tick none
  | pass {pass : CursorPass} {due : ℚ} : pass ≠ .restart → due ≤ now → Advances now pass (some due)
  | recompute {getNext : ℚ → ℚ} {read : Option ℚ} : trigger = .cron getNext →
      (∀ old ∈ read, now < old) → Advances now .restart read

/-- The cursor is written. -/
def write (row : ScheduleRow) : SharedSchedule := { shared with row := row, writes := shared.writes + 1 }

/-- The ways in which an operation changes the schedule and its visits. -/
inductive CursorStep : CursorOp → SharedSchedule → Prop
  | idle {op : CursorOp} : CursorStep op shared
  | tick {seconds : ℚ} : 0 ≤ seconds →
      CursorStep (.tick seconds) { shared with clock := shared.clock + seconds }
  | arrive {op : CursorOp} {visit : Visit} : shared.Arrives op visit → CursorStep op (shared.addVisit visit)
  | move {op : CursorOp} {i : ℕ} {visit visit' : Visit} : shared.visits[i]? = some visit →
      shared.Moves visit visit' → CursorStep op (shared.setVisit i visit')
  | mark {op : CursorOp} {i : ℕ} {row : ScheduleRow} : row.nextFireAt = shared.row.nextFireAt →
      CursorStep op ({ shared with row := row }.setVisit i .ended)
  | advance {op : CursorOp} {i : ℕ} {pass : CursorPass} {now : ℚ} {read : Option ℚ} {writes : ℕ}
      {row : ScheduleRow} : op.advances = some i →
      shared.visits[i]? = some (.visiting pass now read writes) → Advances trigger now pass read →
      row.nextFireAt = trigger.computeNextFire now → CursorStep op ((shared.write row).setVisit i .ended)
  | reserve {i : ℕ} {now due : ℚ} {writes : ℕ} {row : ScheduleRow} :
      shared.visits[i]? = some (.visiting .missed now (some due) writes) → due ≤ now →
      shared.row.nextFireAt = some due → row.nextFireAt = trigger.computeNextFire now →
      CursorStep (.reserve i) ((shared.write row).setVisit i
        (.launched (.recovery due) (some (trigger.computeNextFire now))))
  | commit {i : ℕ} {kind : FireKind} {claim : Option (Option ℚ)} {now : ℚ} {row : ScheduleRow} :
      shared.visits[i]? = some (.firing kind claim now) → kind ≠ .replacement →
      (∀ value ∈ claim, shared.row.nextFireAt = value) → row.nextFireAt = trigger.computeNextFire now →
      CursorStep (.commit i) (((shared.write row).addRun ⟨kind, claim, now⟩).setVisit i .ended)
  | replace {i : ℕ} {claim : Option (Option ℚ)} {now : ℚ} :
      shared.visits[i]? = some (.firing .replacement claim now) →
      CursorStep (.commit i) ((shared.addRun ⟨.replacement, claim, now⟩).setVisit i .ended)

variable {shared}

theorem cursorStep_onVisit {op : CursorOp} {i : ℕ} {step : Visit → SharedSchedule}
    (h : ∀ visit, shared.visits[i]? = some visit → CursorStep trigger shared op (step visit)) :
    CursorStep trigger shared op (shared.onVisit i step) := by
  unfold onVisit
  split
  · next visit hvisit => exact h visit hvisit
  · exact .idle

variable (fields : ScheduleFields) {nextAt : Option ℚ}

/-- An update without a claim that sets the cursor. -/
theorem updateSchedule_none (hfields : fields.nextFireAt = some nextAt) :
    (shared.updateSchedule none fields).1 = shared.write (shared.row.update fields) := by
  have hnone : ∀ claim ∈ (none : Option (Option ℚ)), shared.row.nextFireAt = claim :=
    fun claim hclaim ↦ absurd hclaim (Option.not_mem_none claim)
  rw [updateSchedule, if_pos hnone, hfields]
  rfl

variable {claim : Option (Option ℚ)}

/-- An update with a claim matches where the cursor has the value. -/
theorem updateSchedule_of_claimed (hfields : fields.nextFireAt = some nextAt)
    (hclaim : ∀ value ∈ claim, shared.row.nextFireAt = value) :
    shared.updateSchedule claim fields = (shared.write (shared.row.update fields), true) := by
  rw [updateSchedule, if_pos hclaim, hfields]
  rfl

theorem updateSchedule_of_lost (hclaim : ¬ ∀ value ∈ claim, shared.row.nextFireAt = value) :
    shared.updateSchedule claim fields = (shared, false) := by
  rw [updateSchedule, if_neg hclaim]

theorem nextFireAt_update {row : ScheduleRow} {fields : ScheduleFields} (hfields : fields.nextFireAt = some nextAt) :
    (row.update fields).nextFireAt = nextAt := by
  rw [ScheduleRow.update, hfields]
  rfl

variable (shared)

theorem exec_cursorStep (op : CursorOp) :
    CursorStep trigger shared op (shared.exec trigger threshold op) := by
  cases op with
  | tick seconds =>
    rw [exec]
    split
    · next hseconds => exact .tick hseconds
    · exact .idle
  | beginTick => exact .arrive .tick
  | readRow i =>
    apply cursorStep_onVisit
    intro visit hvisit
    unfold SharedSchedule.readRow
    split
    · exact .move hvisit .read
    · exact .idle
  | beginPass pass =>
    rw [exec]
    split
    · exact .idle
    · next hpass => exact .arrive (.pass hpass)
  | readTime i =>
    apply cursorStep_onVisit
    intro visit hvisit
    unfold SharedSchedule.readTime
    split
    · exact .move hvisit .time
    · exact .idle
  | trigger kind =>
    rw [exec]
    split
    · next hkind => exact .arrive (.trigger hkind)
    · exact .idle
  | fill i =>
    apply cursorStep_onVisit
    intro visit hvisit
    unfold SharedSchedule.fill
    split
    · next now writes =>
      split
      · next instant hnext =>
        split
        · exact .move hvisit .leave
        · rw [updateSchedule_none _ rfl]
          refine .advance rfl hvisit (.fill ?_) (nextFireAt_update (hnext ▸ rfl))
          rintro rfl
          cases hnext
      · exact .move hvisit .leave
    · exact .idle
  | skip i =>
    apply cursorStep_onVisit
    intro visit hvisit
    unfold SharedSchedule.skip
    split
    · next pass now due writes =>
      split
      · next h =>
        rw [trigger.nextFireField_computeNextFire]
        simp only
        rw [updateSchedule_none _ rfl]
        exact .advance rfl hvisit (.pass h.1 h.2) (nextFireAt_update rfl)
      · exact .idle
    · exact .idle
  | evaluate i =>
    apply cursorStep_onVisit
    intro visit hvisit
    unfold SharedSchedule.evaluate
    split
    · next now due writes =>
      split
      · next h =>
        simp only
        cases hnext : (trigger.computeNextFire now).filter fun instant ↦ instant ≠ 0 with
        | none => exact .mark rfl
        | some instant =>
          rw [updateSchedule_none _ rfl]
          have hcompute := (Option.filter_eq_some_iff.1 hnext).1
          refine .advance rfl hvisit (.pass (by decide) h) (nextFireAt_update ?_)
          rw [hcompute]
          rfl
      · exact .idle
    · exact .idle
  | launch i =>
    apply cursorStep_onVisit
    intro visit hvisit
    unfold SharedSchedule.launch
    split
    · split
      · next hdue => exact .move hvisit (.launch hdue)
      · exact .idle
    · exact .idle
  | reserve i =>
    apply cursorStep_onVisit
    intro visit hvisit
    unfold SharedSchedule.reserve
    split
    · next now due writes =>
      split
      · next hdue =>
        rw [trigger.nextFireField_computeNextFire]
        simp only
        by_cases hclaim : ∀ value ∈ some (some due), shared.row.nextFireAt = value
        · rw [updateSchedule_of_claimed _ rfl hclaim]
          exact .reserve hvisit hdue (hclaim _ rfl) (nextFireAt_update rfl)
        · rw [updateSchedule_of_lost _ hclaim]
          exact .move hvisit .leave
      · exact .idle
    · exact .idle
  | recompute i =>
    apply cursorStep_onVisit
    intro visit hvisit
    unfold SharedSchedule.recompute
    split
    · next now read writes =>
      split
      · next getNext =>
        split
        · next h =>
          rw [updateSchedule_none _ rfl]
          exact .advance rfl hvisit (.recompute rfl h.1) (nextFireAt_update rfl)
        · exact .move hvisit .leave
      · exact .move hvisit .leave
    · exact .idle
  | enter i =>
    apply cursorStep_onVisit
    intro visit hvisit
    unfold SharedSchedule.enter
    split
    · exact .move hvisit .enter
    · exact .idle
  | commit i =>
    apply cursorStep_onVisit
    intro visit hvisit
    unfold SharedSchedule.commit
    split
    · exact .replace hvisit
    · next kind claim now hkind =>
      have hfields : (fireFields trigger threshold kind now).nextFireAt =
          some (trigger.computeNextFire now) := trigger.nextFireField_computeNextFire now
      unfold createScheduleRunAndAdvance
      by_cases hclaim : ∀ value ∈ claim, shared.row.nextFireAt = value
      · rw [updateSchedule_of_claimed _ hfields hclaim]
        exact .commit hvisit hkind hclaim (nextFireAt_update hfields)
      · rw [updateSchedule_of_lost _ hclaim]
        exact .move hvisit .leave
    · exact .idle
  | leave i =>
    apply cursorStep_onVisit
    intro visit hvisit
    exact .move hvisit .leave

end Stepped

/-! ## Fires -/

section Committed

variable {trigger : Trigger} {threshold : Bool} {shared : SharedSchedule} {i : ℕ} {kind : FireKind}
  {claim : Option (Option ℚ)} {now : ℚ}

theorem exec_commit (hvisit : shared.visits[i]? = some (.firing kind claim now))
    (hkind : kind ≠ .replacement) :
    shared.exec trigger threshold (.commit i) = (shared.createScheduleRunAndAdvance ⟨kind, claim, now⟩
      (fireFields trigger threshold kind now) claim).1.setVisit i .ended := by
  rw [exec, onVisit, hvisit]
  cases kind with
  | replacement => exact absurd rfl hkind
  | _ => rfl

theorem nextFireAt_fireFields :
    (fireFields trigger threshold kind now).nextFireAt = some (trigger.computeNextFire now) :=
  trigger.nextFireField_computeNextFire now

theorem row_commit_of_claimed (hvisit : shared.visits[i]? = some (.firing kind claim now))
    (hkind : kind ≠ .replacement) (hclaim : ∀ value ∈ claim, shared.row.nextFireAt = value) :
    (shared.exec trigger threshold (.commit i)).row.nextFireAt = trigger.computeNextFire now := by
  rw [exec_commit hvisit hkind, createScheduleRunAndAdvance,
    updateSchedule_of_claimed _ nextFireAt_fireFields hclaim]
  exact nextFireAt_update nextFireAt_fireFields

theorem exec_commit_of_lost (hvisit : shared.visits[i]? = some (.firing kind claim now))
    (hkind : kind ≠ .replacement) (hlost : ¬ ∀ value ∈ claim, shared.row.nextFireAt = value) :
    shared.exec trigger threshold (.commit i) = shared.setVisit i .ended := by
  rw [exec_commit hvisit hkind, createScheduleRunAndAdvance, updateSchedule_of_lost _ hlost]

end Committed

end SharedSchedule

end Lionagi.Scheduler
