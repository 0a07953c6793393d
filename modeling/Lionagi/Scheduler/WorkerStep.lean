import Lionagi.Library.Processes
import Lionagi.Scheduler.Worker
import Lionagi.StateDb.RowMove

/-!
# The steps of the workers

What a step of a worker does is said once: a lease is reaped, a row is rejected, claimed or completed by a
transition that moves this row alone, or only the tick itself goes on.
-/

namespace Lionagi.Scheduler

open StateDb Checks OrderedDict Processes
open Dispatch (count)

/-! ## Transitions of a row -/

section Moves

variable {db : Db} {request : LegacyTransition} {task : TaskRow} {now : ℚ}

theorem legacyTransition_schedule_run (htype : request.entityType = "schedule_run") :
    RowMove runsTable request.entityId (request.MovesRow scheduleRunPolicy now) db
      (legacyTransition db request now).1 (isApplied (legacyTransition db request now).2) := by
  have hpolicy : defaultRegistry.byEntityType.get? request.entityType = some scheduleRunPolicy :=
    htype ▸ get?_scheduleRun
  have hsession : request.entityType ≠ "session" := htype ▸ by decide
  exact legacyTransition_rowMove hpolicy rfl hsession

theorem rejection_rowMove (reason : ReasonRecord) :
    RowMove runsTable task.id (task.rejection reason).MovesRow db
      (runUpdateStatus defaultRegistry db (task.rejection reason) now).1
      (isUpdated (runUpdateStatus defaultRegistry db (task.rejection reason) now).2) := by
  have hsession : (task.rejection reason).entityType ≠ "session" := by
    change "schedule_run" ≠ "session"
    decide
  exact runUpdateStatus_rowMove get?_scheduleRun rfl hsession rfl

theorem reapRequest_entity : task.reapRequest.entityType = "schedule_run" ∧
    task.reapRequest.entityId = task.id ∧ task.reapRequest.fromState = some "running" ∧
      task.reapRequest.guard = task.leaseGuard ∧ "lease_attempts" ∉ task.reapRequest.patch := by
  unfold TaskRow.reapRequest
  split
  · exact ⟨rfl, rfl, rfl, rfl, List.not_mem_nil⟩
  · exact ⟨rfl, rfl, rfl, rfl, by simp [TaskRow.requeueRequest]⟩

end Moves

/-! ## What follows a transition -/

/-- A tick goes on at the same place, or has ended. -/
structure Resumed (pass pass' : Pass) : Prop where
  stage : pass'.stage = pass.stage ∨ pass'.stage = .ended
  leaseExpiresAt : pass'.leaseExpiresAt = pass.leaseExpiresAt
  lapsed : pass'.lapsed = pass.lapsed
  rest : pass'.rest = pass.rest

/-- A tick moves one row or none, and the ledger tells of it. -/
structure Transacted (queue queue' : TaskQueue) (i : ℕ) (pass' : Pass) (id : String)
    (Moves : Row → Row → Prop) (ledger : Ledger) (applied : Bool) : Prop where
  rows : RowMove runsTable id Moves queue.db queue'.db applied
  passes : queue'.passes = queue.passes.set i pass'
  ledger : queue'.ledger = if applied then ledger else queue.ledger

section Resume

variable {pass applied : Pass} {result : Except LifecycleError TransitionOutcome}

theorem Resumed.refl (pass : Pass) : Resumed pass pass := ⟨.inl rfl, rfl, rfl, rfl⟩

theorem Resumed.held {pass' : Pass} (h : Resumed pass pass') (hheld : pass.stage.held = none) :
    pass'.stage.held = none := by
  obtain hstage | hstage := h.stage
  · rw [hstage, hheld]
  · rw [hstage]
    rfl

theorem resume_of_applied (h : isApplied result = true) : pass.resume result applied = applied := by
  unfold isApplied at h
  split at h
  · next outcome =>
    have hresult : outcome.result = .applied := of_decide_eq_true h
    simp only [Pass.resume, hresult, if_true]
  · cases h

/-- After a transition that was not applied the tick is as it was, or has ended. -/
theorem resume_of_not_applied (h : isApplied result = false) :
    Resumed pass (pass.resume result applied) := by
  unfold isApplied at h
  split at h
  · next outcome =>
    have hresult : outcome.result ≠ .applied := of_decide_eq_false h
    simp only [Pass.resume, hresult, if_false]
    exact .refl pass
  · exact ⟨.inr rfl, rfl, rfl, rfl⟩

theorem resumed_resume (h : Resumed pass applied) : Resumed pass (pass.resume result applied) := by
  cases hresult : isApplied result with
  | true => rwa [resume_of_applied hresult]
  | false => exact resume_of_not_applied hresult

theorem resumed_reap (task : TaskRow) : Resumed pass (pass.reap task) := by
  unfold Pass.reap
  split <;> exact ⟨.inl rfl, rfl, rfl, rfl⟩

end Resume

section Transactions

variable {queue : TaskQueue} {i : ℕ} {pass : Pass} {task : TaskRow}

theorem reapLease_transacted : ∃ applied pass', Resumed pass pass' ∧
    Transacted queue (queue.reapLease i pass task) i pass' task.id
      (task.reapRequest.MovesRow scheduleRunPolicy queue.clock) (queue.noteReap i task) applied := by
  refine ⟨_, _, resumed_resume (resumed_reap task), ?_, rfl, rfl⟩
  exact reapRequest_entity.2.1 ▸ legacyTransition_schedule_run reapRequest_entity.1

theorem claim_transacted : ∃ applied pass' attempts,
    (if applied then pass' = pass.claim task queue.clock else Resumed pass pass') ∧
    (attempts = ((queue.claim i pass task).attempts task.id).getD 0) ∧
    Transacted queue (queue.claim i pass task) i pass' task.id
      ((pass.claimRequest task).MovesRow scheduleRunPolicy queue.clock)
      (queue.noteClaim i task.id attempts) applied := by
  refine ⟨_, _, _, ?_, rfl, ?_, rfl, rfl⟩
  · split
    · next happlied => exact resume_of_applied happlied
    · next happlied => exact resume_of_not_applied (Bool.eq_false_of_not_eq_true happlied)
  · exact @legacyTransition_schedule_run queue.db (pass.claimRequest task) queue.clock rfl

theorem reject_transacted {reason : ReasonRecord} : ∃ applied pass', Resumed pass pass' ∧
    Transacted queue (queue.reject i pass task reason) i pass' task.id (task.rejection reason).MovesRow
      (queue.noteWrite i task.id) applied := by
  refine ⟨_, _, ?_, rejection_rowMove reason, rfl, ?_⟩
  · split
    · exact .refl pass
    · exact ⟨.inr rfl, rfl, rfl, rfl⟩
  · unfold TaskQueue.reject
    generalize runUpdateStatus defaultRegistry queue.db (task.rejection reason) queue.clock = result
    obtain ⟨db', e | updated⟩ := result
    · rfl
    · cases updated <;> rfl

theorem complete_transacted {ending : Ending} : ∃ applied pass',
    Resumed { pass with stage := .claiming } pass' ∧
    RowMove runsTable task.id ((pass.completeRequest task ending).MovesRow scheduleRunPolicy queue.clock)
      queue.db (queue.complete i pass task ending).db applied ∧
    (queue.complete i pass task ending).passes = queue.passes.set i pass' ∧
    (queue.complete i pass task ending).ledger =
      TaskQueue.release (if applied then queue.noteWrite i task.id else queue.ledger) i task.id := by
  refine ⟨_, _, resumed_resume (.refl _), ?_, rfl, rfl⟩
  exact @legacyTransition_schedule_run queue.db (pass.completeRequest task ending) queue.clock rfl

end Transactions

/-! ## The operations one by one -/

section Stepped

variable (queue : TaskQueue)

/-- The ways in which an operation changes the queue. -/
inductive Stepped : WorkerOp → TaskQueue → Prop
  | idle {op : WorkerOp} : Stepped op queue
  | tick {seconds : ℚ} : Stepped (.tick seconds) { queue with clock := queue.clock + seconds }
  | start {worker : String} {now leaseTtl : ℚ} : Stepped (.start worker now leaseTtl)
      { queue with passes := queue.passes ++ [{ worker := worker, now := now, leaseTtl := leaseTtl }] }
  | select {i : ℕ} {ids : List String} {pass : Pass} : queue.passes[i]? = some pass →
      pass.stage = .started → ids.Perm (queue.lapsedIds pass.now) →
      Stepped (.select i ids)
        (queue.setPass i { pass with lapsed := queue.selected ids, stage := .reaping })
  | reaped {i : ℕ} {pass : Pass} : queue.passes[i]? = some pass → pass.stage = .reaping →
      pass.lapsed = [] → Stepped (.reap i) (queue.setPass i { pass with stage := .reaped })
  | reap {i : ℕ} {pass : Pass} {task : TaskRow} {lapsed : List TaskRow} : queue.passes[i]? = some pass →
      pass.stage = .reaping → pass.lapsed = task :: lapsed →
      Stepped (.reap i) (queue.reapLease i { pass with lapsed := lapsed } task)
  | scan {i : ℕ} {ids : List String} {pass : Pass} : queue.passes[i]? = some pass →
      pass.stage = .reaped → ids.Nodup → (∀ id ∈ ids, id ∈ queue.claimableIds) →
      Stepped (.scan i ids) (queue.setPass i { pass with rest := queue.selected ids, stage := .claiming })
  | defer {i : ℕ} {pass : Pass} {task : TaskRow} {rest : List TaskRow} : queue.passes[i]? = some pass →
      pass.stage = .claiming → pass.rest = task :: rest →
      Stepped (.defer i) (queue.setPass i { pass with rest := rest })
  | reject {i : ℕ} {pass : Pass} {task : TaskRow} {rest : List TaskRow} {reason : ReasonRecord} :
      queue.passes[i]? = some pass → pass.stage = .claiming → pass.rest = task :: rest →
      Stepped (.reject i reason) (queue.reject i { pass with rest := rest } task reason)
  | claim {i : ℕ} {pass : Pass} {task : TaskRow} {rest : List TaskRow} : queue.passes[i]? = some pass →
      pass.stage = .claiming → pass.rest = task :: rest →
      Stepped (.claim i) (queue.claim i { pass with rest := rest } task)
  | through {i : ℕ} {pass : Pass} : queue.passes[i]? = some pass → pass.stage = .claiming →
      pass.rest = [] → Stepped (.claim i) (queue.setPass i { pass with stage := .ended })
  | execute {i : ℕ} {pass : Pass} {task : TaskRow} {since : ℚ} : queue.passes[i]? = some pass →
      pass.stage = .claimed task since →
      Stepped (.execute i) (queue.setPass i { pass with stage := .executing task since queue.clock })
  | finish {i : ℕ} {pass : Pass} {task : TaskRow} {since began : ℚ} {ending : Ending} :
      queue.passes[i]? = some pass → pass.stage = .executing task since began →
      Stepped (.finish i ending) (queue.setPass i { pass with stage := .executed task ending })
  | complete {i : ℕ} {pass : Pass} {task : TaskRow} {ending : Ending} : queue.passes[i]? = some pass →
      pass.stage = .executed task ending → Stepped (.complete i) (queue.complete i pass task ending)
  | crash {i : ℕ} {pass : Pass} : queue.passes[i]? = some pass →
      Stepped (.crash i) (queue.setPass i { pass with stage := .ended })
  | submit {application : TaskApplication} {now : ℚ} : queue.row application.id = none →
      Stepped (.submit application now) (queue.submit application now)

theorem exec_stepped (op : WorkerOp) : Stepped queue op (queue.exec op) := by
  cases op with
  | tick seconds =>
    rw [TaskQueue.exec]
    split
    · exact .tick
    · exact .idle
  | start worker now leaseTtl =>
    rw [TaskQueue.exec]
    split
    · exact .start
    · exact .idle
  | select i ids =>
    rw [TaskQueue.exec]
    split
    · next pass hpass =>
      split
      · next hstage =>
        unfold TaskQueue.select
        split
        · next hperm => exact .select hpass hstage hperm
        · exact .idle
      · exact .idle
    · exact .idle
  | reap i =>
    rw [TaskQueue.exec]
    split
    · next pass hpass =>
      split
      · next hstage =>
        unfold TaskQueue.reap
        split
        · next hlapsed => exact .reaped hpass hstage hlapsed
        · next task lapsed hlapsed => exact .reap hpass hstage hlapsed
      · exact .idle
    · exact .idle
  | scan i ids =>
    rw [TaskQueue.exec]
    split
    · next pass hpass =>
      split
      · next hstage =>
        unfold TaskQueue.scan
        split
        · next hids => exact .scan hpass hstage hids.1 hids.2
        · exact .idle
      · exact .idle
    · exact .idle
  | defer i =>
    rw [TaskQueue.exec]
    split
    · next pass hpass =>
      split
      · next task rest hstage hrest => exact .defer hpass hstage hrest
      · exact .idle
    · exact .idle
  | reject i reason =>
    rw [TaskQueue.exec]
    split
    · next pass hpass =>
      split
      · next task rest hstage hrest => exact .reject hpass hstage hrest
      · exact .idle
    · exact .idle
  | claim i =>
    rw [TaskQueue.exec]
    split
    · next pass hpass =>
      split
      · next task rest hstage hrest => exact .claim hpass hstage hrest
      · next hstage hrest => exact .through hpass hstage hrest
      · exact .idle
    · exact .idle
  | execute i =>
    rw [TaskQueue.exec]
    split
    · next pass hpass =>
      split
      · next task since hstage => exact .execute hpass hstage
      · exact .idle
    · exact .idle
  | finish i ending =>
    rw [TaskQueue.exec]
    split
    · next pass hpass =>
      split
      · next task since began hstage => exact .finish hpass hstage
      · exact .idle
    · exact .idle
  | complete i =>
    rw [TaskQueue.exec]
    split
    · next pass hpass =>
      split
      · next task ending hstage => exact .complete hpass hstage
      · exact .idle
    · exact .idle
  | crash i =>
    rw [TaskQueue.exec]
    split
    · next pass hpass => exact .crash hpass
    · exact .idle
  | submit application now =>
    rw [TaskQueue.exec]
    split
    · next hsubmit => exact .submit hsubmit.2
    · exact .idle

end Stepped

section Submit

variable {queue : TaskQueue} {application : TaskApplication} {now : ℚ} {id : String}

theorem row_submit_of_ne (h : id ≠ application.id) :
    (queue.submit application now).row id = queue.row id :=
  Db.select_put_of_ne fun heq ↦ h heq.2

end Submit

end Lionagi.Scheduler
