import Lionagi.Dispatch.Outbox

/-!
# The task worker

A tick of a worker recovers the rows whose lease has lapsed, then claims queued rows one after the other
and executes each of them before it claims the next. Every lease counts from the time of the tick. Ticks of
any number of workers interleave between their transactions, and a worker may crash at any point.
-/

namespace Lionagi.Scheduler

open StateDb Checks OrderedDict
open Dispatch (count)

/-! ## Rows -/

def runsTable : String := "schedule_runs"

def defaultLeaseTtlSeconds : ℚ := 300

def maxLeaseAttempts : ℕ := 3

/-- `column < time` in SQL and for a column that is not NULL. -/
def Before (cell : Cell) (time : ℚ) : Prop :=
  match cell with
  | some (.num value) => value < time
  | _ => False

instance (cell : Cell) (time : ℚ) : Decidable (Before cell time) :=
  match cell with
  | some (.num value) => inferInstanceAs (Decidable (value < time))
  | some (.text _) => isFalse id
  | none => isFalse id

/-- The row is selected by a reaper that started at the given time. -/
def Lapsed (row : Row) (now : ℚ) : Prop :=
  row "status" = Cell.text "running" ∧ Before (row "lease_expires_at") now

instance (row : Row) (now : ℚ) : Decidable (Lapsed row now) := inferInstanceAs (Decidable (_ ∧ _))

/-- The row is one of the candidates of a claim pass. -/
def Claimable (row : Row) : Prop :=
  row "status" = Cell.text "queued" ∧ row "schedule_id" = none ∧ row "action_kind" ≠ none ∧
    row "action_kind" ≠ Cell.text "workflow"

instance (row : Row) : Decidable (Claimable row) := inferInstanceAs (Decidable (_ ∧ _ ∧ _ ∧ _))

/-- A row as it was selected. -/
structure TaskRow where
  id : String
  row : Row

def TaskRow.attempts (task : TaskRow) : ℕ := count task.row "lease_attempts"

/-! ## Requests -/

namespace TaskRow

variable (task : TaskRow)

def reaper : ActorRecord := ⟨"system", some "task_worker_reaper"⟩

/-- A lease is reaped under the guard that it is the one that was read. -/
def leaseGuard : OrderedDict String Cell := ofList [("lease_expires_at", task.row "lease_expires_at")]

def exhaustedRequest : LegacyTransition where
  entityType := "schedule_run"
  entityId := task.id
  fromState := some "running"
  toState := "failed"
  reason := {
    code := "run.failed.lease_attempts_exhausted"
    summary := "lease expired " ++ toString task.attempts ++ " time(s); bound (" ++
      toString maxLeaseAttempts ++ ") reached" }
  actor := reaper
  guard := task.leaseGuard

def requeueRequest : LegacyTransition where
  entityType := "schedule_run"
  entityId := task.id
  fromState := some "running"
  toState := "queued"
  reason := {
    code := "run.queued.lease_expired"
    summary := "lease expired before completion; recovered for re-claim" }
  actor := reaper
  guard := task.leaseGuard
  patch := ofList [("leased_by", none), ("lease_expires_at", none)]

/-- The bound on the leases is reached. -/
def Exhausted : Prop := maxLeaseAttempts ≤ task.attempts

instance : Decidable task.Exhausted := inferInstanceAs (Decidable (_ ≤ _))

def reapRequest : LegacyTransition :=
  if task.Exhausted then task.exhaustedRequest else task.requeueRequest

/-- The update by which a row is rejected at its admission. -/
def rejection (reason : ReasonRecord) : StatusUpdate where
  entityType := "schedule_run"
  entityId := task.id
  newStatus := "skipped"
  reason := reason
  source := "system"
  actor := some "task_admission"
  expectedStatuses := some [Cell.text "queued"]

end TaskRow

/-- How an execution ends: with an exit code, which an exception is turned into, or at its deadline. -/
inductive Ending where
  | exited (code : ℤ) (detail : String)
  | deadline (message : String)

namespace Ending

def truncated (text : String) : String := String.ofList (text.toList.take 500)

def status : Ending → String
  | .exited code _ => if code = 0 then "completed" else "failed"
  | .deadline _ => "timed_out"

def reason : Ending → ReasonRecord
  | .exited code detail =>
    if code = 0 then { code := "run.completed.ok", summary := "task execution completed" }
    else {
      code := "run.failed.exit_nonzero"
      summary := truncated (if detail = "" then "exit code " ++ toString code else detail) }
  | .deadline message => { code := "run.timed_out.deadline", summary := truncated message }

end Ending

/-! ## Passes -/

structure TickCounts where
  requeued : ℕ := 0
  failed : ℕ := 0
  claimed : ℕ := 0
  deriving DecidableEq

/-- Where a tick is: before it reads the lapsed leases, with some of them to reap, before it reads the
candidates, with some of them to claim, or with a row it has claimed at some time and not finished with,
whose execution is about to start, runs or has ended. -/
inductive Stage where
  | started
  | reaping
  | reaped
  | claiming
  | claimed (task : TaskRow) (since : ℚ)
  | executing (task : TaskRow) (since began : ℚ)
  | executed (task : TaskRow) (ending : Ending)
  | ended

/-- The row that a tick has claimed and not finished with. -/
def Stage.held : Stage → Option TaskRow
  | .claimed task _ | .executing task _ _ | .executed task _ => some task
  | _ => none

/-- The row is executed, and was claimed at most that long ago. -/
def Stage.Live (stage : Stage) (id : String) (clock leaseTtl : ℚ) : Prop :=
  match stage with
  | .executing task since _ => task.id = id ∧ clock ≤ since + leaseTtl
  | _ => False

instance (stage : Stage) (id : String) (clock leaseTtl : ℚ) : Decidable (stage.Live id clock leaseTtl) :=
  match stage with
  | .executing task since _ => inferInstanceAs (Decidable (task.id = id ∧ clock ≤ since + leaseTtl))
  | .started | .reaping | .reaped | .claiming | .claimed _ _ | .executed _ _ | .ended =>
    isFalse not_false

/-- An execution that runs has taken less than the lease. -/
def Stage.InTime (stage : Stage) (clock leaseTtl : ℚ) : Prop :=
  match stage with
  | .executing _ _ began => clock < began + leaseTtl
  | _ => True

instance (stage : Stage) (clock leaseTtl : ℚ) : Decidable (stage.InTime clock leaseTtl) :=
  match stage with
  | .executing _ _ began => inferInstanceAs (Decidable (clock < began + leaseTtl))
  | .started | .reaping | .reaped | .claiming | .claimed _ _ | .executed _ _ | .ended => isTrue trivial

/-- A tick of a worker with the rows it is yet to reap and to claim. -/
structure Pass where
  worker : String
  now : ℚ
  leaseTtl : ℚ
  lapsed : List TaskRow := []
  rest : List TaskRow := []
  counts : TickCounts := {}
  stage : Stage := .started

namespace Pass

variable (pass : Pass)

/-- The end of every lease of the tick. -/
def leaseExpiresAt : ℚ := pass.now + pass.leaseTtl

/-- What follows a transition: an exception ends the tick. -/
def resume (result : Except LifecycleError TransitionOutcome) (applied : Pass) : Pass :=
  match result with
  | .ok outcome => if outcome.result = .applied then applied else pass
  | .error _ => { pass with stage := .ended }

/-- The tick after a lease was reaped. -/
def reap (task : TaskRow) : Pass :=
  if task.Exhausted then { pass with counts := { pass.counts with failed := pass.counts.failed + 1 } }
  else { pass with counts := { pass.counts with requeued := pass.counts.requeued + 1 } }

def claimRequest (task : TaskRow) : LegacyTransition where
  entityType := "schedule_run"
  entityId := task.id
  fromState := some "queued"
  toState := "running"
  reason := { code := "run.started.ok", summary := "claimed by host worker " ++ pass.worker }
  actor := ⟨"system", some pass.worker⟩
  patch := ofList [("leased_by", Cell.text pass.worker),
    ("lease_expires_at", Cell.num pass.leaseExpiresAt),
    ("lease_attempts", Cell.num (task.attempts + 1 : ℕ))]

/-- The tick after a row was claimed. -/
def claim (task : TaskRow) (clock : ℚ) : Pass :=
  { pass with
    counts := { pass.counts with claimed := pass.counts.claimed + 1 }
    stage := .claimed task clock }

/-- The end of an execution is written under the guard of the lease. -/
def completeRequest (task : TaskRow) (ending : Ending) : LegacyTransition where
  entityType := "schedule_run"
  entityId := task.id
  fromState := some "running"
  toState := ending.status
  reason := ending.reason
  actor := ⟨"system", some "task_worker"⟩
  guard := ofList [("leased_by", Cell.text pass.worker),
    ("lease_expires_at", Cell.num pass.leaseExpiresAt)]

end Pass

/-! ## Submissions -/

/-- The arguments of `submit_task` that are stored, with the generated id. -/
structure TaskApplication where
  id : String
  actionKind : String
  actionArgs : String
  concurrencyKey : Option String := none
  requiredCapabilities : String := "[]"
  executionTarget : Option String := none
  libraryRef : Option String := none
  libraryContentHash : Option String := none

def TaskApplication.row (application : TaskApplication) (now : ℚ) : Row :=
  Row.assign (fun _ ↦ none) [
    ("lease_attempts", Cell.num 0),
    ("id", Cell.text application.id),
    ("schedule_id", none),
    ("invocation_id", none),
    ("trigger_context", Cell.text "\x7b\x7d"),
    ("action_kind", Cell.text application.actionKind),
    ("action_args", Cell.text application.actionArgs),
    ("status", Cell.text "queued"),
    ("chain_depth", Cell.num 0),
    ("fired_at", Cell.num now),
    ("created_at", Cell.num now),
    ("queued_at", Cell.num now),
    ("concurrency_key", application.concurrencyKey.map Scalar.text),
    ("required_capabilities", Cell.text application.requiredCapabilities),
    ("execution_target", application.executionTarget.map Scalar.text),
    ("library_ref", application.libraryRef.map Scalar.text),
    ("library_content_hash", application.libraryContentHash.map Scalar.text)]

/-! ## Runs -/

/-- What happened so far: for each row the number of its claims and the tick that holds its lease, which
is from the claim until the tick has finished with the row or the lease is reaped; the attempts before and
after each claim; for each terminal status that was written the tick that wrote it and the one with the
lease; and the rows whose lease was reaped within its time while they were executed. -/
structure Ledger where
  claims : String → ℕ := fun _ ↦ 0
  leases : String → Option ℕ := fun _ ↦ none
  attempts : List (ℕ × ℕ) := []
  writes : List (ℕ × Option ℕ) := []
  reapedLive : List String := []

/-- The time, the database with the ids of the schedule runs, and the ticks that were started. -/
structure TaskQueue where
  clock : ℚ
  db : Db
  ids : List String
  passes : List Pass
  ledger : Ledger

inductive WorkerOp where
  | tick (seconds : ℚ)
  | start (worker : String) (now leaseTtl : ℚ)
  | select (pass : ℕ) (ids : List String)
  | reap (pass : ℕ)
  | scan (pass : ℕ) (ids : List String)
  | defer (pass : ℕ)
  | reject (pass : ℕ) (reason : ReasonRecord)
  | claim (pass : ℕ)
  | execute (pass : ℕ)
  | finish (pass : ℕ) (ending : Ending)
  | complete (pass : ℕ)
  | crash (pass : ℕ)
  | submit (application : TaskApplication) (now : ℚ)

namespace TaskQueue

variable (queue : TaskQueue)

def row (id : String) : Option Row := queue.db.select runsTable id

/-- The rows whose lease has lapsed. -/
def lapsedIds (now : ℚ) : List String := queue.ids.filter fun id ↦ (queue.row id).any fun row ↦ Lapsed row now

/-- The rows that some worker may be able to serve. -/
def claimableIds : List String := queue.ids.filter fun id ↦ (queue.row id).any fun row ↦ Claimable row

/-- The rows with the given ids. -/
def selected (ids : List String) : List TaskRow :=
  ids.filterMap fun id ↦ (queue.row id).map fun row ↦ ⟨id, row⟩

/-- The tick with a number is updated. -/
def setPass (i : ℕ) (pass : Pass) : TaskQueue := { queue with passes := queue.passes.set i pass }

/-- Some tick executes the row, and claimed it within its own lease. -/
def Live (id : String) : Prop := ∃ pass ∈ queue.passes, pass.stage.Live id queue.clock pass.leaseTtl

instance (id : String) : Decidable (queue.Live id) :=
  inferInstanceAs (Decidable (∃ pass ∈ queue.passes, pass.stage.Live id queue.clock pass.leaseTtl))

/-- A terminal status is written by a tick. -/
def noteWrite (i : ℕ) (id : String) : Ledger :=
  { queue.ledger with writes := queue.ledger.writes ++ [(i, queue.ledger.leases id)] }

/-- A lease is reaped by a tick. -/
def noteReap (i : ℕ) (task : TaskRow) : Ledger :=
  let ledger := if task.Exhausted then queue.noteWrite i task.id else queue.ledger
  { ledger with
    leases := Function.update ledger.leases task.id none
    reapedLive := if queue.Live task.id then ledger.reapedLive ++ [task.id] else ledger.reapedLive }

/-- The attempts in the row. -/
def attempts (id : String) : Option ℕ := (queue.row id).map fun row ↦ count row "lease_attempts"

/-- A row is claimed by a tick, which leaves the attempts given. -/
def noteClaim (i : ℕ) (id : String) (attempts : ℕ) : Ledger :=
  { queue.ledger with
    claims := Function.update queue.ledger.claims id (queue.ledger.claims id + 1)
    leases := Function.update queue.ledger.leases id (some i)
    attempts := queue.ledger.attempts ++ [((queue.attempts id).getD 0, attempts)] }

/-- The tick is done with the row, whose lease it gives up if it holds it. -/
def release (ledger : Ledger) (i : ℕ) (id : String) : Ledger :=
  if ledger.leases id = some i then { ledger with leases := Function.update ledger.leases id none }
  else ledger

/-! ### The steps of a tick -/

/-- The lapsed leases are read, in any order. -/
def select (i : ℕ) (pass : Pass) (ids : List String) : TaskQueue :=
  if ids.Perm (queue.lapsedIds pass.now) then
    queue.setPass i { pass with lapsed := queue.selected ids, stage := .reaping }
  else queue

/-- The next of the lapsed leases is reaped. -/
def reapLease (i : ℕ) (pass : Pass) (task : TaskRow) : TaskQueue :=
  let result := legacyTransition queue.db task.reapRequest queue.clock
  { queue with
    db := result.1
    ledger := if isApplied result.2 then queue.noteReap i task else queue.ledger }.setPass i
    (pass.resume result.2 (pass.reap task))

/-- `reap_expired_leases` after its query -/
def reap (i : ℕ) (pass : Pass) : TaskQueue :=
  match pass.lapsed with
  | [] => queue.setPass i { pass with stage := .reaped }
  | task :: lapsed => queue.reapLease i { pass with lapsed := lapsed } task

/-- The candidates are read. Any of the claimable rows are those the worker can serve, in the order of
their durations and affinities and up to the limit. -/
def scan (i : ℕ) (pass : Pass) (ids : List String) : TaskQueue :=
  if ids.Nodup ∧ ∀ id ∈ ids, id ∈ queue.claimableIds then
    queue.setPass i { pass with rest := queue.selected ids, stage := .claiming }
  else queue

/-- The next candidate is rejected by its admission. -/
def reject (i : ℕ) (pass : Pass) (task : TaskRow) (reason : ReasonRecord) : TaskQueue :=
  let result := runUpdateStatus defaultRegistry queue.db (task.rejection reason) queue.clock
  { queue with
    db := result.1
    ledger := match result.2 with
      | .ok true => queue.noteWrite i task.id
      | _ => queue.ledger }.setPass i
    (match result.2 with
      | .ok _ => pass
      | .error _ => { pass with stage := .ended })

/-- The next candidate is claimed. -/
def claim (i : ℕ) (pass : Pass) (task : TaskRow) : TaskQueue :=
  let result := legacyTransition queue.db (pass.claimRequest task) queue.clock
  { queue with
    db := result.1
    ledger := if isApplied result.2 then
      queue.noteClaim i task.id (((result.1.select runsTable task.id).map fun row ↦
        count row "lease_attempts").getD 0) else queue.ledger }.setPass i
    (pass.resume result.2 (pass.claim task queue.clock))

/-- `_execute_claimed` after the execution has ended -/
def complete (i : ℕ) (pass : Pass) (task : TaskRow) (ending : Ending) : TaskQueue :=
  let result := legacyTransition queue.db (pass.completeRequest task ending) queue.clock
  { queue with
    db := result.1
    ledger := release (if isApplied result.2 then queue.noteWrite i task.id else queue.ledger) i
      task.id }.setPass i (Pass.resume { pass with stage := .claiming } result.2
        { pass with stage := .claiming })

/-- `submit_task` inserts its row. -/
def submit (application : TaskApplication) (now : ℚ) : TaskQueue :=
  { queue with
    db := queue.db.put runsTable application.id (some (application.row now))
    ids := queue.ids ++ [application.id] }

/-- The step of a worker, which is none where it is not at that point. -/
def exec : WorkerOp → TaskQueue
  | .tick seconds => if 0 ≤ seconds then { queue with clock := queue.clock + seconds } else queue
  | .start worker now leaseTtl =>
    if now ≤ queue.clock then
      { queue with passes := queue.passes ++ [{ worker := worker, now := now, leaseTtl := leaseTtl }] }
    else queue
  | .select i ids =>
    match queue.passes[i]? with
    | some pass =>
      match pass.stage with
      | .started => queue.select i pass ids
      | _ => queue
    | none => queue
  | .reap i =>
    match queue.passes[i]? with
    | some pass =>
      match pass.stage with
      | .reaping => queue.reap i pass
      | _ => queue
    | none => queue
  | .scan i ids =>
    match queue.passes[i]? with
    | some pass =>
      match pass.stage with
      | .reaped => queue.scan i pass ids
      | _ => queue
    | none => queue
  | .defer i =>
    match queue.passes[i]? with
    | some pass =>
      match pass.stage, pass.rest with
      | .claiming, _ :: rest => queue.setPass i { pass with rest := rest }
      | _, _ => queue
    | none => queue
  | .reject i reason =>
    match queue.passes[i]? with
    | some pass =>
      match pass.stage, pass.rest with
      | .claiming, task :: rest => queue.reject i { pass with rest := rest } task reason
      | _, _ => queue
    | none => queue
  | .claim i =>
    match queue.passes[i]? with
    | some pass =>
      match pass.stage, pass.rest with
      | .claiming, task :: rest => queue.claim i { pass with rest := rest } task
      | .claiming, [] => queue.setPass i { pass with stage := .ended }
      | _, _ => queue
    | none => queue
  | .execute i =>
    match queue.passes[i]? with
    | some pass =>
      match pass.stage with
      | .claimed task since => queue.setPass i { pass with stage := .executing task since queue.clock }
      | _ => queue
    | none => queue
  | .finish i ending =>
    match queue.passes[i]? with
    | some pass =>
      match pass.stage with
      | .executing task _ _ => queue.setPass i { pass with stage := .executed task ending }
      | _ => queue
    | none => queue
  | .complete i =>
    match queue.passes[i]? with
    | some pass =>
      match pass.stage with
      | .executed task ending => queue.complete i pass task ending
      | _ => queue
    | none => queue
  | .crash i =>
    match queue.passes[i]? with
    | some pass => queue.setPass i { pass with stage := .ended }
    | none => queue
  | .submit application now =>
    if now ≤ queue.clock ∧ queue.row application.id = none then queue.submit application now else queue

end TaskQueue

end Lionagi.Scheduler
