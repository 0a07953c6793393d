import Lionagi.Library.Processes

/-!
# Occurrences that were never dispatched

An occurrence is committed before its process is launched, and stamped when the process exists. An engine
that starts lists the occurrences that are running without the stamp, and fires each again. The replacement
takes over from the orphan when its row is inserted, if the orphan is still running without the stamp. Any
number of engines interleave at every await, and each may end there.
-/

namespace Lionagi.Scheduler

/-- The row of an occurrence. -/
structure OccurrenceRow where
  status : String
  dispatched : Bool
  deriving DecidableEq

def OccurrenceRow.isRunning (row : OccurrenceRow) : Bool := row.status = "running"

/-- The row is listed as an orphan, and may be replaced. -/
def OccurrenceRow.isUndispatched (row : OccurrenceRow) : Bool := row.isRunning && !row.dispatched

/-- How far a fire has come: it writes its occurrence, which was committed and then recorded as running, its
process was launched and confirmed, or it has ended. -/
inductive LaunchStage where
  | writing
  | committed
  | starting
  | launched
  | confirmed
  | ended
  deriving DecidableEq

/-- A top-level fire, with the orphan that it supersedes, the first occurrence that it stands for, its row
and whether it has launched a process. -/
structure OccurrenceFire where
  supersedes : Option ℕ
  root : ℕ
  stage : LaunchStage := .writing
  row : Option OccurrenceRow := none
  launched : Bool := false
  deriving DecidableEq

/-- The row is settled as one that was never dispatched. -/
def OccurrenceFire.tombstoned (fire : OccurrenceFire) (row : OccurrenceRow) : OccurrenceFire :=
  { fire with row := some { row with status := "failed" } }

inductive LaunchOp where
  | fire
  | recover (orphan : ℕ)
  | commit (fire : ℕ) (valid claimed : Bool)
  | register (fire : ℕ)
  | spawn (fire : ℕ)
  | confirm (fire : ℕ) (stamped : Bool)
  | finish (fire : ℕ)
  | settle (fire : ℕ)
  | leave (fire : ℕ)

/-- The fires of all engines, with the rows that they have written. -/
structure Occurrences where
  fires : List OccurrenceFire := []

namespace Occurrences

variable (system : Occurrences) (i : ℕ)

def addFire (fire : OccurrenceFire) : Occurrences := { fires := system.fires ++ [fire] }

def setFire (fire : OccurrenceFire) : Occurrences := { fires := system.fires.set i fire }

/-- The row is inserted as running, or as failed where the action is invalid. -/
def insertRow (valid : Bool) (fire : OccurrenceFire) : Occurrences :=
  if valid then system.setFire i { fire with row := some ⟨"running", false⟩, stage := .committed }
  else system.setFire i { fire with row := some ⟨"failed", false⟩, stage := .ended }

/-- The orphan is settled where it is still undispatched, and nothing is written where it is not. -/
def tombstone (orphan : ℕ) : Option Occurrences :=
  match system.fires[orphan]? with
  | some fire =>
    match fire.row with
    | some row =>
      if row.isUndispatched then
        some (system.setFire orphan (fire.tombstoned row))
      else none
    | none => none
  | none => none

/-- The occurrence is written with its claim, or in place of the orphan. -/
def commit (valid claimed : Bool) (fire : OccurrenceFire) : Occurrences :=
  if fire.stage = .writing then
    match fire.supersedes with
    | none =>
      if claimed then system.insertRow i valid fire else system.setFire i { fire with stage := .ended }
    | some orphan =>
      match system.tombstone orphan with
      | some settled => settled.insertRow i valid fire
      | none => system.setFire i { fire with stage := .ended }
  else system

/-- The occurrence is recorded as running, which is rejected where it is settled. -/
def register (fire : OccurrenceFire) : Occurrences :=
  match fire.stage, fire.row with
  | .committed, some row =>
    system.setFire i { fire with stage := if row.isRunning then .starting else .ended }
  | _, _ => system

def spawn (fire : OccurrenceFire) : Occurrences :=
  match fire.stage with
  | .starting => system.setFire i { fire with stage := .launched, launched := true }
  | _ => system

/-- The launch is stamped, unless the write fails. -/
def confirm (stamped : Bool) (fire : OccurrenceFire) : Occurrences :=
  match fire.stage with
  | .launched =>
    system.setFire i { fire with
      stage := .confirmed
      row := if stamped then fire.row.map fun row ↦ { row with dispatched := true } else fire.row }
  | _ => system

/-- A running row gets a terminal status. -/
def settleRow (row : OccurrenceRow) : OccurrenceRow :=
  if row.isRunning then { row with status := "completed" } else row

def finish (fire : OccurrenceFire) : Occurrences :=
  match fire.stage with
  | .launched | .confirmed => system.setFire i { fire with stage := .ended, row := fire.row.map settleRow }
  | _ => system

/-- The row is settled by another: a reconciliation, a tombstone without a replacement or a reaper. -/
def settle (fire : OccurrenceFire) : Occurrences :=
  system.setFire i { fire with row := fire.row.map settleRow }

/-- An orphan that is listed is fired again. -/
def recover (fire : OccurrenceFire) : Occurrences :=
  if fire.row.any OccurrenceRow.isUndispatched then
    system.addFire { supersedes := some i, root := fire.root }
  else system

def onFire (step : OccurrenceFire → Occurrences) : Occurrences :=
  match system.fires[i]? with
  | some fire => step fire
  | none => system

/-- The step of a fire, which is none where it is not at that point. -/
def exec (system : Occurrences) : LaunchOp → Occurrences
  | .fire => system.addFire { supersedes := none, root := system.fires.length }
  | .recover i => system.onFire i (system.recover i)
  | .commit i valid claimed => system.onFire i (system.commit i valid claimed)
  | .register i => system.onFire i (system.register i)
  | .spawn i => system.onFire i (system.spawn i)
  | .confirm i stamped => system.onFire i (system.confirm i stamped)
  | .finish i => system.onFire i (system.finish i)
  | .settle i => system.onFire i (system.settle i)
  | .leave i => system.onFire i fun fire ↦ system.setFire i { fire with stage := .ended }

end Occurrences

end Lionagi.Scheduler
