import Mathlib.Data.Rat.Defs
import Mathlib.Algebra.Order.Field.Rat
import Mathlib.Logic.Function.Basic

/-!
# The reservations of a scheduler

A fire is admitted against the budgets of its schedule and the capacity of the engine. What it reserves is
counted in memory until its row is committed, or until it has ended, and is given back by the handle it
holds. Ticks, manual fires, polls and recoveries interleave at every await, also between the reading and
the writing of a count, and each may fail or be cancelled there.
-/

namespace Lionagi.Scheduler

/-! ## Schedules and their runs -/

/-- A validated `rate_limit`. -/
structure RateLimit where
  maxFires : ℕ
  windowSec : ℕ
  maxFires_pos : 0 < maxFires
  windowSec_pos : 0 < windowSec

/-- The budgets of a schedule. -/
structure Limits where
  maxRuns : Option ℕ := none
  rateLimit : Option RateLimit := none

/-- The number of fires that `max_runs` allows, where None and 0 allow any. -/
def Limits.cap (limits : Limits) : Option ℕ := limits.maxRuns.filter fun maxRuns ↦ maxRuns ≠ 0

/-- The schedules and the capacity of the engine, which is unlimited where it is not positive. -/
structure EngineConfig where
  limits : String → Limits
  maxScheduledConcurrent : ℤ
  maxAdhocConcurrent : ℤ

/-- A row of the schedule runs. -/
structure Occurrence where
  scheduleId : String
  chainDepth : ℕ
  status : String
  firedAt : ℚ
  deriving DecidableEq

def terminalRunStatuses : List String := ["completed", "failed", "cancelled", "timed_out"]

def executedRunStatuses : List String := "running" :: terminalRunStatuses

namespace Occurrence

variable (occurrence : Occurrence)

/-- The row is counted against the budgets of a schedule. -/
def Counts (scheduleId : String) : Prop :=
  occurrence.scheduleId = scheduleId ∧ occurrence.chainDepth = 0 ∧ occurrence.status ∈ executedRunStatuses

instance (scheduleId : String) : Decidable (occurrence.Counts scheduleId) :=
  inferInstanceAs (Decidable (_ ∧ _ ∧ _))

/-- The row is counted, among those that are not older than a time if there is one. -/
def countedIn (scheduleId : String) (firedAfter : Option ℚ) : Bool :=
  occurrence.Counts scheduleId ∧ ∀ after ∈ firedAfter, after ≤ occurrence.firedAt

/-- The row is old enough for the retention to remove it. -/
def Prunable (cutoff : ℚ) : Prop :=
  (occurrence.status ∈ terminalRunStatuses ∨ occurrence.status = "skipped") ∧ occurrence.firedAt ≤ cutoff

instance (cutoff : ℚ) : Decidable (occurrence.Prunable cutoff) := inferInstanceAs (Decidable (_ ∧ _))

end Occurrence

/-! ## Fires -/

/-- Where a fire is: it is being admitted, holds the lock of the rolling window or of the runs while it
counts rows, is a task that has not started, has read the time and is yet to commit, has committed, has
given up what its row accounts for, or has ended. -/
inductive FireStage where
  | admitting
  | countingRate (now : ℚ) (inflight : ℕ) (used : Option ℕ)
  | countingRuns (inflight : ℕ) (fired : Option ℕ)
  | launched
  | firing (firedAt : ℚ)
  | committed
  | running
  | ended
  deriving DecidableEq

def FireStage.isCountingRate : FireStage → Bool
  | .countingRate _ _ _ => true
  | _ => false

def FireStage.isCountingRuns : FireStage → Bool
  | .countingRuns _ _ => true
  | _ => false

/-- A fire with the claims that it has not released. -/
structure Fire where
  scheduleId : String
  rate : Option (ℕ × ℚ) := none
  maxRuns : Bool := false
  slot : Bool := false
  adhoc : Bool := false
  threshold : Bool := false
  stage : FireStage := .admitting
  deriving DecidableEq

namespace Fire

variable (fire : Fire)

/-- Nothing is claimed. -/
def Free : Prop :=
  fire.rate = none ∧ fire.maxRuns = false ∧ fire.slot = false ∧ fire.adhoc = false ∧ fire.threshold = false

instance : Decidable fire.Free := inferInstanceAs (Decidable (_ ∧ _ ∧ _ ∧ _ ∧ _))

/-- Every budget and the capacity were claimed where they are limited. -/
def Admitted (config : EngineConfig) : Prop :=
  ((config.limits fire.scheduleId).rateLimit.isSome = true → fire.rate.isSome = true) ∧
  ((config.limits fire.scheduleId).cap.isSome = true → fire.maxRuns = true) ∧
  (0 < config.maxScheduledConcurrent → fire.slot = true)

instance (config : EngineConfig) : Decidable (fire.Admitted config) :=
  inferInstanceAs (Decidable (_ ∧ _ ∧ _))

/-- The top-level row of the fire. -/
def occurrence (status : String) (firedAt : ℚ) : Occurrence := ⟨fire.scheduleId, 0, status, firedAt⟩

/-- The claims that the committed row accounts for are released. -/
def spent : Fire := { fire with rate := none, maxRuns := false }

/-- The other claims are released. -/
def freed : Fire := { fire with slot := false, adhoc := false, threshold := false }

end Fire

/-! ## The engine -/

/-- The time, the rows of the schedule runs, the reservations in memory, where a missing key counts 0 or
has no tokens, the tokens given out and the fires that were begun, with the rows that they committed and
the rows that the retention has removed. -/
structure Engine where
  clock : ℚ
  runs : List Occurrence
  maxRunsInflight : String → ℕ := fun _ ↦ 0
  rateLimitInflight : String → List (ℕ × ℚ) := fun _ ↦ []
  globalInflight : ℕ := 0
  adhocInflight : ℕ := 0
  thresholdPending : List String := []
  tokens : ℕ := 0
  fires : List Fire := []
  committed : List Occurrence := []
  removed : List Occurrence := []

inductive EngineOp where
  | tick (seconds : ℚ)
  | begin (scheduleId : String)
  | reserveThreshold (fire : ℕ)
  | reserveRate (fire : ℕ) (now : ℚ)
  | countRate (fire : ℕ)
  | grantRate (fire : ℕ)
  | reserveRuns (fire : ℕ)
  | countRuns (fire : ℕ)
  | grantRuns (fire : ℕ)
  | reserveSlot (fire : ℕ)
  | reserveAdhoc (fire : ℕ)
  | releaseAdhoc (fire : ℕ)
  | launch (fire : ℕ)
  | enter (fire : ℕ)
  | fireInline (fire : ℕ)
  | commit (fire : ℕ) (status : String)
  | handOver (fire : ℕ)
  | leave (fire : ℕ)
  | record (occurrence : Occurrence)
  | finalize (run : ℕ) (status : String)
  | prune (cutoff : ℚ)

namespace Engine

/-- An engine that starts has begun no fire and reserved nothing. -/
def start (clock : ℚ) (runs : List Occurrence) : Engine := { clock := clock, runs := runs }

variable (config : EngineConfig) (engine : Engine) (i : ℕ) (fire : Fire)

def setFire (fire : Fire) : Engine := { engine with fires := engine.fires.set i fire }

/-- `count_schedule_runs` over the top-level rows that were executed. -/
def countScheduleRuns (scheduleId : String) (firedAfter : Option ℚ) : ℕ :=
  engine.runs.countP (·.countedIn scheduleId firedAfter)

/-! ### Rolling windows -/

/-- The reservations of a schedule that are not older than the cutoff. -/
def active (scheduleId : String) (cutoff : ℚ) : List (ℕ × ℚ) :=
  (engine.rateLimitInflight scheduleId).filter fun entry ↦ cutoff ≤ entry.2

def setReservations (scheduleId : String) (reservations : List (ℕ × ℚ)) : Engine :=
  { engine with rateLimitInflight := Function.update engine.rateLimitInflight scheduleId reservations }

@[simp] theorem rateLimitInflight_setReservations_self (scheduleId : String)
    (reservations : List (ℕ × ℚ)) :
    (engine.setReservations scheduleId reservations).rateLimitInflight scheduleId = reservations :=
  Function.update_self _ _ _

theorem rateLimitInflight_setReservations_of_ne {scheduleId other : String} (h : other ≠ scheduleId)
    (reservations : List (ℕ × ℚ)) : (engine.setReservations scheduleId reservations).rateLimitInflight other =
      engine.rateLimitInflight other :=
  Function.update_of_ne h _ _

/-- The reservations outside the window are dropped, and those inside counted, under the lock. -/
def reserveRate (now : ℚ) : Engine :=
  match fire.stage, (config.limits fire.scheduleId).rateLimit with
  | .admitting, some limit =>
    if fire.rate = none ∧ now ≤ engine.clock ∧ engine.fires.all (fun fire ↦ !fire.stage.isCountingRate) then
      let active := engine.active fire.scheduleId (now - limit.windowSec)
      (engine.setReservations fire.scheduleId active).setFire i
        { fire with stage := .countingRate now active.length none }
    else engine
  | _, _ => engine

def countRate : Engine :=
  match fire.stage, (config.limits fire.scheduleId).rateLimit with
  | .countingRate now inflight none, some limit =>
    let used := engine.countScheduleRuns fire.scheduleId (some (now - limit.windowSec))
    engine.setFire i { fire with stage := .countingRate now inflight (some used) }
  | _, _ => engine

/-- A new token is added to the reservations, from which others may have been released since. -/
def takeToken (scheduleId : String) (now : ℚ) : Engine :=
  { engine.setReservations scheduleId (engine.rateLimitInflight scheduleId ++ [(engine.tokens, now)]) with
    tokens := engine.tokens + 1 }

def grantRate : Engine :=
  match fire.stage, (config.limits fire.scheduleId).rateLimit with
  | .countingRate now inflight (some used), some limit =>
    if limit.maxFires ≤ used + inflight then engine.setFire i { fire with stage := .admitting }
    else
      (engine.takeToken fire.scheduleId now).setFire i
        { fire with rate := some (engine.tokens, now), stage := .admitting }
  | _, _ => engine

/-! ### Runs -/

/-- The reservations are read under the lock. -/
def reserveRuns : Engine :=
  match fire.stage, (config.limits fire.scheduleId).cap with
  | .admitting, some _ =>
    if fire.maxRuns = false ∧ engine.fires.all (fun fire ↦ !fire.stage.isCountingRuns) then
      engine.setFire i { fire with stage := .countingRuns (engine.maxRunsInflight fire.scheduleId) none }
    else engine
  | _, _ => engine

def countRuns : Engine :=
  match fire.stage with
  | .countingRuns inflight none =>
    engine.setFire i { fire with
      stage := .countingRuns inflight (some (engine.countScheduleRuns fire.scheduleId none)) }
  | _ => engine

def setRunsInflight (scheduleId : String) (inflight : ℕ) : Engine :=
  { engine with maxRunsInflight := Function.update engine.maxRunsInflight scheduleId inflight }

/-- The number of reservations that was read is incremented and written. -/
def grantRuns : Engine :=
  match fire.stage, (config.limits fire.scheduleId).cap with
  | .countingRuns inflight (some fired), some maxRuns =>
    if maxRuns ≤ fired + inflight then engine.setFire i { fire with stage := .admitting }
    else
      (engine.setRunsInflight fire.scheduleId (inflight + 1)).setFire i
        { fire with maxRuns := true, stage := .admitting }
  | _, _ => engine

/-! ### Slots and cooldowns -/

def reserveSlot : Engine :=
  if fire.stage = .admitting ∧ fire.slot = false ∧ 0 < config.maxScheduledConcurrent ∧
      engine.globalInflight < config.maxScheduledConcurrent then
    { engine with globalInflight := engine.globalInflight + 1 }.setFire i { fire with slot := true }
  else engine

def reserveAdhoc : Engine :=
  if fire.stage = .admitting ∧ fire.adhoc = false ∧ 0 < config.maxAdhocConcurrent ∧
      engine.adhocInflight < config.maxAdhocConcurrent then
    { engine with adhocInflight := engine.adhocInflight + 1 }.setFire i { fire with adhoc := true }
  else engine

def releaseAdhoc : Engine :=
  if fire.stage = .admitting ∧ fire.adhoc = true then
    { engine with adhocInflight := engine.adhocInflight - 1 }.setFire i { fire with adhoc := false }
  else engine

def reserveThreshold : Engine :=
  if fire.stage = .admitting ∧ fire.threshold = false ∧ fire.scheduleId ∉ engine.thresholdPending then
    { engine with thresholdPending := engine.thresholdPending ++ [fire.scheduleId] }.setFire i
      { fire with threshold := true }
  else engine

/-! ### Releases -/

/-- The claims of a fire against the budgets are released. -/
def releaseBudget : Engine :=
  { engine with
    rateLimitInflight := match fire.rate with
      | some (token, _) => Function.update engine.rateLimitInflight fire.scheduleId
          ((engine.rateLimitInflight fire.scheduleId).filter fun entry ↦ entry.1 ≠ token)
      | none => engine.rateLimitInflight
    maxRunsInflight := if fire.maxRuns then
        Function.update engine.maxRunsInflight fire.scheduleId (engine.maxRunsInflight fire.scheduleId - 1)
      else engine.maxRunsInflight }

/-- The other claims of a fire are released. -/
def releaseSlots : Engine :=
  { engine with
    globalInflight := if fire.slot then engine.globalInflight - 1 else engine.globalInflight
    adhocInflight := if fire.adhoc then engine.adhocInflight - 1 else engine.adhocInflight
    thresholdPending := if fire.threshold then
        engine.thresholdPending.filter fun scheduleId ↦ scheduleId ≠ fire.scheduleId
      else engine.thresholdPending }

/-- The fire completes, is refused, fails or is cancelled. What it claims is released in a `finally`,
which a task that is cancelled before its first step never enters. -/
def leave : Engine :=
  match fire.stage with
  | .launched => engine.setFire i { fire with stage := .ended }
  | _ => ((engine.releaseBudget fire).releaseSlots fire).setFire i
      { fire.spent.freed with stage := .ended }

/-! ### Fires that were admitted -/

def launch : Engine :=
  if fire.stage = .admitting ∧ fire.Admitted config then engine.setFire i { fire with stage := .launched }
  else engine

/-- The task of a fire starts. -/
def enter : Engine :=
  if fire.stage = .launched then engine.setFire i { fire with stage := .firing engine.clock } else engine

/-- A poll fires without a task of its own. -/
def fireInline : Engine :=
  if fire.stage = .admitting ∧ fire.Admitted config then
    engine.setFire i { fire with stage := .firing engine.clock }
  else engine

/-- The row of a fire is committed, as running or, where its setup has failed, as failed. -/
def commit (status : String) : Engine :=
  match fire.stage with
  | .firing firedAt =>
    if status = "running" ∨ status = "failed" then
      { engine with
        runs := engine.runs ++ [fire.occurrence status firedAt]
        committed := engine.committed ++ [fire.occurrence status firedAt] }.setFire i
        { fire with stage := .committed }
    else engine
  | _ => engine

/-- The row of a fire takes over from its reservations. -/
def handOver : Engine :=
  if fire.stage = .committed then
    (engine.releaseBudget fire).setFire i { fire.spent with stage := .running }
  else engine

/-! ### The rows otherwise -/

/-- A running row gets its terminal status. -/
def finalize (run : ℕ) (status : String) : Engine :=
  match engine.runs[run]? with
  | some occurrence =>
    if occurrence.status = "running" ∧ status ∈ terminalRunStatuses then
      { engine with runs := engine.runs.set run { occurrence with status := status } }
    else engine
  | none => engine

/-- The retention removes old rows. -/
def prune (cutoff : ℚ) : Engine :=
  { engine with
    runs := engine.runs.filter fun run ↦ ¬ run.Prunable cutoff
    removed := engine.removed ++ engine.runs.filter fun run ↦ run.Prunable cutoff }

/-- The step of a fire with a number. -/
def onFire (step : Fire → Engine) : Engine :=
  match engine.fires[i]? with
  | some fire => step fire
  | none => engine

/-- The step of a process, which is none where it is not at that point. -/
def exec (engine : Engine) : EngineOp → Engine
  | .tick seconds => if 0 ≤ seconds then { engine with clock := engine.clock + seconds } else engine
  | .begin scheduleId => { engine with fires := engine.fires ++ [{ scheduleId := scheduleId }] }
  | .reserveThreshold i => engine.onFire i (engine.reserveThreshold i)
  | .reserveRate i now => engine.onFire i fun fire ↦ engine.reserveRate config i fire now
  | .countRate i => engine.onFire i (engine.countRate config i)
  | .grantRate i => engine.onFire i (engine.grantRate config i)
  | .reserveRuns i => engine.onFire i (engine.reserveRuns config i)
  | .countRuns i => engine.onFire i (engine.countRuns i)
  | .grantRuns i => engine.onFire i (engine.grantRuns config i)
  | .reserveSlot i => engine.onFire i (engine.reserveSlot config i)
  | .reserveAdhoc i => engine.onFire i (engine.reserveAdhoc config i)
  | .releaseAdhoc i => engine.onFire i (engine.releaseAdhoc i)
  | .launch i => engine.onFire i (engine.launch config i)
  | .enter i => engine.onFire i (engine.enter i)
  | .fireInline i => engine.onFire i (engine.fireInline config i)
  | .commit i status => engine.onFire i fun fire ↦ engine.commit i fire status
  | .handOver i => engine.onFire i (engine.handOver i)
  | .leave i => engine.onFire i (engine.leave i)
  | .record occurrence => { engine with runs := engine.runs ++ [occurrence] }
  | .finalize run status => engine.finalize run status
  | .prune cutoff => engine.prune cutoff

end Engine

end Lionagi.Scheduler
