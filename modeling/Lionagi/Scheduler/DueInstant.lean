import Mathlib.Algebra.Order.Field.Rat

/-!
# Due instants

Schedulers share a schedule, whose cursor is the instant at which it is due next. The fire of a tick claims
the due instant that the tick has read, in the transaction that writes its row and advances the cursor. The
recovery of a missed fire claims the missed instant when it advances the cursor, and its fire then claims
the value that was written. Other updates advance the cursor without a claim, as do the fires that stand
for no due instant. Any number of visits of schedulers to the schedule interleave, and each may end at any
point.
-/

namespace Lionagi.Scheduler

/-! ## Triggers -/

/-- What triggers a schedule: a cron expression, of which croniter gets the next instant, an interval, or
one point in time. -/
inductive Trigger where
  | cron (getNext : ℚ → ℚ)
  | interval (seconds : ℚ)
  | pointInTime

namespace Trigger

/-- The next instant is after the time it is computed from, and not earlier than for an earlier time. -/
def Valid : Trigger → Prop
  | cron getNext => (∀ start, start < getNext start) ∧ ∀ start later, start ≤ later →
      getNext start ≤ getNext later
  | interval seconds => 0 < seconds
  | pointInTime => True

def computeNextFire (refTime : ℚ) : Trigger → Option ℚ
  | cron getNext => some (getNext refTime)
  | interval seconds => some (refTime + seconds)
  | pointInTime => none

/-- The value to write to the cursor, if any. -/
def nextFireField (trigger : Trigger) (nextAt : Option ℚ) : Option (Option ℚ) :=
  match nextAt with
  | some instant => some (some instant)
  | none =>
    match trigger with
    | pointInTime => some none
    | _ => none

end Trigger

/-! ## The schedule -/

/-- The fields of a schedule that schedulers write. -/
structure ScheduleRow where
  nextFireAt : Option ℚ
  lastFiredAt : Option ℚ := none
  lastAlertAt : Option ℚ := none
  lastEvaluatedAt : Option ℚ := none
  deriving DecidableEq

/-- The fields that an update writes. -/
structure ScheduleFields where
  nextFireAt : Option (Option ℚ) := none
  lastFiredAt : Option ℚ := none
  lastAlertAt : Option ℚ := none
  lastEvaluatedAt : Option ℚ := none

def ScheduleRow.update (row : ScheduleRow) (fields : ScheduleFields) : ScheduleRow where
  nextFireAt := fields.nextFireAt.getD row.nextFireAt
  lastFiredAt := fields.lastFiredAt.or row.lastFiredAt
  lastAlertAt := fields.lastAlertAt.or row.lastAlertAt
  lastEvaluatedAt := fields.lastEvaluatedAt.or row.lastEvaluatedAt

/-- What a fire stands for: the due instant that a tick has read, a missed instant, no instant, or an
orphan that was never dispatched. -/
inductive FireKind where
  | scheduled (due : ℚ)
  | recovery (due : ℚ)
  | manual
  | chainChild
  | replacement
  deriving DecidableEq

/-- The due instant that the fire stands for. -/
def FireKind.due : FireKind → Option ℚ
  | scheduled due => some due
  | recovery due => some due
  | _ => none

/-- A committed occurrence, with the value of the cursor that it has claimed, if any. -/
structure DueRun where
  kind : FireKind
  claim : Option (Option ℚ)
  firedAt : ℚ
  deriving DecidableEq

/-! ## Visits of a scheduler -/

inductive CursorPass where
  | tick
  | missed
  | restart
  deriving DecidableEq

/-- Where the visit of a scheduler to the schedule is: it has read the time, the row or both, with the
number of writes of the cursor before it did, has launched a fire, which may claim a value of the cursor,
has read the time of the fire, or has ended. -/
inductive Visit where
  | timed (now : ℚ)
  | listed (pass : CursorPass) (read : Option ℚ) (writes : ℕ)
  | visiting (pass : CursorPass) (now : ℚ) (read : Option ℚ) (writes : ℕ)
  | launched (kind : FireKind) (claim : Option (Option ℚ))
  | firing (kind : FireKind) (claim : Option (Option ℚ)) (now : ℚ)
  | ended
  deriving DecidableEq

/-- The schedule with the visits to it. -/
structure SharedSchedule where
  clock : ℚ
  row : ScheduleRow
  writes : ℕ := 0
  occurrences : List DueRun := []
  visits : List Visit := []

inductive CursorOp where
  | tick (seconds : ℚ)
  | beginTick
  | readRow (visit : ℕ)
  | beginPass (pass : CursorPass)
  | readTime (visit : ℕ)
  | trigger (kind : FireKind)
  | fill (visit : ℕ)
  | skip (visit : ℕ)
  | evaluate (visit : ℕ)
  | launch (visit : ℕ)
  | reserve (visit : ℕ)
  | recompute (visit : ℕ)
  | enter (visit : ℕ)
  | commit (visit : ℕ)
  | leave (visit : ℕ)

namespace SharedSchedule

variable (trigger : Trigger) (threshold : Bool) (shared : SharedSchedule) (i : ℕ)

def setVisit (visit : Visit) : SharedSchedule := { shared with visits := shared.visits.set i visit }

def addVisit (visit : Visit) : SharedSchedule := { shared with visits := shared.visits ++ [visit] }

def addRun (run : DueRun) : SharedSchedule := { shared with occurrences := shared.occurrences ++ [run] }

/-- Update the row, if the cursor has the value that is claimed, where there is a claim. -/
def updateSchedule (expectNextFireAt : Option (Option ℚ)) (fields : ScheduleFields) :
    SharedSchedule × Bool :=
  if ∀ claim ∈ expectNextFireAt, shared.row.nextFireAt = claim then
    ({ shared with
      row := shared.row.update fields
      writes := if fields.nextFireAt.isSome then shared.writes + 1 else shared.writes }, true)
  else (shared, false)

/-- Update the row and insert the occurrence, or write nothing. -/
def createScheduleRunAndAdvance (run : DueRun) (fields : ScheduleFields)
    (expectNextFireAt : Option (Option ℚ)) : SharedSchedule × Bool :=
  match shared.updateSchedule expectNextFireAt fields with
  | (updated, true) => (updated.addRun run, true)
  | (_, false) => (shared, false)

/-! ### Ticks -/

/-- A cursor that was read empty gets the next instant. -/
def fill (visit : Visit) : SharedSchedule :=
  match visit with
  | .visiting .tick now none _ =>
    match trigger.computeNextFire now with
    | some instant =>
      if instant = 0 then shared.setVisit i .ended
      else (shared.updateSchedule none { nextFireAt := some (some instant) }).1.setVisit i .ended
    | none => shared.setVisit i .ended
  | _ => shared

/-- A due instant is skipped: by a tick when a run is active, or after startup when it was missed, or when
an occurrence of it is recorded. -/
def skip (visit : Visit) : SharedSchedule :=
  match visit with
  | .visiting pass now (some due) _ =>
    if pass ≠ .restart ∧ due ≤ now then
      match trigger.nextFireField (trigger.computeNextFire now) with
      | some nextAt => (shared.updateSchedule none { nextFireAt := some nextAt }).1.setVisit i .ended
      | none => shared.setVisit i .ended
    else shared
  | _ => shared

/-- The threshold of a due schedule is evaluated, and nothing is fired. -/
def evaluate (visit : Visit) : SharedSchedule :=
  match visit with
  | .visiting .tick now (some due) _ =>
    if due ≤ now then
      let nextAt := (trigger.computeNextFire now).filter fun instant ↦ instant ≠ 0
      (shared.updateSchedule none { nextFireAt := nextAt.map some, lastEvaluatedAt := some now }).1.setVisit i
        .ended
    else shared
  | _ => shared

/-- A due schedule is fired, which claims the instant that was read. -/
def launch (visit : Visit) : SharedSchedule :=
  match visit with
  | .visiting .tick now (some due) _ =>
    if due ≤ now then shared.setVisit i (.launched (.scheduled due) (some (some due))) else shared
  | _ => shared

/-! ### Passes at startup -/

/-- The recovery of a missed fire reserves the missed instant. Its fire claims what was written. -/
def reserve (visit : Visit) : SharedSchedule :=
  match visit with
  | .visiting .missed now (some due) _ =>
    if due ≤ now then
      match trigger.nextFireField (trigger.computeNextFire now) with
      | some nextAt =>
        match shared.updateSchedule (some (some due)) { nextFireAt := some nextAt } with
        | (updated, true) => updated.setVisit i (.launched (.recovery due) (some nextAt))
        | (_, false) => shared.setVisit i .ended
      | none => shared.setVisit i (.launched (.recovery due) (some (some due)))
    else shared
  | _ => shared

/-- The cursor of a cron schedule that is not due is computed again. -/
def recompute (visit : Visit) : SharedSchedule :=
  match visit with
  | .visiting .restart now read _ =>
    match trigger with
    | .cron getNext =>
      if (∀ old ∈ read, now < old) ∧ ∀ old ∈ read, 1 / 1000000 ≤ |getNext now - old| then
        (shared.updateSchedule none { nextFireAt := some (some (getNext now)) }).1.setVisit i .ended
      else shared.setVisit i .ended
    | _ => shared.setVisit i .ended
  | _ => shared

/-! ### Fires -/

def enter (visit : Visit) : SharedSchedule :=
  match visit with
  | .launched kind claim => shared.setVisit i (.firing kind claim shared.clock)
  | _ => shared

/-- The fields that a fire writes with its row. -/
def fireFields (kind : FireKind) (now : ℚ) : ScheduleFields where
  nextFireAt := trigger.nextFireField (trigger.computeNextFire now)
  lastFiredAt := some now
  lastAlertAt := if threshold ∧ kind ≠ .chainChild then some now else none

/-- The row of a fire is committed, unless its claim is lost. A replacement takes over from an orphan and
leaves the schedule. -/
def commit (visit : Visit) : SharedSchedule :=
  match visit with
  | .firing .replacement claim now =>
    (shared.addRun ⟨.replacement, claim, now⟩).setVisit i .ended
  | .firing kind claim now =>
    (shared.createScheduleRunAndAdvance ⟨kind, claim, now⟩ (fireFields trigger threshold kind now)
      claim).1.setVisit i .ended
  | _ => shared

/-! ### Steps -/

def readRow (visit : Visit) : SharedSchedule :=
  match visit with
  | .timed now => shared.setVisit i (.visiting .tick now shared.row.nextFireAt shared.writes)
  | _ => shared

def readTime (visit : Visit) : SharedSchedule :=
  match visit with
  | .listed pass read writes => shared.setVisit i (.visiting pass shared.clock read writes)
  | _ => shared

/-- The step of a visit with a number. -/
def onVisit (step : Visit → SharedSchedule) : SharedSchedule :=
  match shared.visits[i]? with
  | some visit => step visit
  | none => shared

/-- The step of a visit, which is none where it is not at that point. -/
def exec (shared : SharedSchedule) : CursorOp → SharedSchedule
  | .tick seconds => if 0 ≤ seconds then { shared with clock := shared.clock + seconds } else shared
  | .beginTick => shared.addVisit (.timed shared.clock)
  | .readRow i => shared.onVisit i (shared.readRow i)
  | .beginPass pass =>
    if pass = .tick then shared else shared.addVisit (.listed pass shared.row.nextFireAt shared.writes)
  | .readTime i => shared.onVisit i (shared.readTime i)
  | .trigger kind =>
    if kind.due = none then shared.addVisit (.launched kind none) else shared
  | .fill i => shared.onVisit i (shared.fill trigger i)
  | .skip i => shared.onVisit i (shared.skip trigger i)
  | .evaluate i => shared.onVisit i (shared.evaluate trigger i)
  | .launch i => shared.onVisit i (shared.launch i)
  | .reserve i => shared.onVisit i (shared.reserve trigger i)
  | .recompute i => shared.onVisit i (shared.recompute trigger i)
  | .enter i => shared.onVisit i (shared.enter i)
  | .commit i => shared.onVisit i (shared.commit trigger threshold i)
  | .leave i => shared.onVisit i fun _ ↦ shared.setVisit i .ended

/-- A schedule that no scheduler has visited. -/
def start (clock : ℚ) (row : ScheduleRow) : SharedSchedule := { clock := clock, row := row }

end SharedSchedule

end Lionagi.Scheduler
