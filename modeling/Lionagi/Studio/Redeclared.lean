import Lionagi.Scheduler.DueInstant
import Lionagi.Studio.ScheduleDeclaration

/-!
# Triggers that are declared again

An apply may give a schedule another trigger while schedulers visit it. It writes the due instant only for a
point in time that is ahead, so the instant of the trigger before may stay. Every visit goes by the trigger that
it has read with the row, and so do the chain children of its fires. A schedule that polls GitHub is not
fired by its due instant.
-/

namespace Lionagi.Studio

variable {J : Type}

namespace ResolvedTrigger

/-- The due instant that a declaration of the trigger writes, if any. -/
def rearmed (trigger : ResolvedTrigger J) (now : ℚ) : Option ℚ :=
  match trigger with
  | pointInTime _ epoch => if epoch ≤ now then none else some epoch
  | _ => none

def isGithub : ResolvedTrigger J → Bool
  | github .. => true
  | _ => false

end ResolvedTrigger

/-- What a visit has read: the trigger of the row, and the trigger of which the due instant in the row was
computed. -/
structure Snapshot (J : Type) where
  trigger : ResolvedTrigger J
  origin : ResolvedTrigger J
  deriving DecidableEq

/-- The occurrence of a due instant, with the trigger of which it was computed and that of the row when it was
committed. -/
structure DueFire (J : Type) where
  due : ℚ
  origin : ResolvedTrigger J
  trigger : ResolvedTrigger J
  deriving DecidableEq

/-- A schedule of a set, with the trigger of which its due instant was computed, what its visits have read, and
the occurrences of due instants. -/
structure DeclaredSchedule (J : Type) where
  shared : Scheduler.SharedSchedule
  trigger : ResolvedTrigger J
  origin : ResolvedTrigger J
  snapshots : List (Snapshot J) := []
  fires : List (DueFire J) := []

inductive DeclaredOp (J : Type) where
  | engine (op : Scheduler.CursorOp)
  | poll (visit : ℕ)
  | chain (visit : ℕ)
  | apply (trigger : ResolvedTrigger J)

/-- The visit that makes the step. -/
def visitOf : Scheduler.CursorOp → Option ℕ
  | .readRow i | .readTime i | .fill i | .skip i | .evaluate i | .launch i | .reserve i | .recompute i
  | .enter i | .commit i | .leave i => some i
  | _ => none

/-- The steps that visits make for a due instant. -/
def byInstant : Scheduler.CursorOp → Bool
  | .fill _ | .skip _ | .evaluate _ | .launch _ | .reserve _ | .recompute _ => true
  | _ => false

section Engine

variable (getNext : String → String → ℚ → ℚ) (pollSeconds : ℚ) (threshold : Bool)

/-- What the engine computes the next instant with. -/
def engineTrigger : ResolvedTrigger J → Scheduler.Trigger
  | .cron expression timezone => .cron (getNext expression timezone)
  | .every intervalSec _ => .interval intervalSec
  | .pointInTime .. => .pointInTime
  | .github .. => .interval pollSeconds

namespace DeclaredSchedule

variable (declared : DeclaredSchedule J)

/-- What a visit reads with the row. -/
def current : Snapshot J := ⟨declared.trigger, declared.origin⟩

/-- A visit that has read the time alone has not read the row yet. -/
def readNow : List (Snapshot J) :=
  List.zipWith (fun visit snapshot ↦
    match visit with
    | .timed _ => declared.current
    | _ => snapshot) declared.shared.visits declared.snapshots

/-- What the visit that makes the step has read. -/
def actor (op : Scheduler.CursorOp) : Snapshot J :=
  ((visitOf op).bind fun i ↦ declared.snapshots[i]?).getD declared.current

/-- A step of a visit, which goes by what the visit has read. -/
def engine (op : Scheduler.CursorOp) : DeclaredSchedule J :=
  let actor := declared.actor op
  if byInstant op ∧ actor.trigger.isGithub then declared
  else
    let shared := declared.shared.exec (engineTrigger getNext pollSeconds actor.trigger) threshold op
    { declared with
      shared := shared
      origin := if shared.writes = declared.shared.writes then declared.origin else actor.trigger
      snapshots := declared.readNow ++
        List.replicate (shared.visits.length - declared.shared.visits.length) declared.current
      fires := declared.fires ++
        (shared.occurrences.drop declared.shared.occurrences.length).filterMap fun run ↦
          run.kind.due.map fun due ↦ ⟨due, actor.origin, declared.trigger⟩ }

/-- A poll launches the fire of an event, which claims the due instant that was read. -/
def poll (i : ℕ) : DeclaredSchedule J :=
  match declared.shared.visits[i]?, declared.snapshots[i]? with
  | some (.visiting .tick _ read _), some snapshot =>
    if snapshot.trigger.isGithub then
      { declared with shared := declared.shared.setVisit i (.launched .manual (some read)) }
    else declared
  | _, _ => declared

/-- The child of a fire goes by what the fire has read. -/
def chain (i : ℕ) : DeclaredSchedule J :=
  match declared.snapshots[i]? with
  | some snapshot =>
    { declared with
      shared := declared.shared.addVisit (.launched .chainChild none)
      snapshots := declared.snapshots ++ [snapshot] }
  | none => declared

/-- The schedule is declared with a trigger. -/
def apply (trigger : ResolvedTrigger J) : DeclaredSchedule J :=
  match trigger.rearmed declared.shared.clock with
  | some epoch =>
    { declared with
      shared := (declared.shared.updateSchedule none { nextFireAt := some (some epoch) }).1
      trigger := trigger
      origin := trigger }
  | none => { declared with trigger := trigger }

def exec (declared : DeclaredSchedule J) : DeclaredOp J → DeclaredSchedule J
  | .engine op => declared.engine getNext pollSeconds threshold op
  | .poll i => declared.poll i
  | .chain i => declared.chain i
  | .apply trigger => declared.apply trigger

/-- A schedule that no scheduler has visited, whose due instant is of its trigger. -/
def start (clock : ℚ) (nextFireAt : Option ℚ) (trigger : ResolvedTrigger J) : DeclaredSchedule J where
  shared := .start clock { nextFireAt := nextFireAt }
  trigger := trigger
  origin := trigger

end DeclaredSchedule

end Engine

end Lionagi.Studio
