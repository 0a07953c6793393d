import Mathlib.Data.Int.Notation
import Lionagi.Library.Processes

/-!
# Follow-on effects of a run

The engine that has launched the process of a run finalizes the run when the process has exited. Engines
that start meanwhile reconcile runs that were dispatched and are still running. Each resolves the outcome
from the child sessions, writes the terminal status under the guard that the run is running, emits the
signal of the run, finalizes the invocation and starts the chain child for the outcome. They interleave at
every await, and each may end there.
-/

namespace Lionagi.Scheduler

universe u

/-- The greatest depth of a run is that of a chain of so many children. -/
def maxChainDepth : ℕ := 10

/-- The status of a run for that of its invocation. -/
def scheduleRunStatusFromInvocation : String → Option String
  | "completed" => some "completed"
  | "completed_empty" => some "failed"
  | "failed" => some "failed"
  | "timed_out" => some "timed_out"
  | "cancelled" => some "cancelled"
  | "aborted" => some "cancelled"
  | _ => none

/-- The schedules, with the one that is merged with `on_success` or `on_fail` of another, and the one that
is stored. -/
structure ChainConfig (S : Type u) where
  onSuccess : S → Option S
  onFail : S → Option S
  stored : S

/-- A row of the runs, with the status of its invocation. -/
structure ChainRun where
  chainParentId : Option ℕ
  chainDepth : ℕ
  status : String := "running"
  dispatched : Bool := false
  invocation : String := "running"
  deriving DecidableEq

/-! ## Parties -/

/-- The party has launched the run from a schedule, and finalizes it with its chain child or without, or it
reconciles the run. -/
inductive PartyRole (S : Type u) where
  | launcher (schedule : S) (chains : Bool)
  | reconciler

/-- How far a party has come with its run, and whether its terminal write succeeded. -/
inductive PartyStage where
  | committed
  | launched
  | examining (exitStatus : String)
  | resolved (invStatus status : String)
  | written (invStatus : String) (won : Bool)
  | signalled (invStatus : String) (won : Bool)
  | finalized (invStatus : String) (won : Bool)
  | ended
  deriving DecidableEq

structure Party (S : Type u) where
  role : PartyRole S
  run : ℕ
  stage : PartyStage

/-- An effect of a party on a run. -/
inductive FollowOn where
  | terminal (run party : ℕ)
  | signal (run party : ℕ)
  | chain (run party : ℕ)
  deriving DecidableEq

/-- A chain child that was started, and whether its row is inserted. -/
structure ChainStart (S : Type u) where
  parent : ℕ
  depth : ℕ
  schedule : S
  inserted : Bool

/-- The runs, the parties and the chain children, with the effects so far. -/
structure ChainSystem (S : Type u) where
  runs : List ChainRun := []
  parties : List (Party S) := []
  starts : List (ChainStart S) := []
  effects : List FollowOn := []

inductive ChainOp where
  | fire
  | launch (party : ℕ)
  | exit (party : ℕ) (exitCode : ℤ)
  | scan (run : ℕ)
  | resolve (party : ℕ) (invStatus : String)
  | interrupt (party : ℕ) (invStatus : String)
  | write (party : ℕ)
  | signal (party : ℕ)
  | finalize (party : ℕ)
  | chain (party : ℕ)
  | insertChild (start : ℕ)
  | leave (party : ℕ)

namespace ChainSystem

variable {S : Type u} (config : ChainConfig S) (system : ChainSystem S) (i : ℕ)

def setRun (r : ℕ) (run : ChainRun) : ChainSystem S := { system with runs := system.runs.set r run }

def addParty (party : Party S) : ChainSystem S := { system with parties := system.parties ++ [party] }

def setParty (party : Party S) : ChainSystem S := { system with parties := system.parties.set i party }

def addEffect (effect : FollowOn) : ChainSystem S := { system with effects := system.effects ++ [effect] }

def move (party : Party S) (stage : PartyStage) : ChainSystem S :=
  system.setParty i { party with stage := stage }

/-- An occurrence is committed, of which the party launches the process. -/
def insertRun (schedule : S) (run : ChainRun) : ChainSystem S :=
  { system.addParty ⟨.launcher schedule true, system.runs.length, .committed⟩ with
    runs := system.runs ++ [run] }

/-- The schedule of the chain child for the outcome. -/
def chainAction (role : PartyRole S) (invStatus : String) : Option S :=
  match role with
  | .launcher schedule true =>
    if invStatus = "completed" then config.onSuccess schedule else config.onFail schedule
  | .launcher _ false => none
  | .reconciler =>
    if invStatus = "completed" then config.onSuccess config.stored else config.onFail config.stored

def launch (party : Party S) : ChainSystem S :=
  match party.stage, system.runs[party.run]? with
  | .committed, some run =>
    (system.setRun party.run { run with dispatched := true }).move i party .launched
  | _, _ => system

def exit (exitCode : ℤ) (party : Party S) : ChainSystem S :=
  match party.stage with
  | .launched => system.move i party (.examining (if exitCode = 0 then "completed" else "failed"))
  | _ => system

/-- A reconciliation lists a run that was dispatched and is running. -/
def scan (r : ℕ) (run : ChainRun) : ChainSystem S :=
  if run.status = "running" ∧ run.dispatched then
    system.addParty ⟨.reconciler, r, .examining "completed"⟩
  else system

/-- The outcome is resolved from the child sessions. A reconciliation leaves a run without one. -/
def resolve (invStatus : String) (party : Party S) : ChainSystem S :=
  match party.stage with
  | .examining exitStatus =>
    match scheduleRunStatusFromInvocation invStatus, party.role with
    | some status, _ => system.move i party (.resolved invStatus status)
    | none, .launcher _ _ => system.move i party (.resolved invStatus exitStatus)
    | none, .reconciler => system.move i party .ended
  | _ => system

/-- The launching engine is cancelled or fails after the dispatch, and finalizes the run without a chain
child. -/
def interrupt (invStatus : String) (party : Party S) : ChainSystem S :=
  match party.role, party.stage with
  | .launcher _ _, .committed | .launcher _ _, .ended => system
  | .launcher schedule _, _ =>
    match scheduleRunStatusFromInvocation invStatus with
    | some status => system.setParty i ⟨.launcher schedule false, party.run, .resolved invStatus status⟩
    | none => system
  | .reconciler, _ => system

/-- The terminal status is written if the run is running. A reconciliation that comes late ends. -/
def write (party : Party S) : ChainSystem S :=
  match party.stage, system.runs[party.run]? with
  | .resolved invStatus status, some run =>
    if run.status = "running" then
      ((system.setRun party.run { run with status := status }).addEffect (.terminal party.run i)).move i party
        (.written invStatus true)
    else
      match party.role with
      | .launcher _ _ => system.move i party (.written invStatus false)
      | .reconciler => system.move i party .ended
  | _, _ => system

/-- The signal of the run is emitted where the terminal write succeeded. -/
def signal (party : Party S) : ChainSystem S :=
  match party.stage with
  | .written invStatus true =>
    (system.addEffect (.signal party.run i)).move i party (.signalled invStatus true)
  | .written invStatus false => system.move i party (.signalled invStatus false)
  | _ => system

/-- The invocation is finalized if it is running. -/
def finalize (party : Party S) : ChainSystem S :=
  match party.stage, system.runs[party.run]? with
  | .signalled invStatus won, some run =>
    if run.invocation = "running" then
      (system.setRun party.run { run with invocation := invStatus }).move i party (.finalized invStatus won)
    else system.move i party (.finalized invStatus won)
  | _, _ => system

/-- The chain child for the outcome is started, if there is one and the chain is not too deep. -/
def chain (party : Party S) : ChainSystem S :=
  match party.stage, system.runs[party.run]? with
  | .finalized invStatus _, some run =>
    match chainAction config party.role invStatus with
    | some schedule =>
      if run.chainDepth < maxChainDepth then
        { (system.addEffect (.chain party.run i)).move i party .ended with
          starts := system.starts ++ [⟨party.run, run.chainDepth + 1, schedule, false⟩] }
      else system.move i party .ended
    | none => system.move i party .ended
  | _, _ => system

/-- The row of a chain child is inserted. -/
def insertChild (k : ℕ) (start : ChainStart S) : ChainSystem S :=
  if start.inserted then system
  else
    { system.insertRun start.schedule ⟨some start.parent, start.depth, "running", false, "running"⟩ with
      starts := system.starts.set k { start with inserted := true } }

def onParty (step : Party S → ChainSystem S) : ChainSystem S :=
  match system.parties[i]? with
  | some party => step party
  | none => system

/-- The step of a party, which is none where it is not at that point. -/
def exec (system : ChainSystem S) : ChainOp → ChainSystem S
  | .fire => system.insertRun config.stored ⟨none, 0, "running", false, "running"⟩
  | .launch i => system.onParty i (system.launch i)
  | .exit i exitCode => system.onParty i (system.exit i exitCode)
  | .scan r => system.runs[r]?.elim system (system.scan r)
  | .resolve i invStatus => system.onParty i (system.resolve i invStatus)
  | .interrupt i invStatus => system.onParty i (system.interrupt i invStatus)
  | .write i => system.onParty i (system.write i)
  | .signal i => system.onParty i (system.signal i)
  | .finalize i => system.onParty i (system.finalize i)
  | .chain i => system.onParty i (system.chain config i)
  | .insertChild k => system.starts[k]?.elim system (system.insertChild k)
  | .leave i => system.onParty i fun party ↦ system.move i party .ended

end ChainSystem

end Lionagi.Scheduler
