import Mathlib.Logic.Function.Basic
import Lionagi.Library.Processes

/-!
# Overlapping runs

An engine keeps the run of each schedule in a map. A tick that finds an entry there skips a schedule with
the policy to skip. The entry is set when the occurrence of a fire has been committed, some awaits after the
tick has decided, and every top-level fire removes it when it ends, or when its claim was refused. Manual
fires, recoveries and polls do not read the map.
-/

namespace Lionagi.Scheduler

inductive OverlapPolicy where
  | skip
  | allow
  deriving DecidableEq

inductive FireOrigin where
  | maybeFire
  | manual
  | recovery
  | poll
  deriving DecidableEq

/-- How far a top-level fire has come: it waits for admission, its task was created, it sets up its action,
it writes its occurrence, the occurrence was committed, the run was registered, its process was launched,
or it has ended. -/
inductive TopLevelStage where
  | admitting
  | tracked
  | setup
  | writing
  | committed
  | registered
  | launched
  | ended
  deriving DecidableEq

namespace TopLevelStage

/-- The run is between its committed occurrence and its end. -/
def isActive : TopLevelStage → Bool
  | committed | registered | launched => true
  | _ => false

/-- The run was registered and has not ended. -/
def isRegistered : TopLevelStage → Bool
  | registered | launched => true
  | _ => false

/-- The fire was started and has launched no process yet. -/
def isPending : TopLevelStage → Bool
  | launched | ended => false
  | _ => true

/-- The move from one stage to another makes no run active or registered, and no fire pending. -/
def Leads (stage stage' : TopLevelStage) : Prop :=
  (stage'.isActive = true → stage.isActive = true) ∧
    (stage'.isRegistered = true → stage.isRegistered = true) ∧
      (stage'.isPending = true → stage.isPending = true)

instance (stage stage' : TopLevelStage) : Decidable (stage.Leads stage') :=
  inferInstanceAs (Decidable (_ ∧ _ ∧ _))

theorem leads_ended (stage : TopLevelStage) : stage.Leads .ended := by
  cases stage <;> decide

theorem isActive_of_isRegistered {stage : TopLevelStage} (h : stage.isRegistered = true) :
    stage.isActive = true := by
  revert h
  cases stage <;> decide

theorem isActive_eq_false {stage : TopLevelStage} (hcommitted : stage ≠ .committed)
    (hregistered : stage.isRegistered ≠ true) : stage.isActive = false := by
  revert hcommitted hregistered
  cases stage <;> decide

/-- The fire is past its setup, so that it removes the entry of its schedule when it ends. -/
def isGuarded : TopLevelStage → Bool
  | writing | committed | registered | launched => true
  | _ => false

end TopLevelStage

structure TopLevelFire where
  scheduleId : String
  origin : FireOrigin
  stage : TopLevelStage
  deriving DecidableEq

/-- The engine, with the numbers of the runs that are registered. -/
structure OverlapEngine where
  running : String → Option ℕ := fun _ ↦ none
  fires : List TopLevelFire := []

inductive OverlapOp where
  | maybeFire (scheduleId : String)
  | trigger (scheduleId : String) (origin : FireOrigin)
  | reserve (fire : ℕ) (granted : Bool)
  | enter (fire : ℕ)
  | prepare (fire : ℕ) (valid : Bool)
  | write (fire : ℕ) (claimed : Bool)
  | register (fire : ℕ)
  | launch (fire : ℕ)
  | finish (fire : ℕ)
  | cancel (fire : ℕ)

namespace OverlapEngine

variable (policy : String → OverlapPolicy) (engine : OverlapEngine) (i : ℕ)

def addFire (fire : TopLevelFire) : OverlapEngine := { engine with fires := engine.fires ++ [fire] }

def setFire (fire : TopLevelFire) : OverlapEngine := { engine with fires := engine.fires.set i fire }

def setRunning (scheduleId : String) (run : Option ℕ) : OverlapEngine :=
  { engine with running := Function.update engine.running scheduleId run }

/-- The fire goes on. -/
def move (fire : TopLevelFire) (stage : TopLevelStage) : OverlapEngine :=
  engine.setFire i { fire with stage := stage }

/-- The fire ends after its setup, and the entry of its schedule is removed, whichever run it is for. -/
def leave (fire : TopLevelFire) : OverlapEngine :=
  (engine.setRunning fire.scheduleId none).move i fire .ended

/-- A due schedule is skipped when a run is registered. -/
def maybeFire (scheduleId : String) : OverlapEngine :=
  if policy scheduleId = .skip ∧ engine.running scheduleId ≠ none then engine
  else engine.addFire ⟨scheduleId, .maybeFire, .admitting⟩

def reserve (granted : Bool) (fire : TopLevelFire) : OverlapEngine :=
  match fire.stage with
  | .admitting => engine.move i fire (if granted then .tracked else .ended)
  | _ => engine

def enter (fire : TopLevelFire) : OverlapEngine :=
  match fire.stage with
  | .tracked => engine.move i fire .setup
  | _ => engine

/-- The action is resolved, or its occurrence is written as failed. -/
def prepare (valid : Bool) (fire : TopLevelFire) : OverlapEngine :=
  match fire.stage with
  | .setup => engine.move i fire (if valid then .writing else .ended)
  | _ => engine

/-- The occurrence is committed, or the claim of the fire is refused. -/
def write (claimed : Bool) (fire : TopLevelFire) : OverlapEngine :=
  match fire.stage with
  | .writing => if claimed then engine.move i fire .committed else engine.leave i fire
  | _ => engine

def register (fire : TopLevelFire) : OverlapEngine :=
  match fire.stage with
  | .committed => (engine.setRunning fire.scheduleId (some i)).move i fire .registered
  | _ => engine

def launch (fire : TopLevelFire) : OverlapEngine :=
  match fire.stage with
  | .registered => engine.move i fire .launched
  | _ => engine

/-- The fire has completed, has failed or was cancelled. -/
def finish (fire : TopLevelFire) : OverlapEngine :=
  if fire.stage.isGuarded then engine.leave i fire else engine

/-- The fire fails or is cancelled before it writes. -/
def cancel (fire : TopLevelFire) : OverlapEngine :=
  if fire.stage.isGuarded then engine else engine.move i fire .ended

def onFire (step : TopLevelFire → OverlapEngine) : OverlapEngine :=
  match engine.fires[i]? with
  | some fire => step fire
  | none => engine

/-- The step of a fire, which is none where it is not at that point. -/
def exec (engine : OverlapEngine) : OverlapOp → OverlapEngine
  | .maybeFire scheduleId => engine.maybeFire policy scheduleId
  | .trigger scheduleId origin =>
    if origin = .maybeFire then engine else engine.addFire ⟨scheduleId, origin, .tracked⟩
  | .reserve i granted => engine.onFire i (engine.reserve i granted)
  | .enter i => engine.onFire i (engine.enter i)
  | .prepare i valid => engine.onFire i (engine.prepare i valid)
  | .write i claimed => engine.onFire i (engine.write i claimed)
  | .register i => engine.onFire i (engine.register i)
  | .launch i => engine.onFire i (engine.launch i)
  | .finish i => engine.onFire i (engine.finish i)
  | .cancel i => engine.onFire i (engine.cancel i)

/-! ## Steps -/

/-- The ways in which an operation changes the engine. -/
inductive OverlapStep (engine : OverlapEngine) : OverlapOp → OverlapEngine → Prop
  | idle {op : OverlapOp} : OverlapStep engine op engine
  | decide {scheduleId : String} : (policy scheduleId = .skip → engine.running scheduleId = none) →
      OverlapStep engine (.maybeFire scheduleId) (engine.addFire ⟨scheduleId, .maybeFire, .admitting⟩)
  | start {scheduleId : String} {origin : FireOrigin} : origin ≠ .maybeFire →
      OverlapStep engine (.trigger scheduleId origin) (engine.addFire ⟨scheduleId, origin, .tracked⟩)
  | move {op : OverlapOp} {i : ℕ} {fire : TopLevelFire} {stage : TopLevelStage} :
      engine.fires[i]? = some fire → fire.stage.Leads stage →
      OverlapStep engine op (engine.move i fire stage)
  | commit {i : ℕ} {fire : TopLevelFire} : engine.fires[i]? = some fire → fire.stage = .writing →
      OverlapStep engine (.write i true) (engine.move i fire .committed)
  | refuse {i : ℕ} {fire : TopLevelFire} : engine.fires[i]? = some fire → fire.stage = .writing →
      OverlapStep engine (.write i false) (engine.leave i fire)
  | register {i : ℕ} {fire : TopLevelFire} : engine.fires[i]? = some fire → fire.stage = .committed →
      OverlapStep engine (.register i)
        ((engine.setRunning fire.scheduleId (some i)).move i fire .registered)
  | finish {i : ℕ} {fire : TopLevelFire} : engine.fires[i]? = some fire → fire.stage.isGuarded = true →
      OverlapStep engine (.finish i) (engine.leave i fire)

theorem overlapStep_onFire {op : OverlapOp} {step : TopLevelFire → OverlapEngine}
    (h : ∀ fire, engine.fires[i]? = some fire → OverlapStep policy engine op (step fire)) :
    OverlapStep policy engine op (engine.onFire i step) := by
  unfold onFire
  split
  · next fire hfire => exact h fire hfire
  · exact .idle

theorem exec_overlapStep (op : OverlapOp) : OverlapStep policy engine op (engine.exec policy op) := by
  cases op with
  | maybeFire scheduleId =>
    rw [exec, maybeFire]
    split
    · exact .idle
    · next h =>
      apply OverlapStep.decide
      intro hskip
      by_contra hrunning
      exact h ⟨hskip, hrunning⟩
  | trigger scheduleId origin =>
    rw [exec]
    split
    · exact .idle
    · next horigin => exact .start horigin
  | reserve i granted =>
    apply overlapStep_onFire
    intro fire hfire
    unfold reserve
    split
    · next hstage => cases granted <;> exact .move hfire (by rw [hstage]; decide)
    · exact .idle
  | enter i =>
    apply overlapStep_onFire
    intro fire hfire
    unfold enter
    split
    · next hstage => exact .move hfire (by rw [hstage]; decide)
    · exact .idle
  | prepare i valid =>
    apply overlapStep_onFire
    intro fire hfire
    unfold prepare
    split
    · next hstage => cases valid <;> exact .move hfire (by rw [hstage]; decide)
    · exact .idle
  | write i claimed =>
    apply overlapStep_onFire
    intro fire hfire
    unfold write
    split
    · next hstage =>
      cases claimed with
      | true => exact .commit hfire hstage
      | false => exact .refuse hfire hstage
    · exact .idle
  | register i =>
    apply overlapStep_onFire
    intro fire hfire
    unfold register
    split
    · next hstage => exact .register hfire hstage
    · exact .idle
  | launch i =>
    apply overlapStep_onFire
    intro fire hfire
    unfold launch
    split
    · next hstage =>
      exact .move hfire (by rw [hstage]; decide)
    · exact .idle
  | finish i =>
    apply overlapStep_onFire
    intro fire hfire
    unfold finish
    split
    · next hstage => exact .finish hfire hstage
    · exact .idle
  | cancel i =>
    apply overlapStep_onFire
    intro fire hfire
    unfold cancel
    split
    · exact .idle
    · exact .move hfire (TopLevelStage.leads_ended fire.stage)

end OverlapEngine

end Lionagi.Scheduler
