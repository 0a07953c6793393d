import Lionagi.Library.Processes
import Lionagi.Scheduler.Reservations

/-!
# The steps of the reservations

Every operation is listed with the conditions under which it takes place and what it leaves.
-/

namespace Lionagi.Scheduler

section Stepped

variable (config : EngineConfig) (engine : Engine)

/-- The ways in which an operation changes the engine. -/
inductive EngineStep : EngineOp → Engine → Prop
  | idle {op : EngineOp} : EngineStep op engine
  | tick {seconds : ℚ} : 0 ≤ seconds →
      EngineStep (.tick seconds) { engine with clock := engine.clock + seconds }
  | begin {scheduleId : String} : EngineStep (.begin scheduleId)
      { engine with fires := engine.fires ++ [{ scheduleId := scheduleId }] }
  | reserveThreshold {i : ℕ} {fire : Fire} : engine.fires[i]? = some fire → fire.stage = .admitting →
      fire.threshold = false → fire.scheduleId ∉ engine.thresholdPending →
      EngineStep (.reserveThreshold i) ({ engine with
        thresholdPending := engine.thresholdPending ++ [fire.scheduleId] }.setFire i
          { fire with threshold := true })
  | reserveRate {i : ℕ} {now : ℚ} {fire : Fire} {limit : RateLimit} : engine.fires[i]? = some fire →
      fire.stage = .admitting → (config.limits fire.scheduleId).rateLimit = some limit → fire.rate = none →
      now ≤ engine.clock → engine.fires.all (fun fire ↦ !fire.stage.isCountingRate) →
      EngineStep (.reserveRate i now) ((engine.setReservations fire.scheduleId
        (engine.active fire.scheduleId (now - limit.windowSec))).setFire i { fire with
          stage := .countingRate now (engine.active fire.scheduleId (now - limit.windowSec)).length none })
  | countRate {i inflight : ℕ} {now : ℚ} {fire : Fire} {limit : RateLimit} :
      engine.fires[i]? = some fire → fire.stage = .countingRate now inflight none →
      (config.limits fire.scheduleId).rateLimit = some limit →
      EngineStep (.countRate i) (engine.setFire i { fire with
        stage := .countingRate now inflight
          (some (engine.countScheduleRuns fire.scheduleId (some (now - limit.windowSec)))) })
  | refuseRate {i inflight used : ℕ} {now : ℚ} {fire : Fire} : engine.fires[i]? = some fire →
      fire.stage = .countingRate now inflight (some used) →
      EngineStep (.grantRate i) (engine.setFire i { fire with stage := .admitting })
  | grantRate {i inflight used : ℕ} {now : ℚ} {fire : Fire} {limit : RateLimit} :
      engine.fires[i]? = some fire → fire.stage = .countingRate now inflight (some used) →
      (config.limits fire.scheduleId).rateLimit = some limit → used + inflight < limit.maxFires →
      EngineStep (.grantRate i) ((engine.takeToken fire.scheduleId now).setFire i
        { fire with rate := some (engine.tokens, now), stage := .admitting })
  | reserveRuns {i maxRuns : ℕ} {fire : Fire} : engine.fires[i]? = some fire → fire.stage = .admitting →
      (config.limits fire.scheduleId).cap = some maxRuns → fire.maxRuns = false →
      engine.fires.all (fun fire ↦ !fire.stage.isCountingRuns) →
      EngineStep (.reserveRuns i) (engine.setFire i { fire with
        stage := .countingRuns (engine.maxRunsInflight fire.scheduleId) none })
  | countRuns {i inflight : ℕ} {fire : Fire} : engine.fires[i]? = some fire →
      fire.stage = .countingRuns inflight none →
      EngineStep (.countRuns i) (engine.setFire i { fire with
        stage := .countingRuns inflight (some (engine.countScheduleRuns fire.scheduleId none)) })
  | refuseRuns {i inflight fired : ℕ} {fire : Fire} : engine.fires[i]? = some fire →
      fire.stage = .countingRuns inflight (some fired) →
      EngineStep (.grantRuns i) (engine.setFire i { fire with stage := .admitting })
  | grantRuns {i inflight fired maxRuns : ℕ} {fire : Fire} : engine.fires[i]? = some fire →
      fire.stage = .countingRuns inflight (some fired) →
      (config.limits fire.scheduleId).cap = some maxRuns → fired + inflight < maxRuns →
      EngineStep (.grantRuns i) ((engine.setRunsInflight fire.scheduleId (inflight + 1)).setFire i
        { fire with maxRuns := true, stage := .admitting })
  | reserveSlot {i : ℕ} {fire : Fire} : engine.fires[i]? = some fire → fire.stage = .admitting →
      fire.slot = false →
      EngineStep (.reserveSlot i) ({ engine with globalInflight := engine.globalInflight + 1 }.setFire i
        { fire with slot := true })
  | reserveAdhoc {i : ℕ} {fire : Fire} : engine.fires[i]? = some fire → fire.stage = .admitting →
      fire.adhoc = false →
      EngineStep (.reserveAdhoc i) ({ engine with adhocInflight := engine.adhocInflight + 1 }.setFire i
        { fire with adhoc := true })
  | releaseAdhoc {i : ℕ} {fire : Fire} : engine.fires[i]? = some fire → fire.stage = .admitting →
      fire.adhoc = true →
      EngineStep (.releaseAdhoc i) ({ engine with adhocInflight := engine.adhocInflight - 1 }.setFire i
        { fire with adhoc := false })
  | launch {i : ℕ} {fire : Fire} : engine.fires[i]? = some fire → fire.stage = .admitting →
      fire.Admitted config → EngineStep (.launch i) (engine.setFire i { fire with stage := .launched })
  | enter {i : ℕ} {fire : Fire} : engine.fires[i]? = some fire → fire.stage = .launched →
      EngineStep (.enter i) (engine.setFire i { fire with stage := .firing engine.clock })
  | fireInline {i : ℕ} {fire : Fire} : engine.fires[i]? = some fire → fire.stage = .admitting →
      fire.Admitted config →
      EngineStep (.fireInline i) (engine.setFire i { fire with stage := .firing engine.clock })
  | commit {i : ℕ} {status : String} {firedAt : ℚ} {fire : Fire} : engine.fires[i]? = some fire →
      fire.stage = .firing firedAt → status = "running" ∨ status = "failed" →
      EngineStep (.commit i status) ({ engine with
        runs := engine.runs ++ [fire.occurrence status firedAt]
        committed := engine.committed ++ [fire.occurrence status firedAt] }.setFire i
          { fire with stage := .committed })
  | handOver {i : ℕ} {fire : Fire} : engine.fires[i]? = some fire → fire.stage = .committed →
      EngineStep (.handOver i)
        ((engine.releaseBudget fire).setFire i { fire.spent with stage := .running })
  | unstarted {i : ℕ} {fire : Fire} : engine.fires[i]? = some fire → fire.stage = .launched →
      EngineStep (.leave i) (engine.setFire i { fire with stage := .ended })
  | leave {i : ℕ} {fire : Fire} : engine.fires[i]? = some fire → fire.stage ≠ .launched →
      EngineStep (.leave i) (((engine.releaseBudget fire).releaseSlots fire).setFire i
        { fire.spent.freed with stage := .ended })
  | record {occurrence : Occurrence} :
      EngineStep (.record occurrence) { engine with runs := engine.runs ++ [occurrence] }
  | finalize {run : ℕ} {status : String} {occurrence : Occurrence} :
      engine.runs[run]? = some occurrence → occurrence.status = "running" → status ∈ terminalRunStatuses →
      EngineStep (.finalize run status)
        { engine with runs := engine.runs.set run { occurrence with status := status } }
  | prune {cutoff : ℚ} : EngineStep (.prune cutoff) (engine.prune cutoff)

variable {engine}

/-- A step of a fire that exists. -/
theorem engineStep_onFire {op : EngineOp} {i : ℕ} {step : Fire → Engine}
    (h : ∀ fire, engine.fires[i]? = some fire → EngineStep config engine op (step fire)) :
    EngineStep config engine op (engine.onFire i step) := by
  unfold Engine.onFire
  split
  · next fire hfire => exact h fire hfire
  · exact .idle

variable (engine)

theorem exec_engineStep (op : EngineOp) : EngineStep config engine op (engine.exec config op) := by
  cases op with
  | tick seconds =>
    rw [Engine.exec]
    split
    · next hseconds => exact .tick hseconds
    · exact .idle
  | begin scheduleId => exact .begin
  | reserveThreshold i =>
    apply engineStep_onFire
    intro fire hfire
    unfold Engine.reserveThreshold
    split
    · next h => exact .reserveThreshold hfire h.1 h.2.1 h.2.2
    · exact .idle
  | reserveRate i now =>
    apply engineStep_onFire
    intro fire hfire
    unfold Engine.reserveRate
    split
    · next limit hstage hlimit =>
      split
      · next h => exact .reserveRate hfire hstage hlimit h.1 h.2.1 h.2.2
      · exact .idle
    · exact .idle
  | countRate i =>
    apply engineStep_onFire
    intro fire hfire
    unfold Engine.countRate
    split
    · next now inflight limit hstage hlimit => exact .countRate hfire hstage hlimit
    · exact .idle
  | grantRate i =>
    apply engineStep_onFire
    intro fire hfire
    unfold Engine.grantRate
    split
    · next now inflight used limit hstage hlimit =>
      split
      · exact .refuseRate hfire hstage
      · next h => exact .grantRate hfire hstage hlimit (Nat.lt_of_not_le h)
    · exact .idle
  | reserveRuns i =>
    apply engineStep_onFire
    intro fire hfire
    unfold Engine.reserveRuns
    split
    · next maxRuns hstage hcap =>
      split
      · next h => exact .reserveRuns hfire hstage hcap h.1 h.2
      · exact .idle
    · exact .idle
  | countRuns i =>
    apply engineStep_onFire
    intro fire hfire
    unfold Engine.countRuns
    split
    · next inflight hstage => exact .countRuns hfire hstage
    · exact .idle
  | grantRuns i =>
    apply engineStep_onFire
    intro fire hfire
    unfold Engine.grantRuns
    split
    · next inflight fired maxRuns hstage hcap =>
      split
      · exact .refuseRuns hfire hstage
      · next h => exact .grantRuns hfire hstage hcap (Nat.lt_of_not_le h)
    · exact .idle
  | reserveSlot i =>
    apply engineStep_onFire
    intro fire hfire
    unfold Engine.reserveSlot
    split
    · next h => exact .reserveSlot hfire h.1 h.2.1
    · exact .idle
  | reserveAdhoc i =>
    apply engineStep_onFire
    intro fire hfire
    unfold Engine.reserveAdhoc
    split
    · next h => exact .reserveAdhoc hfire h.1 h.2.1
    · exact .idle
  | releaseAdhoc i =>
    apply engineStep_onFire
    intro fire hfire
    unfold Engine.releaseAdhoc
    split
    · next h => exact .releaseAdhoc hfire h.1 h.2
    · exact .idle
  | launch i =>
    apply engineStep_onFire
    intro fire hfire
    unfold Engine.launch
    split
    · next h => exact .launch hfire h.1 h.2
    · exact .idle
  | enter i =>
    apply engineStep_onFire
    intro fire hfire
    unfold Engine.enter
    split
    · next h => exact .enter hfire h
    · exact .idle
  | fireInline i =>
    apply engineStep_onFire
    intro fire hfire
    unfold Engine.fireInline
    split
    · next h => exact .fireInline hfire h.1 h.2
    · exact .idle
  | commit i status =>
    apply engineStep_onFire
    intro fire hfire
    unfold Engine.commit
    split
    · next firedAt hstage =>
      split
      · next hstatus => exact .commit hfire hstage hstatus
      · exact .idle
    · exact .idle
  | handOver i =>
    apply engineStep_onFire
    intro fire hfire
    unfold Engine.handOver
    split
    · next h => exact .handOver hfire h
    · exact .idle
  | leave i =>
    apply engineStep_onFire
    intro fire hfire
    unfold Engine.leave
    split
    · next hstage => exact .unstarted hfire hstage
    · next hstage => exact .leave hfire hstage
  | record occurrence => exact .record
  | finalize run status =>
    change EngineStep config engine _ (engine.finalize run status)
    unfold Engine.finalize
    split
    · next occurrence hrun =>
      split
      · next h => exact .finalize hrun h.1 h.2
      · exact .idle
    · exact .idle
  | prune cutoff => exact .prune

end Stepped

end Lionagi.Scheduler
