import Lionagi.Library.Transition
import Lionagi.Scheduler.FireBudgetRuns
import Lionagi.Scheduler.FireBudgetWindow

/-!
# Budgets are kept

A grant compares what is counted with the limit. What is counted covers what is spent and pending, as long
as no reservation that has left the window is held by a fire that may still get a time inside it, and no
row has been removed that would be counted. Budgets are then kept in every run.
-/

namespace Lionagi.Scheduler.Engine

variable (config : EngineConfig) (engine : Engine)

/-- The fires that have committed a row are no more than `max_runs` allows, and those with a time in any
window no more than `rate_limit` allows. -/
structure WithinBudget : Prop where
  runs : ∀ scheduleId maxRuns, (config.limits scheduleId).cap = some maxRuns →
    engine.spent (.runs scheduleId) ≤ maxRuns
  window : ∀ scheduleId limit, (config.limits scheduleId).rateLimit = some limit →
    ∀ start : ℚ, engine.spent (.window scheduleId start (start + limit.windowSec)) ≤ limit.maxFires

variable {config engine}

variable (config engine) in
/-- The budgets are kept, and what they are counted by is true. -/
structure Metered : Prop where
  ticketed : engine.Ticketed config
  recorded : engine.Recorded
  launched : engine.Launched config
  runs : engine.RunsKept config
  window : engine.WindowKept config

theorem Metered.exec (h : engine.Metered config) {op : EngineOp} (hop : engine.Covered config op) :
    (engine.exec config op).Metered config where
  ticketed := h.ticketed.exec op
  recorded := h.recorded.exec op
  launched := h.launched.exec op
  runs := h.runs.exec h.recorded h.launched hop
  window := h.window.exec h.ticketed h.recorded h.launched hop

theorem Metered.withinBudget (h : engine.Metered config) : engine.WithinBudget config where
  runs scheduleId maxRuns hcap := (Nat.le_add_right _ _).trans (h.runs.limit scheduleId maxRuns hcap)
  window scheduleId limit hlimit start :=
    (Nat.le_add_right _ _).trans (h.window.limit scheduleId limit hlimit start)

theorem metered_start (clock : ℚ) (runs : List Occurrence) : (start clock runs).Metered config where
  ticketed := ticketed_start clock runs
  recorded := ⟨fun _ h ↦ absurd h List.not_mem_nil, fun _ _ ↦ Nat.zero_le _⟩
  launched _ h := absurd h List.not_mem_nil
  runs := ⟨fun _ h ↦ absurd h List.not_mem_nil, Nat.zero_le _, fun _ ↦ Nat.zero_le _,
    fun _ _ _ ↦ Nat.zero_le _⟩
  window := ⟨fun _ h ↦ absurd h List.not_mem_nil, Nat.zero_le _, fun _ _ _ _ ↦ Nat.zero_le _⟩

/-- The budgets are kept in every state of a run in which every count covers what it should. -/
theorem withinBudget_throughout (config : EngineConfig) (clock : ℚ) (runs : List Occurrence)
    (ops : List EngineOp)
    (h : Transition.Along (Engine.exec config) (Covered config) (start clock runs) ops) :
    Transition.Throughout (Engine.exec config) (WithinBudget config) (start clock runs) ops := by
  apply Transition.Throughout.mono (I := Metered config)
  · exact fun _ hmetered ↦ hmetered.withinBudget
  · exact Transition.Throughout.of_along (fun _ _ hmetered hop ↦ hmetered.exec hop)
      (metered_start clock runs) h

/-- A schedule that may run three times, and once in ten seconds. -/
def onceInTen : EngineConfig where
  limits _ := { maxRuns := some 3, rateLimit := some ⟨1, 10, Nat.one_pos, by decide⟩ }
  maxScheduledConcurrent := 0
  maxAdhocConcurrent := 0

theorem withinBudget_onceInTen : Transition.Throughout (Engine.exec onceInTen) (WithinBudget onceInTen)
    (start 0 []) [.begin "nightly", .reserveRate 0 0, .countRate 0, .grantRate 0, .reserveRuns 0,
      .countRuns 0, .grantRuns 0, .launch 0, .enter 0, .commit 0 "running", .handOver 0,
      .begin "nightly", .reserveRate 1 0, .countRate 1, .grantRate 1] :=
  withinBudget_throughout onceInTen 0 [] _ (by decide +kernel)

/-- A fire starts nine seconds after it was reserved. It is not counted two seconds later, when its
reservation has left the window, and commits afterwards. -/
theorem not_withinBudget_throughout : ¬ Transition.Throughout (Engine.exec onceInTen)
    (WithinBudget onceInTen) (start 0 []) [.begin "nightly", .reserveRate 0 0, .countRate 0, .grantRate 0,
      .reserveRuns 0, .countRuns 0, .grantRuns 0, .launch 0, .tick 9, .enter 0, .tick 2,
      .begin "nightly", .reserveRate 1 11, .countRate 1, .grantRate 1, .reserveRuns 1, .countRuns 1,
      .grantRuns 1, .launch 1, .enter 1, .commit 0 "running", .commit 1 "running"] := by
  intro h
  have hwindow := h.final.window "nightly" ⟨1, 10, Nat.one_pos, by decide⟩ rfl 9
  exact absurd hwindow (by decide +kernel)

end Lionagi.Scheduler.Engine
