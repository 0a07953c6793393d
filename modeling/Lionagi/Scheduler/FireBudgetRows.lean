import Lionagi.Scheduler.FireBudget

/-!
# The rows that budgets are counted by

The rows that fires have committed stay among the rows, unless the retention removes them, and a fire that
was admitted has claimed what is limited.
-/

namespace Lionagi.Scheduler.Engine

variable (config : EngineConfig) (engine : Engine)

/-- The reservations that are not counted are of fires that commit no row inside the window, and no row
that would be counted has been removed. -/
def Covered : EngineOp → Prop
  | .reserveRate i now => ∀ fire ∈ engine.fires[i]?,
      ∀ limit ∈ (config.limits fire.scheduleId).rateLimit, ∀ other ∈ engine.fires,
        ∀ entry ∈ other.ticket fire.scheduleId,
          entry ∉ engine.active fire.scheduleId (now - limit.windowSec) →
            other.stage.isPast (now - limit.windowSec) = true
  | .countRate i => ∀ fire ∈ engine.fires[i]?, ∀ now ∈ fire.stage.rateNow,
      ∀ limit ∈ (config.limits fire.scheduleId).rateLimit,
        ∀ run ∈ engine.removed, run.countedIn fire.scheduleId (some (now - limit.windowSec)) = false
  | .countRuns i => ∀ fire ∈ engine.fires[i]?,
      ∀ run ∈ engine.removed, run.countedIn fire.scheduleId none = false
  | _ => True

instance : ∀ op, Decidable (engine.Covered config op)
  | .reserveRate _ _ => inferInstanceAs (Decidable (∀ _ ∈ _, ∀ _ ∈ _, ∀ _ ∈ _, ∀ _ ∈ _, _ → _))
  | .countRate _ => inferInstanceAs (Decidable (∀ _ ∈ _, ∀ _ ∈ _, ∀ _ ∈ _, ∀ _ ∈ _, _))
  | .countRuns _ => inferInstanceAs (Decidable (∀ _ ∈ _, ∀ _ ∈ _, _))
  | .tick _ | .begin _ | .reserveThreshold _ | .grantRate _ | .reserveRuns _ | .grantRuns _
  | .reserveSlot _ | .reserveAdhoc _ | .releaseAdhoc _ | .launch _ | .enter _ | .fireInline _
  | .commit _ _ | .handOver _ | .leave _ | .record _ | .finalize _ _ | .prune _ =>
    inferInstanceAs (Decidable True)

variable {config engine} {i : ℕ} {fire fire' : Fire}

/-! ## Rows -/

theorem counts_occurrence {status : String} (hstatus : status = "running" ∨ status = "failed")
    (firedAt : ℚ) : (fire.occurrence status firedAt).Counts fire.scheduleId := by
  refine ⟨rfl, rfl, ?_⟩
  change status ∈ executedRunStatuses
  rcases hstatus with rfl | rfl <;> decide

theorem Recorded.commit (h : engine.Recorded) (fire : Fire) {status : String}
    (hstatus : status = "running" ∨ status = "failed") (firedAt : ℚ) :
    Recorded { engine with
      runs := engine.runs ++ [fire.occurrence status firedAt]
      committed := engine.committed ++ [fire.occurrence status firedAt] } where
  counts run hrun := by
    rcases List.mem_append.1 hrun with hrun | hrun
    · exact h.counts run hrun
    · cases List.mem_singleton.1 hrun
      exact counts_occurrence hstatus firedAt
  rows scheduleId firedAfter := by
    have hbefore := h.rows scheduleId firedAfter
    change (engine.committed ++ _).countP _ ≤ (engine.runs ++ _).countP _ + engine.removed.countP _
    rw [List.countP_append, List.countP_append]
    omega

theorem Recorded.record (h : engine.Recorded) (occurrence : Occurrence) :
    Recorded { engine with runs := engine.runs ++ [occurrence] } where
  counts := h.counts
  rows scheduleId firedAfter := by
    have hbefore := h.rows scheduleId firedAfter
    change engine.committed.countP _ ≤ (engine.runs ++ _).countP _ + engine.removed.countP _
    rw [List.countP_append]
    omega

theorem Recorded.finalize (h : engine.Recorded) {run : ℕ} {occurrence : Occurrence} {status : String}
    (hrun : engine.runs[run]? = some occurrence) (hrunning : occurrence.status = "running")
    (hstatus : status ∈ terminalRunStatuses) :
    Recorded { engine with runs := engine.runs.set run { occurrence with status := status } } where
  counts := h.counts
  rows scheduleId firedAfter := by
    have hbefore := h.rows scheduleId firedAfter
    have hexecuted : status ∈ executedRunStatuses := List.mem_cons_of_mem _ hstatus
    have hbefore' : occurrence.status ∈ executedRunStatuses := hrunning ▸ List.mem_cons_self
    have hcounted : Occurrence.countedIn { occurrence with status := status } scheduleId firedAfter =
        occurrence.countedIn scheduleId firedAfter := by
      simp only [Occurrence.countedIn, Occurrence.Counts, hexecuted, hbefore']
    change _ ≤ (engine.runs.set run _).countP _ + _
    rw [Processes.countP_set_of_eq (p := (·.countedIn scheduleId firedAfter)) hrun hcounted]
    exact hbefore

theorem Recorded.prune (h : engine.Recorded) (cutoff : ℚ) : (engine.prune cutoff).Recorded where
  counts := h.counts
  rows scheduleId firedAfter := by
    have hbefore := h.rows scheduleId firedAfter
    have hsplit : engine.runs.countP (·.countedIn scheduleId firedAfter) =
        (engine.runs.filter fun run ↦ run.Prunable cutoff).countP (·.countedIn scheduleId firedAfter) +
          (engine.runs.filter fun run ↦ ¬ run.Prunable cutoff).countP
            (·.countedIn scheduleId firedAfter) := by
      rw [List.countP_eq_countP_filter_add engine.runs _ fun run ↦ decide (run.Prunable cutoff)]
      congr 3
      funext run
      exact (decide_not ..).symm
    change engine.committed.countP _ ≤ (engine.runs.filter _).countP _ + (engine.removed ++ _).countP _
    rw [List.countP_append]
    omega

/-- Every operation keeps the rows that were committed, or removes them. -/
theorem Recorded.exec (h : engine.Recorded) (op : EngineOp) : (engine.exec config op).Recorded := by
  have hstep := exec_engineStep config engine op
  generalize engine.exec config op = engine' at hstep ⊢
  cases hstep with
  | @commit i status firedAt fire _ _ hstatus =>
    have hcommit := h.commit fire hstatus firedAt
    exact ⟨hcommit.counts, hcommit.rows⟩
  | record => exact h.record _
  | finalize hrun hrunning hstatus => exact h.finalize hrun hrunning hstatus
  | prune => exact h.prune _
  | _ => exact ⟨h.counts, h.rows⟩

/-- What is spent is among the rows that are counted, if none of these was removed. -/
theorem spent_le_countScheduleRuns (hrecorded : engine.Recorded) {budget : Budget} {scheduleId : String}
    {firedAfter : Option ℚ}
    (hspends : ∀ run : Occurrence, run.spends budget = true →
      run.scheduleId = scheduleId ∧ ∀ after ∈ firedAfter, after ≤ run.firedAt)
    (hremoved : ∀ run ∈ engine.removed, run.countedIn scheduleId firedAfter = false) :
    engine.spent budget ≤ engine.countScheduleRuns scheduleId firedAfter := by
  have hle : engine.spent budget ≤ engine.committed.countP (·.countedIn scheduleId firedAfter) := by
    apply List.countP_mono_left
    intro run hrun h
    obtain ⟨rfl, hafter⟩ := hspends run h
    exact decide_eq_true ⟨hrecorded.counts run hrun, hafter⟩
  have hnone : engine.removed.countP (·.countedIn scheduleId firedAfter) = 0 := by
    rw [List.countP_eq_zero]
    intro run hrun
    rw [hremoved run hrun]
    exact Bool.false_ne_true
  have hrows := hrecorded.rows scheduleId firedAfter
  rw [hnone] at hrows
  exact hle.trans hrows

/-! ## Fires that were admitted -/

theorem Launched.setFire (h : engine.Launched config)
    (hfire : fire'.stage.isLaunched = true → fire'.Admitted config) :
    (engine.setFire i fire').Launched config := by
  intro other hmem hlaunched
  rcases mem_setFire hmem with rfl | hmem
  · exact hfire hlaunched
  · exact h other hmem hlaunched

theorem absurd_admitting {p : Prop} (hstage : fire.stage = .admitting)
    (hlaunched : fire.stage.isLaunched = true) : p := by
  rw [hstage] at hlaunched
  cases hlaunched

/-- Every operation launches only what was admitted. -/
theorem Launched.exec (h : engine.Launched config) (op : EngineOp) :
    (engine.exec config op).Launched config := by
  have hstep := exec_engineStep config engine op
  generalize engine.exec config op = engine' at hstep ⊢
  cases hstep with
  | idle => exact h
  | tick => exact h
  | begin =>
    intro fire hmem hlaunched
    rcases List.mem_append.1 hmem with hmem | hmem
    · exact h fire hmem hlaunched
    · rw [List.mem_singleton.1 hmem] at hlaunched
      cases hlaunched
  | reserveThreshold _ hstage => exact Launched.setFire h (absurd_admitting hstage)
  | reserveRate => exact Launched.setFire h (absurd · Bool.false_ne_true)
  | countRate => exact h.setFire (absurd · Bool.false_ne_true)
  | refuseRate => exact h.setFire (absurd · Bool.false_ne_true)
  | grantRate => exact Launched.setFire h (absurd · Bool.false_ne_true)
  | reserveRuns => exact h.setFire (absurd · Bool.false_ne_true)
  | countRuns => exact h.setFire (absurd · Bool.false_ne_true)
  | refuseRuns => exact h.setFire (absurd · Bool.false_ne_true)
  | grantRuns => exact Launched.setFire h (absurd · Bool.false_ne_true)
  | reserveSlot _ hstage => exact Launched.setFire h (absurd_admitting hstage)
  | reserveAdhoc _ hstage => exact Launched.setFire h (absurd_admitting hstage)
  | releaseAdhoc _ hstage => exact Launched.setFire h (absurd_admitting hstage)
  | launch _ _ hadmitted => exact h.setFire fun _ ↦ hadmitted
  | enter hfire hstage =>
    have hadmitted := h _ (List.mem_of_getElem? hfire) (hstage ▸ rfl)
    exact h.setFire fun _ ↦ hadmitted
  | fireInline _ _ hadmitted => exact h.setFire fun _ ↦ hadmitted
  | commit => exact Launched.setFire h (absurd · Bool.false_ne_true)
  | handOver => exact Launched.setFire h (absurd · Bool.false_ne_true)
  | unstarted => exact h.setFire (absurd · Bool.false_ne_true)
  | leave => exact Launched.setFire h (absurd · Bool.false_ne_true)
  | record => exact h
  | finalize => exact h
  | prune => exact h

end Lionagi.Scheduler.Engine
