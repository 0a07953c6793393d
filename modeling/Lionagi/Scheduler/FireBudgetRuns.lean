import Lionagi.Scheduler.FireBudgetRows

/-!
# Runs against their limit

Under the lock a fire reads the reservations of runs and then counts rows. Both together cover what is
spent and pending until it grants itself a run.
-/

namespace Lionagi.Scheduler.Engine

variable {config : EngineConfig} {engine engine' : Engine} {i : ℕ} {fire fire' : Fire}

variable (config engine) in
/-- What a fire has counted covers what is spent and pending. -/
def RunsCounted (fire : Fire) : Prop :=
  ∀ inflight fired maxRuns, fire.stage = .countingRuns inflight fired →
    (config.limits fire.scheduleId).cap = some maxRuns →
      engine.runsClaimed fire.scheduleId ≤ inflight ∧
        ∀ rows ∈ fired, engine.spent (.runs fire.scheduleId) + engine.pending (.runs fire.scheduleId) ≤
          rows + inflight

variable (config engine) in
structure RunsKept : Prop where
  counted : ∀ fire ∈ engine.fires, engine.RunsCounted config fire
  single : engine.fires.countP (·.stage.isCountingRuns) ≤ 1
  reserved : ∀ scheduleId, engine.runsClaimed scheduleId ≤ engine.maxRunsInflight scheduleId
  limit : ∀ scheduleId maxRuns, (config.limits scheduleId).cap = some maxRuns →
    engine.spent (.runs scheduleId) + engine.pending (.runs scheduleId) ≤ maxRuns

theorem pending_le_runsClaimed (scheduleId : String) :
    engine.pending (.runs scheduleId) ≤ engine.runsClaimed scheduleId := by
  apply List.countP_mono_left
  intro fire _ h
  exact (Bool.and_eq_true_iff.1 h).1

theorem limited_runs {scheduleId : String} {maxRuns : ℕ}
    (hcap : (config.limits scheduleId).cap = some maxRuns) : config.Limited (.runs scheduleId) := by
  rw [EngineConfig.Limited, hcap]
  rfl

theorem RunsCounted.of_shrinks (h : engine.RunsCounted config fire)
    (hclaimed : ∀ scheduleId, engine'.runsClaimed scheduleId ≤ engine.runsClaimed scheduleId)
    (hlessens : ∀ scheduleId, Lessens config engine engine' (.runs scheduleId)) :
    engine'.RunsCounted config fire := by
  intro inflight fired maxRuns hstage hcap
  obtain ⟨hle, hrows⟩ := h inflight fired maxRuns hstage hcap
  refine ⟨(hclaimed _).trans hle, ?_⟩
  intro rows hfired
  exact ((hlessens _).total (limited_runs hcap)).trans (hrows rows hfired)

/-- A fire that counts no runs. -/
theorem runsCounted_of_not (h : fire.stage.isCountingRuns = false) : engine.RunsCounted config fire := by
  intro inflight fired maxRuns hstage
  rw [hstage] at h
  cases h

/-- A step that adds nothing to any runs, after which the fires that count them did before. -/
theorem RunsKept.of_lessens (h : engine.RunsKept config)
    (hclaimed : ∀ scheduleId, engine'.runsClaimed scheduleId ≤ engine.runsClaimed scheduleId)
    (hreserved : ∀ scheduleId, engine'.runsClaimed scheduleId ≤ engine'.maxRunsInflight scheduleId)
    (hlessens : ∀ scheduleId, Lessens config engine engine' (.runs scheduleId))
    (hcounted : ∀ fire ∈ engine'.fires, fire ∈ engine.fires ∨ engine'.RunsCounted config fire)
    (hsingle : engine'.fires.countP (·.stage.isCountingRuns) ≤ 1) : engine'.RunsKept config where
  counted fire hfire := by
    rcases hcounted fire hfire with hold | hnew
    · exact (h.counted fire hold).of_shrinks hclaimed hlessens
    · exact hnew
  single := hsingle
  reserved := hreserved
  limit scheduleId maxRuns hcap :=
    ((hlessens scheduleId).total (limited_runs hcap)).trans (h.limit scheduleId maxRuns hcap)

theorem RunsKept.quiet (h : engine.RunsKept config) (hquiet : Quiet config engine engine') :
    engine'.RunsKept config := by
  have hreserved : ∀ scheduleId, engine'.runsClaimed scheduleId ≤ engine'.maxRunsInflight scheduleId :=
    fun scheduleId ↦ hquiet.reserved scheduleId (h.reserved scheduleId)
  apply h.of_lessens hquiet.claimed hreserved (fun _ ↦ hquiet.lessens _) _ (hquiet.runs.trans h.single)
  intro fire hfire
  by_cases hcounting : fire.stage.isCountingRuns = true
  · exact .inl (hquiet.kept fire hfire (by rw [hcounting, Bool.or_true]))
  · exact .inr (runsCounted_of_not (Bool.eq_false_of_not_eq_true hcounting))

/-- A step of one fire that leaves its claim of a run. -/
theorem RunsKept.setFire (h : engine.RunsKept config) (hfire : engine.fires[i]? = some fire)
    (hfires : engine'.fires = engine.fires) (hclock : engine'.clock = engine.clock)
    (hcommitted : engine'.committed = engine.committed)
    (hinflight : engine'.maxRunsInflight = engine.maxRunsInflight)
    (hclaims : fire'.scheduleId = fire.scheduleId ∧ fire'.maxRuns = fire.maxRuns)
    (hstage : fire.stage.isWaiting = true)
    (hcounted : (engine'.setFire i fire').RunsCounted config fire')
    (hsingle : (engine.fires.set i fire').countP (·.stage.isCountingRuns) ≤ 1) :
    (engine'.setFire i fire').RunsKept config := by
  have hsame : ∀ scheduleId, fire'.claims (.maxRuns scheduleId) = fire.claims (.maxRuns scheduleId) := by
    intro scheduleId
    rw [Fire.claims, Fire.claims, hclaims.1, hclaims.2]
  have hpending : ∀ scheduleId, fire'.pending engine.clock (.runs scheduleId) = true →
      fire.pending engine.clock (.runs scheduleId) = true := by
    intro scheduleId hpending
    rw [Fire.pending, hsame] at hpending
    rw [Fire.pending, FireStage.isUncommitted_of_waiting hstage, Bool.and_true]
    exact (Bool.and_eq_true_iff.1 hpending).1
  have hclaimed : ∀ scheduleId,
      (engine'.setFire i fire').runsClaimed scheduleId ≤ engine.runsClaimed scheduleId := by
    intro scheduleId
    exact runsClaimed_setFire_le hfire hfires fun h ↦ (hsame scheduleId).symm.trans h
  apply h.of_lessens hclaimed
  · intro scheduleId
    change _ ≤ engine'.maxRunsInflight scheduleId
    rw [hinflight]
    exact (hclaimed scheduleId).trans (h.reserved scheduleId)
  · intro scheduleId
    exact lessens_setFire hfire hfires hclock hcommitted (hpending scheduleId)
  · intro other hother
    rcases mem_setFire hother with rfl | hmem
    · exact .inr hcounted
    · exact .inl (hfires ▸ hmem)
  · rw [fires_setFire, hfires]
    exact hsingle

/-- Such a step to a stage in which the fire counts no runs. -/
theorem RunsKept.setFire_of_not (h : engine.RunsKept config) (hfire : engine.fires[i]? = some fire)
    (hfires : engine'.fires = engine.fires) (hclock : engine'.clock = engine.clock)
    (hcommitted : engine'.committed = engine.committed)
    (hinflight : engine'.maxRunsInflight = engine.maxRunsInflight)
    (hclaims : fire'.scheduleId = fire.scheduleId ∧ fire'.maxRuns = fire.maxRuns)
    (hstage : fire.stage.isWaiting = true) (hnot : fire'.stage.isCountingRuns = false) :
    (engine'.setFire i fire').RunsKept config := by
  refine h.setFire hfire hfires hclock hcommitted hinflight hclaims hstage (runsCounted_of_not hnot) ?_
  refine (Processes.countP_set_le (p := (·.stage.isCountingRuns)) hfire ?_).trans h.single
  intro hcounting
  exact absurd (hnot.symm.trans hcounting) Bool.false_ne_true

theorem RunsKept.reserveRuns (h : engine.RunsKept config) (hfire : engine.fires[i]? = some fire)
    (hstage : fire.stage = .admitting)
    (hall : engine.fires.all (fun fire ↦ !fire.stage.isCountingRuns) = true) :
    (engine.setFire i { fire with
      stage := .countingRuns (engine.maxRunsInflight fire.scheduleId) none }).RunsKept config := by
  refine h.setFire hfire rfl rfl rfl rfl ⟨rfl, rfl⟩ (FireStage.isWaiting_admitting hstage) ?_ ?_
  · intro inflight fired maxRuns hcounting hcap
    cases hcounting
    refine ⟨?_, fun rows hrows ↦ absurd hrows (Option.not_mem_none rows)⟩
    have hsame : (engine.setFire i { fire with
        stage := .countingRuns (engine.maxRunsInflight fire.scheduleId) none }).runsClaimed
          fire.scheduleId ≤ engine.runsClaimed fire.scheduleId :=
      runsClaimed_setFire_le hfire rfl fun h ↦ h
    exact hsame.trans (h.reserved fire.scheduleId)
  · have hzero : engine.fires.countP (·.stage.isCountingRuns) = 0 := by
      rw [List.countP_eq_zero]
      intro other hother hcounting
      have hnot := List.all_eq_true.1 hall other hother
      rw [hcounting] at hnot
      cases hnot
    rw [← Nat.zero_add 1, ← hzero]
    exact Processes.countP_set_le_succ hfire

theorem RunsKept.countRuns (h : engine.RunsKept config) (hrecorded : engine.Recorded)
    (hfire : engine.fires[i]? = some fire) {inflight : ℕ} (hstage : fire.stage = .countingRuns inflight none)
    (hremoved : ∀ run ∈ engine.removed, run.countedIn fire.scheduleId none = false) :
    (engine.setFire i { fire with
      stage := .countingRuns inflight
        (some (engine.countScheduleRuns fire.scheduleId none)) }).RunsKept config := by
  have hwaiting : fire.stage.isWaiting = true := by rw [hstage]; rfl
  refine h.setFire hfire rfl rfl rfl rfl ⟨rfl, rfl⟩ hwaiting ?_ ?_
  · intro inflight' fired maxRuns hcounting hcap
    cases hcounting
    obtain ⟨hle, -⟩ := h.counted fire (List.mem_of_getElem? hfire) _ _ maxRuns hstage hcap
    have hsame : (engine.setFire i { fire with
        stage := .countingRuns inflight
          (some (engine.countScheduleRuns fire.scheduleId none)) }).runsClaimed fire.scheduleId ≤
            engine.runsClaimed fire.scheduleId := runsClaimed_setFire_le hfire rfl fun h ↦ h
    have hclaimed := hsame.trans hle
    refine ⟨hclaimed, ?_⟩
    intro rows hrows
    cases hrows
    have hspent : engine.spent (.runs fire.scheduleId) ≤
        engine.countScheduleRuns fire.scheduleId none := by
      apply spent_le_countScheduleRuns hrecorded _ hremoved
      intro run hspends
      exact ⟨of_decide_eq_true hspends, fun after hafter ↦ absurd hafter (Option.not_mem_none after)⟩
    exact Nat.add_le_add hspent ((pending_le_runsClaimed _).trans hclaimed)
  · exact (Processes.countP_set_le (p := (·.stage.isCountingRuns)) hfire
      fun _ ↦ by rw [hstage]; rfl).trans h.single

/-- What is granted was counted to be free. -/
theorem RunsKept.grantRuns (h : engine.RunsKept config) (hfire : engine.fires[i]? = some fire)
    {inflight fired maxRuns : ℕ} (hstage : fire.stage = .countingRuns inflight (some fired))
    (hcap : (config.limits fire.scheduleId).cap = some maxRuns) (hlt : fired + inflight < maxRuns) :
    ((engine.setRunsInflight fire.scheduleId (inflight + 1)).setFire i
      { fire with maxRuns := true, stage := .admitting }).RunsKept config := by
  obtain ⟨hclaimed, hrows⟩ := h.counted fire (List.mem_of_getElem? hfire) _ _ maxRuns hstage hcap
  have hnone : (engine.fires.set i { fire with maxRuns := true, stage := .admitting }).countP
      (·.stage.isCountingRuns) = 0 := by
    have hrelease := Processes.countP_of_release (p := (·.stage.isCountingRuns))
      (a := { fire with maxRuns := true, stage := .admitting }) hfire (by rw [hstage]; rfl) rfl
    have hsingle := h.single
    omega
  have hother : ∀ scheduleId, fire.scheduleId ≠ scheduleId →
      Fire.claims { fire with maxRuns := true, stage := .admitting } (.maxRuns scheduleId) = false := by
    intro scheduleId hid
    exact decide_eq_false hid
  constructor
  case counted =>
    intro other hmem
    apply runsCounted_of_not
    exact Bool.eq_false_of_not_eq_true (List.countP_eq_zero.1 hnone other hmem)
  case single => exact (le_of_eq hnone).trans (Nat.zero_le 1)
  case reserved =>
    intro scheduleId
    by_cases hid : fire.scheduleId = scheduleId
    · subst hid
      have hsucc : ((engine.setRunsInflight fire.scheduleId (inflight + 1)).setFire i
          { fire with maxRuns := true, stage := .admitting }).runsClaimed fire.scheduleId ≤
            engine.runsClaimed fire.scheduleId + 1 :=
        runsClaimed_setFire_le_succ hfire rfl fire.scheduleId
      have hwritten : (engine.setRunsInflight fire.scheduleId (inflight + 1)).maxRunsInflight
          fire.scheduleId = inflight + 1 := Function.update_self _ _ _
      exact (hsucc.trans (Nat.succ_le_succ hclaimed)).trans (le_of_eq hwritten.symm)
    · have hsame : ((engine.setRunsInflight fire.scheduleId (inflight + 1)).setFire i
          { fire with maxRuns := true, stage := .admitting }).runsClaimed scheduleId ≤
            engine.runsClaimed scheduleId :=
        runsClaimed_setFire_le hfire rfl
          fun hclaims ↦ absurd ((hother scheduleId hid).symm.trans hclaims) Bool.false_ne_true
      have hkept : (engine.setRunsInflight fire.scheduleId (inflight + 1)).maxRunsInflight scheduleId =
          engine.maxRunsInflight scheduleId := Function.update_of_ne (Ne.symm hid) _ _
      exact (hsame.trans (h.reserved scheduleId)).trans (le_of_eq hkept.symm)
  case limit =>
    intro scheduleId maxRuns' hcap'
    by_cases hid : fire.scheduleId = scheduleId
    · subst hid
      cases hcap.symm.trans hcap'
      have hsucc : ((engine.setRunsInflight fire.scheduleId (inflight + 1)).setFire i
          { fire with maxRuns := true, stage := .admitting }).pending (.runs fire.scheduleId) ≤
            engine.pending (.runs fire.scheduleId) + 1 :=
        pending_setFire_le_succ hfire rfl rfl (.runs fire.scheduleId)
      have hfree := hrows fired rfl
      change engine.spent _ + _ ≤ _
      omega
    · have hlessens : Lessens config engine ((engine.setRunsInflight fire.scheduleId
          (inflight + 1)).setFire i { fire with maxRuns := true, stage := .admitting })
            (.runs scheduleId) := by
        have hfires : (engine.setRunsInflight fire.scheduleId (inflight + 1)).fires = engine.fires := rfl
        refine lessens_setFire hfire hfires rfl rfl ?_
        intro hpending
        rw [Fire.pending, hother scheduleId hid] at hpending
        cases hpending
      exact (hlessens.total (limited_runs hcap')).trans (h.limit scheduleId maxRuns' hcap')

/-- An operation that counts all rows keeps the runs. -/
theorem RunsKept.exec (h : engine.RunsKept config) (hrecorded : engine.Recorded)
    (hlaunched : engine.Launched config) {op : EngineOp} (hop : engine.Covered config op) :
    (engine.exec config op).RunsKept config := by
  by_cases hcounts : op.counts = false
  · exact h.quiet (quiet_exec hlaunched hcounts)
  · have hstep := exec_engineStep config engine op
    generalize engine.exec config op = engine' at hstep ⊢
    cases hstep with
    | idle => exact h
    | reserveRate hfire hstage =>
      have hwaiting := FireStage.isWaiting_admitting hstage
      exact h.setFire_of_not hfire rfl rfl rfl rfl ⟨rfl, rfl⟩ hwaiting rfl
    | countRate hfire hstage =>
      exact h.setFire_of_not hfire rfl rfl rfl rfl ⟨rfl, rfl⟩ (by rw [hstage]; rfl) rfl
    | refuseRate hfire hstage =>
      exact h.setFire_of_not hfire rfl rfl rfl rfl ⟨rfl, rfl⟩ (by rw [hstage]; rfl) rfl
    | grantRate hfire hstage =>
      exact h.setFire_of_not hfire rfl rfl rfl rfl ⟨rfl, rfl⟩ (by rw [hstage]; rfl) rfl
    | reserveRuns hfire hstage _ _ hall => exact h.reserveRuns hfire hstage hall
    | countRuns hfire hstage =>
      have hremoved := hop _ hfire
      exact h.countRuns hrecorded hfire hstage hremoved
    | refuseRuns hfire hstage =>
      exact h.setFire_of_not hfire rfl rfl rfl rfl ⟨rfl, rfl⟩ (by rw [hstage]; rfl) rfl
    | grantRuns hfire hstage hcap hlt => exact h.grantRuns hfire hstage hcap hlt
    | _ => exact absurd rfl hcounts

end Lionagi.Scheduler.Engine
