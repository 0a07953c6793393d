import Mathlib.Data.List.Perm.Subperm
import Lionagi.Scheduler.FireBudgetRows

/-!
# Rolling windows against their limit

Under the lock a fire counts the reservations inside the rolling window and then rows. Both together cover
what is spent and pending in every window that the fire may land in, until it grants itself a token.
-/

namespace Lionagi.Scheduler.Engine

variable {config : EngineConfig} {engine engine' : Engine} {i : ℕ} {fire fire' : Fire}

variable (config engine) in
/-- What a fire has counted covers what is spent and pending in every window that starts later. -/
def WindowCounted (fire : Fire) : Prop :=
  ∀ now inflight used limit, fire.stage = .countingRate now inflight used →
    (config.limits fire.scheduleId).rateLimit = some limit → now ≤ engine.clock ∧
      ∀ start : ℚ, now - limit.windowSec < start →
        engine.pending (.window fire.scheduleId start (start + limit.windowSec)) ≤ inflight ∧
          ∀ rows ∈ used, engine.spent (.window fire.scheduleId start (start + limit.windowSec)) +
            engine.pending (.window fire.scheduleId start (start + limit.windowSec)) ≤ rows + inflight

variable (config engine) in
structure WindowKept : Prop where
  counted : ∀ fire ∈ engine.fires, engine.WindowCounted config fire
  single : engine.fires.countP (·.stage.isCountingRate) ≤ 1
  limit : ∀ scheduleId limit, (config.limits scheduleId).rateLimit = some limit → ∀ start : ℚ,
    engine.spent (.window scheduleId start (start + limit.windowSec)) +
      engine.pending (.window scheduleId start (start + limit.windowSec)) ≤ limit.maxFires

variable {scheduleId : String} {limit : RateLimit} {cutoff now start : ℚ}

theorem limited_window {stop : ℚ} (hlimit : (config.limits scheduleId).rateLimit = some limit) :
    config.Limited (.window scheduleId start stop) := by
  rw [EngineConfig.Limited, hlimit]
  rfl

theorem WindowCounted.of_lessens (h : engine.WindowCounted config fire)
    (hclock : engine.clock ≤ engine'.clock)
    (hlessens : ∀ scheduleId start stop, Lessens config engine engine' (.window scheduleId start stop)) :
    engine'.WindowCounted config fire := by
  intro now inflight used limit hstage hlimit
  obtain ⟨hnow, hwindow⟩ := h now inflight used limit hstage hlimit
  refine ⟨hnow.trans hclock, ?_⟩
  intro start hstart
  obtain ⟨hle, hrows⟩ := hwindow start hstart
  refine ⟨((hlessens _ _ _).pending).trans hle, ?_⟩
  intro rows hused
  exact ((hlessens _ _ _).total (limited_window hlimit)).trans (hrows rows hused)

theorem windowCounted_of_not (h : fire.stage.isCountingRate = false) :
    engine.WindowCounted config fire := by
  intro now inflight used limit hstage
  rw [hstage] at h
  cases h

/-- A step that adds nothing to any window, after which the fires that count them did before. -/
theorem WindowKept.of_lessens (h : engine.WindowKept config) (hclock : engine.clock ≤ engine'.clock)
    (hlessens : ∀ scheduleId start stop, Lessens config engine engine' (.window scheduleId start stop))
    (hcounted : ∀ fire ∈ engine'.fires, fire ∈ engine.fires ∨ engine'.WindowCounted config fire)
    (hsingle : engine'.fires.countP (·.stage.isCountingRate) ≤ 1) : engine'.WindowKept config where
  counted fire hfire := by
    rcases hcounted fire hfire with hold | hnew
    · exact (h.counted fire hold).of_lessens hclock hlessens
    · exact hnew
  single := hsingle
  limit scheduleId limit hlimit start :=
    ((hlessens _ _ _).total (limited_window hlimit)).trans (h.limit scheduleId limit hlimit start)

theorem WindowKept.quiet (h : engine.WindowKept config) (hquiet : Quiet config engine engine') :
    engine'.WindowKept config := by
  apply h.of_lessens hquiet.clock (fun _ _ _ ↦ hquiet.lessens _) _ (hquiet.rate.trans h.single)
  intro fire hfire
  by_cases hcounting : fire.stage.isCountingRate = true
  · exact .inl (hquiet.kept fire hfire (by rw [hcounting, Bool.true_or]))
  · exact .inr (windowCounted_of_not (Bool.eq_false_of_not_eq_true hcounting))

/-- A step of one fire between stages in which its time is not read, which leaves its token. -/
theorem WindowKept.setFire (h : engine.WindowKept config) (hfire : engine.fires[i]? = some fire)
    (hfires : engine'.fires = engine.fires) (hclock : engine'.clock = engine.clock)
    (hcommitted : engine'.committed = engine.committed)
    (hclaims : fire'.scheduleId = fire.scheduleId ∧ fire'.rate = fire.rate)
    (hstage : fire.stage.isWaiting = true) (hstage' : fire'.stage.isWaiting = true)
    (hcounted : (engine'.setFire i fire').WindowCounted config fire')
    (hsingle : (engine.fires.set i fire').countP (·.stage.isCountingRate) ≤ 1) :
    (engine'.setFire i fire').WindowKept config := by
  have hkept : engine.clock ≤ (engine'.setFire i fire').clock := le_of_eq hclock.symm
  apply h.of_lessens hkept
  · intro scheduleId start stop
    refine lessens_setFire hfire hfires hclock hcommitted ?_
    intro hpending
    rw [Fire.pending, Fire.ticket, hclaims.1, hclaims.2, FireStage.mayLand_of_waiting hstage'] at hpending
    rw [Fire.pending, Fire.ticket, FireStage.mayLand_of_waiting hstage]
    exact hpending
  · intro other hother
    rcases mem_setFire hother with rfl | hmem
    · exact .inr hcounted
    · exact .inl (hfires ▸ hmem)
  · rw [fires_setFire, hfires]
    exact hsingle

/-- Such a step to a stage in which the fire counts no rolling window. -/
theorem WindowKept.setFire_of_not (h : engine.WindowKept config) (hfire : engine.fires[i]? = some fire)
    (hfires : engine'.fires = engine.fires) (hclock : engine'.clock = engine.clock)
    (hcommitted : engine'.committed = engine.committed)
    (hclaims : fire'.scheduleId = fire.scheduleId ∧ fire'.rate = fire.rate)
    (hstage : fire.stage.isWaiting = true) (hstage' : fire'.stage.isWaiting = true)
    (hnot : fire'.stage.isCountingRate = false) : (engine'.setFire i fire').WindowKept config := by
  refine h.setFire hfire hfires hclock hcommitted hclaims hstage hstage' (windowCounted_of_not hnot) ?_
  refine (Processes.countP_set_le (p := (·.stage.isCountingRate)) hfire ?_).trans h.single
  intro hcounting
  exact absurd (hnot.symm.trans hcounting) Bool.false_ne_true

/-- A fire past the cutoff lands in no window that starts later. -/
theorem mayLand_of_isPast {stage : FireStage} (h : stage.isPast cutoff = true) (hstart : cutoff < start)
    (clock stop : ℚ) : stage.mayLand clock start stop = false := by
  cases stage with
  | firing firedAt =>
    have hbefore : firedAt < start := (of_decide_eq_true h).trans hstart
    exact decide_eq_false fun hland ↦ absurd hbefore (not_lt_of_ge hland.1)
  | committed => rfl
  | running => rfl
  | ended => rfl
  | _ => cases h

/-- What is pending in a window holds tokens that are counted, if those that are not counted are of fires
that are past the cutoff. -/
theorem pending_le_active (hticketed : engine.Ticketed config)
    (hpast : ∀ other ∈ engine.fires, ∀ entry ∈ other.ticket scheduleId,
      entry ∉ engine.active scheduleId cutoff → other.stage.isPast cutoff = true) (hstart : cutoff < start) (stop : ℚ) :
    engine.pending (.window scheduleId start stop) ≤ (engine.active scheduleId cutoff).length := by
  have hlength : engine.pending (.window scheduleId start stop) = (engine.fires.filterMap fun fire ↦
      if fire.stage.mayLand engine.clock start stop then fire.ticket scheduleId else none).length := by
    rw [List.length_filterMap_eq_countP]
    apply List.countP_congr
    intro fire _
    rw [Fire.pending]
    cases fire.stage.mayLand engine.clock start stop <;> simp
  rw [hlength]
  apply List.Subperm.length_le
  apply List.subperm_of_subset
  · apply Processes.nodup_filterMap
    intro j k fire other entry hfire hother hticket hticket'
    have hj : engine.Holds j scheduleId entry :=
      ⟨fire, hfire, Fire.ticket_eq_some_iff.1 (Option.ite_none_right_eq_some.1 hticket).2⟩
    have hk : engine.Holds k scheduleId entry :=
      ⟨other, hother, Fire.ticket_eq_some_iff.1 (Option.ite_none_right_eq_some.1 hticket').2⟩
    exact hticketed.distinct j k _ _ entry entry hj hk rfl
  · intro entry hentry
    obtain ⟨fire, hfire, hticket⟩ := List.mem_filterMap.1 hentry
    obtain ⟨hland, hticket⟩ := Option.ite_none_right_eq_some.1 hticket
    by_contra hnot
    have hnever := mayLand_of_isPast (hpast fire hfire entry hticket hnot) hstart engine.clock stop
    exact absurd (hnever.symm.trans hland) Bool.false_ne_true

theorem WindowKept.reserveRate (h : engine.WindowKept config) (hticketed : engine.Ticketed config)
    (hfire : engine.fires[i]? = some fire) (hstage : fire.stage = .admitting)
    (hlimit : (config.limits fire.scheduleId).rateLimit = some limit) (hnow : now ≤ engine.clock)
    (hall : engine.fires.all (fun fire ↦ !fire.stage.isCountingRate) = true)
    (hpast : ∀ other ∈ engine.fires, ∀ entry ∈ other.ticket fire.scheduleId,
      entry ∉ engine.active fire.scheduleId (now - limit.windowSec) →
        other.stage.isPast (now - limit.windowSec) = true) :
    ((engine.setReservations fire.scheduleId
      (engine.active fire.scheduleId (now - limit.windowSec))).setFire i { fire with
        stage := .countingRate now
          (engine.active fire.scheduleId (now - limit.windowSec)).length none }).WindowKept config := by
  have hwaiting := FireStage.isWaiting_admitting hstage
  refine h.setFire hfire rfl rfl rfl ⟨rfl, rfl⟩ hwaiting rfl ?_ ?_
  · intro now' inflight used limit' hcounting hlimit'
    cases hcounting
    cases hlimit.symm.trans hlimit'
    refine ⟨hnow, ?_⟩
    intro start hstart
    refine ⟨?_, fun rows hrows ↦ absurd hrows (Option.not_mem_none rows)⟩
    have hsame : ((engine.setReservations fire.scheduleId
        (engine.active fire.scheduleId (now - limit.windowSec))).setFire i { fire with
          stage := .countingRate now
            (engine.active fire.scheduleId (now - limit.windowSec)).length none }).pending
              (.window fire.scheduleId start (start + limit.windowSec)) ≤
        engine.pending (.window fire.scheduleId start (start + limit.windowSec)) := by
      refine pending_setFire_le hfire rfl rfl ?_
      intro hpending
      rw [Fire.pending, FireStage.mayLand_of_waiting hwaiting]
      exact hpending
    exact hsame.trans (pending_le_active hticketed hpast hstart _)
  · have hzero : engine.fires.countP (·.stage.isCountingRate) = 0 := by
      rw [List.countP_eq_zero]
      intro other hother hcounting
      have hnot := List.all_eq_true.1 hall other hother
      rw [hcounting] at hnot
      cases hnot
    rw [← Nat.zero_add 1, ← hzero]
    exact Processes.countP_set_le_succ hfire

theorem WindowKept.countRate (h : engine.WindowKept config) (hrecorded : engine.Recorded)
    (hfire : engine.fires[i]? = some fire) {inflight : ℕ} (hstage : fire.stage = .countingRate now inflight none)
    (hlimit : (config.limits fire.scheduleId).rateLimit = some limit)
    (hremoved : ∀ run ∈ engine.removed, run.countedIn fire.scheduleId (some (now - limit.windowSec)) = false) :
    (engine.setFire i { fire with
      stage := .countingRate now inflight
        (some (engine.countScheduleRuns fire.scheduleId (some (now - limit.windowSec)))) }).WindowKept
          config := by
  have hwaiting : fire.stage.isWaiting = true := by rw [hstage]; rfl
  refine h.setFire hfire rfl rfl rfl ⟨rfl, rfl⟩ hwaiting rfl ?_ ?_
  · intro now' inflight' used limit' hcounting hlimit'
    cases hcounting
    cases hlimit.symm.trans hlimit'
    obtain ⟨hnow, hwindow⟩ := h.counted fire (List.mem_of_getElem? hfire) _ _ _ limit hstage hlimit
    refine ⟨hnow, ?_⟩
    intro start hstart
    have hsame : (engine.setFire i { fire with
        stage := .countingRate now inflight
          (some (engine.countScheduleRuns fire.scheduleId (some (now - limit.windowSec)))) }).pending
            (.window fire.scheduleId start (start + limit.windowSec)) ≤
        engine.pending (.window fire.scheduleId start (start + limit.windowSec)) := by
      refine pending_setFire_le hfire rfl rfl ?_
      intro hpending
      rw [Fire.pending, FireStage.mayLand_of_waiting hwaiting]
      exact hpending
    have hpending := hsame.trans (hwindow start hstart).1
    refine ⟨hpending, ?_⟩
    intro rows hrows
    cases hrows
    have hspent : engine.spent (.window fire.scheduleId start (start + limit.windowSec)) ≤
        engine.countScheduleRuns fire.scheduleId (some (now - limit.windowSec)) := by
      apply spent_le_countScheduleRuns hrecorded _ hremoved
      intro run hspends
      obtain ⟨hid, hland, -⟩ := of_decide_eq_true hspends
      refine ⟨hid, fun after hafter ↦ ?_⟩
      cases hafter
      exact (le_of_lt hstart).trans hland
    exact Nat.add_le_add hspent hpending
  · exact (Processes.countP_set_le (p := (·.stage.isCountingRate)) hfire
      fun _ ↦ by rw [hstage]; rfl).trans h.single

/-- What is granted was counted to be free in every window that the fire may land in. -/
theorem WindowKept.grantRate (h : engine.WindowKept config) (hfire : engine.fires[i]? = some fire) {inflight used : ℕ}
    (hstage : fire.stage = .countingRate now inflight (some used))
    (hlimit : (config.limits fire.scheduleId).rateLimit = some limit) (hlt : used + inflight < limit.maxFires) :
    ((engine.takeToken fire.scheduleId now).setFire i
      { fire with rate := some (engine.tokens, now), stage := .admitting }).WindowKept config := by
  obtain ⟨hnow, hwindow⟩ := h.counted fire (List.mem_of_getElem? hfire) _ _ _ limit hstage hlimit
  have hfires : (engine.takeToken fire.scheduleId now).fires = engine.fires := rfl
  have hnone : (engine.fires.set i { fire with
      rate := some (engine.tokens, now), stage := .admitting }).countP (·.stage.isCountingRate) = 0 := by
    have hrelease := Processes.countP_of_release (p := (·.stage.isCountingRate))
      (a := { fire with rate := some (engine.tokens, now), stage := .admitting }) hfire
      (by rw [hstage]; rfl) rfl
    have hsingle := h.single
    omega
  constructor
  case counted =>
    intro other hmem
    apply windowCounted_of_not
    exact Bool.eq_false_of_not_eq_true (List.countP_eq_zero.1 hnone other hmem)
  case single => exact (le_of_eq hnone).trans (Nat.zero_le 1)
  case limit =>
    intro scheduleId limit' hlimit' start
    by_cases hland : fire.scheduleId = scheduleId ∧ engine.clock < start + limit'.windowSec
    · obtain ⟨rfl, hclock⟩ := hland
      cases hlimit.symm.trans hlimit'
      have hstart : now - limit.windowSec < start := sub_lt_iff_lt_add.2 (hnow.trans_lt hclock)
      have hsucc : ((engine.takeToken fire.scheduleId now).setFire i { fire with
          rate := some (engine.tokens, now), stage := .admitting }).pending
            (.window fire.scheduleId start (start + limit.windowSec)) ≤
          engine.pending (.window fire.scheduleId start (start + limit.windowSec)) + 1 :=
        pending_setFire_le_succ hfire rfl rfl _
      have hfree := (hwindow start hstart).2 used rfl
      change engine.spent _ + _ ≤ _
      omega
    · have hlessens : Lessens config engine ((engine.takeToken fire.scheduleId now).setFire i { fire with
          rate := some (engine.tokens, now), stage := .admitting })
            (.window scheduleId start (start + limit'.windowSec)) := by
        refine lessens_setFire hfire hfires rfl rfl ?_
        intro hpending
        obtain ⟨hticket, hmay⟩ := Bool.and_eq_true_iff.1 hpending
        obtain ⟨entry, hentry⟩ := Option.isSome_iff_exists.1 hticket
        rw [FireStage.mayLand_of_waiting rfl] at hmay
        exact absurd ⟨(Fire.ticket_eq_some_iff.1 hentry).1, of_decide_eq_true hmay⟩ hland
      exact (hlessens.total (limited_window hlimit')).trans (h.limit scheduleId limit' hlimit' start)

/-- An operation that counts all rows and reservations keeps the windows. -/
theorem WindowKept.exec (h : engine.WindowKept config) (hticketed : engine.Ticketed config)
    (hrecorded : engine.Recorded) (hlaunched : engine.Launched config) {op : EngineOp}
    (hop : engine.Covered config op) : (engine.exec config op).WindowKept config := by
  by_cases hcounts : op.counts = false
  · exact h.quiet (quiet_exec hlaunched hcounts)
  · have hstep := exec_engineStep config engine op
    generalize engine.exec config op = engine' at hstep ⊢
    cases hstep with
    | idle => exact h
    | reserveRate hfire hstage hlimit _ hnow hall =>
      have hpast := hop _ hfire _ hlimit
      exact h.reserveRate hticketed hfire hstage hlimit hnow hall hpast
    | countRate hfire hstage hlimit =>
      have hremoved := hop _ hfire _ (by rw [hstage]; rfl) _ hlimit
      exact h.countRate hrecorded hfire hstage hlimit hremoved
    | refuseRate hfire hstage =>
      exact h.setFire_of_not hfire rfl rfl rfl ⟨rfl, rfl⟩ (by rw [hstage]; rfl) rfl rfl
    | grantRate hfire hstage hlimit hlt => exact h.grantRate hfire hstage hlimit hlt
    | reserveRuns hfire hstage =>
      have hwaiting := FireStage.isWaiting_admitting hstage
      exact h.setFire_of_not hfire rfl rfl rfl ⟨rfl, rfl⟩ hwaiting rfl rfl
    | countRuns hfire hstage =>
      exact h.setFire_of_not hfire rfl rfl rfl ⟨rfl, rfl⟩ (by rw [hstage]; rfl) rfl rfl
    | refuseRuns hfire hstage =>
      exact h.setFire_of_not hfire rfl rfl rfl ⟨rfl, rfl⟩ (by rw [hstage]; rfl) rfl rfl
    | grantRuns hfire hstage =>
      exact h.setFire_of_not hfire rfl rfl rfl ⟨rfl, rfl⟩ (by rw [hstage]; rfl) rfl rfl
    | _ => exact absurd rfl hcounts

end Lionagi.Scheduler.Engine
