import Lionagi.Library.Transition
import Lionagi.Scheduler.ReservationTokens

/-!
# Reservations and claims

Every unit and token that is reserved is claimed by one fire, which gives its claims back when it leaves,
so that nothing is reserved when no fire is alive. Two steps break this: a number of runs that is written
after it has changed, and the cancellation of a task that has not started.
-/

namespace Lionagi.Scheduler

namespace Engine

variable (config : EngineConfig) (engine : Engine)

/-- No unit is reserved, and no token. -/
def Empty : Prop :=
  (∀ quota, engine.reserved quota = 0) ∧ ∀ scheduleId, engine.rateLimitInflight scheduleId = []

/-- The units that are reserved are those that fires claim, also the tokens inside the window. A fire that
has ended claims nothing, so that nothing is reserved when all have. -/
structure Balanced : Prop where
  units : ∀ quota, engine.reserved quota = engine.fires.countP (·.claims quota)
  tokens : ∀ scheduleId limit, (config.limits scheduleId).rateLimit = some limit →
    (engine.active scheduleId (engine.clock - limit.windowSec)).Perm
      ((engine.tickets scheduleId).filter fun entry ↦ engine.clock - limit.windowSec ≤ entry.2)
  released : ∀ fire ∈ engine.fires, fire.stage = .ended → fire.Free
  idle : (∀ fire ∈ engine.fires, fire.stage = .ended) → engine.Empty

variable {config engine} {i : ℕ} {fire fire' : Fire}

/-! ## Fires that have ended -/

variable (engine) in
/-- A fire that has ended claims nothing. -/
def Released : Prop := ∀ fire ∈ engine.fires, fire.stage = .ended → fire.Free

theorem Released.setFire (h : engine.Released) (hother : fire'.stage ≠ .ended ∨ fire'.Free) :
    (engine.setFire i fire').Released := by
  intro other hmem hended
  rcases mem_setFire hmem with rfl | hmem
  · rcases hother with hstage | hfree
    · exact absurd hended hstage
    · exact hfree
  · exact h other hmem hended

variable {op : EngineOp}

/-- An operation that cancels no task that has not started, while it claims anything, releases what ends. -/
theorem Released.exec (h : engine.Released) (hop : engine.Orderly config op) : (engine.exec config op).Released := by
  have hstep := exec_engineStep config engine op
  generalize engine.exec config op = engine' at hstep ⊢
  cases hstep with
  | idle => exact h
  | tick => exact h
  | begin =>
    intro fire hmem hended
    rcases List.mem_append.1 hmem with hmem | hmem
    · exact h fire hmem hended
    · cases List.mem_singleton.1 hmem
      exact ⟨rfl, rfl, rfl, rfl, rfl⟩
  | reserveThreshold _ hstage => exact Released.setFire h (.inl (by simp [hstage]))
  | reserveRate => exact Released.setFire h (.inl (by simp))
  | countRate => exact h.setFire (.inl (by simp))
  | refuseRate => exact h.setFire (.inl (by simp))
  | grantRate => exact Released.setFire h (.inl (by simp))
  | reserveRuns => exact h.setFire (.inl (by simp))
  | countRuns => exact h.setFire (.inl (by simp))
  | refuseRuns => exact h.setFire (.inl (by simp))
  | grantRuns => exact Released.setFire h (.inl (by simp))
  | reserveSlot _ hstage => exact Released.setFire h (.inl (by simp [hstage]))
  | reserveAdhoc _ hstage => exact Released.setFire h (.inl (by simp [hstage]))
  | releaseAdhoc _ hstage => exact Released.setFire h (.inl (by simp [hstage]))
  | launch => exact h.setFire (.inl (by simp))
  | enter => exact h.setFire (.inl (by simp))
  | fireInline => exact h.setFire (.inl (by simp))
  | commit => exact Released.setFire h (.inl (by simp))
  | handOver => exact Released.setFire h (.inl (by simp))
  | unstarted hfire hstage =>
    have hfree := hop _ hfire hstage
    exact h.setFire (.inr hfree)
  | leave => exact Released.setFire h (.inr ⟨rfl, rfl, rfl, rfl, rfl⟩)
  | record => exact h
  | finalize => exact h
  | prune => exact h

/-! ## Every run -/

variable (config engine) in
/-- The reservations are those of unreleased claims, which the fires that have ended do not have. -/
structure Accounted : Prop where
  tallied : engine.Tallied
  ticketed : engine.Ticketed config
  released : engine.Released

theorem Ticketed.nodup_tickets (h : engine.Ticketed config) (scheduleId : String) :
    (engine.tickets scheduleId).Nodup := by
  apply Processes.nodup_filterMap
  intro j k fire other entry hfire hother hticket hticket'
  have hj : engine.Holds j scheduleId entry := ⟨fire, hfire, Fire.ticket_eq_some_iff.1 hticket⟩
  have hk : engine.Holds k scheduleId entry := ⟨other, hother, Fire.ticket_eq_some_iff.1 hticket'⟩
  exact h.distinct j k _ _ entry entry hj hk rfl

theorem Accounted.empty (h : engine.Accounted config)
    (hended : ∀ fire ∈ engine.fires, fire.stage = .ended) : engine.Empty := by
  have hfree : ∀ fire ∈ engine.fires, fire.Free := fun fire hmem ↦ h.released fire hmem (hended fire hmem)
  constructor
  · intro quota
    rw [h.tallied.units quota, List.countP_eq_zero]
    intro fire hmem
    rw [(hfree fire hmem).claims quota]
    exact Bool.false_ne_true
  · intro scheduleId
    rw [List.eq_nil_iff_forall_not_mem]
    intro entry hentry
    obtain ⟨i, fire, hfire, -, hrate⟩ := h.ticketed.claimed scheduleId entry hentry
    rw [(hfree fire (List.mem_of_getElem? hfire)).1] at hrate
    cases hrate

theorem Accounted.balanced (h : engine.Accounted config) : engine.Balanced config where
  units := h.tallied.units
  tokens scheduleId limit hlimit := by
    have hactive : (engine.active scheduleId (engine.clock - limit.windowSec)).Nodup :=
      (h.ticketed.nodup scheduleId).filter _
    have htickets := (h.ticketed.nodup_tickets scheduleId).filter
      fun entry ↦ engine.clock - limit.windowSec ≤ entry.2
    apply (List.perm_ext_iff_of_nodup hactive htickets).2
    intro entry
    rw [active, List.mem_filter, List.mem_filter, mem_tickets]
    apply and_congr_left
    intro hwindow
    constructor
    · exact h.ticketed.claimed scheduleId entry
    · rintro ⟨i, hholds⟩
      exact h.ticketed.kept i scheduleId limit entry hlimit hholds (of_decide_eq_true hwindow)
  released := h.released
  idle := h.empty

theorem Accounted.exec (h : engine.Accounted config) (hop : engine.Orderly config op) :
    (engine.exec config op).Accounted config :=
  ⟨h.tallied.exec hop, h.ticketed.exec op, h.released.exec hop⟩

/-- A number of runs that has changed since it was read is lost when it is written. -/
theorem not_balanced_grantRuns (h : engine.Accounted config) (hfire : engine.fires[i]? = some fire)
    {inflight fired maxRuns : ℕ} (hstage : fire.stage = .countingRuns inflight (some fired))
    (hcap : (config.limits fire.scheduleId).cap = some maxRuns) (hlt : fired + inflight < maxRuns)
    (hinflight : inflight ≠ engine.maxRunsInflight fire.scheduleId) :
    ¬ (engine.exec config (.grantRuns i)).Balanced config := by
  intro hbalanced
  have hexec : engine.exec config (.grantRuns i) =
      (engine.setRunsInflight fire.scheduleId (inflight + 1)).setFire i
        { fire with maxRuns := true, stage := .admitting } := by
    rw [Engine.exec, onFire, hfire]
    simp only [grantRuns, hstage, hcap, if_neg (Nat.not_le_of_lt hlt)]
  have hunits := hbalanced.units (.maxRuns fire.scheduleId)
  have hbefore := h.tallied.units (.maxRuns fire.scheduleId)
  have hnone : fire.maxRuns = false := h.tallied.runs_free hfire (hstage ▸ rfl)
  have hcount := Processes.countP_set_of_grant (p := (·.claims (.maxRuns fire.scheduleId)))
    (a := { fire with maxRuns := true, stage := .admitting }) hfire (by simp [Fire.claims, hnone])
    (by simp [Fire.claims])
  have hwritten : (engine.setRunsInflight fire.scheduleId (inflight + 1)).reserved
      (.maxRuns fire.scheduleId) = inflight + 1 := Function.update_self _ _ _
  rw [hexec, reserved_setFire, hwritten, fires_setFire] at hunits
  apply hinflight
  change engine.maxRunsInflight _ = _ at hbefore
  exact Nat.succ.inj (hunits.trans (hcount.trans (congrArg Nat.succ hbefore.symm)))

/-- A task that is cancelled before it starts keeps its claims. -/
theorem not_balanced_leave (hfire : engine.fires[i]? = some fire) (hstage : fire.stage = .launched)
    (hclaims : ¬ fire.Free) : ¬ (engine.exec config (.leave i)).Balanced config := by
  intro hbalanced
  have hexec : engine.exec config (.leave i) = engine.setFire i { fire with stage := .ended } := by
    rw [Engine.exec, onFire, hfire]
    simp only [leave, hstage]
  rw [hexec] at hbalanced
  have hself : (engine.setFire i { fire with stage := .ended }).fires[i]? =
      some { fire with stage := .ended } := Processes.getElem?_set_self_of_some hfire
  exact hclaims (hbalanced.released { fire with stage := .ended } (List.mem_of_getElem? hself) rfl)

theorem not_balanced_of_not_orderly (h : engine.Accounted config) (hop : ¬ engine.Orderly config op) :
    ¬ (engine.exec config op).Balanced config := by
  cases op with
  | grantRuns i =>
    rw [Orderly] at hop
    push Not at hop
    obtain ⟨fire, hfire, inflight, fired, maxRuns, hstage, hcap, hlt, hinflight⟩ := hop
    exact not_balanced_grantRuns h hfire hstage hcap hlt hinflight
  | leave i =>
    rw [Orderly] at hop
    push Not at hop
    obtain ⟨fire, hfire, hstage, hclaims⟩ := hop
    exact not_balanced_leave hfire hstage hclaims
  | _ => exact absurd trivial hop

theorem accounted_start (clock : ℚ) (runs : List Occurrence) : (start clock runs).Accounted config where
  tallied := ⟨fun quota ↦ by cases quota <;> rfl, List.nodup_nil, fun _ h ↦ absurd h List.not_mem_nil⟩
  ticketed := ticketed_start clock runs
  released _ h := absurd h List.not_mem_nil

/-- Reservations balance in every state of a run exactly when no number of runs is written after it has
changed and no task is cancelled before it starts while it claims anything. -/
theorem balanced_throughout_iff (config : EngineConfig) (clock : ℚ) (runs : List Occurrence)
    (ops : List EngineOp) :
    Transition.Throughout (Engine.exec config) (Balanced config) (start clock runs) ops ↔
      Transition.Along (Engine.exec config) (Orderly config) (start clock runs) ops := by
  apply Transition.throughout_iff_along
  · exact fun _ h ↦ Accounted.balanced h
  · exact fun _ _ h hop ↦ Accounted.exec h hop
  · exact fun _ _ h hop ↦ not_balanced_of_not_orderly h hop
  · exact accounted_start clock runs

/-- A schedule that may run ten times. -/
def tenRuns : EngineConfig where
  limits _ := { maxRuns := some 10 }
  maxScheduledConcurrent := 0
  maxAdhocConcurrent := 0

/-- A fire counts the runs while another one, which it has counted as reserved, commits. A run stays
reserved when both have ended. -/
theorem not_balanced_throughout : ¬ Transition.Throughout (Engine.exec tenRuns) (Balanced tenRuns)
    (start 0 []) [.begin "nightly", .reserveRuns 0, .countRuns 0, .grantRuns 0, .launch 0, .enter 0,
      .begin "nightly", .reserveRuns 1, .commit 0 "running", .handOver 0, .countRuns 1, .grantRuns 1,
      .launch 1, .enter 1, .commit 1 "running", .handOver 1, .leave 0, .leave 1] := by
  intro h
  have hempty := h.final.idle (by decide +kernel)
  have hruns := hempty.1 (.maxRuns "nightly")
  exact absurd hruns (by decide +kernel)

end Engine

end Lionagi.Scheduler
