import Lionagi.Scheduler.ReservationStep

/-!
# Units reserved and claimed

Every unit of the runs, the slots and the cooldowns that is reserved is claimed by one fire. A number of
runs that is written after it has changed breaks this.
-/

namespace Lionagi.Scheduler

/-- What a fire may claim a unit of. -/
inductive Quota where
  | maxRuns (scheduleId : String)
  | globalSlot
  | adhocSlot
  | cooldown (scheduleId : String)

namespace Fire

variable (fire : Fire)

/-- The fire has an unreleased claim. -/
def claims : Quota → Bool
  | .maxRuns scheduleId => fire.maxRuns && fire.scheduleId = scheduleId
  | .globalSlot => fire.slot
  | .adhocSlot => fire.adhoc
  | .cooldown scheduleId => fire.threshold && fire.scheduleId = scheduleId

variable {fire}

theorem Free.claims (h : fire.Free) (quota : Quota) : fire.claims quota = false := by
  obtain ⟨-, hruns, hslot, hadhoc, hthreshold⟩ := h
  cases quota with
  | maxRuns scheduleId => rw [Fire.claims, hruns, Bool.false_and]
  | globalSlot => exact hslot
  | adhocSlot => exact hadhoc
  | cooldown scheduleId => rw [Fire.claims, hthreshold, Bool.false_and]

end Fire

namespace Engine

variable (config : EngineConfig) (engine : Engine)

/-- The number of units that are reserved. -/
def reserved : Quota → ℕ
  | .maxRuns scheduleId => engine.maxRunsInflight scheduleId
  | .globalSlot => engine.globalInflight
  | .adhocSlot => engine.adhocInflight
  | .cooldown scheduleId => engine.thresholdPending.count scheduleId

/-- A number of runs is written as it was read, and a task that has not started is not cancelled while it
claims anything. -/
def Orderly : EngineOp → Prop
  | .grantRuns i => ∀ fire ∈ engine.fires[i]?, ∀ inflight fired maxRuns,
      fire.stage = .countingRuns inflight (some fired) →
      (config.limits fire.scheduleId).cap = some maxRuns → fired + inflight < maxRuns →
      inflight = engine.maxRunsInflight fire.scheduleId
  | .leave i => ∀ fire ∈ engine.fires[i]?, fire.stage = .launched → fire.Free
  | _ => True

/-- The units that are reserved are those claimed, and a cooldown is reserved once. -/
structure Tallied : Prop where
  units : ∀ quota, engine.reserved quota = engine.fires.countP (·.claims quota)
  nodup : engine.thresholdPending.Nodup
  counting : ∀ fire ∈ engine.fires, fire.stage.isCountingRuns = false ∨ fire.maxRuns = false

variable {config engine} {i : ℕ} {fire fire' : Fire}

theorem reserved_setFire (quota : Quota) :
    (engine.setFire i fire).reserved quota = engine.reserved quota := by
  cases quota <;> rfl

theorem fires_setFire : (engine.setFire i fire).fires = engine.fires.set i fire := rfl

theorem mem_setFire {other : Fire} (h : other ∈ (engine.setFire i fire).fires) :
    other = fire ∨ other ∈ engine.fires := by
  rcases List.mem_or_eq_of_mem_set h with h | h
  · exact .inr h
  · exact .inl h

/-- A step of one fire reserves what it claims. -/
theorem Tallied.step (h : engine.Tallied) {engine' : Engine} (hfire : engine.fires[i]? = some fire)
    (hfires : engine'.fires = engine.fires)
    (hunits : ∀ quota, engine'.reserved quota + (fire.claims quota).toNat =
      engine.reserved quota + (fire'.claims quota).toNat)
    (hnodup : engine'.thresholdPending.Nodup)
    (hcounting : fire'.stage.isCountingRuns = false ∨ fire'.maxRuns = false) :
    (engine'.setFire i fire').Tallied where
  units quota := by
    have hset := Processes.countP_set_add (p := (·.claims quota)) (a := fire') hfire
    have hquota := hunits quota
    have hbefore := h.units quota
    rw [reserved_setFire, fires_setFire, hfires]
    omega
  nodup := hnodup
  counting other hother := by
    rcases mem_setFire hother with rfl | hother
    · exact hcounting
    · exact h.counting other (hfires ▸ hother)

/-- A step that claims and reserves nothing. -/
theorem Tallied.setFire (h : engine.Tallied) (hfire : engine.fires[i]? = some fire)
    (hclaims : fire'.claims = fire.claims)
    (hcounting : fire'.stage.isCountingRuns = false ∨ fire'.maxRuns = false) :
    (engine.setFire i fire').Tallied :=
  h.step hfire rfl (fun quota ↦ by rw [hclaims]) h.nodup hcounting

theorem Tallied.claims_le (h : engine.Tallied) (hfire : engine.fires[i]? = some fire) (quota : Quota) :
    (fire.claims quota).toNat ≤ engine.reserved quota := by
  rw [h.units quota]
  exact Processes.toNat_le_countP (p := (·.claims quota)) hfire

theorem Tallied.runs_free (h : engine.Tallied) (hfire : engine.fires[i]? = some fire)
    (hcounting : fire.stage.isCountingRuns = true) : fire.maxRuns = false := by
  rcases h.counting fire (List.mem_of_getElem? hfire) with hnot | hruns
  · rw [hcounting] at hnot
    cases hnot
  · exact hruns

/-- One unit of one quota is claimed and reserved. -/
theorem Tallied.grant (h : engine.Tallied) (granted : Quota) {engine' : Engine}
    (hfire : engine.fires[i]? = some fire) (hfires : engine'.fires = engine.fires)
    (hgranted : engine'.reserved granted = engine.reserved granted + 1)
    (hothers : ∀ quota, quota ≠ granted → engine'.reserved quota = engine.reserved quota)
    (hfree : fire.claims granted = false) (hclaims : fire'.claims granted = true)
    (hkept : ∀ quota, quota ≠ granted → fire'.claims quota = fire.claims quota)
    (hnodup : engine'.thresholdPending.Nodup)
    (hcounting : fire'.stage.isCountingRuns = false ∨ fire'.maxRuns = false) :
    (engine'.setFire i fire').Tallied := by
  apply h.step hfire hfires _ hnodup hcounting
  intro quota
  by_cases hquota : quota = granted
  · rw [hquota, hgranted, hfree, hclaims]
    rfl
  · rw [hothers quota hquota, hkept quota hquota]

theorem maxRunsInflight_releaseBudget (scheduleId : String) :
    (engine.releaseBudget fire).maxRunsInflight scheduleId =
      engine.maxRunsInflight scheduleId - (fire.claims (.maxRuns scheduleId)).toNat := by
  cases hruns : fire.maxRuns with
  | false => simp [releaseBudget, Fire.claims, hruns]
  | true =>
    by_cases hid : fire.scheduleId = scheduleId
    · simp [releaseBudget, Fire.claims, hruns, hid]
    · simp [releaseBudget, Fire.claims, hruns, hid, Function.update_of_ne (Ne.symm hid)]

theorem globalInflight_releaseSlots :
    (engine.releaseSlots fire).globalInflight = engine.globalInflight - fire.slot.toNat := by
  cases hslot : fire.slot <;> simp [releaseSlots, hslot]

theorem adhocInflight_releaseSlots :
    (engine.releaseSlots fire).adhocInflight = engine.adhocInflight - fire.adhoc.toNat := by
  cases hadhoc : fire.adhoc <;> simp [releaseSlots, hadhoc]

theorem thresholdPending_releaseSlots : (engine.releaseSlots fire).thresholdPending =
    if fire.threshold then engine.thresholdPending.filter fun scheduleId ↦ scheduleId ≠ fire.scheduleId
    else engine.thresholdPending := rfl

theorem count_releaseSlots (hnodup : engine.thresholdPending.Nodup) (scheduleId : String) :
    (engine.releaseSlots fire).thresholdPending.count scheduleId =
      engine.thresholdPending.count scheduleId - (fire.claims (.cooldown scheduleId)).toNat := by
  rw [thresholdPending_releaseSlots]
  cases hthreshold : fire.threshold with
  | false => simp [Fire.claims, hthreshold]
  | true =>
    by_cases hid : fire.scheduleId = scheduleId
    · have hone : engine.thresholdPending.count scheduleId ≤ 1 :=
        List.nodup_iff_count_le_one.1 hnodup scheduleId
      have hnone : (engine.thresholdPending.filter
          fun other ↦ !decide (other = scheduleId)).count scheduleId = 0 :=
        List.count_eq_zero.2 (by simp)
      simp [Fire.claims, hthreshold, hid, hnone]
      omega
    · simp [Fire.claims, hthreshold, hid, Ne.symm hid, List.count_filter]

/-- The row of a fire takes over from its claim of a run. -/
theorem Tallied.handOver (h : engine.Tallied) (hfire : engine.fires[i]? = some fire) :
    ((engine.releaseBudget fire).setFire i { fire.spent with stage := .running }).Tallied := by
  refine h.step hfire rfl ?_ h.nodup (.inl rfl)
  intro quota
  have hle := h.claims_le hfire quota
  cases quota with
  | maxRuns scheduleId =>
    rw [reserved, maxRunsInflight_releaseBudget]
    exact Nat.sub_add_cancel hle
  | globalSlot => rfl
  | adhocSlot => rfl
  | cooldown scheduleId => rfl

/-- A fire gives back everything that it claims. -/
theorem Tallied.leave (h : engine.Tallied) (hfire : engine.fires[i]? = some fire) :
    (((engine.releaseBudget fire).releaseSlots fire).setFire i
      { fire.spent.freed with stage := .ended }).Tallied := by
  have hnodup : ((engine.releaseBudget fire).releaseSlots fire).thresholdPending.Nodup := by
    rw [thresholdPending_releaseSlots]
    split
    · exact List.Nodup.filter _ h.nodup
    · exact h.nodup
  refine h.step hfire rfl ?_ hnodup (.inl rfl)
  intro quota
  have hle := h.claims_le hfire quota
  have hfree : Fire.claims { fire.spent.freed with stage := .ended } quota = false :=
    Fire.Free.claims ⟨rfl, rfl, rfl, rfl, rfl⟩ quota
  have hbudget : (engine.releaseBudget fire).thresholdPending.Nodup := h.nodup
  rw [hfree]
  cases quota with
  | maxRuns scheduleId =>
    change (engine.releaseBudget fire).maxRunsInflight scheduleId + _ = _
    rw [maxRunsInflight_releaseBudget]
    exact Nat.sub_add_cancel hle
  | globalSlot =>
    rw [reserved, globalInflight_releaseSlots]
    exact Nat.sub_add_cancel hle
  | adhocSlot =>
    rw [reserved, adhocInflight_releaseSlots]
    exact Nat.sub_add_cancel hle
  | cooldown scheduleId =>
    rw [reserved, count_releaseSlots hbudget]
    exact Nat.sub_add_cancel hle

theorem reserved_setRunsInflight_of_ne {scheduleId : String} {inflight : ℕ} {quota : Quota}
    (h : quota ≠ .maxRuns scheduleId) :
    (engine.setRunsInflight scheduleId inflight).reserved quota = engine.reserved quota := by
  cases quota with
  | maxRuns other =>
    apply Function.update_of_ne
    intro heq
    exact h (congrArg Quota.maxRuns heq)
  | globalSlot => rfl
  | adhocSlot => rfl
  | cooldown other => rfl

/-- A fire that is not counting has claimed a run. -/
theorem Tallied.grantRuns (h : engine.Tallied) (hfire : engine.fires[i]? = some fire)
    (hcounting : fire.stage.isCountingRuns = true) {inflight : ℕ}
    (hinflight : inflight = engine.maxRunsInflight fire.scheduleId) :
    ((engine.setRunsInflight fire.scheduleId (inflight + 1)).setFire i
      { fire with maxRuns := true, stage := .admitting }).Tallied := by
  have hnone : fire.maxRuns = false := h.runs_free hfire hcounting
  refine h.grant (.maxRuns fire.scheduleId) hfire rfl ?_ ?_ ?_ ?_ ?_ ?_ ?_
  · rw [hinflight]
    exact Function.update_self _ _ _
  · intro quota hquota
    exact reserved_setRunsInflight_of_ne hquota
  · rw [Fire.claims, hnone, Bool.false_and]
  · simp [Fire.claims]
  · intro quota hquota
    cases quota with
    | maxRuns scheduleId =>
      have hid : fire.scheduleId ≠ scheduleId := fun heq ↦ hquota (heq ▸ rfl)
      simp [Fire.claims, hid]
    | globalSlot => rfl
    | adhocSlot => rfl
    | cooldown scheduleId => rfl
  · exact h.nodup
  · exact .inl rfl

theorem Tallied.reserveSlot (h : engine.Tallied) (hfire : engine.fires[i]? = some fire)
    (hslot : fire.slot = false) :
    ({ engine with globalInflight := engine.globalInflight + 1 }.setFire i
      { fire with slot := true }).Tallied := by
  refine h.grant .globalSlot hfire rfl rfl ?_ hslot rfl ?_ h.nodup
    (h.counting fire (List.mem_of_getElem? hfire))
  · intro quota hquota
    cases quota with
    | globalSlot => exact absurd rfl hquota
    | _ => rfl
  · intro quota hquota
    cases quota with
    | globalSlot => exact absurd rfl hquota
    | _ => rfl

theorem Tallied.reserveAdhoc (h : engine.Tallied) (hfire : engine.fires[i]? = some fire)
    (hadhoc : fire.adhoc = false) :
    ({ engine with adhocInflight := engine.adhocInflight + 1 }.setFire i
      { fire with adhoc := true }).Tallied := by
  refine h.grant .adhocSlot hfire rfl rfl ?_ hadhoc rfl ?_ h.nodup
    (h.counting fire (List.mem_of_getElem? hfire))
  · intro quota hquota
    cases quota with
    | adhocSlot => exact absurd rfl hquota
    | _ => rfl
  · intro quota hquota
    cases quota with
    | adhocSlot => exact absurd rfl hquota
    | _ => rfl

theorem Tallied.releaseAdhoc (h : engine.Tallied) (hfire : engine.fires[i]? = some fire)
    (hadhoc : fire.adhoc = true) :
    ({ engine with adhocInflight := engine.adhocInflight - 1 }.setFire i
      { fire with adhoc := false }).Tallied := by
  refine h.step hfire rfl ?_ h.nodup (h.counting fire (List.mem_of_getElem? hfire))
  intro quota
  have hle := h.claims_le hfire quota
  cases quota with
  | adhocSlot =>
    rw [Fire.claims, hadhoc] at hle ⊢
    exact Nat.sub_add_cancel hle
  | _ => rfl

theorem Tallied.reserveThreshold (h : engine.Tallied) (hfire : engine.fires[i]? = some fire)
    (hthreshold : fire.threshold = false) (hpending : fire.scheduleId ∉ engine.thresholdPending) :
    ({ engine with thresholdPending := engine.thresholdPending ++ [fire.scheduleId] }.setFire i
      { fire with threshold := true }).Tallied := by
  refine h.grant (.cooldown fire.scheduleId) hfire rfl ?_ ?_ ?_ ?_ ?_ ?_ ?_
  · exact (List.count_append ..).trans (congrArg _ List.count_singleton_self)
  · intro quota hquota
    cases quota with
    | cooldown scheduleId =>
      have hid : fire.scheduleId ≠ scheduleId := fun heq ↦ hquota (heq ▸ rfl)
      simp [reserved, hid]
    | _ => rfl
  · rw [Fire.claims, hthreshold, Bool.false_and]
  · simp [Fire.claims]
  · intro quota hquota
    cases quota with
    | cooldown scheduleId =>
      have hid : fire.scheduleId ≠ scheduleId := fun heq ↦ hquota (heq ▸ rfl)
      simp [Fire.claims, hid]
    | _ => rfl
  · exact List.Nodup.concat hpending h.nodup |> (List.concat_eq_append ▸ ·)
  · exact h.counting fire (List.mem_of_getElem? hfire)

theorem Tallied.begin (h : engine.Tallied) (scheduleId : String) :
    Tallied { engine with fires := engine.fires ++ [{ scheduleId := scheduleId }] } where
  units quota := by
    have hnew : Fire.claims { scheduleId := scheduleId } quota = false :=
      Fire.Free.claims ⟨rfl, rfl, rfl, rfl, rfl⟩ quota
    have hconcat := Processes.countP_concat_of_false (l := engine.fires) (p := (·.claims quota)) hnew
    exact (h.units quota).trans hconcat.symm
  nodup := h.nodup
  counting fire hfire := by
    rcases List.mem_append.1 hfire with hfire | hfire
    · exact h.counting fire hfire
    · rw [List.mem_singleton.1 hfire]
      exact .inl rfl

/-- An operation that writes a number of runs as it was read keeps the tallies. -/
theorem Tallied.exec (h : engine.Tallied) {op : EngineOp} (hop : engine.Orderly config op) :
    (engine.exec config op).Tallied := by
  have hstep := exec_engineStep config engine op
  generalize engine.exec config op = engine' at hstep ⊢
  cases hstep with
  | idle => exact h
  | tick _ => exact ⟨h.units, h.nodup, h.counting⟩
  | begin => exact h.begin _
  | reserveThreshold hfire _ hthreshold hpending => exact h.reserveThreshold hfire hthreshold hpending
  | reserveRate hfire => exact Tallied.setFire ⟨h.units, h.nodup, h.counting⟩ hfire rfl (.inl rfl)
  | countRate hfire => exact h.setFire hfire rfl (.inl rfl)
  | refuseRate hfire => exact h.setFire hfire rfl (.inl rfl)
  | grantRate hfire => exact Tallied.setFire ⟨h.units, h.nodup, h.counting⟩ hfire rfl (.inl rfl)
  | reserveRuns hfire _ _ hruns => exact h.setFire hfire rfl (.inr hruns)
  | countRuns hfire hstage =>
    have hruns := h.runs_free hfire (hstage ▸ rfl)
    exact h.setFire hfire rfl (.inr hruns)
  | refuseRuns hfire => exact h.setFire hfire rfl (.inl rfl)
  | grantRuns hfire hstage hcap hlt =>
    exact h.grantRuns hfire (hstage ▸ rfl) (hop _ hfire _ _ _ hstage hcap hlt)
  | reserveSlot hfire _ hslot => exact h.reserveSlot hfire hslot
  | reserveAdhoc hfire _ hadhoc => exact h.reserveAdhoc hfire hadhoc
  | releaseAdhoc hfire _ hadhoc => exact h.releaseAdhoc hfire hadhoc
  | launch hfire => exact h.setFire hfire rfl (.inl rfl)
  | enter hfire => exact h.setFire hfire rfl (.inl rfl)
  | fireInline hfire => exact h.setFire hfire rfl (.inl rfl)
  | commit hfire => exact Tallied.setFire ⟨h.units, h.nodup, h.counting⟩ hfire rfl (.inl rfl)
  | handOver hfire => exact h.handOver hfire
  | unstarted hfire => exact h.setFire hfire rfl (.inl rfl)
  | leave hfire => exact h.leave hfire
  | record => exact ⟨h.units, h.nodup, h.counting⟩
  | finalize _ _ _ => exact ⟨h.units, h.nodup, h.counting⟩
  | prune => exact ⟨h.units, h.nodup, h.counting⟩

end Engine

end Lionagi.Scheduler
