import Lionagi.Scheduler.ReservationTally

/-!
# Tokens reserved and claimed

Every token that is reserved in the window of a schedule is claimed by one fire. Tokens that are dropped
are outside the window.
-/

namespace Lionagi.Scheduler

namespace Fire

variable (fire : Fire)

/-- The token that the fire claims in the window of a schedule. -/
def ticket (scheduleId : String) : Option (ℕ × ℚ) :=
  if fire.scheduleId = scheduleId then fire.rate else none

variable {fire}

theorem ticket_eq_some_iff {scheduleId : String} {entry : ℕ × ℚ} :
    fire.ticket scheduleId = some entry ↔ fire.scheduleId = scheduleId ∧ fire.rate = some entry := by
  rw [ticket, Option.ite_none_right_eq_some]

end Fire

namespace Engine

variable (config : EngineConfig) (engine : Engine)

/-- The tokens of the unreleased claims against the window of a schedule. -/
def tickets (scheduleId : String) : List (ℕ × ℚ) := engine.fires.filterMap (·.ticket scheduleId)

variable {config engine} {i : ℕ} {fire fire' : Fire}

variable (engine) in
/-- A fire has an unreleased token of a schedule. -/
def Holds (i : ℕ) (scheduleId : String) (entry : ℕ × ℚ) : Prop :=
  ∃ fire, engine.fires[i]? = some fire ∧ fire.scheduleId = scheduleId ∧ fire.rate = some entry

variable (config engine) in
/-- The tokens that are reserved are distinct claims, and the claims inside the window are reserved. -/
structure Ticketed : Prop where
  claimed : ∀ scheduleId, ∀ entry ∈ engine.rateLimitInflight scheduleId,
    ∃ i, engine.Holds i scheduleId entry
  nodup : ∀ scheduleId, (engine.rateLimitInflight scheduleId).Nodup
  kept : ∀ i scheduleId limit entry, (config.limits scheduleId).rateLimit = some limit →
    engine.Holds i scheduleId entry → engine.clock - limit.windowSec ≤ entry.2 →
      entry ∈ engine.rateLimitInflight scheduleId
  distinct : ∀ i j scheduleId scheduleId' entry entry', engine.Holds i scheduleId entry →
    engine.Holds j scheduleId' entry' → entry.1 = entry'.1 → i = j
  fresh : ∀ i scheduleId entry, engine.Holds i scheduleId entry → entry.1 < engine.tokens
  counting : ∀ fire ∈ engine.fires, fire.stage.isCountingRate = false ∨ fire.rate = none

variable {scheduleId : String} {entry : ℕ × ℚ} {j : ℕ}

theorem mem_tickets : entry ∈ engine.tickets scheduleId ↔ ∃ i, engine.Holds i scheduleId entry := by
  rw [tickets, List.mem_filterMap]
  constructor
  · rintro ⟨fire, hmem, hticket⟩
    obtain ⟨i, hfire⟩ := List.mem_iff_getElem?.1 hmem
    exact ⟨i, fire, hfire, Fire.ticket_eq_some_iff.1 hticket⟩
  · rintro ⟨i, fire, hfire, hticket⟩
    exact ⟨fire, List.mem_of_getElem? hfire, Fire.ticket_eq_some_iff.2 hticket⟩

theorem Holds.of_setFire (h : (engine.setFire i fire').Holds j scheduleId entry) :
    j = i ∧ fire'.scheduleId = scheduleId ∧ fire'.rate = some entry ∨
      j ≠ i ∧ engine.Holds j scheduleId entry := by
  obtain ⟨other, hother, hticket⟩ := h
  rcases Processes.getElem?_set_cases hother with ⟨hj, rfl⟩ | ⟨hj, hold⟩
  · exact .inl ⟨hj, hticket⟩
  · exact .inr ⟨hj, other, hold, hticket⟩

theorem Holds.setFire (h : engine.Holds j scheduleId entry) (hj : j ≠ i) :
    (engine.setFire i fire').Holds j scheduleId entry := by
  obtain ⟨other, hother, hticket⟩ := h
  refine ⟨other, ?_, hticket⟩
  rw [fires_setFire, List.getElem?_set_ne (Ne.symm hj), hother]

theorem holds_setFire_self (hfire : engine.fires[i]? = some fire) (hid : fire'.scheduleId = scheduleId)
    (hrate : fire'.rate = some entry) : (engine.setFire i fire').Holds i scheduleId entry :=
  ⟨fire', Processes.getElem?_set_self_of_some hfire, hid, hrate⟩

/-- A step that leaves the token of its fire leaves the tokens of all. -/
theorem holds_setFire_iff (hfire : engine.fires[i]? = some fire)
    (hid : fire'.scheduleId = fire.scheduleId) (hrate : fire'.rate = fire.rate) :
    (engine.setFire i fire').Holds j scheduleId entry ↔ engine.Holds j scheduleId entry := by
  constructor
  · intro h
    rcases h.of_setFire with ⟨rfl, hid', hrate'⟩ | ⟨-, hold⟩
    · exact ⟨fire, hfire, hid ▸ hid', hrate ▸ hrate'⟩
    · exact hold
  · intro h
    by_cases hj : j = i
    · subst hj
      obtain ⟨other, hother, hid', hrate'⟩ := h
      cases hfire.symm.trans hother
      exact holds_setFire_self hfire (hid.trans hid') (hrate.trans hrate')
    · exact h.setFire hj

theorem Ticketed.setFire (h : engine.Ticketed config) (hfire : engine.fires[i]? = some fire)
    (hid : fire'.scheduleId = fire.scheduleId) (hrate : fire'.rate = fire.rate)
    (hcounting : fire'.stage.isCountingRate = false ∨ fire'.rate = none) :
    (engine.setFire i fire').Ticketed config where
  claimed scheduleId entry hentry := by
    obtain ⟨j, hj⟩ := h.claimed scheduleId entry hentry
    exact ⟨j, (holds_setFire_iff hfire hid hrate).2 hj⟩
  nodup := h.nodup
  kept j scheduleId limit entry hlimit hholds :=
    h.kept j scheduleId limit entry hlimit ((holds_setFire_iff hfire hid hrate).1 hholds)
  distinct j k _ _ entry entry' hj hk :=
    h.distinct j k _ _ entry entry' ((holds_setFire_iff hfire hid hrate).1 hj)
      ((holds_setFire_iff hfire hid hrate).1 hk)
  fresh j _ entry hholds := h.fresh j _ entry ((holds_setFire_iff hfire hid hrate).1 hholds)
  counting other hother := by
    rcases mem_setFire hother with rfl | hother
    · exact hcounting
    · exact h.counting other hother

/-- The reservations that are dropped are outside the window. -/
theorem Ticketed.prune (h : engine.Ticketed config) {limit : RateLimit} {now : ℚ}
    (hlimit : (config.limits scheduleId).rateLimit = some limit) (hnow : now ≤ engine.clock) :
    (engine.setReservations scheduleId (engine.active scheduleId (now - limit.windowSec))).Ticketed
      config where
  claimed other entry hentry := by
    by_cases hother : other = scheduleId
    · subst hother
      rw [rateLimitInflight_setReservations_self] at hentry
      exact h.claimed other entry (List.mem_of_mem_filter hentry)
    · rw [rateLimitInflight_setReservations_of_ne _ hother] at hentry
      exact h.claimed other entry hentry
  nodup other := by
    by_cases hother : other = scheduleId
    · subst hother
      rw [rateLimitInflight_setReservations_self]
      exact (h.nodup other).filter _
    · rw [rateLimitInflight_setReservations_of_ne _ hother]
      exact h.nodup other
  kept j other limit' entry hlimit' hholds hwindow := by
    have hmem := h.kept j other limit' entry hlimit' hholds hwindow
    by_cases hother : other = scheduleId
    · subst hother
      cases hlimit.symm.trans hlimit'
      rw [rateLimitInflight_setReservations_self]
      apply List.mem_filter_of_mem hmem
      exact decide_eq_true ((sub_le_sub_right hnow _).trans hwindow)
    · rw [rateLimitInflight_setReservations_of_ne _ hother]
      exact hmem
  distinct := h.distinct
  fresh := h.fresh
  counting := h.counting

theorem mem_takeToken {other : String} {now : ℚ} :
    entry ∈ (engine.takeToken scheduleId now).rateLimitInflight other ↔
      entry ∈ engine.rateLimitInflight other ∨ other = scheduleId ∧ entry = (engine.tokens, now) := by
  change entry ∈ (engine.setReservations _ _).rateLimitInflight other ↔ _
  by_cases hother : other = scheduleId
  · subst hother
    rw [rateLimitInflight_setReservations_self, List.mem_append, List.mem_singleton]
    exact or_congr_right (and_iff_right rfl).symm
  · rw [rateLimitInflight_setReservations_of_ne _ hother]
    exact (or_iff_left fun h ↦ hother h.1).symm

/-- A fire that counts the rolling window has no token yet. -/
theorem Ticketed.rate_free (h : engine.Ticketed config) (hfire : engine.fires[i]? = some fire)
    (hcounting : fire.stage.isCountingRate = true) : fire.rate = none := by
  rcases h.counting fire (List.mem_of_getElem? hfire) with hnot | hrate
  · rw [hcounting] at hnot
    cases hnot
  · exact hrate

theorem Ticketed.not_holds (h : engine.Ticketed config) (hfire : engine.fires[i]? = some fire)
    (hcounting : fire.stage.isCountingRate = true) : ¬ engine.Holds i scheduleId entry := by
  rintro ⟨other, hother, -, hrate⟩
  cases hfire.symm.trans hother
  rw [h.rate_free hfire hcounting] at hrate
  cases hrate

/-- A token that was never given out is claimed and reserved. -/
theorem Ticketed.grantRate (h : engine.Ticketed config) (hfire : engine.fires[i]? = some fire)
    (hcounting : fire.stage.isCountingRate = true) (now : ℚ) :
    ((engine.takeToken fire.scheduleId now).setFire i
      { fire with rate := some (engine.tokens, now), stage := .admitting }).Ticketed config where
  claimed scheduleId entry hentry := by
    rcases mem_takeToken.1 hentry with hold | ⟨rfl, rfl⟩
    · obtain ⟨j, hj⟩ := h.claimed scheduleId entry hold
      have hne : j ≠ i := fun heq ↦ h.not_holds hfire hcounting (heq ▸ hj)
      exact ⟨j, Holds.setFire hj hne⟩
    · exact ⟨i, holds_setFire_self hfire rfl rfl⟩
  nodup scheduleId := by
    change ((engine.takeToken fire.scheduleId now).rateLimitInflight scheduleId).Nodup
    have hnew : (engine.tokens, now) ∉ engine.rateLimitInflight scheduleId := by
      intro hmem
      obtain ⟨j, hj⟩ := h.claimed scheduleId _ hmem
      exact Nat.lt_irrefl _ (h.fresh j scheduleId _ hj)
    change ((engine.setReservations _ _).rateLimitInflight scheduleId).Nodup
    by_cases hid : scheduleId = fire.scheduleId
    · subst hid
      rw [rateLimitInflight_setReservations_self, ← List.concat_eq_append]
      exact (h.nodup _).concat hnew
    · rw [rateLimitInflight_setReservations_of_ne _ hid]
      exact h.nodup scheduleId
  kept j scheduleId limit entry hlimit hholds hwindow := by
    rcases hholds.of_setFire with ⟨-, hid, hrate⟩ | ⟨-, hold⟩
    · exact mem_takeToken.2 (.inr ⟨hid.symm, (Option.some.inj hrate).symm⟩)
    · exact mem_takeToken.2 (.inl (h.kept j scheduleId limit entry hlimit hold hwindow))
  distinct j k _ _ entry entry' hj hk heq := by
    rcases hj.of_setFire with ⟨rfl, -, hrate⟩ | ⟨-, hold⟩
    · rcases hk.of_setFire with ⟨rfl, -, -⟩ | ⟨-, hold'⟩
      · rfl
      · have hlt := h.fresh k _ entry' hold'
        cases hrate
        exact absurd heq (Nat.ne_of_gt hlt)
    · rcases hk.of_setFire with ⟨rfl, -, hrate⟩ | ⟨-, hold'⟩
      · have hlt := h.fresh j _ entry hold
        cases hrate
        exact absurd heq (Nat.ne_of_lt hlt)
      · exact h.distinct j k _ _ entry entry' hold hold' heq
  fresh j scheduleId entry hholds := by
    rcases hholds.of_setFire with ⟨-, -, hrate⟩ | ⟨-, hold⟩
    · cases hrate
      exact Nat.lt_succ_self _
    · exact Nat.lt_succ_of_lt (h.fresh j scheduleId entry hold)
  counting other hother := by
    rcases mem_setFire hother with rfl | hother
    · exact .inl rfl
    · exact h.counting other hother

theorem mem_releaseBudget : entry ∈ (engine.releaseBudget fire).rateLimitInflight scheduleId ↔
    entry ∈ engine.rateLimitInflight scheduleId ∧
      ∀ token ∈ fire.rate, fire.scheduleId = scheduleId → entry.1 ≠ token.1 := by
  cases hrate : fire.rate with
  | none => simp [releaseBudget, hrate]
  | some token =>
    by_cases hid : fire.scheduleId = scheduleId
    · subst hid
      simp [releaseBudget, hrate]
    · simp [releaseBudget, hrate, hid, Function.update_of_ne (Ne.symm hid)]

theorem nodup_releaseBudget (h : (engine.rateLimitInflight scheduleId).Nodup) :
    ((engine.releaseBudget fire).rateLimitInflight scheduleId).Nodup := by
  cases hrate : fire.rate with
  | none => simpa only [releaseBudget, hrate] using h
  | some token =>
    by_cases hid : fire.scheduleId = scheduleId
    · subst hid
      simpa only [releaseBudget, hrate, Function.update_self] using h.filter _
    · simpa only [releaseBudget, hrate, Function.update_of_ne (Ne.symm hid)] using h

theorem Holds.of_release (h : (engine.setFire i fire').Holds j scheduleId entry)
    (hrate : fire'.rate = none) : j ≠ i ∧ engine.Holds j scheduleId entry := by
  rcases h.of_setFire with ⟨-, -, hsome⟩ | hold
  · rw [hrate] at hsome
    cases hsome
  · exact hold

/-- A fire gives back its token. -/
theorem Ticketed.release (h : engine.Ticketed config) (hfire : engine.fires[i]? = some fire)
    (hrate : fire'.rate = none) :
    ((engine.releaseBudget fire).setFire i fire').Ticketed config where
  claimed scheduleId entry hentry := by
    obtain ⟨hmem, hother⟩ := mem_releaseBudget.1 hentry
    obtain ⟨j, hj⟩ := h.claimed scheduleId entry hmem
    have hne : j ≠ i := by
      rintro rfl
      obtain ⟨other, hget, hid, hrate⟩ := hj
      cases hfire.symm.trans hget
      exact hother entry hrate hid rfl
    exact ⟨j, Holds.setFire hj hne⟩
  nodup scheduleId := nodup_releaseBudget (h.nodup scheduleId)
  kept j scheduleId limit entry hlimit hholds hwindow := by
    obtain ⟨hne, hold⟩ := Holds.of_release hholds hrate
    refine mem_releaseBudget.2 ⟨h.kept j scheduleId limit entry hlimit hold hwindow, ?_⟩
    intro token htoken hid heq
    exact hne (h.distinct j i _ _ entry token hold ⟨fire, hfire, hid, htoken⟩ heq)
  distinct j k _ _ entry entry' hj hk :=
    h.distinct j k _ _ entry entry' (Holds.of_release hj hrate).2 (Holds.of_release hk hrate).2
  fresh j scheduleId entry hholds := h.fresh j scheduleId entry (Holds.of_release hholds hrate).2
  counting other hother := by
    rcases mem_setFire hother with rfl | hother
    · exact .inr hrate
    · exact h.counting other hother

theorem Holds.of_begin {other : String}
    (h : Holds { engine with fires := engine.fires ++ [{ scheduleId := other }] } j scheduleId entry) :
    engine.Holds j scheduleId entry := by
  obtain ⟨fire, hfire, hid, hrate⟩ := h
  rcases Processes.getElem?_concat_cases hfire with ⟨-, rfl⟩ | hold
  · cases hrate
  · exact ⟨fire, hold, hid, hrate⟩

theorem Ticketed.begin (h : engine.Ticketed config) (scheduleId : String) :
    Ticketed config { engine with fires := engine.fires ++ [{ scheduleId := scheduleId }] } where
  claimed other entry hentry := by
    obtain ⟨j, fire, hfire, hticket⟩ := h.claimed other entry hentry
    exact ⟨j, fire, Processes.getElem?_concat_of_some hfire, hticket⟩
  nodup := h.nodup
  kept j other limit entry hlimit hholds := h.kept j other limit entry hlimit hholds.of_begin
  distinct j k _ _ entry entry' hj hk := h.distinct j k _ _ entry entry' hj.of_begin hk.of_begin
  fresh j other entry hholds := h.fresh j other entry hholds.of_begin
  counting fire hfire := by
    rcases List.mem_append.1 hfire with hfire | hfire
    · exact h.counting fire hfire
    · rw [List.mem_singleton.1 hfire]
      exact .inl rfl

theorem Ticketed.tick (h : engine.Ticketed config) {seconds : ℚ} (hseconds : 0 ≤ seconds) :
    Ticketed config { engine with clock := engine.clock + seconds } where
  claimed := h.claimed
  nodup := h.nodup
  kept j scheduleId limit entry hlimit hholds hwindow := by
    have hclock : engine.clock - limit.windowSec ≤ engine.clock + seconds - limit.windowSec :=
      sub_le_sub_right (le_add_of_nonneg_right hseconds) _
    exact h.kept j scheduleId limit entry hlimit hholds (hclock.trans hwindow)
  distinct := h.distinct
  fresh := h.fresh
  counting := h.counting

/-- Every operation keeps the tokens. -/
theorem Ticketed.exec (h : engine.Ticketed config) (op : EngineOp) :
    (engine.exec config op).Ticketed config := by
  have hstep := exec_engineStep config engine op
  generalize engine.exec config op = engine' at hstep ⊢
  cases hstep with
  | idle => exact h
  | tick hseconds => exact h.tick hseconds
  | begin => exact h.begin _
  | reserveThreshold hfire =>
    have hcounting := h.counting _ (List.mem_of_getElem? hfire)
    exact Ticketed.setFire ⟨h.1, h.2, h.3, h.4, h.5, h.6⟩ hfire rfl rfl hcounting
  | reserveRate hfire _ hlimit hrate hnow =>
    exact (h.prune hlimit hnow).setFire hfire rfl rfl (.inr hrate)
  | countRate hfire hstage _ =>
    have hrate := h.rate_free hfire (hstage ▸ rfl)
    exact h.setFire hfire rfl rfl (.inr hrate)
  | refuseRate hfire => exact h.setFire hfire rfl rfl (.inl rfl)
  | grantRate hfire hstage => exact h.grantRate hfire (hstage ▸ rfl) _
  | reserveRuns hfire => exact h.setFire hfire rfl rfl (.inl rfl)
  | countRuns hfire => exact h.setFire hfire rfl rfl (.inl rfl)
  | refuseRuns hfire => exact h.setFire hfire rfl rfl (.inl rfl)
  | grantRuns hfire => exact Ticketed.setFire ⟨h.1, h.2, h.3, h.4, h.5, h.6⟩ hfire rfl rfl (.inl rfl)
  | reserveSlot hfire =>
    have hcounting := h.counting _ (List.mem_of_getElem? hfire)
    exact Ticketed.setFire ⟨h.1, h.2, h.3, h.4, h.5, h.6⟩ hfire rfl rfl hcounting
  | reserveAdhoc hfire =>
    have hcounting := h.counting _ (List.mem_of_getElem? hfire)
    exact Ticketed.setFire ⟨h.1, h.2, h.3, h.4, h.5, h.6⟩ hfire rfl rfl hcounting
  | releaseAdhoc hfire =>
    have hcounting := h.counting _ (List.mem_of_getElem? hfire)
    exact Ticketed.setFire ⟨h.1, h.2, h.3, h.4, h.5, h.6⟩ hfire rfl rfl hcounting
  | launch hfire => exact h.setFire hfire rfl rfl (.inl rfl)
  | enter hfire => exact h.setFire hfire rfl rfl (.inl rfl)
  | fireInline hfire => exact h.setFire hfire rfl rfl (.inl rfl)
  | commit hfire => exact Ticketed.setFire ⟨h.1, h.2, h.3, h.4, h.5, h.6⟩ hfire rfl rfl (.inl rfl)
  | handOver hfire => exact h.release hfire rfl
  | unstarted hfire => exact h.setFire hfire rfl rfl (.inl rfl)
  | @leave i fire hfire _ =>
    have hrelease : ((engine.releaseBudget fire).setFire i
      { fire.spent.freed with stage := .ended }).Ticketed config := h.release hfire rfl
    exact ⟨hrelease.1, hrelease.2, hrelease.3, hrelease.4, hrelease.5, hrelease.6⟩
  | record => exact ⟨h.1, h.2, h.3, h.4, h.5, h.6⟩
  | finalize _ _ _ => exact ⟨h.1, h.2, h.3, h.4, h.5, h.6⟩
  | prune => exact ⟨h.1, h.2, h.3, h.4, h.5, h.6⟩

theorem ticketed_start (clock : ℚ) (runs : List Occurrence) : (start clock runs).Ticketed config := by
  have hholds : ∀ i scheduleId entry, ¬ (start clock runs).Holds i scheduleId entry := by
    rintro i scheduleId entry ⟨fire, hfire, -⟩
    cases hfire
  constructor
  case claimed => exact fun _ _ h ↦ absurd h List.not_mem_nil
  case nodup => exact fun _ ↦ List.nodup_nil
  case kept => exact fun i scheduleId _ entry _ h ↦ absurd h (hholds i scheduleId entry)
  case distinct => exact fun i _ scheduleId _ entry _ h ↦ absurd h (hholds i scheduleId entry)
  case fresh => exact fun i scheduleId entry h ↦ absurd h (hholds i scheduleId entry)
  case counting => exact fun _ h ↦ absurd h List.not_mem_nil

end Engine

end Lionagi.Scheduler
