import Lionagi.Scheduler.ReservationTokens

/-!
# The budgets of a schedule

A fire spends a unit of a budget when its row is committed, and until then a claim is pending for it. For
the runs of a schedule every claim is pending; for a window of time only those whose fire may still get a
time inside it. Apart from the grants, no step adds to what is spent and pending.
-/

namespace Lionagi.Scheduler

/-! ## What is spent and pending -/

/-- The runs of a schedule, or those in a window of time. -/
inductive Budget where
  | runs (scheduleId : String)
  | window (scheduleId : String) (start stop : ℚ)

def Occurrence.spends (occurrence : Occurrence) : Budget → Bool
  | .runs scheduleId => occurrence.scheduleId = scheduleId
  | .window scheduleId start stop =>
    occurrence.scheduleId = scheduleId ∧ start ≤ occurrence.firedAt ∧ occurrence.firedAt < stop

/-- The budget is limited. -/
def EngineConfig.Limited (config : EngineConfig) : Budget → Prop
  | .runs scheduleId => (config.limits scheduleId).cap.isSome = true
  | .window scheduleId _ _ => (config.limits scheduleId).rateLimit.isSome = true

namespace FireStage

/-- The time of the fire is not read yet. -/
def isWaiting : FireStage → Bool
  | .admitting | .countingRate _ _ _ | .countingRuns _ _ | .launched => true
  | _ => false

/-- The fire was admitted and has not committed its row. -/
def isLaunched : FireStage → Bool
  | .launched | .firing _ => true
  | _ => false

def isUncommitted : FireStage → Bool
  | .firing _ => true
  | stage => stage.isWaiting

/-- The fire may commit a row with a time inside the window. -/
def mayLand (clock start stop : ℚ) : FireStage → Bool
  | .firing firedAt => start ≤ firedAt ∧ firedAt < stop
  | stage => stage.isWaiting && clock < stop

/-- The fire commits no row with a time after the cutoff. -/
def isPast (cutoff : ℚ) : FireStage → Bool
  | .firing firedAt => firedAt < cutoff
  | stage => !stage.isWaiting

/-- The time by which a fire counts the rolling window. -/
def rateNow : FireStage → Option ℚ
  | .countingRate now _ _ => some now
  | _ => none

/-- A stage from which a fire commits no more than from another. -/
def Within (clock : ℚ) (stage other : FireStage) : Prop :=
  (stage.isUncommitted = true → other.isUncommitted = true) ∧
    ∀ start stop, stage.mayLand clock start stop = true → other.mayLand clock start stop = true

variable {clock : ℚ} {stage other : FireStage}

theorem within_self : stage.Within clock stage := ⟨id, fun _ _ ↦ id⟩

theorem isWaiting_admitting (h : stage = .admitting) : stage.isWaiting = true := by rw [h]; rfl

theorem isWaiting_launched (h : stage = .launched) : stage.isWaiting = true := by rw [h]; rfl

theorem not_counting_admitting (h : stage = .admitting) :
    stage.isCountingRate = false ∧ stage.isCountingRuns = false := by
  subst h
  exact ⟨rfl, rfl⟩

theorem mayLand_of_waiting (h : stage.isWaiting = true) (start stop : ℚ) :
    stage.mayLand clock start stop = decide (clock < stop) := by
  cases stage <;> first | rfl | cases h

theorem mayLand_mono {later : ℚ} (hclock : clock ≤ later) (start stop : ℚ)
    (h : stage.mayLand later start stop = true) : stage.mayLand clock start stop = true := by
  by_cases hwaiting : stage.isWaiting = true
  · rw [mayLand_of_waiting hwaiting, decide_eq_true_iff] at h ⊢
    exact hclock.trans_lt h
  · cases stage <;> first | exact h | exact absurd rfl hwaiting

theorem isUncommitted_of_waiting (h : stage.isWaiting = true) : stage.isUncommitted = true := by
  cases stage <;> first | rfl | cases h

theorem within_of_waiting (h : stage.isWaiting = true) (hother : other.isWaiting = true) :
    stage.Within clock other := by
  constructor
  · intro _
    exact isUncommitted_of_waiting hother
  · intro start stop hland
    rw [mayLand_of_waiting hother]
    rwa [mayLand_of_waiting h] at hland

theorem within_firing (hother : other.isWaiting = true) : (firing clock).Within clock other := by
  constructor
  · intro _
    exact isUncommitted_of_waiting hother
  · intro start stop hland
    rw [mayLand_of_waiting hother]
    exact decide_eq_true (of_decide_eq_true hland).2

theorem within_of_committed (h : stage.isUncommitted = false) : stage.Within clock other := by
  constructor
  · intro hnot
    rw [h] at hnot
    cases hnot
  · intro start stop hland
    cases stage <;> first | cases hland | cases h

end FireStage

/-- The fire has a claim against the budget and may spend it. -/
def Fire.pending (fire : Fire) (clock : ℚ) : Budget → Bool
  | .runs scheduleId => fire.claims (.maxRuns scheduleId) && fire.stage.isUncommitted
  | .window scheduleId start stop =>
    (fire.ticket scheduleId).isSome && fire.stage.mayLand clock start stop

/-- A fire that claims and may commit no more than another. -/
structure Fire.Below (clock : ℚ) (fire other : Fire) : Prop where
  id : fire.scheduleId = other.scheduleId
  rate : fire.rate.isSome = true → other.rate.isSome = true
  runs : fire.maxRuns = true → other.maxRuns = true
  stage : fire.stage.Within clock other.stage

namespace Fire.Below

variable {clock : ℚ} {fire other : Fire}

theorem claims (h : fire.Below clock other) (scheduleId : String)
    (hclaims : fire.claims (.maxRuns scheduleId) = true) : other.claims (.maxRuns scheduleId) = true := by
  simp only [Fire.claims, Bool.and_eq_true, decide_eq_true_eq] at hclaims ⊢
  exact ⟨h.runs hclaims.1, h.id ▸ hclaims.2⟩

theorem ticket (h : fire.Below clock other) (scheduleId : String)
    (hticket : (fire.ticket scheduleId).isSome = true) : (other.ticket scheduleId).isSome = true := by
  unfold Fire.ticket at hticket ⊢
  rw [← h.id]
  split at hticket
  · next hid =>
    rw [if_pos hid]
    exact h.rate hticket
  · cases hticket

theorem pending (h : fire.Below clock other) (budget : Budget)
    (hpending : fire.pending clock budget = true) : other.pending clock budget = true := by
  cases budget with
  | runs scheduleId =>
    rw [Fire.pending, Bool.and_eq_true] at hpending ⊢
    exact ⟨h.claims scheduleId hpending.1, h.stage.1 hpending.2⟩
  | window scheduleId start stop =>
    rw [Fire.pending, Bool.and_eq_true] at hpending ⊢
    exact ⟨h.ticket scheduleId hpending.1, h.stage.2 start stop hpending.2⟩

end Fire.Below

/-- The operation is part of a reservation that counts rows. -/
def EngineOp.counts : EngineOp → Bool
  | .reserveRate _ _ | .countRate _ | .grantRate _ | .reserveRuns _ | .countRuns _ | .grantRuns _ => true
  | _ => false

namespace Engine

variable (config : EngineConfig) (engine engine' : Engine)

def spent (budget : Budget) : ℕ := engine.committed.countP (·.spends budget)

def pending (budget : Budget) : ℕ := engine.fires.countP (·.pending engine.clock budget)

/-- The number of unreleased claims against the runs of a schedule. -/
def runsClaimed (scheduleId : String) : ℕ := engine.fires.countP (·.claims (.maxRuns scheduleId))

/-- The rows that fires have committed are top-level rows that were executed, and are kept or removed. -/
structure Recorded : Prop where
  counts : ∀ run ∈ engine.committed, run.Counts run.scheduleId
  rows : ∀ scheduleId firedAfter, engine.committed.countP (·.countedIn scheduleId firedAfter) ≤
    engine.runs.countP (·.countedIn scheduleId firedAfter) +
      engine.removed.countP (·.countedIn scheduleId firedAfter)

/-- A fire that was admitted has claimed what is limited. -/
def Launched : Prop := ∀ fire ∈ engine.fires, fire.stage.isLaunched = true → fire.Admitted config

/-- No more is pending for a budget, nor spent and pending if it is limited. -/
structure Lessens (budget : Budget) : Prop where
  pending : engine'.pending budget ≤ engine.pending budget
  total : config.Limited budget →
    engine'.spent budget + engine'.pending budget ≤ engine.spent budget + engine.pending budget

/-- A step that grants nothing. -/
structure Shrinks : Prop where
  clock : engine.clock ≤ engine'.clock
  lessens : ∀ budget, Lessens config engine engine' budget
  claimed : ∀ scheduleId, engine'.runsClaimed scheduleId ≤ engine.runsClaimed scheduleId
  reserved : ∀ scheduleId, engine.runsClaimed scheduleId ≤ engine.maxRunsInflight scheduleId →
    engine'.runsClaimed scheduleId ≤ engine'.maxRunsInflight scheduleId

/-- A step that neither grants nor counts anything. -/
structure Quiet : Prop extends Shrinks config engine engine' where
  kept : ∀ fire ∈ engine'.fires, (fire.stage.isCountingRate || fire.stage.isCountingRuns) = true →
    fire ∈ engine.fires
  rate : engine'.fires.countP (·.stage.isCountingRate) ≤ engine.fires.countP (·.stage.isCountingRate)
  runs : engine'.fires.countP (·.stage.isCountingRuns) ≤ engine.fires.countP (·.stage.isCountingRuns)

variable {config engine engine'} {i : ℕ} {fire fire' : Fire}

theorem pending_setFire_le (hfire : engine.fires[i]? = some fire) (hfires : engine'.fires = engine.fires)
    (hclock : engine'.clock = engine.clock) {budget : Budget}
    (hpending : fire'.pending engine.clock budget = true → fire.pending engine.clock budget = true) :
    (engine'.setFire i fire').pending budget ≤ engine.pending budget := by
  rw [pending, fires_setFire, hfires]
  change (engine.fires.set i fire').countP (·.pending engine'.clock budget) ≤ _
  rw [hclock]
  exact Processes.countP_set_le (p := (·.pending engine.clock budget)) hfire hpending

/-- A step of a fire that adds nothing to a budget, and leaves the rows as they are. -/
theorem lessens_setFire (hfire : engine.fires[i]? = some fire) (hfires : engine'.fires = engine.fires)
    (hclock : engine'.clock = engine.clock) (hcommitted : engine'.committed = engine.committed)
    {budget : Budget}
    (hpending : fire'.pending engine.clock budget = true → fire.pending engine.clock budget = true) :
    Lessens config engine (engine'.setFire i fire') budget where
  pending := pending_setFire_le hfire hfires hclock hpending
  total _ := by
    have hspent : (engine'.setFire i fire').spent budget = engine.spent budget := by
      change engine'.committed.countP _ = _
      rw [hcommitted, spent]
    rw [hspent]
    exact Nat.add_le_add_left (pending_setFire_le hfire hfires hclock hpending) _

theorem pending_setFire_le_succ (hfire : engine.fires[i]? = some fire)
    (hfires : engine'.fires = engine.fires) (hclock : engine'.clock = engine.clock) (budget : Budget) :
    (engine'.setFire i fire').pending budget ≤ engine.pending budget + 1 := by
  rw [pending, fires_setFire, hfires]
  change (engine.fires.set i fire').countP (·.pending engine'.clock budget) ≤ _
  rw [hclock]
  exact Processes.countP_set_le_succ (p := (·.pending engine.clock budget)) hfire

theorem runsClaimed_setFire_le (hfire : engine.fires[i]? = some fire)
    (hfires : engine'.fires = engine.fires) {scheduleId : String}
    (hclaims : fire'.claims (.maxRuns scheduleId) = true → fire.claims (.maxRuns scheduleId) = true) :
    (engine'.setFire i fire').runsClaimed scheduleId ≤ engine.runsClaimed scheduleId := by
  rw [runsClaimed, fires_setFire, hfires]
  exact Processes.countP_set_le (p := (·.claims (.maxRuns scheduleId))) hfire hclaims

theorem runsClaimed_setFire_le_succ (hfire : engine.fires[i]? = some fire)
    (hfires : engine'.fires = engine.fires) (scheduleId : String) :
    (engine'.setFire i fire').runsClaimed scheduleId ≤ engine.runsClaimed scheduleId + 1 := by
  rw [runsClaimed, fires_setFire, hfires]
  exact Processes.countP_set_le_succ (p := (·.claims (.maxRuns scheduleId))) hfire

/-- A step of a fire to a stage from which it commits no more, which leaves the rows as they are. -/
theorem Shrinks.setFire (hfire : engine.fires[i]? = some fire) (hfires : engine'.fires = engine.fires)
    (hclock : engine'.clock = engine.clock) (hcommitted : engine'.committed = engine.committed)
    (hinflight : engine'.maxRunsInflight = engine.maxRunsInflight)
    (hbelow : fire'.Below engine.clock fire) : Shrinks config engine (engine'.setFire i fire') where
  clock := le_of_eq hclock.symm
  lessens budget := lessens_setFire hfire hfires hclock hcommitted (hbelow.pending budget)
  claimed scheduleId := runsClaimed_setFire_le hfire hfires (hbelow.claims scheduleId)
  reserved scheduleId h := by
    change _ ≤ engine'.maxRunsInflight scheduleId
    rw [hinflight]
    exact (runsClaimed_setFire_le hfire hfires (hbelow.claims scheduleId)).trans h

/-- A step of a fire to a stage in which it counts nothing. -/
theorem Shrinks.quiet (h : Shrinks config engine (engine'.setFire i fire'))
    (hfire : engine.fires[i]? = some fire) (hfires : engine'.fires = engine.fires)
    (hrate : fire'.stage.isCountingRate = false) (hruns : fire'.stage.isCountingRuns = false) :
    Quiet config engine (engine'.setFire i fire') where
  toShrinks := h
  kept other hother hcounting := by
    rcases mem_setFire hother with rfl | hmem
    · rw [hrate, hruns] at hcounting
      cases hcounting
    · exact hfires ▸ hmem
  rate := by
    rw [fires_setFire, hfires]
    apply Processes.countP_set_le hfire
    intro hcounting
    rw [hrate] at hcounting
    cases hcounting
  runs := by
    rw [fires_setFire, hfires]
    apply Processes.countP_set_le hfire
    intro hcounting
    rw [hruns] at hcounting
    cases hcounting

/-- A step of one fire that leaves what it claims against its budgets. -/
theorem quiet_setFire (hfire : engine.fires[i]? = some fire) (hfires : engine'.fires = engine.fires)
    (hclock : engine'.clock = engine.clock) (hcommitted : engine'.committed = engine.committed)
    (hinflight : engine'.maxRunsInflight = engine.maxRunsInflight)
    (hclaims : fire'.scheduleId = fire.scheduleId ∧ fire'.rate = fire.rate ∧ fire'.maxRuns = fire.maxRuns)
    (hwithin : fire'.stage.Within engine.clock fire.stage)
    (hstage : fire'.stage.isCountingRate = false ∧ fire'.stage.isCountingRuns = false) :
    Quiet config engine (engine'.setFire i fire') := by
  obtain ⟨hid, hrate, hruns⟩ := hclaims
  have hbelow : fire'.Below engine.clock fire :=
    ⟨hid, fun h ↦ hrate ▸ h, fun h ↦ hruns ▸ h, hwithin⟩
  have hshrinks : Shrinks config engine (engine'.setFire i fire') :=
    Shrinks.setFire hfire hfires hclock hcommitted hinflight hbelow
  exact hshrinks.quiet hfire hfires hstage.1 hstage.2

/-- The fires, the reservations of runs and the committed rows stay. -/
theorem quiet_of_frame (hfires : engine'.fires = engine.fires) (hclock : engine'.clock = engine.clock)
    (hcommitted : engine'.committed = engine.committed)
    (hinflight : engine'.maxRunsInflight = engine.maxRunsInflight) : Quiet config engine engine' where
  clock := le_of_eq hclock.symm
  lessens budget := by
    have hpending : engine'.pending budget = engine.pending budget := by
      rw [pending, pending, hfires, hclock]
    have hspent : engine'.spent budget = engine.spent budget := by rw [spent, spent, hcommitted]
    exact ⟨le_of_eq hpending, fun _ ↦ le_of_eq (by rw [hspent, hpending])⟩
  claimed scheduleId := by rw [runsClaimed, runsClaimed, hfires]
  reserved scheduleId h := by rwa [runsClaimed, hfires, hinflight]
  kept fire hfire _ := hfires ▸ hfire
  rate := by rw [hfires]
  runs := by rw [hfires]

/-- As time passes fewer fires may land in a window. -/
theorem quiet_tick {seconds : ℚ} (hseconds : 0 ≤ seconds) :
    Quiet config engine { engine with clock := engine.clock + seconds } := by
  have hclock : engine.clock ≤ engine.clock + seconds := le_add_of_nonneg_right hseconds
  have hpending : ∀ budget, Engine.pending { engine with clock := engine.clock + seconds } budget ≤
      engine.pending budget := by
    intro budget
    apply List.countP_mono_left
    intro fire _ h
    cases budget with
    | runs scheduleId => exact h
    | window scheduleId start stop =>
      rw [Fire.pending, Bool.and_eq_true] at h ⊢
      exact ⟨h.1, FireStage.mayLand_mono hclock start stop h.2⟩
  have hlessens : ∀ budget, Lessens config engine { engine with clock := engine.clock + seconds } budget :=
    fun budget ↦ ⟨hpending budget, fun _ ↦ Nat.add_le_add_left (hpending budget) _⟩
  exact ⟨⟨hclock, hlessens, fun _ ↦ Nat.le_refl _, fun _ h ↦ h⟩, fun _ h _ ↦ h, Nat.le_refl _,
    Nat.le_refl _⟩

theorem quiet_begin (scheduleId : String) :
    Quiet config engine { engine with fires := engine.fires ++ [{ scheduleId := scheduleId }] } := by
  have hpending : ∀ budget, Engine.pending
      { engine with fires := engine.fires ++ [{ scheduleId := scheduleId }] } budget =
      engine.pending budget := by
    intro budget
    have hnew : Fire.pending { scheduleId := scheduleId } engine.clock budget = false := by
      cases budget with
      | runs other => rfl
      | window other start stop =>
        rw [Fire.pending, Fire.ticket]
        split <;> rfl
    exact Processes.countP_concat_of_false (l := engine.fires) (p := (·.pending engine.clock budget)) hnew
  have hclaimed : ∀ other, Engine.runsClaimed
      { engine with fires := engine.fires ++ [{ scheduleId := scheduleId }] } other =
      engine.runsClaimed other := fun other ↦ Processes.countP_concat_of_false rfl
  constructor
  case toShrinks =>
    exact ⟨le_refl _, fun budget ↦ ⟨le_of_eq (hpending budget),
      fun _ ↦ Nat.add_le_add_left (le_of_eq (hpending budget)) _⟩,
      fun other ↦ le_of_eq (hclaimed other), fun other h ↦ (le_of_eq (hclaimed other)).trans h⟩
  case kept =>
    intro fire hfire hcounting
    rcases List.mem_append.1 hfire with hmem | hmem
    · exact hmem
    · rw [List.mem_singleton.1 hmem] at hcounting
      cases hcounting
  case rate => exact le_of_eq (Processes.countP_concat_of_false rfl)
  case runs => exact le_of_eq (Processes.countP_concat_of_false rfl)

/-- A fire that was admitted and commits its row has claims that were pending for it. -/
theorem pending_of_spends (hlaunched : engine.Launched config) (hfire : engine.fires[i]? = some fire)
    {firedAt : ℚ} (hstage : fire.stage = .firing firedAt) {status : String} {budget : Budget}
    (hlimited : config.Limited budget) (hspends : (fire.occurrence status firedAt).spends budget = true) :
    fire.pending engine.clock budget = true := by
  have hadmitted : fire.Admitted config :=
    hlaunched fire (List.mem_of_getElem? hfire) (by rw [hstage]; rfl)
  cases budget with
  | runs scheduleId =>
    have hid : fire.scheduleId = scheduleId := of_decide_eq_true hspends
    subst hid
    have hruns := hadmitted.2.1 hlimited
    simp [Fire.pending, Fire.claims, hstage, FireStage.isUncommitted, hruns]
  | window scheduleId start stop =>
    obtain ⟨hid, hland⟩ := of_decide_eq_true hspends
    change fire.scheduleId = scheduleId at hid
    subst hid
    have hrate := hadmitted.1 hlimited
    rw [Fire.pending, Fire.ticket, if_pos rfl, hrate, hstage]
    exact decide_eq_true hland

theorem pending_of_committed (h : fire.stage.isUncommitted = false) (budget : Budget) :
    fire.pending engine.clock budget = false := by
  cases budget with
  | runs scheduleId => rw [Fire.pending, h, Bool.and_false]
  | window scheduleId start stop =>
    have hland : fire.stage.mayLand engine.clock start stop = false := by
      cases hstage : fire.stage <;> first | rfl | (rw [hstage] at h; cases h)
    rw [Fire.pending, hland, Bool.and_false]

/-- The row of a fire spends what its claims were pending for. -/
theorem shrinks_commit (hlaunched : engine.Launched config) (hfire : engine.fires[i]? = some fire)
    {firedAt : ℚ} (hstage : fire.stage = .firing firedAt) (status : String) :
    Shrinks config engine ({ engine with
      runs := engine.runs ++ [fire.occurrence status firedAt]
      committed := engine.committed ++ [fire.occurrence status firedAt] }.setFire i
        { fire with stage := .committed }) := by
  have hbelow : Fire.Below engine.clock { fire with stage := .committed } fire :=
    ⟨rfl, id, id, FireStage.within_of_committed rfl⟩
  refine ⟨le_refl _, fun budget ↦ ⟨pending_setFire_le hfire rfl rfl (hbelow.pending budget), ?_⟩,
    fun scheduleId ↦ runsClaimed_setFire_le hfire rfl (hbelow.claims scheduleId),
    fun scheduleId h ↦ (runsClaimed_setFire_le hfire rfl (hbelow.claims scheduleId)).trans h⟩
  intro hlimited
  have hspends : ((fire.occurrence status firedAt).spends budget).toNat ≤
      (fire.pending engine.clock budget).toNat := by
    cases h : (fire.occurrence status firedAt).spends budget with
    | false => exact Nat.zero_le _
    | true => rw [pending_of_spends hlaunched hfire hstage hlimited h]
  have hset := Processes.countP_set_add (p := (·.pending engine.clock budget))
    (a := { fire with stage := .committed }) hfire
  have hnone : Fire.pending { fire with stage := .committed } engine.clock budget = false :=
    pending_of_committed rfl budget
  have hconcat : (engine.committed ++ [fire.occurrence status firedAt]).countP (·.spends budget) =
      engine.committed.countP (·.spends budget) +
        ((fire.occurrence status firedAt).spends budget).toNat := by
    rw [List.countP_append, List.countP_singleton]
    cases (fire.occurrence status firedAt).spends budget <;> rfl
  change (engine.committed ++ [fire.occurrence status firedAt]).countP (·.spends budget) +
    (engine.fires.set i _).countP (·.pending engine.clock budget) ≤
      engine.committed.countP (·.spends budget) + engine.fires.countP (·.pending engine.clock budget)
  rw [hnone] at hset
  rw [hconcat]
  simp only [Bool.toNat_false] at hset
  omega

/-- A fire that releases its claim of a run lowers the number that is reserved. -/
theorem shrinks_release (hfire : engine.fires[i]? = some fire) (hfires : engine'.fires = engine.fires)
    (hclock : engine'.clock = engine.clock) (hcommitted : engine'.committed = engine.committed)
    (hinflight : engine'.maxRunsInflight = (engine.releaseBudget fire).maxRunsInflight)
    (hid : fire'.scheduleId = fire.scheduleId) (hrate : fire'.rate = none) (hruns : fire'.maxRuns = false)
    (hstage : fire'.stage.isUncommitted = false) : Shrinks config engine (engine'.setFire i fire') := by
  have hbelow : fire'.Below engine.clock fire := by
    refine ⟨hid, fun h ↦ ?_, fun h ↦ ?_, FireStage.within_of_committed hstage⟩
    · rw [hrate] at h
      cases h
    · rw [hruns] at h
      cases h
  have hsame : Shrinks config engine ({ engine' with
      maxRunsInflight := engine.maxRunsInflight }.setFire i fire') :=
    Shrinks.setFire hfire hfires hclock hcommitted rfl hbelow
  refine ⟨hsame.clock, fun budget ↦ ⟨(hsame.lessens budget).pending, (hsame.lessens budget).total⟩,
    hsame.claimed, ?_⟩
  intro scheduleId h
  have hset := Processes.countP_set_add (p := (·.claims (.maxRuns scheduleId))) (a := fire') hfire
  have hnone : fire'.claims (.maxRuns scheduleId) = false := by rw [Fire.claims, hruns, Bool.false_and]
  have hrelease : (engine.releaseBudget fire).maxRunsInflight scheduleId =
      engine.maxRunsInflight scheduleId - (fire.claims (.maxRuns scheduleId)).toNat :=
    maxRunsInflight_releaseBudget scheduleId
  rw [runsClaimed, fires_setFire, hfires]
  change _ ≤ engine'.maxRunsInflight scheduleId
  rw [hinflight, hrelease]
  rw [hnone, Bool.toNat_false] at hset
  rw [runsClaimed] at h
  omega

/-- An operation that counts nothing is quiet. -/
theorem quiet_exec (hlaunched : engine.Launched config) {op : EngineOp} (hop : op.counts = false) :
    Quiet config engine (engine.exec config op) := by
  have hstep := exec_engineStep config engine op
  generalize engine.exec config op = engine' at hstep ⊢
  cases hstep with
  | idle => exact quiet_of_frame rfl rfl rfl rfl
  | tick hseconds => exact quiet_tick hseconds
  | begin => exact quiet_begin _
  | reserveThreshold hfire hstage =>
    exact quiet_setFire hfire rfl rfl rfl rfl ⟨rfl, rfl, rfl⟩ FireStage.within_self
      (FireStage.not_counting_admitting hstage)
  | reserveRate => cases hop
  | countRate => cases hop
  | refuseRate => cases hop
  | grantRate => cases hop
  | reserveRuns => cases hop
  | countRuns => cases hop
  | refuseRuns => cases hop
  | grantRuns => cases hop
  | reserveSlot hfire hstage =>
    exact quiet_setFire hfire rfl rfl rfl rfl ⟨rfl, rfl, rfl⟩ FireStage.within_self
      (FireStage.not_counting_admitting hstage)
  | reserveAdhoc hfire hstage =>
    exact quiet_setFire hfire rfl rfl rfl rfl ⟨rfl, rfl, rfl⟩ FireStage.within_self
      (FireStage.not_counting_admitting hstage)
  | releaseAdhoc hfire hstage =>
    exact quiet_setFire hfire rfl rfl rfl rfl ⟨rfl, rfl, rfl⟩ FireStage.within_self
      (FireStage.not_counting_admitting hstage)
  | launch hfire hstage =>
    have hwaiting := FireStage.isWaiting_admitting hstage
    exact quiet_setFire hfire rfl rfl rfl rfl ⟨rfl, rfl, rfl⟩
      (FireStage.within_of_waiting rfl hwaiting) ⟨rfl, rfl⟩
  | enter hfire hstage =>
    have hwaiting := FireStage.isWaiting_launched hstage
    exact quiet_setFire hfire rfl rfl rfl rfl ⟨rfl, rfl, rfl⟩ (FireStage.within_firing hwaiting) ⟨rfl, rfl⟩
  | fireInline hfire hstage =>
    have hwaiting := FireStage.isWaiting_admitting hstage
    exact quiet_setFire hfire rfl rfl rfl rfl ⟨rfl, rfl, rfl⟩ (FireStage.within_firing hwaiting) ⟨rfl, rfl⟩
  | commit hfire hstage => exact (shrinks_commit hlaunched hfire hstage _).quiet hfire rfl rfl rfl
  | handOver hfire =>
    refine Shrinks.quiet ?_ hfire rfl rfl rfl
    exact shrinks_release hfire rfl rfl rfl rfl rfl rfl rfl rfl
  | unstarted hfire =>
    exact quiet_setFire hfire rfl rfl rfl rfl ⟨rfl, rfl, rfl⟩ (FireStage.within_of_committed rfl) ⟨rfl, rfl⟩
  | leave hfire =>
    refine Shrinks.quiet ?_ hfire rfl rfl rfl
    exact shrinks_release hfire rfl rfl rfl rfl rfl rfl rfl rfl
  | record => exact quiet_of_frame rfl rfl rfl rfl
  | finalize => exact quiet_of_frame rfl rfl rfl rfl
  | prune => exact quiet_of_frame rfl rfl rfl rfl

end Engine

end Lionagi.Scheduler
