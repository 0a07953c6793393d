import Lionagi.Library.Transition
import Lionagi.Scheduler.Overlap

/-!
# Runs that do not overlap

A tick decides by the map, which covers the runs that are registered as long as no fire ends and takes the
entry of another with it. Between the decision and the launch no other occurrence may be committed.
-/

namespace Lionagi.Scheduler.OverlapEngine

variable (policy : String → OverlapPolicy) (engine : OverlapEngine)

/-- The other fires of the schedule have the property. -/
def Others (i : ℕ) (scheduleId : String) (p : TopLevelFire → Prop) : Prop :=
  ∀ other ∈ engine.fires.eraseIdx i, other.scheduleId = scheduleId → p other

instance (i : ℕ) (scheduleId : String) (p : TopLevelFire → Prop) [DecidablePred p] :
    Decidable (engine.Others i scheduleId p) :=
  inferInstanceAs (Decidable (∀ other ∈ engine.fires.eraseIdx i, other.scheduleId = scheduleId → p other))

/-- When the fire of a tick launches a process, no other run of its schedule is active. -/
def Exclusive : OverlapOp → Prop
  | .launch i => ∀ fire ∈ engine.fires[i]?, fire.origin = .maybeFire → fire.stage = .registered →
      policy fire.scheduleId = .skip → engine.Others i fire.scheduleId fun other ↦ other.stage.isActive = false
  | _ => True

instance (op : OverlapOp) : Decidable (engine.Exclusive policy op) := by
  unfold Exclusive
  split <;> infer_instance

/-- A tick that finds no entry decides when no committed run waits for its registration. An occurrence is
committed when no other fire of a tick is between its decision and its launch. A fire ends after its setup
when no other run is registered. -/
def Covers : OverlapOp → Prop
  | .maybeFire scheduleId => policy scheduleId = .skip → engine.running scheduleId = none →
      ∀ fire ∈ engine.fires, fire.scheduleId = scheduleId → fire.stage ≠ .committed
  | .write i true => ∀ fire ∈ engine.fires[i]?, fire.stage = .writing → policy fire.scheduleId = .skip →
      engine.Others i fire.scheduleId fun other ↦ other.origin = .maybeFire → other.stage.isPending = false
  | .write i false => ∀ fire ∈ engine.fires[i]?, fire.stage = .writing → policy fire.scheduleId = .skip →
      engine.Others i fire.scheduleId fun other ↦ other.stage.isRegistered = false
  | .finish i => ∀ fire ∈ engine.fires[i]?, fire.stage.isGuarded = true → policy fire.scheduleId = .skip →
      engine.Others i fire.scheduleId fun other ↦ other.stage.isRegistered = false
  | _ => True

instance (op : OverlapOp) : Decidable (engine.Covers policy op) := by
  unfold Covers
  split <;> infer_instance

/-- A registered run has an entry, and a fire of a tick has no active run beside it until it has launched a
process. -/
structure Covered : Prop where
  entry : ∀ fire ∈ engine.fires, policy fire.scheduleId = .skip → fire.stage.isRegistered = true →
    engine.running fire.scheduleId ≠ none
  alone : ∀ i fire, engine.fires[i]? = some fire → policy fire.scheduleId = .skip →
    fire.origin = .maybeFire → fire.stage.isPending = true →
      engine.Others i fire.scheduleId fun other ↦ other.stage.isActive = false

variable {policy engine} {i : ℕ} {fire : TopLevelFire}
variable {scheduleId : String}

theorem others_iff {p : TopLevelFire → Prop} : engine.Others i scheduleId p ↔
    ∀ j other, engine.fires[j]? = some other → j ≠ i → other.scheduleId = scheduleId → p other := by
  constructor
  · intro h j other hother hj
    exact h other (List.mem_eraseIdx_iff_getElem?.2 ⟨j, hj, hother⟩)
  · intro h other hmem
    obtain ⟨j, hj, hother⟩ := List.mem_eraseIdx_iff_getElem?.1 hmem
    exact h j other hother hj

/-! ## Steps -/

theorem Covered.add (h : engine.Covered policy) (hstage : fire.stage.isActive = false)
    (halone : policy fire.scheduleId = .skip → fire.origin = .maybeFire →
      ∀ other ∈ engine.fires, other.scheduleId = fire.scheduleId → other.stage.isActive = false) :
    (engine.addFire fire).Covered policy := by
  constructor
  case entry =>
    intro other hother hskip hregistered
    rcases List.mem_append.1 hother with hold | hnew
    · exact h.entry other hold hskip hregistered
    · cases List.mem_singleton.1 hnew
      exact absurd (hstage.symm.trans (TopLevelStage.isActive_of_isRegistered hregistered)) Bool.false_ne_true
  case alone =>
    intro k fire' hfire' hskip horigin hpending
    rw [others_iff]
    intro j other hother hj hid
    rcases Processes.getElem?_concat_cases hother with ⟨-, rfl⟩ | hold
    · exact hstage
    · rcases Processes.getElem?_concat_cases hfire' with ⟨-, rfl⟩ | hfire
      · exact halone hskip horigin other (List.mem_of_getElem? hold) hid
      · exact others_iff.1 (h.alone k fire' hfire hskip horigin hpending) j other hold hj hid

variable {stage : TopLevelStage}

/-- A fire that goes on keeps the fires of ticks alone, if it becomes active only where no fire of a tick is
pending beside it. -/
theorem Covered.alone_set (h : engine.Covered policy) (hfire : engine.fires[i]? = some fire)
    (hpending : stage.isPending = true → fire.stage.isPending = true)
    (hactive : stage.isActive = true → fire.stage.isActive = true ∨ (policy fire.scheduleId = .skip →
      engine.Others i fire.scheduleId fun other ↦ other.origin = .maybeFire → other.stage.isPending = false))
    {engine' : OverlapEngine} (hfires : engine'.fires = engine.fires.set i { fire with stage := stage }) :
    ∀ k fire', engine'.fires[k]? = some fire' → policy fire'.scheduleId = .skip →
      fire'.origin = .maybeFire → fire'.stage.isPending = true →
        engine'.Others k fire'.scheduleId fun other ↦ other.stage.isActive = false := by
  intro k fire' hfire' hskip horigin hpending'
  rw [others_iff]
  intro j other hother hj hid
  rw [hfires] at hfire' hother
  rcases Processes.getElem?_set_cases hfire' with ⟨rfl, rfl⟩ | ⟨hk, hkept⟩
  · rcases Processes.getElem?_set_cases hother with ⟨rfl, -⟩ | ⟨-, hold⟩
    · exact absurd rfl hj
    · exact others_iff.1 (h.alone k fire hfire hskip horigin (hpending hpending')) j other hold hj hid
  · have halone := others_iff.1 (h.alone k fire' hkept hskip horigin hpending')
    rcases Processes.getElem?_set_cases hother with ⟨rfl, rfl⟩ | ⟨-, hold⟩
    · apply Bool.eq_false_iff.2
      intro hnow
      rcases hactive hnow with hbefore | hothers
      · exact Bool.false_ne_true ((halone j fire hfire hj hid).symm.trans hbefore)
      · have hskip' : policy fire.scheduleId = .skip := (congrArg policy hid).trans hskip
        have hended := others_iff.1 (hothers hskip') k fire' hkept hk hid.symm horigin
        exact Bool.false_ne_true (hended.symm.trans hpending')
    · exact halone j other hold hj hid

theorem Covered.move (h : engine.Covered policy) (hfire : engine.fires[i]? = some fire)
    (hleads : fire.stage.Leads stage) : (engine.move i fire stage).Covered policy where
  entry := by
    intro other hother hskip hregistered
    rcases List.mem_or_eq_of_mem_set hother with hold | rfl
    · exact h.entry other hold hskip hregistered
    · exact h.entry fire (List.mem_of_getElem? hfire) hskip (hleads.2.1 hregistered)
  alone := h.alone_set hfire hleads.2.2 (fun hactive ↦ .inl (hleads.1 hactive)) rfl

theorem Covered.commit (h : engine.Covered policy) (hfire : engine.fires[i]? = some fire)
    (hstage : fire.stage = .writing) (hop : engine.Covers policy (.write i true)) :
    (engine.move i fire .committed).Covered policy where
  entry := by
    intro other hother hskip hregistered
    rcases List.mem_or_eq_of_mem_set hother with hold | rfl
    · exact h.entry other hold hskip hregistered
    · cases hregistered
  alone := by
    refine h.alone_set hfire ?_ ?_ rfl
    · intro _
      rw [hstage]
      rfl
    · exact fun _ ↦ .inr (hop fire hfire hstage)

/-- A fire that ends takes the entry of its schedule, which covers no other run. -/
theorem Covered.leave (h : engine.Covered policy) (hfire : engine.fires[i]? = some fire)
    (hothers : policy fire.scheduleId = .skip →
      engine.Others i fire.scheduleId fun other ↦ other.stage.isRegistered = false) :
    (engine.leave i fire).Covered policy where
  entry := by
    intro other hother hskip hregistered
    obtain ⟨j, hj⟩ := List.mem_iff_getElem?.1 hother
    change Function.update engine.running fire.scheduleId none other.scheduleId ≠ none
    rcases Processes.getElem?_set_cases hj with ⟨-, rfl⟩ | ⟨hne, hother⟩
    · cases hregistered
    · by_cases hid : other.scheduleId = fire.scheduleId
      · have hnot := others_iff.1 (hothers (hid ▸ hskip)) j other hother hne hid
        exact absurd (hnot.symm.trans hregistered) Bool.false_ne_true
      · rw [Function.update_of_ne hid]
        exact h.entry other (List.mem_of_getElem? hother) hskip hregistered
  alone := by
    refine h.alone_set hfire ?_ ?_ rfl
    · exact fun hfalse ↦ absurd hfalse Bool.false_ne_true
    · exact fun hfalse ↦ absurd hfalse Bool.false_ne_true

theorem Covered.register (h : engine.Covered policy) (hfire : engine.fires[i]? = some fire)
    (hstage : fire.stage = .committed) :
    ((engine.setRunning fire.scheduleId (some i)).move i fire .registered).Covered policy where
  entry := by
    intro other hother hskip hregistered
    change Function.update engine.running fire.scheduleId (some i) other.scheduleId ≠ none
    by_cases hid : other.scheduleId = fire.scheduleId
    · rw [hid, Function.update_self]
      exact Option.some_ne_none i
    · rw [Function.update_of_ne hid]
      rcases List.mem_or_eq_of_mem_set hother with hold | rfl
      · exact h.entry other hold hskip hregistered
      · exact absurd rfl hid
  alone := by
    refine h.alone_set hfire ?_ ?_ rfl
    · intro _
      rw [hstage]
      rfl
    · intro _
      rw [hstage]
      exact .inl rfl

/-- A tick that finds no entry finds no active run, where none waits for its registration. -/
theorem Covered.decide (h : engine.Covered policy)
    (hentry : policy scheduleId = .skip → engine.running scheduleId = none)
    (hop : engine.Covers policy (.maybeFire scheduleId)) :
    (engine.addFire ⟨scheduleId, .maybeFire, .admitting⟩).Covered policy := by
  apply h.add rfl
  intro hskip _ other hother hid
  have hnone : engine.running scheduleId = none := hentry hskip
  have hcommitted : other.stage ≠ .committed := hop hskip hnone other hother hid
  have hregistered : other.stage.isRegistered ≠ true := by
    intro hregistered
    have hsome := h.entry other hother (hid ▸ hskip) hregistered
    rw [hid] at hsome
    exact hsome hnone
  exact TopLevelStage.isActive_eq_false hcommitted hregistered

theorem Covered.exec (h : engine.Covered policy) {op : OverlapOp} (hop : engine.Covers policy op) :
    (engine.exec policy op).Covered policy := by
  have hstep := exec_overlapStep policy engine op
  generalize engine.exec policy op = engine' at hstep ⊢
  cases hstep with
  | idle => exact h
  | decide hentry => exact h.decide hentry hop
  | start horigin => exact h.add rfl fun _ heq ↦ absurd heq horigin
  | move hfire hleads => exact h.move hfire hleads
  | commit hfire hstage => exact h.commit hfire hstage hop
  | refuse hfire hstage => exact h.leave hfire (hop _ hfire hstage)
  | register hfire hstage => exact h.register hfire hstage
  | finish hfire hstage => exact h.leave hfire (hop _ hfire hstage)

theorem Covered.exclusive (h : engine.Covered policy) (op : OverlapOp) : engine.Exclusive policy op := by
  cases op with
  | launch i =>
    intro fire hfire horigin hstage hskip
    exact h.alone i fire hfire hskip horigin (by rw [hstage]; rfl)
  | _ => trivial

theorem covered_empty : Covered policy {} where
  entry _ h := absurd h List.not_mem_nil
  alone i fire h := absurd h (by rw [List.getElem?_nil]; exact Option.some_ne_none fire ∘ Eq.symm)

/-! ## Runs -/

/-- No launch of a tick overlaps in a run in which the map covers the runs that are active. -/
theorem along_exclusive (policy : String → OverlapPolicy) (ops : List OverlapOp)
    (h : Transition.Along (exec policy) (Covers policy) {} ops) :
    Transition.Along (exec policy) (Exclusive policy) {} ops :=
  Transition.Along.of_invariant (I := Covered policy) (fun _ op hcovered _ ↦ hcovered.exclusive op)
    (fun _ _ hcovered hop ↦ hcovered.exec hop) covered_empty h

/-- A tick and later a manual fire, one after the other. -/
theorem along_exclusive_skip : Transition.Along (exec fun _ ↦ .skip) (Exclusive fun _ ↦ .skip) {}
    [.maybeFire "nightly", .reserve 0 true, .enter 0, .prepare 0 true, .write 0 true, .register 0, .launch 0,
      .maybeFire "nightly", .finish 0, .trigger "nightly" .manual, .enter 1, .prepare 1 true, .write 1 true,
      .register 1, .launch 1, .finish 1, .maybeFire "nightly", .reserve 2 true, .enter 2, .prepare 2 true,
      .write 2 true, .register 2, .launch 2] :=
  along_exclusive _ _ (by decide +kernel)

/-- A manual fire ends beside a run and takes its entry. The next tick launches beside that run. -/
theorem not_along_exclusive : ¬ Transition.Along (exec fun _ ↦ .skip) (Exclusive fun _ ↦ .skip) {}
    [.maybeFire "nightly", .reserve 0 true, .enter 0, .prepare 0 true, .write 0 true, .register 0, .launch 0,
      .trigger "nightly" .manual, .enter 1, .prepare 1 true, .write 1 true, .register 1, .launch 1,
      .finish 1, .maybeFire "nightly", .reserve 2 true, .enter 2, .prepare 2 true, .write 2 true,
      .register 2, .launch 2] := by
  decide +kernel

end Lionagi.Scheduler.OverlapEngine
