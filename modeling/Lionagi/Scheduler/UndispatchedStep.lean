import Lionagi.Scheduler.Undispatched

/-!
# The steps of a fire to its launch

A fire launches a process, or replaces an orphan. All other steps add a fire, or leave a fire no more able
to launch one.
-/

namespace Lionagi.Scheduler

namespace OccurrenceFire

variable (fire : OccurrenceFire)

/-- The row was written, and is running no more. -/
def isSettled : Bool := fire.row.any fun row ↦ !row.isRunning

/-- The fire may launch a process for its occurrence, which is not settled, or may be replaced. -/
def isLive : Bool :=
  !fire.launched && (fire.stage = .writing && fire.supersedes.isNone || fire.row.any OccurrenceRow.isRunning)

/-- The fire has the row of a replacement for the orphan. -/
def replaces (orphan : ℕ) : Bool := fire.supersedes = some orphan && fire.row.isSome

/-- A fire that is still to launch has launched nothing, and one that is still to write has no row. -/
structure Sound : Prop where
  launched : fire.stage = .writing ∨ fire.stage = .committed ∨ fire.stage = .starting →
    fire.launched = false
  row : fire.stage = .writing → fire.row = none

end OccurrenceFire

namespace Occurrences

variable (system : Occurrences)

/-- A step of a fire that makes it no more able to launch, and replaces nothing. -/
structure Quiet (fire fire' : OccurrenceFire) : Prop where
  root : fire'.root = fire.root
  supersedes : fire'.supersedes = fire.supersedes
  launched : fire'.launched = fire.launched
  live : fire'.isLive = true → fire.isLive = true
  settled : fire.isSettled = true → fire'.isSettled = true
  written : fire.row.isSome = true → fire'.row.isSome = true
  replaces : fire'.supersedes ≠ none → fire'.row.isSome = true → fire.row.isSome = true
  sound : fire.Sound → fire'.Sound

/-- The ways in which an operation changes the occurrences. -/
inductive LaunchStep : LaunchOp → Occurrences → Prop
  | idle {op : LaunchOp} : LaunchStep op system
  | fire : LaunchStep .fire (system.addFire { supersedes := none, root := system.fires.length })
  | recover {i : ℕ} {fire : OccurrenceFire} : system.fires[i]? = some fire → fire.row.isSome = true →
      LaunchStep (.recover i) (system.addFire { supersedes := some i, root := fire.root })
  | quiet {op : LaunchOp} {i : ℕ} {fire fire' : OccurrenceFire} : system.fires[i]? = some fire →
      (fire.Sound → Quiet fire fire') → LaunchStep op (system.setFire i fire')
  | replace {i o : ℕ} {fire fire' orphan : OccurrenceFire} {row : OccurrenceRow} {valid claimed : Bool} :
      system.fires[i]? = some fire → fire.stage = .writing → fire.supersedes = some o →
      system.fires[o]? = some orphan → orphan.row = some row → row.isUndispatched = true →
      fire'.root = fire.root → fire'.supersedes = fire.supersedes → fire'.launched = fire.launched →
      fire'.row.isSome = true → (fire.Sound → fire'.Sound) →
      LaunchStep (.commit i valid claimed)
        ((system.setFire o (orphan.tombstoned row)).setFire i fire')
  | spawn {i : ℕ} {fire : OccurrenceFire} : system.fires[i]? = some fire → fire.stage = .starting →
      LaunchStep (.spawn i) (system.setFire i { fire with stage := .launched, launched := true })

variable {system} {i : ℕ} {fire fire' : OccurrenceFire}

theorem launchStep_onFire {op : LaunchOp} {step : OccurrenceFire → Occurrences}
    (h : ∀ fire, system.fires[i]? = some fire → LaunchStep system op (step fire)) :
    LaunchStep system op (system.onFire i step) := by
  unfold onFire
  split
  · next fire hfire => exact h fire hfire
  · exact .idle

variable {stage : LaunchStage}

/-- A row that is changed, if at all, to one that runs no more, or the first row of a fire. -/
theorem quiet_update (h : fire.Sound) {row : Option OccurrenceRow}
    (hstage : stage = .writing → fire.stage = .writing ∧ row = none)
    (hpending : stage = .committed ∨ stage = .starting → fire.launched = false)
    (hrunning : row.any OccurrenceRow.isRunning = true →
      fire.row.any OccurrenceRow.isRunning = true ∨ fire.stage = .writing ∧ fire.supersedes = none)
    (hsettled : fire.row.any (fun row ↦ !row.isRunning) = true → row.any (fun row ↦ !row.isRunning) = true)
    (hwritten : fire.row.isSome = true → row.isSome = true)
    (hreplaces : fire.supersedes ≠ none → row.isSome = true → fire.row.isSome = true) :
    Quiet fire { fire with stage := stage, row := row } where
  root := rfl
  supersedes := rfl
  launched := rfl
  live := by
    intro hlive
    obtain ⟨hlaunched, hlive⟩ := Bool.and_eq_true_iff.1 hlive
    refine Bool.and_eq_true_iff.2 ⟨hlaunched, ?_⟩
    rcases Bool.or_eq_true_iff.1 hlive with hwriting | hrow
    · obtain ⟨hwriting, hnone⟩ := Bool.and_eq_true_iff.1 hwriting
      rw [(hstage (of_decide_eq_true hwriting)).1, hnone]
      rfl
    · rcases hrunning hrow with hbefore | ⟨hwriting, hnone⟩
      · rw [hbefore, Bool.or_true]
      · rw [hwriting, hnone]
        rfl
  settled := hsettled
  written := hwritten
  replaces := hreplaces
  sound _ := by
    constructor
    case launched =>
      intro hbefore
      rcases hbefore with hwriting | hbefore
      · exact h.launched (.inl (hstage hwriting).1)
      · exact hpending hbefore
    case row => exact fun hwriting ↦ (hstage hwriting).2

/-- A fire that goes on with its row. -/
theorem quiet_stage (h : fire.Sound) (hstage : stage ≠ .writing)
    (hpending : stage = .committed ∨ stage = .starting → fire.launched = false) :
    Quiet fire { fire with stage := stage } :=
  quiet_update h (fun hwriting ↦ absurd hwriting hstage) hpending .inl id id fun _ ↦ id

/-- A row that is written again, and does not run again. -/
theorem quiet_map (h : fire.Sound) {f : OccurrenceRow → OccurrenceRow}
    (hstage : stage = .writing → fire.stage = .writing)
    (hpending : stage = .committed ∨ stage = .starting → fire.launched = false)
    (hf : ∀ row, (f row).isRunning = true → row.isRunning = true) :
    Quiet fire { fire with stage := stage, row := fire.row.map f } := by
  refine quiet_update h ?_ hpending ?_ ?_ ?_ ?_
  · intro hwriting
    rw [h.row (hstage hwriting)]
    exact ⟨hstage hwriting, rfl⟩
  · intro hrunning
    left
    cases hrow : fire.row with
    | none =>
      rw [hrow] at hrunning
      cases hrunning
    | some row =>
      rw [hrow] at hrunning
      exact hf row hrunning
  · intro hsettled
    cases hrow : fire.row with
    | none =>
      rw [hrow] at hsettled
      cases hsettled
    | some row =>
      rw [hrow] at hsettled
      change (!row.isRunning) = true at hsettled
      change (!(f row).isRunning) = true
      cases hrunning : (f row).isRunning with
      | false => rfl
      | true =>
        rw [hf row hrunning] at hsettled
        cases hsettled
  · intro hsome
    rw [Option.isSome_map]
    exact hsome
  · intro _ hsome
    rw [Option.isSome_map] at hsome
    exact hsome

theorem isRunning_of_settleRow (row : OccurrenceRow) (h : (settleRow row).isRunning = true) :
    row.isRunning = true := by
  unfold settleRow at h
  split at h
  · cases h
  · exact h

/-- An orphan is settled. -/
theorem quiet_tombstoned {row : OccurrenceRow} (h : fire.Sound) (hrow : fire.row = some row) :
    Quiet fire (fire.tombstoned row) := by
  refine quiet_update h ?_ (fun hstage ↦ h.launched (.inr hstage)) ?_ ?_ ?_ ?_
  · intro hwriting
    cases (h.row hwriting).symm.trans hrow
  · exact fun hfalse ↦ absurd hfalse Bool.false_ne_true
  · exact fun _ ↦ rfl
  · exact fun _ ↦ rfl
  · intro _ _
    rw [hrow]
    rfl

/-- The first row of a fire that supersedes nothing. -/
theorem quiet_insertRow (h : fire.Sound) (hstage : fire.stage = .writing) (hnone : fire.supersedes = none)
    (row : OccurrenceRow) (hwriting : stage ≠ .writing) : Quiet fire { fire with stage := stage, row := some row } := by
  have hrow : fire.row = none := h.row hstage
  refine quiet_update h (fun heq ↦ absurd heq hwriting) ?_ ?_ ?_ ?_ ?_
  · exact fun _ ↦ h.launched (.inl hstage)
  · exact fun _ ↦ .inr ⟨hstage, hnone⟩
  · rw [hrow]
    exact fun hfalse ↦ absurd hfalse Bool.false_ne_true
  · exact fun _ ↦ rfl
  · exact fun hsome ↦ absurd hnone hsome

theorem tombstone_eq_some {o : ℕ} {settled : Occurrences} (h : system.tombstone o = some settled) :
    ∃ orphan row, system.fires[o]? = some orphan ∧ orphan.row = some row ∧ row.isUndispatched = true ∧
      settled = system.setFire o (orphan.tombstoned row) := by
  unfold tombstone at h
  split at h
  · next orphan horphan =>
    split at h
    · next row hrow =>
      split at h
      · next hundispatched =>
        cases h
        exact ⟨orphan, row, horphan, hrow, hundispatched, rfl⟩
      · cases h
    · cases h
  · cases h

variable (system)

theorem launchStep_commit (valid claimed : Bool) (hfire : system.fires[i]? = some fire) :
    LaunchStep system (.commit i valid claimed) (system.commit i valid claimed fire) := by
  have hended : LaunchStep system (.commit i valid claimed) (system.setFire i { fire with stage := .ended }) := by
    refine .quiet hfire fun hsound ↦ quiet_stage hsound (by decide) fun h ↦ ?_
    rcases h with h | h <;> cases h
  unfold commit
  split
  · next hstage =>
    split
    · next hnone =>
      split
      · unfold insertRow
        split
        · exact .quiet hfire fun hsound ↦ quiet_insertRow hsound hstage hnone _ (by decide)
        · exact .quiet hfire fun hsound ↦ quiet_insertRow hsound hstage hnone _ (by decide)
      · exact hended
    · next o hsupersedes =>
      split
      · next settled htombstone =>
        obtain ⟨orphan, row, horphan, hrow, hundispatched, rfl⟩ := tombstone_eq_some htombstone
        unfold insertRow
        split
        · refine .replace hfire hstage hsupersedes horphan hrow hundispatched rfl rfl rfl rfl fun hsound ↦ ?_
          exact ⟨fun _ ↦ hsound.launched (.inl hstage), fun hwriting ↦ by cases hwriting⟩
        · refine .replace hfire hstage hsupersedes horphan hrow hundispatched rfl rfl rfl rfl fun hsound ↦ ?_
          exact ⟨fun _ ↦ hsound.launched (.inl hstage), fun hwriting ↦ by cases hwriting⟩
      · exact hended
  · exact .idle

theorem exec_launchStep (op : LaunchOp) : LaunchStep system op (system.exec op) := by
  cases op with
  | fire => exact .fire
  | recover i =>
    apply launchStep_onFire
    intro fire hfire
    unfold recover
    split
    · next h =>
      refine .recover hfire ?_
      cases hrow : fire.row with
      | none =>
        rw [hrow] at h
        cases h
      | some row => rfl
    · exact .idle
  | commit i valid claimed =>
    apply launchStep_onFire
    intro fire hfire
    exact launchStep_commit system valid claimed hfire
  | register i =>
    apply launchStep_onFire
    intro fire hfire
    unfold register
    split
    · next row hstage hrow =>
      refine .quiet hfire fun hsound ↦ quiet_stage hsound ?_ fun _ ↦ hsound.launched (.inr (.inl hstage))
      split <;> decide
    · exact .idle
  | spawn i =>
    apply launchStep_onFire
    intro fire hfire
    unfold spawn
    split
    · next hstage => exact .spawn hfire hstage
    · exact .idle
  | confirm i stamped =>
    apply launchStep_onFire
    intro fire hfire
    unfold confirm
    split
    · have hpending : LaunchStage.confirmed = .committed ∨ LaunchStage.confirmed = .starting →
          fire.launched = false := by
        intro h
        rcases h with h | h <;> cases h
      cases stamped with
      | true => exact .quiet hfire fun hsound ↦ quiet_map hsound (fun h ↦ by cases h) hpending fun _ ↦ id
      | false => exact .quiet hfire fun hsound ↦ quiet_stage hsound (by decide) hpending
    · exact .idle
  | finish i =>
    apply launchStep_onFire
    intro fire hfire
    have hfinish : LaunchStep system (.finish i)
        (system.setFire i { fire with stage := .ended, row := fire.row.map settleRow }) := by
      refine .quiet hfire fun hsound ↦ quiet_map hsound (fun h ↦ by cases h) ?_ isRunning_of_settleRow
      intro h
      rcases h with h | h <;> cases h
    unfold finish
    split
    · exact hfinish
    · exact hfinish
    · exact .idle
  | settle i =>
    apply launchStep_onFire
    intro fire hfire
    exact .quiet hfire fun hsound ↦
      quiet_map hsound id (fun h ↦ hsound.launched (.inr h)) isRunning_of_settleRow
  | leave i =>
    apply launchStep_onFire
    intro fire hfire
    refine .quiet hfire fun hsound ↦ quiet_stage hsound (by decide) fun h ↦ ?_
    rcases h with h | h <;> cases h

end Occurrences

end Lionagi.Scheduler
