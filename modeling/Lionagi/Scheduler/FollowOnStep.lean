import Lionagi.Scheduler.FollowOn

/-!
# The steps of the parties to a run

A terminal write, a signal and a chain child are steps of their own. All others leave the effects and what
is known of the runs as they are.
-/

namespace Lionagi.Scheduler

universe u

/-- What no step but a terminal write changes of a run. -/
def ChainRun.key (run : ChainRun) : Option ℕ × String := (run.chainParentId, run.status)

namespace PartyStage

/-- Whether the terminal write of the party succeeded. -/
def won : PartyStage → Option Bool
  | written _ won | signalled _ won | finalized _ won => some won
  | _ => none

/-- The party has to emit the signal. -/
def isUnsignalled : PartyStage → Bool
  | written _ true => true
  | _ => false

/-- The status that the party is to write is none of a running run. -/
def Sound : PartyStage → Prop
  | examining exitStatus => exitStatus ≠ "running"
  | resolved _ status => status ≠ "running"
  | _ => True

end PartyStage

/-- The terminal write of the party has not succeeded, and the party has not ended. -/
def PartyStage.isFresh : PartyStage → Bool
  | written _ won | signalled _ won | finalized _ won => !won
  | ended => false
  | _ => true

/-- The party may start a chain child. -/
def PartyRole.chains {S : Type u} : PartyRole S → Bool
  | launcher _ chains => chains
  | reconciler => true

/-- The party may start a chain child, without a terminal write that has succeeded. -/
def Party.isFresh {S : Type u} (party : Party S) : Bool := party.role.chains && party.stage.isFresh

namespace ChainSystem

variable {S : Type u} (config : ChainConfig S) (system : ChainSystem S)

/-- The run has a terminal status. -/
def isTerminal (r : ℕ) : Bool := system.runs[r]?.any fun run ↦ run.status ≠ "running"

/-- A step of a party that gives it nothing to do for the first time. -/
structure Quiet (party party' : Party S) : Prop where
  run : party'.run = party.run
  unsignalled : party'.stage.isUnsignalled = true → party.stage.isUnsignalled = true
  won : party'.stage.won = some true → party.stage.won = some true
  past : party'.stage.won ≠ none → party.stage.won ≠ none ∨ system.isTerminal party.run = true
  fresh : party'.isFresh = true → party.isFresh = true
  sound : party.stage.Sound → party'.stage.Sound

/-- The ways in which an operation changes the system. -/
inductive ChainStep : ChainOp → ChainSystem S → Prop
  | idle {op : ChainOp} : ChainStep op system
  | fire : ChainStep .fire (system.insertRun config.stored ⟨none, 0, "running", false, "running"⟩)
  | insertChild {k : ℕ} {start : ChainStart S} : system.starts[k]? = some start → start.inserted = false →
      ChainStep (.insertChild k)
        { system.insertRun start.schedule ⟨some start.parent, start.depth, "running", false, "running"⟩ with
          starts := system.starts.set k { start with inserted := true } }
  | scan {r : ℕ} : r < system.runs.length →
      ChainStep (.scan r) (system.addParty ⟨.reconciler, r, .examining "completed"⟩)
  | quiet {op : ChainOp} {i : ℕ} {party party' : Party S} {runs : List ChainRun} :
      system.parties[i]? = some party → system.Quiet party party' →
      runs.map ChainRun.key = system.runs.map ChainRun.key →
      ChainStep op ({ system with runs := runs }.setParty i party')
  | win {i : ℕ} {party : Party S} {run : ChainRun} {invStatus status : String} :
      system.parties[i]? = some party → party.stage = .resolved invStatus status →
      system.runs[party.run]? = some run → run.status = "running" →
      ChainStep (.write i) (((system.setRun party.run { run with status := status }).addEffect
        (.terminal party.run i)).move i party (.written invStatus true))
  | signal {i : ℕ} {party : Party S} {invStatus : String} :
      system.parties[i]? = some party → party.stage = .written invStatus true →
      ChainStep (.signal i)
        ((system.addEffect (.signal party.run i)).move i party (.signalled invStatus true))
  | chain {i : ℕ} {party : Party S} {run : ChainRun} {invStatus : String} {won : Bool} {schedule : S} :
      system.parties[i]? = some party → party.stage = .finalized invStatus won →
      system.runs[party.run]? = some run → chainAction config party.role invStatus = some schedule →
      run.chainDepth < maxChainDepth →
      ChainStep (.chain i) { (system.addEffect (.chain party.run i)).move i party .ended with
        starts := system.starts ++ [⟨party.run, run.chainDepth + 1, schedule, false⟩] }

variable {config system} {i : ℕ} {party : Party S}

theorem chainStep_onParty {op : ChainOp} {step : Party S → ChainSystem S}
    (h : ∀ party, system.parties[i]? = some party → ChainStep config system op (step party)) :
    ChainStep config system op (system.onParty i step) := by
  unfold onParty
  split
  · next party hparty => exact h party hparty
  · exact .idle

/-- A quiet step that changes no run. -/
theorem chainStep_move {op : ChainOp} (hparty : system.parties[i]? = some party) {party' : Party S}
    (hquiet : system.Quiet party party') : ChainStep config system op (system.setParty i party') := by
  have hstep : ChainStep config system op { system.setParty i party' with runs := system.runs } :=
    .quiet hparty hquiet rfl
  exact hstep

theorem quiet_ended : system.Quiet party { party with stage := .ended } where
  run := rfl
  unsignalled h := absurd h Bool.false_ne_true
  won h := absurd h.symm (Option.some_ne_none true)
  past h := absurd rfl h
  fresh h := absurd (Bool.and_eq_true_iff.1 h).2 Bool.false_ne_true
  sound _ := trivial

/-- A stage before the terminal write is followed by another. -/
theorem quiet_before {stage : PartyStage} (hfresh : party.stage.isFresh = true) (hwon : stage.won = none)
    (hunsignalled : stage.isUnsignalled = false) (hsound : party.stage.Sound → stage.Sound) :
    system.Quiet party { party with stage := stage } where
  run := rfl
  unsignalled h := absurd (hunsignalled.symm.trans h) Bool.false_ne_true
  won h := absurd (hwon.symm.trans h).symm (Option.some_ne_none true)
  past h := absurd hwon h
  fresh h := Bool.and_eq_true_iff.2 ⟨(Bool.and_eq_true_iff.1 h).1, hfresh⟩
  sound := hsound

/-- A stage after the terminal write is followed by another. -/
theorem quiet_after {stage : PartyStage} (hwon : stage.won = party.stage.won)
    (hunsignalled : stage.isUnsignalled = false) (hfresh : stage.isFresh = party.stage.isFresh)
    (hsound : stage.Sound) : system.Quiet party { party with stage := stage } where
  run := rfl
  unsignalled h := absurd (hunsignalled.symm.trans h) Bool.false_ne_true
  won h := hwon ▸ h
  past h := .inl (hwon ▸ h)
  fresh h := by
    rw [Party.isFresh, ← hfresh]
    exact h
  sound _ := hsound

theorem scheduleRunStatusFromInvocation_ne_running {invStatus status : String}
    (h : scheduleRunStatusFromInvocation invStatus = some status) : status ≠ "running" := by
  unfold scheduleRunStatusFromInvocation at h
  split at h <;> cases h <;> decide

theorem map_key_setRun {r : ℕ} {run run' : ChainRun} (hrun : system.runs[r]? = some run)
    (hkey : run'.key = run.key) :
    (system.runs.set r run').map ChainRun.key = system.runs.map ChainRun.key := by
  obtain ⟨hlt, rfl⟩ := List.getElem?_eq_some_iff.1 hrun
  rw [List.map_set, hkey, ← List.map_set, List.set_getElem_self]

theorem isTerminal_of_run {r : ℕ} {run : ChainRun} (hrun : system.runs[r]? = some run)
    (hstatus : run.status ≠ "running") : system.isTerminal r = true := by
  rw [isTerminal, hrun]
  exact decide_eq_true hstatus

variable (config system)

theorem exec_chainStep (op : ChainOp) : ChainStep config system op (system.exec config op) := by
  cases op with
  | fire => exact .fire
  | launch i =>
    apply chainStep_onParty
    intro party hparty
    unfold launch
    split
    · next run hstage hrun =>
      refine .quiet hparty (quiet_before ?_ rfl rfl fun _ ↦ trivial) (map_key_setRun hrun rfl)
      rw [hstage]
      rfl
    · exact .idle
  | exit i exitCode =>
    apply chainStep_onParty
    intro party hparty
    unfold exit
    split
    · next hstage =>
      refine chainStep_move hparty (quiet_before ?_ rfl rfl fun _ ↦ ?_)
      · rw [hstage]
        rfl
      · change (if exitCode = 0 then "completed" else "failed") ≠ "running"
        split <;> decide
    · exact .idle
  | scan r =>
    rw [exec]
    cases hrun : system.runs[r]? with
    | none => exact .idle
    | some run =>
      change ChainStep config system _ (system.scan r run)
      unfold scan
      split
      · exact .scan (List.getElem?_eq_some_iff.1 hrun).1
      · exact .idle
  | resolve i invStatus =>
    apply chainStep_onParty
    intro party hparty
    unfold resolve
    split
    · next exitStatus hstage =>
      have hfresh : party.stage.isFresh = true := by
        rw [hstage]
        rfl
      split
      · next status hstatus =>
        exact chainStep_move hparty (quiet_before hfresh rfl rfl fun _ ↦
          scheduleRunStatusFromInvocation_ne_running hstatus)
      · refine chainStep_move hparty (quiet_before hfresh rfl rfl fun hsound ↦ ?_)
        rw [hstage] at hsound
        exact hsound
      · exact chainStep_move hparty quiet_ended
    · exact .idle
  | interrupt i invStatus =>
    apply chainStep_onParty
    intro party hparty
    unfold interrupt
    split
    · exact .idle
    · exact .idle
    · next schedule chains _ _ hrole =>
      split
      · next status hstatus =>
        refine chainStep_move hparty ⟨rfl, ?_, ?_, ?_, ?_, fun _ ↦ ?_⟩
        · exact fun h ↦ absurd h Bool.false_ne_true
        · exact fun h ↦ absurd h.symm (Option.some_ne_none true)
        · exact fun h ↦ absurd rfl h
        · exact fun h ↦ absurd h Bool.false_ne_true
        · exact scheduleRunStatusFromInvocation_ne_running hstatus
      · exact .idle
    · exact .idle
  | write i =>
    apply chainStep_onParty
    intro party hparty
    unfold write
    split
    · next invStatus status run hstage hrun =>
      split
      · next hrunning => exact .win hparty hstage hrun hrunning
      · next hstatus =>
        split
        · refine chainStep_move hparty ⟨rfl, ?_, ?_, fun _ ↦ ?_, ?_, fun _ ↦ trivial⟩
          · exact fun h ↦ absurd h Bool.false_ne_true
          · exact fun h ↦ absurd (Option.some.inj h) Bool.false_ne_true
          · exact .inr (isTerminal_of_run hrun hstatus)
          · intro h
            rw [Party.isFresh, hstage]
            exact h
        · exact chainStep_move hparty quiet_ended
    · exact .idle
  | signal i =>
    apply chainStep_onParty
    intro party hparty
    unfold signal
    split
    · next invStatus hstage => exact .signal hparty hstage
    · next invStatus hstage =>
      refine chainStep_move hparty (quiet_after ?_ rfl ?_ trivial)
      · rw [hstage]
        rfl
      · rw [hstage]
        rfl
    · exact .idle
  | finalize i =>
    apply chainStep_onParty
    intro party hparty
    unfold finalize
    split
    · next invStatus won run hstage hrun =>
      have hquiet : system.Quiet party { party with stage := .finalized invStatus won } := by
        refine quiet_after ?_ rfl ?_ trivial
        · rw [hstage]
          rfl
        · rw [hstage]
          rfl
      split
      · exact .quiet hparty hquiet (map_key_setRun hrun rfl)
      · exact chainStep_move hparty hquiet
    · exact .idle
  | chain i =>
    apply chainStep_onParty
    intro party hparty
    unfold chain
    split
    · next invStatus won run hstage hrun =>
      split
      · next schedule haction =>
        split
        · next hdepth => exact .chain hparty hstage hrun haction hdepth
        · exact chainStep_move hparty quiet_ended
      · exact chainStep_move hparty quiet_ended
    · exact .idle
  | insertChild k =>
    rw [exec]
    cases hstart : system.starts[k]? with
    | none => exact .idle
    | some start =>
      change ChainStep config system _ (system.insertChild k start)
      unfold insertChild
      split
      · exact .idle
      · next hinserted => exact .insertChild hstart (Bool.eq_false_iff.2 hinserted)
  | leave i =>
    apply chainStep_onParty
    intro party hparty
    exact chainStep_move hparty quiet_ended

end ChainSystem

end Lionagi.Scheduler
