import Lionagi.Library.Transition
import Lionagi.Scheduler.DueInstantStep

/-!
# Pending instants

An instant that is pending on the cursor is consumed by an operation that claims it. A fire that claims no
instant writes the cursor as well, with what is next after its own start. It spares the pending instant
only where that is the next one.
-/

namespace Lionagi.Scheduler

namespace Trigger

variable {trigger : Trigger} {now instant : ℚ}

/-- The instant is the one after the time. -/
def IsNext (now instant : ℚ) : Trigger → Prop
  | cron getNext => getNext now = instant
  | interval seconds => now + seconds = instant
  | pointInTime => False

theorem computeNextFire_eq_some_iff :
    trigger.computeNextFire now = some instant ↔ trigger.IsNext now instant := by
  cases trigger with
  | cron getNext => exact Option.some_inj
  | interval seconds => exact Option.some_inj
  | pointInTime =>
    constructor
    · intro h
      cases h
    · exact False.elim

theorem computeNextFire_eq_none_iff : trigger.computeNextFire now = none ↔ trigger = .pointInTime := by
  constructor
  · intro h
    cases trigger with
    | pointInTime => rfl
    | _ => cases h
  · rintro rfl
    rfl

end Trigger

/-- The instant on which a visit has decided. -/
def Visit.decidedOn : Visit → Option ℚ
  | .visiting _ _ read _ => read
  | .firing _ claim _ => claim.join
  | _ => none

/-- The operation handles the instant on which its visit has decided: it fires or recovers it, evaluates a
threshold or skips it. -/
def CursorOp.handles : CursorOp → Option ℕ
  | .skip i | .evaluate i | .reserve i | .commit i => some i
  | _ => none

/-- The operation sets the cursor to what is next after the time, whatever it is. The visit may have
decided on an instant. -/
inductive Overwrites (trigger : Trigger) : CursorOp → ℕ → Visit → ℚ → Option ℚ → Prop
  | fill {i writes : ℕ} {now : ℚ} : trigger ≠ .pointInTime → ¬ trigger.IsNext now 0 →
      Overwrites trigger (.fill i) i (.visiting .tick now none writes) now none
  | skip {i writes : ℕ} {pass : CursorPass} {now due : ℚ} : pass ≠ .restart → due ≤ now →
      Overwrites trigger (.skip i) i (.visiting pass now (some due) writes) now (some due)
  | evaluate {i writes : ℕ} {now due : ℚ} : due ≤ now → trigger ≠ .pointInTime → ¬ trigger.IsNext now 0 →
      Overwrites trigger (.evaluate i) i (.visiting .tick now (some due) writes) now (some due)
  | recompute {i writes : ℕ} {now : ℚ} {read : Option ℚ} {getNext : ℚ → ℚ} : trigger = .cron getNext →
      (∀ old ∈ read, now < old) → (∀ old ∈ read, 1 / 1000000 ≤ |getNext now - old|) →
      Overwrites trigger (.recompute i) i (.visiting .restart now read writes) now none
  | fire {i : ℕ} {kind : FireKind} {now : ℚ} : kind ≠ .replacement →
      Overwrites trigger (.commit i) i (.firing kind none now) now none

namespace SharedSchedule

variable (trigger : Trigger) (threshold : Bool) (shared : SharedSchedule)

/-- The operation handles an instant, on which its visit has decided. -/
def Claims (op : CursorOp) (instant : ℚ) : Prop :=
  ∃ i ∈ op.handles, ∃ visit ∈ shared.visits[i]?, visit.decidedOn = some instant

/-- The pending instant stays on the cursor, or the operation has claimed it. -/
def ConsumedByClaim (op : CursorOp) : Prop :=
  ∀ instant, shared.row.nextFireAt = some instant →
    (shared.exec trigger threshold op).row.nextFireAt = some instant ∨ shared.Claims op instant

/-- Where the operation sets the cursor, the pending instant is the one on which it has decided, or the next
one. -/
def Spares (op : CursorOp) : Prop :=
  ∀ instant, shared.row.nextFireAt = some instant → ∀ i visit now decided,
    shared.visits[i]? = some visit → Overwrites trigger op i visit now decided →
      decided = some instant ∨ trigger.IsNext now instant

/-- What an operation does to the cursor. -/
inductive CursorWritten (op : CursorOp) (shared' : SharedSchedule) : Prop
  | empty : shared.row.nextFireAt = none → CursorWritten op shared'
  | kept : shared'.row.nextFireAt = shared.row.nextFireAt →
      (∀ i visit now decided, shared.visits[i]? = some visit → ¬ Overwrites trigger op i visit now decided) →
      CursorWritten op shared'
  | overwritten {i : ℕ} {visit : Visit} {now : ℚ} {decided : Option ℚ} : shared.visits[i]? = some visit →
      Overwrites trigger op i visit now decided →
      shared'.row.nextFireAt = trigger.computeNextFire now → CursorWritten op shared'
  | claimed {instant : ℚ} : shared.row.nextFireAt = some instant → shared.Claims op instant →
      (∀ i visit now decided, shared.visits[i]? = some visit → ¬ Overwrites trigger op i visit now decided) →
      CursorWritten op shared'

/-! ## Updates of the cursor -/

section Updates

variable {trigger threshold shared} {op : CursorOp} {i : ℕ} {visit : Visit}

theorem cursorWritten_onVisit {step : Visit → SharedSchedule}
    (hop : ∀ j visit now decided, Overwrites trigger op j visit now decided → j = i)
    (h : ∀ visit, shared.visits[i]? = some visit → CursorWritten trigger shared op (step visit)) :
    CursorWritten trigger shared op (shared.onVisit i step) := by
  unfold onVisit
  split
  · next visit hvisit => exact h visit hvisit
  · next hnone =>
    refine .kept rfl fun j visit now decided hvisit hover ↦ ?_
    rw [hop j visit now decided hover, hnone] at hvisit
    cases hvisit

/-- The cursor is kept by an operation of a visit that has nothing to set. -/
theorem cursorWritten_of_kept {shared' : SharedSchedule}
    (hop : ∀ j visit now decided, Overwrites trigger op j visit now decided → j = i)
    (hvisit : shared.visits[i]? = some visit)
    (hkept : shared'.row.nextFireAt = shared.row.nextFireAt)
    (hnot : ∀ now decided, ¬ Overwrites trigger op i visit now decided) :
    CursorWritten trigger shared op shared' := by
  refine .kept hkept fun j visit' now decided hvisit' hover ↦ ?_
  cases hop j visit' now decided hover
  cases hvisit.symm.trans hvisit'
  exact hnot now decided hover

theorem nextFireAt_setVisit_updateSchedule {fields : ScheduleFields} {nextAt : Option ℚ}
    (hfields : fields.nextFireAt = some nextAt) :
    ((shared.updateSchedule none fields).1.setVisit i visit).row.nextFireAt = nextAt := by
  rw [updateSchedule_none fields hfields]
  exact nextFireAt_update hfields

theorem cursorWritten_fill : CursorWritten trigger shared (.fill i) (shared.exec trigger threshold (.fill i)) := by
  have hop : ∀ j visit now decided, Overwrites trigger (.fill i) j visit now decided → j = i := by
    intro j visit now decided hover
    cases hover
    rfl
  apply cursorWritten_onVisit hop
  intro visit hvisit
  unfold SharedSchedule.fill
  split
  · next now writes =>
    split
    · next instant hnext =>
      split
      · next hzero =>
        refine cursorWritten_of_kept hop hvisit rfl fun now' decided hover ↦ ?_
        cases hover with
        | fill _ hnot => exact hnot (Trigger.computeNextFire_eq_some_iff.1 (hzero ▸ hnext))
      · next hzero =>
        have hnot : ¬ trigger.IsNext now 0 := by
          rw [← Trigger.computeNextFire_eq_some_iff, hnext]
          exact fun heq ↦ hzero (Option.some.inj heq)
        have htrigger : trigger ≠ .pointInTime := by
          rintro rfl
          cases hnext
        refine .overwritten hvisit (.fill htrigger hnot) ?_
        rw [nextFireAt_setVisit_updateSchedule rfl, hnext]
    · next hnext =>
      refine cursorWritten_of_kept hop hvisit rfl fun now' decided hover ↦ ?_
      cases hover with
      | fill htrigger => exact htrigger (Trigger.computeNextFire_eq_none_iff.1 hnext)
  · next hother =>
    refine cursorWritten_of_kept hop hvisit rfl fun now' decided hover ↦ ?_
    cases hover
    exact hother _ _ rfl

theorem cursorWritten_skip : CursorWritten trigger shared (.skip i) (shared.exec trigger threshold (.skip i)) := by
  have hop : ∀ j visit now decided, Overwrites trigger (.skip i) j visit now decided → j = i := by
    intro j visit now decided hover
    cases hover
    rfl
  apply cursorWritten_onVisit hop
  intro visit hvisit
  unfold SharedSchedule.skip
  split
  · next pass now due writes =>
    split
    · next h =>
      rw [trigger.nextFireField_computeNextFire]
      exact .overwritten hvisit (.skip h.1 h.2) (nextFireAt_setVisit_updateSchedule rfl)
    · next h =>
      refine cursorWritten_of_kept hop hvisit rfl fun now' decided hover ↦ ?_
      cases hover with
      | skip hpass hdue => exact h ⟨hpass, hdue⟩
  · next hother =>
    refine cursorWritten_of_kept hop hvisit rfl fun now' decided hover ↦ ?_
    cases hover
    exact hother _ _ _ _ rfl

theorem cursorWritten_evaluate :
    CursorWritten trigger shared (.evaluate i) (shared.exec trigger threshold (.evaluate i)) := by
  have hop : ∀ j visit now decided, Overwrites trigger (.evaluate i) j visit now decided → j = i := by
    intro j visit now decided hover
    cases hover
    rfl
  apply cursorWritten_onVisit hop
  intro visit hvisit
  unfold SharedSchedule.evaluate
  split
  · next now due writes =>
    split
    · next hdue =>
      simp only
      cases hnext : (trigger.computeNextFire now).filter fun instant ↦ instant ≠ 0 with
      | none =>
        refine cursorWritten_of_kept hop hvisit rfl fun now' decided hover ↦ ?_
        cases hover with
        | evaluate _ htrigger hnot =>
          cases hcompute : trigger.computeNextFire now with
          | none => exact htrigger (Trigger.computeNextFire_eq_none_iff.1 hcompute)
          | some next =>
            have hzero : next = 0 := by
              by_contra hne
              rw [hcompute, Option.filter_some, if_pos (decide_eq_true hne)] at hnext
              cases hnext
            exact hnot (Trigger.computeNextFire_eq_some_iff.1 (hzero ▸ hcompute))
      | some instant =>
        obtain ⟨hcompute, hzero⟩ := Option.filter_eq_some_iff.1 hnext
        have hnot : ¬ trigger.IsNext now 0 := by
          rw [← Trigger.computeNextFire_eq_some_iff, hcompute]
          exact fun heq ↦ of_decide_eq_true hzero (Option.some.inj heq)
        have htrigger : trigger ≠ .pointInTime := by
          rintro rfl
          cases hcompute
        refine .overwritten hvisit (.evaluate hdue htrigger hnot) ?_
        rw [nextFireAt_setVisit_updateSchedule rfl, hcompute]
    · next hdue =>
      refine cursorWritten_of_kept hop hvisit rfl fun now' decided hover ↦ ?_
      cases hover with
      | evaluate hdue' => exact hdue hdue'
  · next hother =>
    refine cursorWritten_of_kept hop hvisit rfl fun now' decided hover ↦ ?_
    cases hover
    exact hother _ _ _ rfl

theorem cursorWritten_recompute :
    CursorWritten trigger shared (.recompute i) (shared.exec trigger threshold (.recompute i)) := by
  have hop : ∀ j visit now decided, Overwrites trigger (.recompute i) j visit now decided → j = i := by
    intro j visit now decided hover
    cases hover
    rfl
  apply cursorWritten_onVisit hop
  intro visit hvisit
  unfold SharedSchedule.recompute
  split
  · next now read writes =>
    split
    · next getNext =>
      split
      · next h =>
        exact .overwritten hvisit (.recompute rfl h.1 h.2) (nextFireAt_setVisit_updateSchedule rfl)
      · next h =>
        refine cursorWritten_of_kept hop hvisit rfl fun now' decided hover ↦ ?_
        cases hover with
        | recompute htrigger hafter hfar =>
          cases htrigger
          exact h ⟨hafter, hfar⟩
    · next hother =>
      refine cursorWritten_of_kept hop hvisit rfl fun now' decided hover ↦ ?_
      cases hover with
      | recompute htrigger => exact hother _ htrigger
  · next hother =>
    refine cursorWritten_of_kept hop hvisit rfl fun now' decided hover ↦ ?_
    cases hover
    exact hother _ _ _ rfl

/-- A reservation claims the instant that its visit has read. -/
theorem cursorWritten_reserve :
    CursorWritten trigger shared (.reserve i) (shared.exec trigger threshold (.reserve i)) := by
  have hnot : ∀ j visit now decided, shared.visits[j]? = some visit →
      ¬ Overwrites trigger (.reserve i) j visit now decided := by
    intro j visit now decided hvisit hover
    cases hover
  have hstep := exec_cursorStep trigger threshold shared (.reserve i)
  generalize shared.exec trigger threshold (.reserve i) = shared' at hstep ⊢
  cases hstep with
  | reserve hvisit hdue hcursor => exact .claimed hcursor ⟨i, rfl, _, hvisit, rfl⟩ hnot
  | mark hrow => exact .kept hrow hnot
  | advance hadvances => cases hadvances
  | _ => exact .kept rfl hnot

theorem cursorWritten_commit :
    CursorWritten trigger shared (.commit i) (shared.exec trigger threshold (.commit i)) := by
  have hop : ∀ j visit now decided, Overwrites trigger (.commit i) j visit now decided → j = i := by
    intro j visit now decided hover
    cases hover
    rfl
  cases hvisit : shared.visits[i]? with
  | none =>
    apply cursorWritten_onVisit hop
    intro visit hsome
    cases hvisit.symm.trans hsome
  | some visit =>
    by_cases hfiring : ∃ kind claim now, kind ≠ .replacement ∧ visit = .firing kind claim now
    · obtain ⟨kind, claim, now, hkind, rfl⟩ := hfiring
      by_cases hclaim : ∀ value ∈ claim, shared.row.nextFireAt = value
      · have hrow := @row_commit_of_claimed trigger threshold _ _ _ _ _ hvisit hkind hclaim
        rcases claim with - | - | instant
        · exact .overwritten hvisit (.fire hkind) hrow
        · exact .empty (hclaim none rfl)
        · refine .claimed (hclaim _ rfl) ⟨i, rfl, _, hvisit, rfl⟩ ?_
          intro j visit' now' decided hvisit' hover
          cases hop j visit' now' decided hover
          cases hvisit.symm.trans hvisit'
          cases hover
      · rw [exec_commit_of_lost hvisit hkind hclaim]
        refine cursorWritten_of_kept hop hvisit rfl fun now' decided hover ↦ hclaim ?_
        cases hover
        exact fun value hnone ↦ absurd hnone (Option.not_mem_none value)
    · apply cursorWritten_onVisit hop
      intro visit' hvisit'
      cases hvisit.symm.trans hvisit'
      have hnot : ∀ now decided, ¬ Overwrites trigger (.commit i) i visit now decided := by
        intro now decided hover
        cases hover with
        | fire hkind => exact hfiring ⟨_, none, now, hkind, rfl⟩
      unfold SharedSchedule.commit
      split
      · exact cursorWritten_of_kept hop hvisit rfl hnot
      · next kind claim now hkind => exact absurd ⟨kind, claim, now, hkind, rfl⟩ hfiring
      · exact cursorWritten_of_kept hop hvisit rfl hnot

/-- An operation that neither handles an instant nor advances the cursor leaves the cursor. -/
theorem cursorWritten_of_quiet (hhandles : op.handles = none) (hadvances : op.advances = none) :
    CursorWritten trigger shared op (shared.exec trigger threshold op) := by
  have hnot : ∀ j visit now decided, shared.visits[j]? = some visit →
      ¬ Overwrites trigger op j visit now decided := by
    intro j visit now decided hvisit hover
    cases hover with
    | fire => cases hhandles
    | _ => cases hadvances
  have hstep := exec_cursorStep trigger threshold shared op
  generalize shared.exec trigger threshold op = shared' at hstep ⊢
  cases hstep with
  | mark hrow => exact .kept hrow hnot
  | advance hadvanced => cases hadvances.symm.trans hadvanced
  | reserve => cases hhandles
  | commit => cases hhandles
  | replace => cases hhandles
  | _ => exact .kept rfl hnot

theorem cursorWritten (op : CursorOp) :
    CursorWritten trigger shared op (shared.exec trigger threshold op) := by
  cases op with
  | fill i => exact cursorWritten_fill
  | skip i => exact cursorWritten_skip
  | evaluate i => exact cursorWritten_evaluate
  | recompute i => exact cursorWritten_recompute
  | reserve i => exact cursorWritten_reserve
  | commit i => exact cursorWritten_commit
  | _ => exact cursorWritten_of_quiet rfl rfl

end Updates

/-! ## Pending instants -/

section Pending

variable {trigger threshold shared} {op : CursorOp}
variable {i : ℕ} {visit : Visit} {instant now : ℚ} {decided decided' : Option ℚ}

theorem index_of_overwrites {j : ℕ} {visit' : Visit} {now' : ℚ} (h : Overwrites trigger op i visit now decided)
    (h' : Overwrites trigger op j visit' now' decided') : i = j := by
  cases h <;> cases h' <;> rfl

theorem time_of_overwrites {now' : ℚ} (h : Overwrites trigger op i visit now decided)
    (h' : Overwrites trigger op i visit now' decided') : now = now' := by
  cases h <;> cases h' <;> rfl

theorem claims_of_overwrites (h : Overwrites trigger op i visit now (some instant))
    (hvisit : shared.visits[i]? = some visit) : shared.Claims op instant := by
  cases h with
  | skip => exact ⟨i, rfl, _, hvisit, rfl⟩
  | evaluate => exact ⟨i, rfl, _, hvisit, rfl⟩

theorem decided_of_claims (h : Overwrites trigger op i visit now decided) (hvisit : shared.visits[i]? = some visit)
    (hclaims : shared.Claims op instant) : decided = some instant := by
  obtain ⟨j, hj, visit', hvisit', hdecided⟩ := hclaims
  cases h with
  | fill => cases hj
  | recompute => cases hj
  | _ =>
    cases hj
    cases hvisit.symm.trans hvisit'
    exact hdecided

theorem consumedByClaim_iff : shared.ConsumedByClaim trigger threshold op ↔ shared.Spares trigger op := by
  have hwritten : CursorWritten trigger shared op (shared.exec trigger threshold op) := cursorWritten op
  constructor
  · intro h instant hcursor i visit now decided hvisit hover
    rcases h instant hcursor with hkept | hclaims
    · cases hwritten with
      | empty hempty => cases hcursor.symm.trans hempty
      | kept _ hnot => exact absurd hover (hnot i visit now decided hvisit)
      | overwritten hvisit' hover' hrow =>
        cases index_of_overwrites hover hover'
        cases hvisit.symm.trans hvisit'
        cases time_of_overwrites hover hover'
        exact .inr (Trigger.computeNextFire_eq_some_iff.1 (hrow.symm.trans hkept))
      | claimed _ _ hnot => exact absurd hover (hnot i visit now decided hvisit)
    · exact .inl (decided_of_claims hover hvisit hclaims)
  · intro h instant hcursor
    cases hwritten with
    | empty hempty => cases hcursor.symm.trans hempty
    | kept hkept => exact .inl (hkept.trans hcursor)
    | overwritten hvisit hover hrow =>
      rcases h instant hcursor _ _ _ _ hvisit hover with rfl | hnext
      · exact .inr (claims_of_overwrites hover hvisit)
      · exact .inl (hrow.trans (Trigger.computeNextFire_eq_some_iff.2 hnext))
    | claimed hcursor' hclaims =>
      cases hcursor.symm.trans hcursor'
      exact .inr hclaims

end Pending

/-- In a run pending instants are consumed by operations that claim them exactly if every fire that claims
none, and every update of a visit that has decided on another instant, spares the pending one. -/
theorem along_consumedByClaim_iff (trigger : Trigger) (threshold : Bool) (clock : ℚ) (row : ScheduleRow)
    (ops : List CursorOp) :
    Transition.Along (exec trigger threshold) (ConsumedByClaim trigger threshold) (start clock row) ops ↔
      Transition.Along (exec trigger threshold) (Spares trigger) (start clock row) ops := by
  apply Transition.along_iff_along (I := fun _ ↦ True)
  · exact fun _ _ _ ↦ consumedByClaim_iff
  · exact fun _ _ _ _ ↦ trivial
  · trivial

/-- A manual fire before the one point in time at which the schedule is due empties the cursor. -/
theorem not_along_consumedByClaim :
    ¬ Transition.Along (exec .pointInTime false) (ConsumedByClaim .pointInTime false)
      (start 5 ⟨some 10, none, none, none⟩) [.trigger .manual, .enter 0, .commit 0] := by
  intro h
  rcases h.2.2.1 10 rfl with hkept | hclaims
  · cases hkept
  · obtain ⟨i, hi, visit, hvisit, hdecided⟩ := hclaims
    cases hi
    cases hvisit
    cases hdecided

end SharedSchedule

end Lionagi.Scheduler
