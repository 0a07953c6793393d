import Mathlib.Order.Interval.Finset.Nat
import Lionagi.Dispatch.OutboxFinality

/-!
# Delivery attempts

A claim increments the attempt of its row before the command is executed, and the maximum is compared only
after the execution. A row whose scan died in between is claimed again, whatever its attempt is. Where
rows with attempts left are claimed, and no operator retry lies between a claim and its execution, both
the attempt and the executions since the last retry stay within the maximum.
-/

namespace Lionagi.Dispatch

open StateDb OrderedDict Transition

/-! ## The property and the condition -/

section Attempts

variable (outbox : Outbox)

/-- The attempt of a row and its maximum. -/
def Outbox.attempts (id : String) : Option (ℕ × ℕ) :=
  (outbox.row id).map fun row ↦ (count row "attempt", count row "max_attempts")

/-- The attempt of every row and its executions since the last retry are at most its maximum. -/
def AttemptsBounded : Prop :=
  ∀ id attempt maximum, outbox.attempts id = some (attempt, maximum) →
    attempt ≤ maximum ∧ (outbox.journal.executed id).length ≤ maximum

/-- The scan has claimed a row that had seen the given number of retries, and not executed its command. -/
def Claimed (i : ℕ) (due : DueRow) (retries : ℕ) : Prop :=
  ∃ scan, outbox.scans[i]? = some (scan, retries) ∧ scan.phase = .claimed due

/-- A row that is about to be claimed has attempts left, and a command is executed before the operator
retries its row. -/
def HasAttemptsLeft : OutboxOp → Prop
  | .deliver i => ∀ scan retries due rest row, outbox.scans[i]? = some (scan, retries) →
      scan.phase = .scanning → scan.rest = due :: rest → ¬ AtMost (due.row "expires_at") scan.now →
      outbox.row due.id = some row → (scan.claimRequest due).Expects dispatchPolicy row →
      count row "attempt" < count row "max_attempts"
  | .execute i => ∀ due retries, Claimed outbox i due retries → outbox.journal.retries due.id = retries
  | _ => True

/-! ## The invariant -/

/-- The attempts executed since the last retry are distinct numbers up to the attempt of the row, and so
are those that are claimed. -/
structure Counted : Prop where
  bounded : ∀ id attempt maximum, outbox.attempts id = some (attempt, maximum) → attempt ≤ maximum
  executed : ∀ id attempt maximum, outbox.attempts id = some (attempt, maximum) →
    ∀ n ∈ outbox.journal.executed id, 1 ≤ n ∧ n ≤ attempt
  unexecuted : ∀ id, outbox.attempts id = none → outbox.journal.executed id = []
  nodup : ∀ id, (outbox.journal.executed id).Nodup
  current : ∀ i due retries, Claimed outbox i due retries → retries ≤ outbox.journal.retries due.id
  claimed : ∀ i due, Claimed outbox i due (outbox.journal.retries due.id) →
    (∃ attempt maximum, outbox.attempts due.id = some (attempt, maximum) ∧ due.nextAttempt ≤ attempt) ∧
      due.nextAttempt ∉ outbox.journal.executed due.id
  distinct : ∀ i j due due', Claimed outbox i due (outbox.journal.retries due.id) →
    Claimed outbox j due' (outbox.journal.retries due'.id) → due.id = due'.id →
    due.nextAttempt = due'.nextAttempt → i = j

end Attempts

section Invariant

variable {outbox outbox' : Outbox} {id : String}

theorem Counted.attemptsBounded (h : Counted outbox) : AttemptsBounded outbox := by
  intro id attempt maximum hid
  have hle := h.bounded id attempt maximum hid
  refine ⟨hle, le_trans ?_ hle⟩
  have hsubset : (outbox.journal.executed id).toFinset ⊆ Finset.Icc 1 attempt := by
    intro n hn
    rw [List.mem_toFinset] at hn
    exact Finset.mem_Icc.2 (h.executed id attempt maximum hid n hn)
  calc (outbox.journal.executed id).length
    _ = (outbox.journal.executed id).toFinset.card := (List.toFinset_card_of_nodup (h.nodup id)).symm
    _ ≤ (Finset.Icc 1 attempt).card := Finset.card_le_card hsubset
    _ = attempt := by simp

/-- An operation that leaves the attempts and the journal of executions, and claims nothing. -/
theorem Counted.of_same (h : Counted outbox) (hattempts : ∀ id, outbox'.attempts id = outbox.attempts id)
    (hexecuted : outbox'.journal.executed = outbox.journal.executed)
    (hretries : outbox'.journal.retries = outbox.journal.retries)
    (hclaimed : ∀ i due retries, Claimed outbox' i due retries → Claimed outbox i due retries) :
    Counted outbox' where
  bounded id attempt maximum hid := h.bounded id attempt maximum ((hattempts id).symm.trans hid)
  executed id attempt maximum hid := by
    rw [hexecuted]
    exact h.executed id attempt maximum ((hattempts id).symm.trans hid)
  unexecuted id hid := by
    rw [hexecuted]
    exact h.unexecuted id ((hattempts id).symm.trans hid)
  nodup id := by
    rw [hexecuted]
    exact h.nodup id
  current i due retries hdue := by
    rw [hretries]
    exact h.current i due retries (hclaimed i due retries hdue)
  claimed i due hdue := by
    rw [hretries] at hdue
    rw [hattempts, hexecuted]
    exact h.claimed i due (hclaimed i due _ hdue)
  distinct i j due due' hdue hdue' := by
    rw [hretries] at hdue hdue'
    exact h.distinct i j due due' (hclaimed i due _ hdue) (hclaimed j due' _ hdue')

/-! ### Rows -/

theorem Outcome.attempts {request : LegacyTransition} {now : ℚ}
    {result : Db × Except LifecycleError TransitionOutcome} (h : Outcome outbox.db request now result)
    (hpatch : "attempt" ∉ request.patch) (hdb : outbox'.db = result.1) (id : String) :
    outbox'.attempts id = outbox.attempts id := by
  have hrow : outbox'.row id = result.1.select outboxTable id :=
    congrArg (fun db ↦ db.select outboxTable id) hdb
  unfold Outbox.attempts
  rw [hrow]
  cases h with
  | moved row _ hfound hexpects hstored hothers =>
    by_cases hid : id = request.entityId
    · have hmax : "max_attempts" ∉ request.patch :=
        fun hmem ↦ absurd (hexpects.patch "max_attempts" hmem) (by decide)
      have hcolumn : ∀ column ∉ ["status", "updated_at"], column ∉ request.patch →
          request.stored row now column = row column := by
        intro column hcolumn hnot
        rw [LegacyTransition.stored_column hcolumn, (get?_eq_none_iff _ _).2 hnot, Option.getD_none]
      rw [hid, hstored, Outbox.row, hfound, Option.map_some, Option.map_some, count, count, count, count,
        hcolumn "attempt" (by decide) hpatch, hcolumn "max_attempts" (by decide) hmax]
    · rw [hothers id hid]
      rfl
  | kept _ hsame => exact hsame ▸ rfl

theorem update_attempts {key : String} {clauses : List (String × Cell)}
    (hclauses : ∀ column ∈ clauses.map Prod.fst, column ∈ touchedColumns)
    (hdb : outbox'.db = outbox.db.update outboxTable key clauses) (id : String) :
    outbox'.attempts id = outbox.attempts id := by
  have hrow : outbox'.row id = (outbox.db.update outboxTable key clauses).select outboxTable id :=
    congrArg (fun db ↦ db.select outboxTable id) hdb
  unfold Outbox.attempts
  rw [hrow]
  cases hold : outbox.row id with
  | none =>
    have hnone : (outbox.db.update outboxTable key clauses).select outboxTable id = none := by
      rw [select_eq_none_iff, update_rows_eq_none_iff, ← select_eq_none_iff]
      exact hold
    rw [hnone]
  | some row =>
    by_cases hid : id = key
    · subst hid
      have hnot : ∀ column ∉ touchedColumns, column ∉ clauses.map Prod.fst :=
        fun column hcolumn hmem ↦ hcolumn (hclauses column hmem)
      rw [select_update_self hold (hnot "id" (by decide)), Option.map_some, Option.map_some, count, count,
        count, count, Row.assign_of_not_mem (hnot "attempt" (by decide)),
        Row.assign_of_not_mem (hnot "max_attempts" (by decide))]
    · rw [select_update_of_ne fun heq ↦ hid heq.2]
      exact congrArg _ hold

/-! ### Scans -/

variable {scan : Scan}

/-- A scan that is updated and has not claimed a row takes no claim of another scan. -/
theorem claimed_of_set {i retries : ℕ} (hscans : outbox'.scans = outbox.scans.set i (scan, retries))
    (hphase : ∀ due, scan.phase ≠ .claimed due) (j : ℕ) (due : DueRow) (retries' : ℕ)
    (h : Claimed outbox' j due retries') : Claimed outbox j due retries' := by
  obtain ⟨found, hfound, hclaimed⟩ := h
  rw [hscans, List.getElem?_set] at hfound
  split at hfound
  · split at hfound
    · cases hfound
      exact absurd hclaimed (hphase due)
    · cases hfound
  · exact ⟨found, hfound, hclaimed⟩

theorem ne_of_claimed_set {i retries : ℕ} (hscans : outbox'.scans = outbox.scans.set i (scan, retries))
    (hphase : ∀ due, scan.phase ≠ .claimed due) {j : ℕ} {due : DueRow} {retries' : ℕ}
    (h : Claimed outbox' j due retries') : j ≠ i := by
  rintro rfl
  obtain ⟨found, hfound, hclaimed⟩ := h
  rw [hscans, List.getElem?_set_self'] at hfound
  obtain ⟨_, _, heq⟩ := Option.map_eq_some_iff.1 hfound
  cases heq
  exact hphase due hclaimed

theorem not_claimed_of_held (h : scan.phase.held = none) (due : DueRow) : scan.phase ≠ .claimed due := by
  intro hphase
  rw [hphase] at h
  cases h

theorem resume_not_claimed {applied : Scan} {result : Except LifecycleError TransitionOutcome}
    (happlied : ∀ due, applied.phase ≠ .claimed due) (due : DueRow) :
    (scan.resume result applied).phase ≠ .claimed due := by
  cases hresult : isApplied result with
  | true =>
    rw [resume_of_applied hresult]
    exact happlied due
  | false => exact not_claimed_of_held (resume_of_not_applied hresult).1 due

theorem succeeded_not_claimed (scan : Scan) (due due' : DueRow) :
    (scan.succeeded due).phase ≠ .claimed due' := by
  unfold Scan.succeeded
  split
  · exact fun h ↦ by cases h
  · exact fun h ↦ by cases h

theorem failed_not_claimed (scan : Scan) (due due' : DueRow) : (scan.failed due).phase ≠ .claimed due' := by
  unfold Scan.failed
  split
  · exact fun h ↦ by cases h
  · exact fun h ↦ by cases h

end Invariant

/-! ## Steps -/

section Steps

variable {outbox : Outbox}
variable {i retries : ℕ} {scan : Scan}

theorem Counted.of_setScan (h : Counted outbox) (hphase : ∀ due, scan.phase ≠ .claimed due) :
    Counted (outbox.setScan i scan retries) :=
  h.of_same (fun _ ↦ rfl) rfl rfl (claimed_of_set rfl hphase)

theorem Counted.expire (h : Counted outbox) (i : ℕ) (scan : Scan) (due : DueRow) :
    Counted (outbox.expire i scan due) := by
  have houtcome : Outcome outbox.db (scan.expireRequest due) outbox.clock
      (legacyTransition outbox.db (scan.expireRequest due) outbox.clock) := outcome_legacyTransition rfl
  have hattempts : ∀ id, (outbox.expire i scan due).attempts id = outbox.attempts id :=
    houtcome.attempts List.not_mem_nil rfl
  refine h.of_same hattempts rfl rfl (claimed_of_set rfl (resume_not_claimed ?_))
  exact fun _ heq ↦ by cases heq

variable {due : DueRow}

theorem Counted.settle (h : Counted outbox) {applied : Scan} {request : LegacyTransition}
    (htype : request.entityType = "dispatch") (hpatch : "attempt" ∉ request.patch)
    (happlied : ∀ due, applied.phase ≠ .claimed due) : Counted (outbox.settle i scan applied due request retries) := by
  have houtcome : Outcome outbox.db request outbox.clock
      (legacyTransition outbox.db request outbox.clock) := outcome_legacyTransition htype
  have hattempts : ∀ id, (outbox.settle i scan applied due request retries).attempts id =
      outbox.attempts id := houtcome.attempts hpatch rfl
  have hjournal : ∀ b : Bool,
      (if b then outbox.noteOutcome due else outbox.journal).executed = outbox.journal.executed ∧
        (if b then outbox.noteOutcome due else outbox.journal).retries = outbox.journal.retries := by
    intro b
    cases b <;> exact ⟨rfl, rfl⟩
  exact h.of_same hattempts (hjournal _).1 (hjournal _).2 (claimed_of_set rfl (resume_not_claimed happlied))

theorem Counted.writeAck (h : Counted outbox) (k : ℕ) (due : DueRow) :
    Counted (outbox.writeAck k due) := by
  have houtcome : Outcome outbox.db (ackRequest due) outbox.clock
      (legacyTransition outbox.db (ackRequest due) outbox.clock) := outcome_legacyTransition rfl
  have hattempts : ∀ id, (outbox.writeAck k due).attempts id = outbox.attempts id :=
    houtcome.attempts List.not_mem_nil rfl
  have hjournal : ∀ b : Bool, ∀ acked,
      (if b then { outbox.journal with acked := acked } else outbox.journal).executed =
          outbox.journal.executed ∧
        (if b then { outbox.journal with acked := acked } else outbox.journal).retries =
          outbox.journal.retries := by
    intro b acked
    cases b <;> exact ⟨rfl, rfl⟩
  exact h.of_same hattempts (hjournal _ _).1 (hjournal _ _).2 fun _ _ _ hclaimed ↦ hclaimed

theorem Counted.note (h : Counted outbox) (i : ℕ) (scan : Scan) (due : DueRow) (err : String)
    (retries : ℕ) : Counted (outbox.note i scan due err retries) := by
  have hattempts : ∀ id, (outbox.note i scan due err retries).attempts id = outbox.attempts id :=
    update_attempts (by simp [touchedColumns]) rfl
  exact h.of_same hattempts rfl rfl (claimed_of_set rfl fun _ heq ↦ by cases heq)

theorem Counted.postpone (h : Counted outbox) (i : ℕ) (scan : Scan) (due : DueRow) (retries : ℕ) :
    Counted (outbox.postpone i scan due retries) := by
  have hattempts : ∀ id, (outbox.postpone i scan due retries).attempts id = outbox.attempts id :=
    update_attempts (by simp [touchedColumns]) rfl
  exact h.of_same hattempts rfl rfl (claimed_of_set rfl fun _ heq ↦ by cases heq)

/-! ### Claims -/

/-- A row that is claimed is on the attempt after the one that was read. -/
theorem claimed_attempts {row : Row} {now : ℚ} (hexpects : (scan.claimRequest due).Expects dispatchPolicy row) :
    count row "attempt" = due.attempt ∧
      count ((scan.claimRequest due).stored row now) "attempt" = due.nextAttempt ∧
      count ((scan.claimRequest due).stored row now) "max_attempts" = count row "max_attempts" := by
  have hguard : row "attempt" = due.row "attempt" :=
    hexpects.guard ("attempt", due.row "attempt") ((get?_eq_some_iff _ _ _).1 rfl)
  refine ⟨?_, ?_, ?_⟩
  · rw [count, hguard, DueRow.attempt, count]
  · apply count_num
    rw [LegacyTransition.stored_column (by decide)]
    rfl
  · rw [count, LegacyTransition.stored_column (by decide)]
    rfl

variable {outbox' : Outbox}

/-- The only new claim is that of the scan that is updated. -/
theorem claimed_of_set_claimed
    (hscans : outbox'.scans = outbox.scans.set i ({ scan with phase := .claimed due }, retries)) (j : ℕ) (due' : DueRow)
    (retries' : ℕ) (h : Claimed outbox' j due' retries') :
    j = i ∧ due' = due ∧ retries' = retries ∨ Claimed outbox j due' retries' := by
  obtain ⟨found, hfound, hclaimed⟩ := h
  rw [hscans, List.getElem?_set] at hfound
  split at hfound
  · next hij =>
    split at hfound
    · cases hfound
      cases hclaimed
      exact .inl ⟨hij.symm, rfl, rfl⟩
    · cases hfound
  · exact .inr ⟨found, hfound, hclaimed⟩

/-- The attempt of one row is incremented and claimed by one scan. -/
theorem Counted.of_claim (h : Counted outbox) (hstep : ∃ maximum, outbox.attempts due.id = some (due.attempt, maximum) ∧
      outbox'.attempts due.id = some (due.nextAttempt, maximum) ∧ due.attempt < maximum)
    (hrest : ∀ id, id ≠ due.id → outbox'.attempts id = outbox.attempts id)
    (hexecuted : outbox'.journal.executed = outbox.journal.executed)
    (hretries : outbox'.journal.retries = outbox.journal.retries)
    (hclaimed : ∀ j due' retries, Claimed outbox' j due' retries →
      j = i ∧ due' = due ∧ retries = outbox.journal.retries due.id ∨ Claimed outbox j due' retries) :
    Counted outbox' := by
  obtain ⟨maximum, hold, hnew, hlt⟩ := hstep
  have hunused : ∀ n ∈ outbox.journal.executed due.id, n ≤ due.attempt :=
    fun n hn ↦ (h.executed due.id _ _ hold n hn).2
  -- what a row still claims lies below the new attempt
  have hbelow : ∀ j due', Claimed outbox j due' (outbox.journal.retries due'.id) → due'.id = due.id →
      due'.nextAttempt ≤ due.attempt := by
    intro j due' hdue' hid
    obtain ⟨⟨attempt, maximum', hattempt, hle⟩, -⟩ := h.claimed j due' hdue'
    cases (hid ▸ hattempt).symm.trans hold
    exact hle
  constructor
  · intro id attempt maximum' hid
    by_cases heq : id = due.id
    · cases (heq ▸ hid).symm.trans hnew
      exact hlt
    · exact h.bounded id attempt maximum' ((hrest id heq).symm.trans hid)
  · intro id attempt maximum' hid n hn
    rw [hexecuted] at hn
    by_cases heq : id = due.id
    · subst heq
      cases hid.symm.trans hnew
      have hexecuted' := h.executed _ _ _ hold n hn
      exact ⟨hexecuted'.1, hexecuted'.2.trans (Nat.le_succ _)⟩
    · exact h.executed id attempt maximum' ((hrest id heq).symm.trans hid) n hn
  · intro id hid
    rw [hexecuted]
    by_cases heq : id = due.id
    · cases (heq ▸ hid).symm.trans hnew
    · exact h.unexecuted id ((hrest id heq).symm.trans hid)
  · intro id
    rw [hexecuted]
    exact h.nodup id
  · intro j due' retries hdue'
    rw [hretries]
    obtain ⟨-, rfl, rfl⟩ | hdue' := hclaimed j due' retries hdue'
    · exact le_rfl
    · exact h.current j due' retries hdue'
  · intro j due' hdue'
    rw [hretries] at hdue'
    rw [hexecuted]
    obtain ⟨-, rfl, -⟩ | hdue' := hclaimed j due' _ hdue'
    · exact ⟨⟨_, _, hnew, le_rfl⟩, fun hn ↦ absurd (hunused _ hn) (Nat.not_succ_le_self _)⟩
    · obtain ⟨⟨attempt, maximum', hattempt, hle⟩, hfresh⟩ := h.claimed j due' hdue'
      refine ⟨?_, hfresh⟩
      by_cases heq : due'.id = due.id
      · exact ⟨_, _, heq ▸ hnew, (hbelow j due' hdue' heq).trans (Nat.le_succ _)⟩
      · exact ⟨attempt, maximum', (hrest _ heq).trans hattempt, hle⟩
  · intro j k due' due'' hdue' hdue'' hid hattempt
    rw [hretries] at hdue' hdue''
    obtain ⟨rfl, rfl, -⟩ | hdue' := hclaimed j due' _ hdue'
    · obtain ⟨rfl, -, -⟩ | hdue'' := hclaimed k due'' _ hdue''
      · rfl
      · have hle := hbelow k due'' hdue'' hid.symm
        exact absurd (hattempt ▸ hle) (Nat.not_succ_le_self _)
    · obtain ⟨rfl, rfl, -⟩ | hdue'' := hclaimed k due'' _ hdue''
      · have hle := hbelow j due' hdue' hid
        exact absurd (hattempt ▸ hle) (Nat.not_succ_le_self _)
      · exact h.distinct j k due' due'' hdue' hdue'' hid hattempt

theorem Counted.claim (h : Counted outbox) (i : ℕ) (scan : Scan) (due : DueRow)
    (hleft : ∀ row, outbox.row due.id = some row → (scan.claimRequest due).Expects dispatchPolicy row →
      count row "attempt" < count row "max_attempts") : Counted (outbox.claim i scan due) := by
  have houtcome : Outcome outbox.db (scan.claimRequest due) outbox.clock
      (legacyTransition outbox.db (scan.claimRequest due) outbox.clock) := outcome_legacyTransition rfl
  have hscans : (outbox.claim i scan due).scans = outbox.scans.set i
      (scan.resume (legacyTransition outbox.db (scan.claimRequest due) outbox.clock).2
        { scan with phase := .claimed due }, outbox.journal.retries due.id) := rfl
  have hrows : ∀ id, (outbox.claim i scan due).row id =
      (legacyTransition outbox.db (scan.claimRequest due) outbox.clock).1.select outboxTable id :=
    fun _ ↦ rfl
  have hjournal : (outbox.claim i scan due).journal.executed = outbox.journal.executed ∧
      (outbox.claim i scan due).journal.retries = outbox.journal.retries := by
    change (ite _ _ _ : Journal).executed = _ ∧ (ite _ _ _ : Journal).retries = _
    split <;> exact ⟨rfl, rfl⟩
  generalize legacyTransition outbox.db (scan.claimRequest due) outbox.clock = result at *
  generalize outbox.claim i scan due = outbox' at *
  cases houtcome with
  | kept hkept hsame =>
    refine h.of_same (fun id ↦ ?_) hjournal.1 hjournal.2
      (claimed_of_set hscans (not_claimed_of_held (resume_of_not_applied hkept).1))
    rw [Outbox.attempts, hrows, hsame]
    rfl
  | moved row happlied hfound hexpects hstored hothers =>
    have hstep : ∃ maximum, outbox.attempts due.id = some (due.attempt, maximum) ∧
        outbox'.attempts due.id = some (due.nextAttempt, maximum) ∧ due.attempt < maximum := by
      obtain ⟨hattempt, hnext, hmax⟩ := claimed_attempts hexpects
      refine ⟨count row "max_attempts", ?_, ?_, hattempt ▸ hleft row hfound hexpects⟩
      · rw [← hattempt]
        exact congrArg _ hfound
      · rw [← hnext, ← hmax]
        exact congrArg _ ((hrows due.id).trans hstored)
    have hrest : ∀ id, id ≠ due.id → outbox'.attempts id = outbox.attempts id :=
      fun id hne ↦ congrArg _ ((hrows id).trans (hothers id hne))
    rw [resume_of_applied happlied] at hscans
    exact h.of_claim hstep hrest hjournal.1 hjournal.2 (claimed_of_set_claimed hscans)

/-! ### Executions, retries and insertions -/

theorem Counted.execute (h : Counted outbox) (hclaimed : Claimed outbox i due (outbox.journal.retries due.id)) :
    Counted (outbox.execute i scan due (outbox.journal.retries due.id)) := by
  obtain ⟨⟨attempt, maximum, hattempt, hle⟩, hfresh⟩ := h.claimed i due hclaimed
  have hold : ∀ j due' retries,
      Claimed (outbox.execute i scan due (outbox.journal.retries due.id)) j due' retries →
        j ≠ i ∧ Claimed outbox j due' retries :=
    fun j due' retries hdue' ↦ ⟨ne_of_claimed_set rfl (fun _ heq ↦ by cases heq) hdue',
      claimed_of_set rfl (fun _ heq ↦ by cases heq) j due' retries hdue'⟩
  have hself : (outbox.execute i scan due (outbox.journal.retries due.id)).journal.executed due.id =
      outbox.journal.executed due.id ++ [due.nextAttempt] := Function.update_self ..
  have hother : ∀ id, id ≠ due.id →
      (outbox.execute i scan due (outbox.journal.retries due.id)).journal.executed id =
        outbox.journal.executed id := fun id hne ↦ Function.update_of_ne hne ..
  constructor
  · exact h.bounded
  · intro id attempt' maximum' hid n hn
    by_cases heq : id = due.id
    · subst heq
      cases hid.symm.trans hattempt
      rw [hself, List.mem_append, List.mem_singleton] at hn
      obtain hn | rfl := hn
      · exact h.executed _ _ _ hattempt n hn
      · exact ⟨Nat.succ_pos _, hle⟩
    · rw [hother id heq] at hn
      exact h.executed id attempt' maximum' hid n hn
  · intro id hid
    by_cases heq : id = due.id
    · cases (heq ▸ hid).symm.trans hattempt
    · rw [hother id heq]
      exact h.unexecuted id hid
  · intro id
    by_cases heq : id = due.id
    · rw [heq, hself]
      rw [← List.concat_eq_append]
      exact (h.nodup _).concat hfresh
    · rw [hother id heq]
      exact h.nodup id
  · intro j due' retries hdue'
    exact h.current j due' retries (hold j due' retries hdue').2
  · intro j due' hdue'
    obtain ⟨hne, hdue'⟩ := hold j due' _ hdue'
    obtain ⟨hattempt', hfresh'⟩ := h.claimed j due' hdue'
    refine ⟨hattempt', ?_⟩
    by_cases heq : due'.id = due.id
    · rw [heq, hself, List.mem_append, List.mem_singleton, not_or]
      refine ⟨heq ▸ hfresh', fun hnext ↦ hne ?_⟩
      exact h.distinct j i due' due hdue' hclaimed heq hnext
    · rw [hother _ heq]
      exact hfresh'
  · intro j k due' due'' hdue' hdue'' hid hnext
    exact h.distinct j k due' due'' (hold j due' _ hdue').2 (hold k due'' _ hdue'').2 hid hnext

/-- An operator retry starts the attempts of its row anew. -/
theorem Counted.of_retry (h : Counted outbox) {key : String}
    (hreset : ∃ attempt maximum, outbox.attempts key = some (attempt, maximum) ∧
      outbox'.attempts key = some (0, maximum)) (hrest : ∀ id, id ≠ key → outbox'.attempts id = outbox.attempts id)
    (hexecuted : outbox'.journal.executed = Function.update outbox.journal.executed key [])
    (hretries : outbox'.journal.retries = Function.update outbox.journal.retries key (outbox.journal.retries key + 1))
    (hscans : outbox'.scans = outbox.scans) : Counted outbox' := by
  obtain ⟨attempt, maximum, hold, hnew⟩ := hreset
  have hclaimed : ∀ j due retries, Claimed outbox' j due retries → Claimed outbox j due retries := by
    intro j due retries hdue
    unfold Claimed at hdue
    rw [hscans] at hdue
    exact hdue
  -- no claim that is left has seen the retry
  have hstale : ∀ j due, Claimed outbox' j due (outbox'.journal.retries due.id) → due.id ≠ key ∧
      Claimed outbox j due (outbox.journal.retries due.id) := by
    intro j due hdue
    have hcurrent := h.current j due _ (hclaimed j due _ hdue)
    have hdue' := hclaimed j due _ hdue
    rw [hretries] at hcurrent hdue'
    by_cases heq : due.id = key
    · rw [heq, Function.update_self] at hcurrent
      exact absurd hcurrent (Nat.not_succ_le_self _)
    · rw [Function.update_of_ne heq] at hdue'
      exact ⟨heq, hdue'⟩
  constructor
  · intro id attempt' maximum' hid
    by_cases heq : id = key
    · cases (heq ▸ hid).symm.trans hnew
      exact Nat.zero_le _
    · exact h.bounded id attempt' maximum' ((hrest id heq).symm.trans hid)
  · intro id attempt' maximum' hid n hn
    rw [hexecuted] at hn
    by_cases heq : id = key
    · rw [heq, Function.update_self] at hn
      cases hn
    · rw [Function.update_of_ne heq] at hn
      exact h.executed id attempt' maximum' ((hrest id heq).symm.trans hid) n hn
  · intro id hid
    rw [hexecuted]
    by_cases heq : id = key
    · rw [heq, Function.update_self]
    · rw [Function.update_of_ne heq]
      exact h.unexecuted id ((hrest id heq).symm.trans hid)
  · intro id
    rw [hexecuted]
    by_cases heq : id = key
    · rw [heq, Function.update_self]
      exact List.nodup_nil
    · rw [Function.update_of_ne heq]
      exact h.nodup id
  · intro j due retries hdue
    rw [hretries]
    have hcurrent := h.current j due retries (hclaimed j due retries hdue)
    by_cases heq : due.id = key
    · rw [heq, Function.update_self]
      exact (heq ▸ hcurrent).trans (Nat.le_succ _)
    · rw [Function.update_of_ne heq]
      exact hcurrent
  · intro j due hdue
    obtain ⟨hne, hdue'⟩ := hstale j due hdue
    rw [hrest _ hne, hexecuted, Function.update_of_ne hne]
    exact h.claimed j due hdue'
  · intro j k due due' hdue hdue' hid hnext
    exact h.distinct j k due due' (hstale j due hdue).2 (hstale k due' hdue').2 hid hnext

theorem Counted.writeRetry (h : Counted outbox) (k : ℕ) (due : DueRow) (now : ℚ) :
    Counted (outbox.writeRetry k due now) := by
  have houtcome : Outcome outbox.db (operatorRetryRequest due now) outbox.clock
      (legacyTransition outbox.db (operatorRetryRequest due now) outbox.clock) :=
    outcome_legacyTransition rfl
  have hscans : (outbox.writeRetry k due now).scans = outbox.scans := rfl
  have hrows : ∀ id, (outbox.writeRetry k due now).row id =
      (legacyTransition outbox.db (operatorRetryRequest due now) outbox.clock).1.select outboxTable id :=
    fun _ ↦ rfl
  have hkeeps : isApplied (legacyTransition outbox.db (operatorRetryRequest due now) outbox.clock).2 = false →
      (outbox.writeRetry k due now).journal = outbox.journal :=
    fun hkept ↦ if_neg (by rw [hkept]; exact Bool.false_ne_true)
  have hresets : isApplied (legacyTransition outbox.db (operatorRetryRequest due now) outbox.clock).2 = true →
      (outbox.writeRetry k due now).journal = { outbox.journal with
        executed := Function.update outbox.journal.executed due.id []
        retries := Function.update outbox.journal.retries due.id (outbox.journal.retries due.id + 1) } :=
    fun happlied ↦ if_pos happlied
  generalize legacyTransition outbox.db (operatorRetryRequest due now) outbox.clock = result at *
  generalize outbox.writeRetry k due now = outbox' at *
  cases houtcome with
  | kept hkept hsame =>
    have hjournal := hkeeps hkept
    refine h.of_same (fun id ↦ ?_) (congrArg Journal.executed hjournal)
      (congrArg Journal.retries hjournal) fun j due' retries hdue' ↦ ?_
    · rw [Outbox.attempts, hrows, hsame]
      rfl
    · unfold Claimed at hdue'
      rw [hscans] at hdue'
      exact hdue'
  | moved row happlied hfound _ hstored hothers =>
    have hjournal := hresets happlied
    refine h.of_retry ⟨_, count row "max_attempts", congrArg _ hfound, ?_⟩
      (fun id hne ↦ congrArg _ ((hrows id).trans (hothers id hne))) (congrArg Journal.executed hjournal)
      (congrArg Journal.retries hjournal)
      hscans
    refine (congrArg _ ((hrows due.id).trans hstored)).trans ?_
    have hattempt : count ((operatorRetryRequest due now).stored row outbox.clock) "attempt" = 0 := by
      apply count_num _ _ 0
      rw [LegacyTransition.stored_column (by decide)]
      rfl
    have hmax : count ((operatorRetryRequest due now).stored row outbox.clock) "max_attempts" =
        count row "max_attempts" := by
      rw [count, LegacyTransition.stored_column (by decide)]
      rfl
    rw [Option.map_some, hattempt, hmax]

theorem EnqueueRequest.row_attempts (request : EnqueueRequest) (now : ℚ) :
    count (request.row now) "attempt" = 0 := by
  apply count_num _ _ 0
  simp [EnqueueRequest.row, Row.assign, Function.update]

theorem Counted.insert (h : Counted outbox) (request : EnqueueRequest) (now : ℚ)
    (hnew : outbox.row request.id = none) : Counted (outbox.insert request now) := by
  have hnone : outbox.attempts request.id = none := Option.map_eq_none_iff.2 hnew
  have hself : (outbox.insert request now).attempts request.id =
      some (0, count (request.row now) "max_attempts") := by
    rw [Outbox.attempts, row_insert_self, Option.map_some, request.row_attempts]
  have hother : ∀ id, id ≠ request.id → (outbox.insert request now).attempts id = outbox.attempts id :=
    fun id hne ↦ congrArg _ (row_insert_of_ne hne)
  constructor
  · intro id attempt maximum hid
    by_cases heq : id = request.id
    · cases (heq ▸ hid).symm.trans hself
      exact Nat.zero_le _
    · exact h.bounded id attempt maximum ((hother id heq).symm.trans hid)
  · intro id attempt maximum hid n hn
    by_cases heq : id = request.id
    · have hempty : outbox.journal.executed id = [] := heq ▸ h.unexecuted _ hnone
      have hmem : n ∈ outbox.journal.executed id := hn
      rw [hempty] at hmem
      cases hmem
    · exact h.executed id attempt maximum ((hother id heq).symm.trans hid) n hn
  · intro id hid
    by_cases heq : id = request.id
    · cases (heq ▸ hid).symm.trans hself
    · exact h.unexecuted id ((hother id heq).symm.trans hid)
  · exact h.nodup
  · exact h.current
  · intro j due hdue
    obtain ⟨⟨attempt, maximum, hattempt, hle⟩, hfresh⟩ := h.claimed j due hdue
    refine ⟨⟨attempt, maximum, (hother _ ?_).trans hattempt, hle⟩, hfresh⟩
    intro heq
    cases (heq ▸ hattempt).symm.trans hnone
  · exact h.distinct

theorem Counted.exec (h : Counted outbox) (op : OutboxOp) (hop : HasAttemptsLeft outbox op) :
    Counted (outbox.exec op) := by
  have hstep := exec_stepped outbox op
  generalize outbox.exec op = outbox' at hstep ⊢
  cases hstep with
  | idle | tick | readAck | readRetry | existing =>
    exact h.of_same (fun _ ↦ rfl) rfl rfl fun _ _ _ hclaimed ↦ hclaimed
  | start =>
    refine h.of_same (fun _ ↦ rfl) rfl rfl fun i due retries hclaimed ↦ ?_
    obtain ⟨scan, hscan, hphase⟩ := hclaimed
    rw [List.getElem?_append] at hscan
    split at hscan
    · exact ⟨scan, hscan, hphase⟩
    · obtain ⟨rfl, -⟩ := Prod.mk.inj (List.mem_singleton.1 (List.mem_of_getElem? hscan))
      cases hphase
  | query | through | skip | finish | crash => exact h.of_setScan fun _ heq ↦ by cases heq
  | expire => exact h.expire _ _ _
  | @claim i retries scan due rest hscan hphase hrest hexpired =>
    exact h.claim i (scan.takeUp rest) due fun row hrow hexpects ↦
      hop scan retries due rest row hscan hphase hrest hexpired hrow hexpects
  | @execute i retries scan due hscan hphase =>
    have hclaimed : Claimed outbox i due retries := ⟨scan, hscan, hphase⟩
    have hcurrent : outbox.journal.retries due.id = retries := hop due retries hclaimed
    subst hcurrent
    exact h.execute hclaimed
  | success =>
    exact h.settle successRequest_entity.1 successRequest_entity.2.2 (succeeded_not_claimed _ _)
  | note => exact h.note _ _ _ _ _
  | failure => exact h.settle failureRequest_entity.1 failureRequest_entity.2.2 (failed_not_claimed _ _)
  | postpone => exact h.postpone _ _ _ _
  | writeAck => exact h.writeAck _ _
  | writeRetry => exact h.writeRetry _ _ _
  | insert _ hnew => exact h.insert _ _ hnew

end Steps

/-- A table whose rows have not used more attempts than they may. -/
structure BoundedTable extends Table where
  bounded : ∀ id row, db.select outboxTable id = some row →
    count row "attempt" ≤ count row "max_attempts"

theorem BoundedTable.counted (table : BoundedTable) (clock : ℚ) : Counted (table.start clock) where
  bounded id attempt maximum hid := by
    obtain ⟨row, hrow, heq⟩ := Option.map_eq_some_iff.1 hid
    cases heq
    exact table.bounded id row hrow
  executed _ _ _ _ _ hn := absurd hn List.not_mem_nil
  unexecuted _ _ := rfl
  nodup _ := List.nodup_nil
  current i due retries h := by
    obtain ⟨_, hscan, -⟩ := h
    cases hscan
  claimed i due h := by
    obtain ⟨_, hscan, -⟩ := h
    cases hscan
  distinct i j due due' h := by
    obtain ⟨_, hscan, -⟩ := h
    cases hscan

/-- Over every run of scans that may crash, acknowledgements, operator retries and enqueues in which only
rows with attempts left are claimed and no operator retry lies between a claim and its execution, the
attempt and the executions since the last retry never exceed the maximum. -/
theorem attemptsBounded_throughout (table : BoundedTable) (clock : ℚ) (ops : List OutboxOp)
    (hops : Along Outbox.exec HasAttemptsLeft (table.start clock) ops) :
    Throughout Outbox.exec AttemptsBounded (table.start clock) ops := by
  have hcounted : Throughout Outbox.exec Counted (table.start clock) ops :=
    .of_along (fun _ op h hop ↦ h.exec op hop) (table.counted clock) hops
  exact hcounted.mono fun _ h ↦ h.attemptsBounded

/-! ## A scan that crashes during its last attempt -/

section Crash

/-- A dispatch that may be sent once and has not been sent. -/
def singleSend : EnqueueRequest where
  id := "d1"
  kind := "revival_ping"
  deliverTo := "ops"
  payload := "\x7b\x7d"
  maxAttempts := 1

def singleDb : Db where
  rows table id := if table = outboxTable ∧ id = "d1" then some (singleSend.row 0) else none
  history := []
  adminEvents := []

theorem select_singleDb {id : String} {row : Row} (h : singleDb.select outboxTable id = some row) :
    id = "d1" ∧ row = singleSend.row 0 := by
  obtain ⟨stored, hstored, hrow⟩ := Option.map_eq_some_iff.1 h
  change (if _ ∧ id = "d1" then some (singleSend.row 0) else none) = some stored at hstored
  split at hstored
  · next hkey =>
    cases hstored
    obtain ⟨-, rfl⟩ := hkey
    exact ⟨rfl, hrow.symm.trans (Function.update_eq_self_iff.2 (singleSend.row_id 0).symm)⟩
  · cases hstored

def singleTable : BoundedTable where
  db := singleDb
  ids := ["d1"]
  listed _ _ h := List.mem_singleton.2 (select_singleDb h).1
  unique _ _ _ _ _ h h' _ _ := (select_singleDb h).1.trans (select_singleDb h').1.symm
  bounded _ _ h := by
    rw [(select_singleDb h).2]
    decide

/-- The scheduler's scan, up to the execution of the command. -/
def deliverOnce (scan : ℕ) : List OutboxOp :=
  [.start ⟨"scheduler", some "dispatch_delivery_loop"⟩, .query scan ["d1"], .deliver scan, .execute scan]

/-- The row is delivered. -/
theorem attemptsBounded_deliverOnce :
    Throughout Outbox.exec AttemptsBounded (singleTable.start 1)
      (deliverOnce 0 ++ [.finish 0 true "", .write 0]) := by
  apply attemptsBounded_throughout
  refine ⟨trivial, trivial, ?_, ?_, trivial, trivial, trivial⟩
  · intro scan retries due rest row hscan _ hrest _ hrow _
    have hids : (((singleTable.start 1).run ((deliverOnce 0).take 2)).scans[0]?.map
        fun entry ↦ entry.1.rest.map DueRow.id) = some ["d1"] := by
      decide +kernel
    have hattempts : ((singleTable.start 1).run ((deliverOnce 0).take 2)).attempts "d1" = some (0, 1) := by
      decide +kernel
    have hdue : some ((due :: rest).map DueRow.id) = some ["d1"] :=
      hrest ▸ (congrArg (Option.map _) hscan).symm.trans hids
    rw [List.map_cons, Option.some.injEq, List.cons.injEq] at hdue
    have hrow' : ((singleTable.start 1).run ((deliverOnce 0).take 2)).row "d1" = some row := hdue.1 ▸ hrow
    rw [Outbox.attempts, hrow', Option.map_some, Option.some.injEq, Prod.mk.injEq] at hattempts
    rw [hattempts.1, hattempts.2]
    exact Nat.zero_lt_one
  · intro due retries hclaimed
    obtain ⟨scan, hscan, hphase⟩ := hclaimed
    have hheld : (((singleTable.start 1).run ((deliverOnce 0).take 3)).scans[0]?.map
        fun entry ↦ (entry.1.phase.held.map DueRow.id, entry.2)) = some (some "d1", 0) := by
      decide +kernel
    have hretries : ((singleTable.start 1).run ((deliverOnce 0).take 3)).journal.retries "d1" = 0 := by
      decide +kernel
    have hentry : some (scan.phase.held.map DueRow.id, retries) = some (some "d1", 0) :=
      (congrArg (Option.map _) hscan).symm.trans hheld
    rw [hphase, Option.some.injEq, Prod.mk.injEq] at hentry
    have hid : due.id = "d1" := Option.some.inj hentry.1
    rw [hid, hentry.2]
    exact hretries

/-- The command is executed, the scan crashes, and after the lease the command is executed again. -/
theorem not_attemptsBounded_throughout :
    ¬ Throughout Outbox.exec AttemptsBounded (singleTable.start 1)
      (deliverOnce 0 ++ [.crash 0, .tick 20] ++ deliverOnce 1) := by
  intro h
  have hbounded := h.final "d1" 2 1 (by decide +kernel)
  exact absurd hbounded.1 (by decide)

/-! ## Nothing is lost -/

/-- In every run a dispatch stays in the table with what it was enqueued with, whatever crashes. -/
theorem dispatch_kept (outbox : Outbox) (ops : List OutboxOp) (id : String) (row : Row)
    (hrow : outbox.row id = some row) : ∃ row', (outbox.run ops).row id = some row' ∧
      ∀ column ∉ "status" :: "attempt" :: touchedColumns, row' column = row column := by
  induction ops generalizing outbox row with
  | nil => exact ⟨row, hrow, fun _ _ ↦ rfl⟩
  | cons op ops ih =>
    obtain ⟨found, hfound, hevolves⟩ := exec_row op hrow
    obtain ⟨row', hrow', hkept⟩ := ih _ found hfound
    exact ⟨row', hrow', fun column hcolumn ↦ (hkept column hcolumn).trans (hevolves.column hcolumn)⟩

/-- The scan crashes with the command of the row running. -/
theorem dispatch_kept_crash : ∃ row', ((singleTable.start 1).run (deliverOnce 0 ++ [.crash 0])).row "d1" = some row' ∧
    row' "deliver_to" = Cell.text "ops" := by
  obtain ⟨row', hrow', hkept⟩ := dispatch_kept (singleTable.start 1) (deliverOnce 0 ++ [.crash 0]) "d1" _ rfl
  exact ⟨row', hrow', (hkept "deliver_to" (by decide)).trans (by decide +kernel)⟩

end Crash

end Lionagi.Dispatch
