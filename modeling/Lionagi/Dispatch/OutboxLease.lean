import Lionagi.Dispatch.OutboxAttempts

/-!
# Exclusive delivery

The lease of a claim counts from the start of its scan, and the outcome is guarded on the status alone. A
row that was claimed late in a long batch is therefore due again while its command runs. As long as no scan
selects a row that another one has claimed and not finished with, the guard on the attempt makes the stale
claims fail, one scan at a time delivers a row, and outcomes are written for the latest claim.
-/

namespace Lionagi.Dispatch

open StateDb OrderedDict Transition

/-! ## The property and the condition -/

section Lease

variable (outbox : Outbox)

/-- A transport command is being executed for a row. -/
def Executing (i : ℕ) (due : DueRow) : Prop :=
  ∃ scan retries since, outbox.scans[i]? = some (scan, retries) ∧ scan.phase = .executing due since

/-- The scan has claimed the row and not finished with it. -/
def Holds (i : ℕ) (due : DueRow) : Prop :=
  ∃ scan retries, outbox.scans[i]? = some (scan, retries) ∧ scan.phase.held = some due

/-- The scan has selected the row and not come to it. -/
def Selected (i : ℕ) (due : DueRow) : Prop :=
  ∃ scan retries, outbox.scans[i]? = some (scan, retries) ∧ due ∈ scan.rest

/-- One command at a time is executed for a row, and an outcome is written while the row is on the attempt
it is written for. -/
structure DeliversExclusively : Prop where
  exclusive : ∀ i j due due', Executing outbox i due → Executing outbox j due' → due.id = due'.id → i = j
  latest : ∀ outcome ∈ outbox.journal.outcomes, outcome.1 = outcome.2

/-- Scans, acknowledgements and enqueues, where no scan selects a row that is held. -/
def SelectsUnheld : OutboxOp → Prop
  | .query i ids => ∀ scan retries, outbox.scans[i]? = some (scan, retries) → scan.phase = .started →
      ids.Perm (outbox.dueIds scan.now) → ∀ j due, Holds outbox j due → due.id ∉ ids
  | .crash _ | .readRetry _ => False
  | _ => True

/-! ## The invariant -/

/-- A row that is held is on the attempt of its claim, which no row that was selected has reached. -/
structure Leased : Prop where
  held : ∀ i due, Holds outbox i due → ∃ maximum, outbox.attempts due.id = some (due.nextAttempt, maximum)
  unique : ∀ i j due due', Holds outbox i due → Holds outbox j due' → due.id = due'.id → i = j
  selected : ∀ i due, Selected outbox i due →
    ∃ attempt maximum, outbox.attempts due.id = some (attempt, maximum) ∧ due.attempt ≤ attempt
  stale : ∀ i j due due', Selected outbox i due → Holds outbox j due' → due.id = due'.id →
    due.attempt < due'.nextAttempt
  latest : ∀ outcome ∈ outbox.journal.outcomes, outcome.1 = outcome.2
  unretried : ∀ due since, Call.retry due since ∉ outbox.calls

end Lease

section Invariant

variable {outbox outbox' : Outbox}

theorem Leased.deliversExclusively (h : Leased outbox) : DeliversExclusively outbox where
  exclusive i j due due' hdue hdue' hid := by
    obtain ⟨scan, retries, since, hscan, hphase⟩ := hdue
    obtain ⟨scan', retries', since', hscan', hphase'⟩ := hdue'
    exact h.unique i j due due' ⟨scan, retries, hscan, hphase ▸ rfl⟩ ⟨scan', retries', hscan', hphase' ▸ rfl⟩
      hid
  latest := h.latest

/-- An operation that leaves the attempts, selects no row and claims none. -/
theorem Leased.of_same (h : Leased outbox) (hattempts : ∀ id, outbox'.attempts id = outbox.attempts id)
    (hholds : ∀ i due, Holds outbox' i due → Holds outbox i due)
    (hselected : ∀ i due, Selected outbox' i due → Selected outbox i due)
    (hlatest : ∀ outcome ∈ outbox'.journal.outcomes, outcome.1 = outcome.2)
    (hcalls : ∀ due since, Call.retry due since ∉ outbox'.calls) : Leased outbox' where
  held i due hdue := by
    rw [hattempts]
    exact h.held i due (hholds i due hdue)
  unique i j due due' hdue hdue' := h.unique i j due due' (hholds i due hdue) (hholds j due' hdue')
  selected i due hdue := by
    rw [hattempts]
    exact h.selected i due (hselected i due hdue)
  stale i j due due' hdue hdue' :=
    h.stale i j due due' (hselected i due hdue) (hholds j due' hdue')
  latest := hlatest
  unretried := hcalls

/-! ### Scans that are updated -/

/-- A scan is updated that holds no other row than before and has selected no other row. -/
structure Updates (outbox outbox' : Outbox) (i : ℕ) (scan scan' : Scan) : Prop where
  found : ∃ retries, outbox.scans[i]? = some (scan, retries)
  scans : ∃ retries, outbox'.scans = outbox.scans.set i (scan', retries)
  held : ∀ due, scan'.phase.held = some due → scan.phase.held = some due
  rest : ∀ due ∈ scan'.rest, due ∈ scan.rest

variable {i : ℕ} {applied scan scan' : Scan}

theorem Updates.holds (h : Updates outbox outbox' i scan scan') (j : ℕ) (due : DueRow) (hdue : Holds outbox' j due) :
    Holds outbox j due := by
  obtain ⟨found, retries, hfound, hheld⟩ := hdue
  obtain ⟨_, hscans⟩ := h.scans
  rw [hscans, List.getElem?_set] at hfound
  split at hfound
  · next heq =>
    subst heq
    split at hfound
    · cases hfound
      obtain ⟨retries', hscan⟩ := h.found
      exact ⟨scan, retries', hscan, h.held due hheld⟩
    · cases hfound
  · exact ⟨found, retries, hfound, hheld⟩

theorem Updates.selected (h : Updates outbox outbox' i scan scan') (j : ℕ) (due : DueRow)
    (hdue : Selected outbox' j due) : Selected outbox j due := by
  obtain ⟨found, retries, hfound, hrest⟩ := hdue
  obtain ⟨_, hscans⟩ := h.scans
  rw [hscans, List.getElem?_set] at hfound
  split at hfound
  · next heq =>
    subst heq
    split at hfound
    · cases hfound
      obtain ⟨retries', hscan⟩ := h.found
      exact ⟨scan, retries', hscan, h.rest due hrest⟩
    · cases hfound
  · exact ⟨found, retries, hfound, hrest⟩

theorem Leased.of_updates (h : Leased outbox) (hupdates : Updates outbox outbox' i scan scan')
    (hattempts : ∀ id, outbox'.attempts id = outbox.attempts id)
    (hlatest : ∀ outcome ∈ outbox'.journal.outcomes, outcome.1 = outcome.2) (hcalls : outbox'.calls = outbox.calls) :
    Leased outbox' :=
  h.of_same hattempts hupdates.holds hupdates.selected hlatest (hcalls ▸ h.unretried)

variable {result : Except LifecycleError TransitionOutcome}

/-- After a transition that was not applied, or the scan given for one that was, nothing new is held. -/
theorem resume_held {due : DueRow} (happlied : ∀ due', applied.phase.held = some due' → due' = due) (due' : DueRow)
    (h : (scan.resume result applied).phase.held = some due') : due' = due := by
  cases hresult : isApplied result with
  | true =>
    rw [resume_of_applied hresult] at h
    exact happlied due' h
  | false =>
    rw [(resume_of_not_applied hresult).1] at h
    cases h

theorem resume_rest (happlied : applied.rest = scan.rest) : (scan.resume result applied).rest = scan.rest := by
  cases hresult : isApplied result with
  | true => rw [resume_of_applied hresult, happlied]
  | false => exact (resume_of_not_applied hresult).2.1

theorem succeeded_held (scan : Scan) (due : DueRow) :
    (scan.succeeded due).phase.held = none ∧ (scan.succeeded due).rest = scan.rest := by
  unfold Scan.succeeded
  split <;> exact ⟨rfl, rfl⟩

theorem failed_held (scan : Scan) (due due' : DueRow) (h : (scan.failed due).phase.held = some due') :
    due' = due := by
  unfold Scan.failed at h
  split at h
  · cases h
  · exact (Option.some.inj h).symm

theorem failed_rest (scan : Scan) (due : DueRow) : (scan.failed due).rest = scan.rest := by
  unfold Scan.failed
  split <;> rfl

end Invariant

/-! ## Steps -/

section Steps

variable {outbox : Outbox} {i retries : ℕ} {scan : Scan} {due : DueRow}

theorem Leased.of_setScan (h : Leased outbox) {scan' : Scan} {retries' : ℕ}
    (hscan : outbox.scans[i]? = some (scan, retries))
    (hheld : ∀ due, scan'.phase.held = some due → scan.phase.held = some due)
    (hrest : scan'.rest = scan.rest) : Leased (outbox.setScan i scan' retries') :=
  h.of_updates ⟨⟨retries, hscan⟩, ⟨retries', rfl⟩, hheld, fun _ hdue ↦ hrest ▸ hdue⟩ (fun _ ↦ rfl)
    h.latest rfl

theorem Leased.query (h : Leased outbox) {ids : List String}
    (hunheld : ∀ j due, Holds outbox j due → due.id ∉ ids) :
    Leased (outbox.setScan i { scan with rest := outbox.selected ids, phase := .scanning } 0) := by
  have hholds : ∀ j due, Holds (outbox.setScan i { scan with rest := outbox.selected ids, phase := .scanning }
      0) j due → Holds outbox j due := by
    intro j due hdue
    obtain ⟨found, retries', hfound, hheld⟩ := hdue
    change (outbox.scans.set i _)[j]? = _ at hfound
    rw [List.getElem?_set] at hfound
    split at hfound
    · split at hfound
      · cases hfound
        cases hheld
      · cases hfound
    · exact ⟨found, retries', hfound, hheld⟩
  -- a row that is selected now is as it is stored
  have hselected : ∀ j due, Selected (outbox.setScan i { scan with
      rest := outbox.selected ids, phase := .scanning } 0) j due →
      Selected outbox j due ∨ due.id ∈ ids ∧ outbox.row due.id = some due.row := by
    intro j due hdue
    obtain ⟨found, retries', hfound, hrest⟩ := hdue
    change (outbox.scans.set i _)[j]? = _ at hfound
    rw [List.getElem?_set] at hfound
    split at hfound
    · split at hfound
      · cases hfound
        obtain ⟨id, hid, hrow⟩ := List.mem_filterMap.1 hrest
        obtain ⟨row, hstored, rfl⟩ := Option.map_eq_some_iff.1 hrow
        exact .inr ⟨hid, hstored⟩
      · cases hfound
    · exact .inl ⟨found, retries', hfound, hrest⟩
  constructor
  · intro j due hdue
    exact h.held j due (hholds j due hdue)
  · intro j k due due' hdue hdue' hid
    exact h.unique j k due due' (hholds j due hdue) (hholds k due' hdue') hid
  · intro j due hdue
    obtain hold | ⟨-, hrow⟩ := hselected j due hdue
    · exact h.selected j due hold
    · exact ⟨due.attempt, count due.row "max_attempts", congrArg _ hrow, le_rfl⟩
  · intro j k due due' hdue hdue' hid
    obtain hold | ⟨hmem, -⟩ := hselected j due hdue
    · exact h.stale j k due due' hold (hholds k due' hdue') hid
    · exact absurd (hid ▸ hmem) (hunheld k due' (hholds k due' hdue'))
  · exact h.latest
  · exact h.unretried

variable {rest : List DueRow}

theorem Leased.expire (h : Leased outbox) (hscan : outbox.scans[i]? = some (scan, retries))
    (hrest : scan.rest = due :: rest) : Leased (outbox.expire i (scan.takeUp rest) due) := by
  have houtcome : Outcome outbox.db ((scan.takeUp rest).expireRequest due) outbox.clock
      (legacyTransition outbox.db ((scan.takeUp rest).expireRequest due) outbox.clock) :=
    outcome_legacyTransition rfl
  have hattempts : ∀ id, (outbox.expire i (scan.takeUp rest) due).attempts id = outbox.attempts id :=
    houtcome.attempts List.not_mem_nil rfl
  refine h.of_updates ⟨⟨retries, hscan⟩, ⟨0, rfl⟩, fun due' hheld ↦ ?_, fun due' hmem ↦ ?_⟩ hattempts
    h.latest rfl
  · cases hresult : isApplied (legacyTransition outbox.db ((scan.takeUp rest).expireRequest due)
        outbox.clock).2 with
    | true =>
      rw [resume_of_applied hresult] at hheld
      cases hheld
    | false =>
      rw [(resume_of_not_applied hresult).1] at hheld
      cases hheld
  · rw [resume_rest] at hmem
    · rw [hrest]
      exact List.mem_cons_of_mem _ hmem
    · rfl

/-- The attempt that an outcome finds is that of the claim it is written for. -/
theorem Leased.noteOutcome (h : Leased outbox) (hheld : Holds outbox i due) :
    ∀ outcome ∈ (outbox.noteOutcome due).outcomes, outcome.1 = outcome.2 := by
  intro outcome hmem
  obtain hold | hnew := List.mem_append.1 hmem
  · exact h.latest outcome hold
  · rw [List.mem_singleton.1 hnew]
    obtain ⟨maximum, hattempts⟩ := h.held i due hheld
    obtain ⟨row, hrow, hcount⟩ := Option.map_eq_some_iff.1 hattempts
    rw [hrow, Option.map_some, Option.getD_some]
    exact (congrArg Prod.fst hcount).symm

theorem Leased.settle (h : Leased outbox) {applied : Scan} {request : LegacyTransition}
    (hscan : outbox.scans[i]? = some (scan, retries)) (hheld : scan.phase.held = some due)
    (htype : request.entityType = "dispatch") (hpatch : "attempt" ∉ request.patch)
    (happlied : ∀ due', applied.phase.held = some due' → due' = due) (hrest : applied.rest = scan.rest) :
    Leased (outbox.settle i scan applied due request retries) := by
  have houtcome : Outcome outbox.db request outbox.clock
      (legacyTransition outbox.db request outbox.clock) := outcome_legacyTransition htype
  have hattempts : ∀ id, (outbox.settle i scan applied due request retries).attempts id =
      outbox.attempts id := houtcome.attempts hpatch rfl
  refine h.of_updates ⟨⟨retries, hscan⟩, ⟨retries, rfl⟩, fun due' hdue' ↦ ?_, fun due' hmem ↦ ?_⟩ hattempts
    ?_ rfl
  · rw [resume_held happlied due' hdue']
    exact hheld
  · exact resume_rest hrest ▸ hmem
  · have hjournal : (outbox.settle i scan applied due request retries).journal =
        if isApplied (legacyTransition outbox.db request outbox.clock).2 then outbox.noteOutcome due
        else outbox.journal := rfl
    rw [hjournal]
    split
    · exact h.noteOutcome ⟨scan, retries, hscan, hheld⟩
    · exact h.latest

theorem Leased.note (h : Leased outbox) {err err' : String} {success : Bool}
    (hscan : outbox.scans[i]? = some (scan, retries)) (hphase : scan.phase = .executed due success err') :
    Leased (outbox.note i scan due err retries) := by
  have hattempts : ∀ id, (outbox.note i scan due err retries).attempts id = outbox.attempts id :=
    update_attempts (by simp [touchedColumns]) rfl
  refine h.of_updates ⟨⟨retries, hscan⟩, ⟨retries, rfl⟩, fun due' hdue' ↦ ?_, fun _ hmem ↦ hmem⟩ hattempts
    h.latest rfl
  rw [hphase]
  exact hdue'

theorem Leased.postpone (h : Leased outbox) (hscan : outbox.scans[i]? = some (scan, retries))
    (hphase : scan.phase = .requeued due) : Leased (outbox.postpone i scan due retries) := by
  have hattempts : ∀ id, (outbox.postpone i scan due retries).attempts id = outbox.attempts id :=
    update_attempts (by simp [touchedColumns]) rfl
  exact h.of_updates ⟨⟨retries, hscan⟩, ⟨retries, rfl⟩, fun _ hdue' ↦ (by cases hdue'), fun _ hmem ↦ hmem⟩
    hattempts (h.noteOutcome ⟨scan, retries, hscan, hphase ▸ rfl⟩) rfl

theorem Leased.writeAck (h : Leased outbox) (k : ℕ) : Leased (outbox.writeAck k due) := by
  have houtcome : Outcome outbox.db (ackRequest due) outbox.clock
      (legacyTransition outbox.db (ackRequest due) outbox.clock) := outcome_legacyTransition rfl
  have hattempts : ∀ id, (outbox.writeAck k due).attempts id = outbox.attempts id :=
    houtcome.attempts List.not_mem_nil rfl
  refine h.of_same hattempts (fun _ _ hheld ↦ hheld) (fun _ _ hselected ↦ hselected) ?_ ?_
  · have hjournal : (outbox.writeAck k due).journal.outcomes = outbox.journal.outcomes := by
      change (ite _ _ _ : Journal).outcomes = _
      split <;> rfl
    rw [hjournal]
    exact h.latest
  · intro due' since hmem
    obtain hcall | hcall := List.mem_or_eq_of_mem_set hmem
    · exact h.unretried due' since hcall
    · cases hcall

theorem Leased.insert (h : Leased outbox) (request : EnqueueRequest) (now : ℚ)
    (hnew : outbox.row request.id = none) : Leased (outbox.insert request now) := by
  have hnone : outbox.attempts request.id = none := Option.map_eq_none_iff.2 hnew
  have hother : ∀ id attempts, outbox.attempts id = some attempts →
      (outbox.insert request now).attempts id = some attempts := by
    intro id attempts hid
    have hne : id ≠ request.id := fun heq ↦ by cases (heq ▸ hid).symm.trans hnone
    exact (congrArg _ (row_insert_of_ne hne)).trans hid
  constructor
  · intro i due hdue
    obtain ⟨maximum, hattempts⟩ := h.held i due hdue
    exact ⟨maximum, hother _ _ hattempts⟩
  · exact h.unique
  · intro i due hdue
    obtain ⟨attempt, maximum, hattempts, hle⟩ := h.selected i due hdue
    exact ⟨attempt, maximum, hother _ _ hattempts, hle⟩
  · exact h.stale
  · exact h.latest
  · exact h.unretried

/-- A claim that is applied finds its row held by no scan, since whoever held it would have left a higher
attempt than the one that was read. -/
theorem Leased.unheld_of_claim (h : Leased outbox) {row : Row} {request : Scan}
    (hselected : Selected outbox i due) (hrow : outbox.row due.id = some row)
    (hexpects : (request.claimRequest due).Expects dispatchPolicy row) (j : ℕ) (due' : DueRow)
    (hdue' : Holds outbox j due') : due'.id ≠ due.id := by
  intro hid
  obtain ⟨maximum, hattempts⟩ := h.held j due' hdue'
  obtain ⟨found, hfound, hcount⟩ := Option.map_eq_some_iff.1 hattempts
  have hsame : found = row := Option.some.inj ((hid ▸ hfound).symm.trans hrow)
  have hstale := h.stale i j due due' hselected hdue' hid.symm
  have hattempt : count row "attempt" = due.attempt := (@claimed_attempts _ _ _ 0 hexpects).1
  have hnext : count row "attempt" = due'.nextAttempt := hsame ▸ congrArg Prod.fst hcount
  exact absurd (hnext.symm.trans hattempt) (Nat.ne_of_gt hstale)

/-- The attempt of one row is incremented, and one scan that held nothing holds it. -/
theorem Leased.of_claim (h : Leased outbox) {outbox' : Outbox}
    (hstep : ∃ maximum, outbox.attempts due.id = some (due.attempt, maximum) ∧
      outbox'.attempts due.id = some (due.nextAttempt, maximum))
    (hrest : ∀ id, id ≠ due.id → outbox'.attempts id = outbox.attempts id)
    (hunheld : ∀ j due', Holds outbox j due' → due'.id ≠ due.id)
    (hholds : ∀ j due', Holds outbox' j due' → j = i ∧ due' = due ∨ Holds outbox j due')
    (hselected : ∀ j due', Selected outbox' j due' → Selected outbox j due')
    (houtcomes : outbox'.journal.outcomes = outbox.journal.outcomes)
    (hcalls : outbox'.calls = outbox.calls) : Leased outbox' := by
  obtain ⟨maximum, hold, hnew⟩ := hstep
  constructor
  · intro j due' hdue'
    obtain ⟨-, rfl⟩ | hdue' := hholds j due' hdue'
    · exact ⟨maximum, hnew⟩
    · rw [hrest _ (hunheld j due' hdue')]
      exact h.held j due' hdue'
  · intro j k due' due'' hdue' hdue'' hid
    obtain ⟨rfl, rfl⟩ | hdue' := hholds j due' hdue'
    · obtain ⟨rfl, -⟩ | hdue'' := hholds k due'' hdue''
      · rfl
      · exact absurd hid.symm (hunheld k due'' hdue'')
    · obtain ⟨rfl, rfl⟩ | hdue'' := hholds k due'' hdue''
      · exact absurd hid (hunheld j due' hdue')
      · exact h.unique j k due' due'' hdue' hdue'' hid
  · intro j due' hdue'
    obtain ⟨attempt, maximum', hattempts, hle⟩ := h.selected j due' (hselected j due' hdue')
    by_cases hid : due'.id = due.id
    · cases (hid ▸ hattempts).symm.trans hold
      exact ⟨_, _, hid ▸ hnew, hle.trans (Nat.le_succ _)⟩
    · exact ⟨attempt, maximum', (hrest _ hid).trans hattempts, hle⟩
  · intro j k due' due'' hdue' hdue'' hid
    obtain ⟨rfl, rfl⟩ | hdue'' := hholds k due'' hdue''
    · obtain ⟨attempt, maximum', hattempts, hle⟩ := h.selected j due' (hselected j due' hdue')
      cases (hid ▸ hattempts).symm.trans hold
      exact Nat.lt_succ_of_le hle
    · exact h.stale j k due' due'' (hselected j due' hdue') hdue'' hid
  · exact houtcomes ▸ h.latest
  · exact hcalls ▸ h.unretried

theorem Leased.claim (h : Leased outbox) (hscan : outbox.scans[i]? = some (scan, retries))
    (hrest : scan.rest = due :: rest) : Leased (outbox.claim i (scan.takeUp rest) due) := by
  have houtcome : Outcome outbox.db ((scan.takeUp rest).claimRequest due) outbox.clock
      (legacyTransition outbox.db ((scan.takeUp rest).claimRequest due) outbox.clock) :=
    outcome_legacyTransition rfl
  have hscans : (outbox.claim i (scan.takeUp rest) due).scans = outbox.scans.set i
      ((scan.takeUp rest).resume (legacyTransition outbox.db ((scan.takeUp rest).claimRequest due)
        outbox.clock).2 { scan.takeUp rest with phase := .claimed due }, outbox.journal.retries due.id) := rfl
  have hrows : ∀ id, (outbox.claim i (scan.takeUp rest) due).row id =
      (legacyTransition outbox.db ((scan.takeUp rest).claimRequest due) outbox.clock).1.select
        outboxTable id := fun _ ↦ rfl
  have houtcomes : (outbox.claim i (scan.takeUp rest) due).journal.outcomes = outbox.journal.outcomes := by
    change (ite _ _ _ : Journal).outcomes = _
    split <;> rfl
  have hcalls : (outbox.claim i (scan.takeUp rest) due).calls = outbox.calls := rfl
  generalize legacyTransition outbox.db ((scan.takeUp rest).claimRequest due) outbox.clock = result at *
  generalize outbox.claim i (scan.takeUp rest) due = outbox' at *
  have hselected : ∀ j due', Selected outbox' j due' → Selected outbox j due' := by
    intro j due' hdue'
    obtain ⟨found, retries', hfound, hmem⟩ := hdue'
    rw [hscans, List.getElem?_set] at hfound
    split at hfound
    · next heq =>
      subst heq
      split at hfound
      · cases hfound
        rw [resume_rest] at hmem
        · exact ⟨scan, retries, hscan, hrest ▸ List.mem_cons_of_mem _ hmem⟩
        · rfl
      · cases hfound
    · exact ⟨found, retries', hfound, hmem⟩
  have hholds : ∀ j due', Holds outbox' j due' → j = i ∧ due' = due ∧ isApplied result.2 = true ∨
      Holds outbox j due' := by
    intro j due' hdue'
    obtain ⟨found, retries', hfound, hheld⟩ := hdue'
    rw [hscans, List.getElem?_set] at hfound
    split at hfound
    · next heq =>
      split at hfound
      · cases hfound
        cases hresult : isApplied result.2 with
        | true =>
          rw [resume_of_applied hresult] at hheld
          exact .inl ⟨heq.symm, (Option.some.inj hheld).symm, rfl⟩
        | false =>
          rw [(resume_of_not_applied hresult).1] at hheld
          cases hheld
      · cases hfound
    · exact .inr ⟨found, retries', hfound, hheld⟩
  cases houtcome with
  | kept hkept hsame =>
    refine h.of_same (fun id ↦ ?_) (fun j due' hdue' ↦ ?_) hselected (houtcomes ▸ h.latest)
      (hcalls ▸ h.unretried)
    · rw [Outbox.attempts, hrows, hsame]
      rfl
    · obtain ⟨-, -, happlied⟩ | hdue' := hholds j due' hdue'
      · cases hkept.symm.trans happlied
      · exact hdue'
  | moved row happlied hfound hexpects hstored hothers =>
    have hunheld := h.unheld_of_claim ⟨scan, retries, hscan, hrest ▸ List.mem_cons_self⟩ hfound hexpects
    have hstep : ∃ maximum, outbox.attempts due.id = some (due.attempt, maximum) ∧
        outbox'.attempts due.id = some (due.nextAttempt, maximum) := by
      obtain ⟨hattempt, hnext, hmax⟩ := claimed_attempts hexpects
      refine ⟨count row "max_attempts", ?_, ?_⟩
      · rw [← hattempt]
        exact congrArg _ hfound
      · rw [← hnext, ← hmax]
        exact congrArg _ ((hrows due.id).trans hstored)
    have hkept : ∀ id, id ≠ due.id → outbox'.attempts id = outbox.attempts id :=
      fun id hne ↦ congrArg _ ((hrows id).trans (hothers id hne))
    have hnew : ∀ j due', Holds outbox' j due' → j = i ∧ due' = due ∨ Holds outbox j due' := by
      intro j due' hdue'
      obtain ⟨hj, hdue, -⟩ | hdue' := hholds j due' hdue'
      · exact .inl ⟨hj, hdue⟩
      · exact .inr hdue'
    exact h.of_claim hstep hkept hunheld hnew hselected houtcomes hcalls

theorem Leased.exec (h : Leased outbox) (op : OutboxOp) (hop : SelectsUnheld outbox op) :
    Leased (outbox.exec op) := by
  have hstep := exec_stepped outbox op
  generalize outbox.exec op = outbox' at hstep ⊢
  cases hstep with
  | idle | tick | existing =>
    exact h.of_same (fun _ ↦ rfl) (fun _ _ hheld ↦ hheld) (fun _ _ hselected ↦ hselected) h.latest
      h.unretried
  | readAck =>
    refine h.of_same (fun _ ↦ rfl) (fun _ _ hheld ↦ hheld) (fun _ _ hselected ↦ hselected) h.latest ?_
    intro due since hmem
    obtain hold | hnew := List.mem_append.1 hmem
    · exact h.unretried due since hold
    · cases List.mem_singleton.1 hnew
  | start =>
    refine h.of_same (fun _ ↦ rfl) (fun i due hdue ↦ ?_) (fun i due hdue ↦ ?_) h.latest h.unretried
    · obtain ⟨scan, retries, hscan, hheld⟩ := hdue
      rw [List.getElem?_append] at hscan
      split at hscan
      · exact ⟨scan, retries, hscan, hheld⟩
      · obtain ⟨rfl, -⟩ := Prod.mk.inj (List.mem_singleton.1 (List.mem_of_getElem? hscan))
        cases hheld
    · obtain ⟨scan, retries, hscan, hrest⟩ := hdue
      rw [List.getElem?_append] at hscan
      split at hscan
      · exact ⟨scan, retries, hscan, hrest⟩
      · obtain ⟨rfl, -⟩ := Prod.mk.inj (List.mem_singleton.1 (List.mem_of_getElem? hscan))
        cases hrest
  | query hscan hphase hids => exact h.query (hop _ _ hscan hphase hids)
  | through hscan => exact h.of_setScan hscan (fun _ hdue ↦ by cases hdue) rfl
  | expire hscan _ hrest => exact h.expire hscan hrest
  | claim hscan _ hrest => exact h.claim hscan hrest
  | execute hscan hphase =>
    exact h.of_updates ⟨⟨_, hscan⟩, ⟨_, rfl⟩, fun _ hdue ↦ hphase ▸ hdue, fun _ hmem ↦ hmem⟩ (fun _ ↦ rfl)
      h.latest rfl
  | skip hscan hphase => exact h.of_setScan hscan (fun _ hdue ↦ hphase ▸ hdue) rfl
  | finish hscan hphase => exact h.of_setScan hscan (fun _ hdue ↦ hphase ▸ hdue) rfl
  | success hscan hphase =>
    refine h.settle hscan (hphase ▸ rfl) successRequest_entity.1 successRequest_entity.2.2 ?_
      (succeeded_held _ _).2
    intro due' hdue'
    cases (succeeded_held _ _).1.symm.trans hdue'
  | note hscan hphase => exact h.note hscan hphase
  | failure hscan hphase =>
    exact h.settle hscan (hphase ▸ rfl) failureRequest_entity.1 failureRequest_entity.2.2 (failed_held _ _)
      (failed_rest _ _)
  | postpone hscan hphase => exact h.postpone hscan hphase
  | crash => cases hop
  | readRetry => cases hop
  | writeAck => exact h.writeAck _
  | writeRetry hcall => exact absurd (List.mem_of_getElem? hcall) (h.unretried _ _)
  | insert _ hnew => exact h.insert _ _ hnew

end Steps

theorem Table.leased (table : Table) (clock : ℚ) : Leased (table.start clock) where
  held i due h := by
    obtain ⟨_, _, hscan, -⟩ := h
    cases hscan
  unique i j due due' h := by
    obtain ⟨_, _, hscan, -⟩ := h
    cases hscan
  selected i due h := by
    obtain ⟨_, _, hscan, -⟩ := h
    cases hscan
  stale i j due due' h := by
    obtain ⟨_, _, hscan, -⟩ := h
    cases hscan
  latest _ h := absurd h List.not_mem_nil
  unretried _ _ := List.not_mem_nil

/-- Over every run of overlapping scans, acknowledgements and enqueues in which no scan selects a row that
another one has claimed and not finished with, one command at a time is executed for a row and every
outcome is written for its latest claim. -/
theorem deliversExclusively_throughout (table : Table) (clock : ℚ) (ops : List OutboxOp)
    (hops : Along Outbox.exec SelectsUnheld (table.start clock) ops) :
    Throughout Outbox.exec DeliversExclusively (table.start clock) ops := by
  have hleased : Throughout Outbox.exec Leased (table.start clock) ops :=
    .of_along (fun _ op h hop ↦ h.exec op hop) (table.leased clock) hops
  exact hleased.mono fun _ h ↦ h.deliversExclusively

/-- A row is delivered by one scan. -/
theorem deliversExclusively_deliverOnce :
    Throughout Outbox.exec DeliversExclusively (singleTable.start 1)
      (deliverOnce 0 ++ [.tick 10, .finish 0 true "", .write 0]) := by
  apply deliversExclusively_throughout
  refine ⟨trivial, ?_, trivial, trivial, trivial, trivial, trivial, trivial⟩
  intro _ _ _ _ _ j due hdue
  obtain ⟨scan, retries, hscan, hheld⟩ := hdue
  have hstarted : ((singleTable.start 1).run ((deliverOnce 0).take 1)).scans.all
      (fun entry ↦ entry.1.phase.held.isNone) := by
    decide +kernel
  have hnone : scan.phase.held = none :=
    Option.isNone_iff_eq_none.1 (List.all_eq_true.1 hstarted _ (List.mem_of_getElem? hscan))
  cases hheld.symm.trans hnone

/-! ## A row at the end of a long batch -/

section LongBatch

def send (id : String) : EnqueueRequest where
  id := id
  kind := "revival_ping"
  deliverTo := "ops"
  payload := "\x7b\x7d"

def batchIds : List String := ["d1", "d2"]

def batchDb : Db where
  rows table id := if table = outboxTable ∧ id ∈ batchIds then some ((send id).row 0) else none
  history := []
  adminEvents := []

theorem select_batchDb {id : String} {row : Row} (h : batchDb.select outboxTable id = some row) :
    id ∈ batchIds ∧ row = (send id).row 0 := by
  obtain ⟨stored, hstored, hrow⟩ := Option.map_eq_some_iff.1 h
  change (if _ ∧ id ∈ batchIds then some ((send id).row 0) else none) = some stored at hstored
  split at hstored
  · next hkey =>
    cases hstored
    exact ⟨hkey.2, hrow.symm.trans (Function.update_eq_self_iff.2 ((send id).row_id 0).symm)⟩
  · cases hstored

def batchTable : Table where
  db := batchDb
  ids := batchIds
  listed _ _ h := (select_batchDb h).1
  unique id id' row row' key h h' hkey _ := by
    rw [(select_batchDb h).2] at hkey
    cases hkey

def schedulerActor : ActorRecord := ⟨"scheduler", some "dispatch_delivery_loop"⟩

/-- The first row of a batch takes ten seconds. While the second one is executed, its lease of fifteen
seconds from the start of the scan ends. -/
def longBatch : List OutboxOp :=
  [.start schedulerActor, .query 0 batchIds, .deliver 0, .execute 0, .tick 10, .finish 0 true "", .write 0,
    .deliver 0, .execute 0, .tick 6, .start schedulerActor, .query 1 ["d2"], .deliver 1, .execute 1]

/-- The row whose command is executed by a scan. -/
def Outbox.executing (outbox : Outbox) (i : ℕ) : Option String :=
  match outbox.scans[i]? with
  | some (⟨_, _, _, _, .executing due _⟩, _) => some due.id
  | _ => none

theorem executing_of_eq_some {outbox : Outbox} {i : ℕ} {id : String} (h : outbox.executing i = some id) :
    ∃ due, due.id = id ∧ Executing outbox i due := by
  unfold Outbox.executing at h
  split at h
  · next due since retries hscan => exact ⟨due, Option.some.inj h, _, retries, since, hscan, rfl⟩
  · cases h

theorem not_deliversExclusively_throughout :
    ¬ Throughout Outbox.exec DeliversExclusively (batchTable.start 1) longBatch := by
  intro h
  obtain ⟨due, hid, hdue⟩ : ∃ due, due.id = "d2" ∧ Executing ((batchTable.start 1).run longBatch) 0 due := by
    apply executing_of_eq_some
    decide +kernel
  obtain ⟨due', hid', hdue'⟩ : ∃ due, due.id = "d2" ∧
      Executing ((batchTable.start 1).run longBatch) 1 due := by
    apply executing_of_eq_some
    decide +kernel
  have heq : 0 = 1 := h.final.exclusive 0 1 due due' hdue hdue' (hid.trans hid'.symm)
  exact absurd heq Nat.zero_ne_one

end LongBatch

end Lionagi.Dispatch
