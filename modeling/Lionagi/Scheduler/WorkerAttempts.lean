import Lionagi.Scheduler.WorkerLease

/-!
# The bound on the leases

A claim writes the count of its snapshot plus one under a guard on the status alone. Where the snapshot is
as old as another claim of the row, the count is overwritten, and the reaper's bound is reached late. As
long as the snapshots are current, every claim counts and the bound is kept, whatever crashes.
-/

namespace Lionagi.Scheduler

open StateDb OrderedDict Transition Processes
open Dispatch (count count_num)

/-! ## The property and the condition -/

section Counted

variable (queue : TaskQueue)

/-- Every claim increments the count in its row, and no row is claimed more often than the bound. -/
structure AttemptsCounted : Prop where
  increments : ∀ claim ∈ queue.ledger.attempts, claim.2 = claim.1 + 1
  bounded : ∀ id, queue.ledger.claims id ≤ maxLeaseAttempts

/-- A row that is claimed has the count that the tick has read, and one that is queued again is below the
bound. -/
def ReadsCurrent : WorkerOp → Prop
  | .claim i => ∀ pass task rest row, queue.passes[i]? = some pass → pass.stage = .claiming →
      pass.rest = task :: rest → queue.row task.id = some row → row "status" = Cell.text "queued" →
      count row "lease_attempts" = task.attempts
  | .reap i => ∀ pass task lapsed row, queue.passes[i]? = some pass → pass.stage = .reaping →
      pass.lapsed = task :: lapsed → queue.row task.id = some row →
      row "lease_expires_at" = task.row "lease_expires_at" → ¬ task.Exhausted →
      count row "lease_attempts" < maxLeaseAttempts
  | _ => True

/-- A row has counted its claims, and one that is queued has been claimed less often than the bound. -/
structure Counted : Prop where
  increments : ∀ claim ∈ queue.ledger.attempts, claim.2 = claim.1 + 1
  bounded : ∀ id, queue.ledger.claims id ≤ maxLeaseAttempts
  counted : ∀ id row, queue.row id = some row → queue.ledger.claims id ≤ count row "lease_attempts"
  queued : ∀ id row, queue.row id = some row → row "status" = Cell.text "queued" →
    queue.ledger.claims id = 0 ∨ count row "lease_attempts" < maxLeaseAttempts
  absent : ∀ id, queue.row id = none → queue.ledger.claims id = 0

end Counted

/-! ## Rows that are moved -/

section Moves

variable {request : LegacyTransition} {task : TaskRow} {now : ℚ} {row row' : Row}

/-- A move that leaves the count, and queues the row only below the bound. -/
def KeepsCount (row row' : Row) : Prop :=
  count row' "lease_attempts" = count row "lease_attempts" ∧
    ( row' "status" = Cell.text "queued" → count row "lease_attempts" < maxLeaseAttempts)

theorem count_stored (h : "lease_attempts" ∉ request.patch) :
    count (request.stored row now) "lease_attempts" = count row "lease_attempts" := by
  rw [count, count, LegacyTransition.stored_column (by decide), (get?_eq_none_iff _ _).2 h, Option.getD_none]

theorem reapRequest_keepsCount (h : task.reapRequest.MovesRow scheduleRunPolicy now row row')
    (hbound : ¬ task.Exhausted → count row "lease_attempts" < maxLeaseAttempts) : KeepsCount row row' := by
  obtain ⟨-, rfl⟩ := h
  refine ⟨count_stored reapRequest_entity.2.2.2.2, fun hqueued ↦ hbound fun hexhausted ↦ ?_⟩
  have hrequest : task.reapRequest = task.exhaustedRequest := if_pos hexhausted
  rw [hrequest, LegacyTransition.stored_status List.not_mem_nil] at hqueued
  exact absurd hqueued (by decide : Cell.text "failed" ≠ Cell.text "queued")

theorem rejection_keepsCount {reason : ReasonRecord} (h : (task.rejection reason).MovesRow row row') :
    KeepsCount row row' := by
  obtain ⟨-, hstatus, hcolumns⟩ := h
  refine ⟨?_, fun hqueued ↦ absurd (hstatus.symm.trans hqueued) ?_⟩
  · rw [count, count, hcolumns "lease_attempts" (by decide)]
  · change Cell.text "skipped" ≠ Cell.text "queued"
    decide

theorem completeRequest_keepsCount {pass : Pass} {ending : Ending}
    (h : (pass.completeRequest task ending).MovesRow scheduleRunPolicy now row row') : KeepsCount row row' := by
  obtain ⟨-, rfl⟩ := h
  refine ⟨count_stored List.not_mem_nil, fun hqueued ↦ ?_⟩
  rw [LegacyTransition.stored_status List.not_mem_nil] at hqueued
  have hstatus : ending.status = "queued" := Cell.text_inj.1 hqueued
  unfold Ending.status at hstatus
  split at hstatus
  · split at hstatus
    · exact absurd hstatus (by decide)
    · exact absurd hstatus (by decide)
  · exact absurd hstatus (by decide)

/-- A claim finds a queued row and leaves the count that the tick has read, plus one. -/
theorem claimRequest_count {pass : Pass}
    (h : (pass.claimRequest task).MovesRow scheduleRunPolicy now row row') :
    count row' "lease_attempts" = task.attempts + 1 := by
  obtain ⟨-, rfl⟩ := h
  apply count_num
  rw [LegacyTransition.stored_column (by decide)]
  rfl

end Moves

/-! ## Steps -/

section Steps

variable {queue queue' : TaskQueue} {i : ℕ} {pass : Pass} {task : TaskRow}

theorem noteReap_counts : (queue.noteReap i task).attempts = queue.ledger.attempts ∧
    (queue.noteReap i task).claims = queue.ledger.claims := by
  unfold TaskQueue.noteReap
  split <;> exact ⟨rfl, rfl⟩

theorem release_counts {ledger : Ledger} {id : String} :
    (TaskQueue.release ledger i id).attempts = ledger.attempts ∧
      (TaskQueue.release ledger i id).claims = ledger.claims := by
  unfold TaskQueue.release
  split <;> exact ⟨rfl, rfl⟩

theorem Counted.attemptsCounted (h : Counted queue) : AttemptsCounted queue := ⟨h.increments, h.bounded⟩

/-- A step that claims no row. -/
theorem Counted.of_rows (h : Counted queue) (hattempts : queue'.ledger.attempts = queue.ledger.attempts)
    (hclaims : queue'.ledger.claims = queue.ledger.claims)
    (hrows : ∀ id row, queue.row id = some row →
      ∃ row', queue'.row id = some row' ∧ (row' = row ∨ KeepsCount row row'))
    (hnew : ∀ id, queue.row id = none → queue.ledger.claims id = 0) : Counted queue' where
  increments := hattempts ▸ h.increments
  bounded := hclaims ▸ h.bounded
  counted id row' hrow' := by
    rw [hclaims]
    cases hrow : queue.row id with
    | none =>
      rw [hnew id hrow]
      exact Nat.zero_le _
    | some row =>
      obtain ⟨stored, hstored, hkept⟩ := hrows id row hrow
      cases hrow'.symm.trans hstored
      obtain rfl | hkept := hkept
      · exact h.counted id row' hrow
      · rw [hkept.1]
        exact h.counted id row hrow
  queued id row' hrow' hqueued := by
    rw [hclaims]
    cases hrow : queue.row id with
    | none => exact .inl (hnew id hrow)
    | some row =>
      obtain ⟨stored, hstored, hkept⟩ := hrows id row hrow
      cases hrow'.symm.trans hstored
      obtain rfl | hkept := hkept
      · exact h.queued id row' hrow hqueued
      · right
        rw [hkept.1]
        exact hkept.2 hqueued
  absent id hid := by
    rw [hclaims]
    cases hrow : queue.row id with
    | none => exact hnew id hrow
    | some row =>
      obtain ⟨stored, hstored, -⟩ := hrows id row hrow
      cases hid.symm.trans hstored

theorem Counted.of_same (h : Counted queue) (hattempts : queue'.ledger.attempts = queue.ledger.attempts)
    (hclaims : queue'.ledger.claims = queue.ledger.claims) (hrows : ∀ id, queue'.row id = queue.row id) :
    Counted queue' :=
  h.of_rows hattempts hclaims (fun id row hrow ↦ ⟨row, (hrows id).trans hrow, .inl rfl⟩) h.absent

/-- A transition that keeps the count of its row. -/
theorem Counted.of_move (h : Counted queue) {id : String} {Moves : Row → Row → Prop} {applied : Bool}
    (hmove : RowMove runsTable id Moves queue.db queue'.db applied)
    (hattempts : queue'.ledger.attempts = queue.ledger.attempts)
    (hclaims : queue'.ledger.claims = queue.ledger.claims)
    (hkeeps : ∀ row row', queue.row id = some row → Moves row row' → KeepsCount row row') : Counted queue' := by
  refine h.of_rows hattempts hclaims (fun other row hrow ↦ ?_) h.absent
  obtain ⟨row', hrow', hsame | ⟨rfl, -, hmoves⟩⟩ := hmove.select hrow
  · exact ⟨row', hrow', .inl hsame⟩
  · exact ⟨row', hrow', .inr (hkeeps row row' hrow hmoves)⟩

theorem Counted.claim (h : Counted queue) {rest : List TaskRow}
    (hcurrent : ∀ row, queue.row task.id = some row → row "status" = Cell.text "queued" →
      count row "lease_attempts" = task.attempts) :
    Counted (queue.claim i { pass with rest := rest } task) := by
  obtain ⟨applied, pass', attempts, -, hattempts, hmove, -, hledger⟩ :=
    @claim_transacted queue i { pass with rest := rest } task
  generalize queue.claim i { pass with rest := rest } task = queue' at *
  cases hmove with
  | kept hsame =>
    rw [if_neg Bool.false_ne_true] at hledger
    exact h.of_same (congrArg _ hledger) (congrArg _ hledger) hsame
  | @moved row row' hrow hrow' hmoves hothers =>
    rw [if_pos rfl] at hledger
    have hqueued := (claimed_row hmoves).1
    have hcount : count row "lease_attempts" = task.attempts := hcurrent row hrow hqueued
    have hcount' : count row' "lease_attempts" = count row "lease_attempts" + 1 :=
      (claimRequest_count hmoves).trans (congrArg (· + 1) hcount.symm)
    have hself : queue'.ledger.claims task.id = queue.ledger.claims task.id + 1 := by
      rw [hledger]
      exact Function.update_self _ _ _
    have hother : ∀ id, id ≠ task.id → queue'.ledger.claims id = queue.ledger.claims id := by
      intro id hid
      rw [hledger]
      exact Function.update_of_ne hid _ _
    have hclaims : queue.ledger.claims task.id + 1 ≤ maxLeaseAttempts := by
      obtain hzero | hbelow := h.queued task.id row hrow hqueued
      · rw [hzero]
        decide
      · exact Nat.succ_le_of_lt ((h.counted task.id row hrow).trans_lt hbelow)
    constructor
    · intro claim hmem
      rw [hledger] at hmem
      obtain hold | hnew := List.mem_append.1 hmem
      · exact h.increments claim hold
      · have hbefore : queue.attempts task.id = some (count row "lease_attempts") := congrArg _ hrow
        have hafter : queue'.attempts task.id = some (count row' "lease_attempts") := congrArg _ hrow'
        rw [List.mem_singleton.1 hnew, hattempts, hbefore, hafter]
        exact hcount'
    · intro id
      by_cases hid : id = task.id
      · rw [hid, hself]
        exact hclaims
      · rw [hother id hid]
        exact h.bounded id
    · intro id stored hstored
      by_cases hid : id = task.id
      · subst hid
        cases hstored.symm.trans hrow'
        rw [hself, hcount']
        exact Nat.succ_le_succ (h.counted task.id row hrow)
      · rw [hother id hid]
        exact h.counted id stored ((hothers id hid).symm.trans hstored)
    · intro id stored hstored hstatus
      by_cases hid : id = task.id
      · subst hid
        cases hstored.symm.trans hrow'
        have hrunning := (claimed_row hmoves).2.1
        exact absurd (hstatus.symm.trans hrunning) (by decide)
      · rw [hother id hid]
        exact h.queued id stored ((hothers id hid).symm.trans hstored) hstatus
    · intro id hnone
      have hid : id ≠ task.id := by
        rintro rfl
        cases hnone.symm.trans hrow'
      rw [hother id hid]
      exact h.absent id ((hothers id hid).symm.trans hnone)

theorem Counted.exec (h : Counted queue) (op : WorkerOp) (hop : ReadsCurrent queue op) :
    Counted (queue.exec op) := by
  have hstep := exec_stepped queue op
  generalize queue.exec op = queue' at hstep ⊢
  cases hstep with
  | idle => exact h
  | tick | start | select | reaped | scan | defer | through | execute | finish | crash =>
    exact h.of_same rfl rfl fun _ ↦ rfl
  | @reap i pass task lapsed hpass hstage hlapsed =>
    obtain ⟨applied, _, -, hmove, -, hledger⟩ := @reapLease_transacted queue i { pass with lapsed := lapsed } task
    refine h.of_move hmove ?_ ?_ fun row row' hrow hmoves ↦ ?_
    · rw [hledger]
      split
      · exact noteReap_counts.1
      · rfl
    · rw [hledger]
      split
      · exact noteReap_counts.2
      · rfl
    · have hguard : row "lease_expires_at" = task.row "lease_expires_at" := by
        apply hmoves.1.guard ("lease_expires_at", task.row "lease_expires_at")
        rw [reapRequest_entity.2.2.2.1]
        exact List.mem_singleton_self _
      exact reapRequest_keepsCount hmoves (hop pass task lapsed row hpass hstage hlapsed hrow hguard)
  | @reject i pass task rest reason =>
    obtain ⟨applied, _, -, hmove, -, hledger⟩ := @reject_transacted queue i { pass with rest := rest } task reason
    refine h.of_move hmove ?_ ?_ fun _ _ _ hmoves ↦ rejection_keepsCount hmoves
    · rw [hledger]
      split <;> rfl
    · rw [hledger]
      split <;> rfl
  | @claim i pass task rest hpass hstage hrest =>
    exact h.claim fun row hrow hqueued ↦ hop pass task rest row hpass hstage hrest hrow hqueued
  | @complete i pass task ending =>
    obtain ⟨applied, _, -, hmove, -, hledger⟩ := @complete_transacted queue i pass task ending
    refine h.of_move hmove ?_ ?_ fun _ _ _ hmoves ↦ completeRequest_keepsCount hmoves
    · rw [hledger, release_counts.1]
      split <;> rfl
    · rw [hledger, release_counts.2]
      split <;> rfl
  | @submit application now hnew =>
    refine h.of_rows rfl rfl (fun id row hrow ↦ ⟨row, ?_, .inl rfl⟩) h.absent
    have hid : id ≠ application.id := by
      rintro rfl
      cases hnew.symm.trans hrow
    exact (row_submit_of_ne hid).trans hrow

end Steps

/-! ## Runs -/

theorem counted_startQueue (db : Db) (ids : List String) (clock : ℚ) : Counted (startQueue db ids clock) where
  increments _ h := absurd h List.not_mem_nil
  bounded _ := Nat.zero_le _
  counted _ _ _ := Nat.zero_le _
  queued _ _ _ _ := .inl rfl
  absent _ _ := rfl

/-- Over every run of ticks of any number of workers that may crash, in which the counts that are read are
current when they are used, every claim increments the count of its row and no row is claimed more often
than the bound. -/
theorem attemptsCounted_throughout (db : Db) (ids : List String) (clock : ℚ) (ops : List WorkerOp)
    (hops : Along TaskQueue.exec ReadsCurrent (startQueue db ids clock) ops) :
    Throughout TaskQueue.exec AttemptsCounted (startQueue db ids clock) ops := by
  have hcounted : Throughout TaskQueue.exec Counted (startQueue db ids clock) ops :=
    .of_along (fun _ op h hop ↦ h.exec op hop) (counted_startQueue db ids clock) hops
  exact hcounted.mono fun _ h ↦ h.attemptsCounted

/-! ## Workers that crash -/

section Crash

/-- Every candidate has the count that was read. -/
theorem readsCurrent_claim {queue : TaskQueue} {i : ℕ}
    (h : ∀ pass ∈ queue.passes, ∀ task ∈ pass.rest, queue.attempts task.id = some task.attempts) :
    ReadsCurrent queue (.claim i) := by
  intro pass task rest row hpass _ hrest hrow _
  have hcount : some (count row "lease_attempts") = some task.attempts := by
    rw [← h pass (List.mem_of_getElem? hpass) task (hrest ▸ List.mem_cons_self), TaskQueue.attempts, hrow,
      Option.map_some]
  exact Option.some.inj hcount

/-- Every row whose lease is yet to be reaped is below the bound. -/
theorem readsCurrent_reap {queue : TaskQueue} {i : ℕ}
    (h : ∀ pass ∈ queue.passes, ∀ task ∈ pass.lapsed, ∀ attempts ∈ queue.attempts task.id,
      attempts < maxLeaseAttempts) : ReadsCurrent queue (.reap i) := by
  intro pass task lapsed row hpass _ hlapsed hrow _ _
  apply h pass (List.mem_of_getElem? hpass) task (hlapsed ▸ List.mem_cons_self)
  rw [TaskQueue.attempts, hrow]
  rfl

/-- A worker crashes with a row it has claimed, which another one recovers and executes. -/
theorem attemptsCounted_startTick :
    Throughout TaskQueue.exec AttemptsCounted (startQueue (tasksDb ["a"]) ["a"] 0)
      (startTick 0 "w0" 0 [] ["a"] ++ [.claim 0, .crash 0, .tick 301] ++ startTick 1 "w1" 301 ["a"] ["a"] ++
        [.claim 1, .execute 1, .finish 1 (.exited 0 ""), .complete 1]) := by
  apply attemptsCounted_throughout
  refine ⟨trivial, trivial, ?_, trivial, ?_, trivial, trivial, trivial, trivial, ?_, ?_, trivial, ?_, trivial,
    trivial, trivial, trivial⟩
  · apply readsCurrent_reap
    decide +kernel
  · apply readsCurrent_claim
    decide +kernel
  · apply readsCurrent_reap
    decide +kernel
  · apply readsCurrent_reap
    decide +kernel
  · apply readsCurrent_claim
    decide +kernel

/-- Two workers read a queue of two rows. While the second executes the first row, the other row is claimed
by the first worker, which crashes, and its lease is reaped by a third. Then the second worker claims the
row with the count it has read at its start. -/
def staleCount : List WorkerOp :=
  startTick 0 "w0" 0 [] ["a", "b"] ++ [.tick 1] ++ startTick 1 "w1" 1 [] ["a", "b"] ++
    [.claim 1, .execute 1, .claim 0, .claim 0, .crash 0, .tick (599 / 2),
      .start "w2" (601 / 2) defaultLeaseTtlSeconds, .select 2 ["b"], .reap 2, .crash 2,
      .finish 1 (.exited 0 ""), .complete 1, .claim 1]

theorem not_attemptsCounted_throughout :
    ¬ Throughout TaskQueue.exec AttemptsCounted (startQueue (tasksDb ["a", "b"]) ["a", "b"] 0)
      staleCount := by
  intro h
  have hstale : (1, 1) ∈ ((startQueue (tasksDb ["a", "b"]) ["a", "b"] 0).run staleCount).ledger.attempts := by
    decide +kernel
  have hincrement : 1 = 1 + 1 := h.final.increments (1, 1) hstale
  exact absurd hincrement (by decide)

end Crash

end Lionagi.Scheduler
