import Mathlib.Data.List.Nodup
import Lionagi.Scheduler.ClaimScan

/-!
# Progress of claim passes

A pass takes every row that it claims or rejects out of the queue and leaves the deferred ones. When one of its
candidates is not deferred the queue gets shorter. So the rows that admission accepts by themselves are all
claimed, or rejected for the rows that wait for their key, after as many passes as there are rows, as long as
the candidates of each pass have a row that is not deferred.
-/

namespace Lionagi.Scheduler

section Pass

variable {worker : ClaimWorker} {store : ClaimStore} {pass : ClaimPass} {row : ClaimRow}

/-! ## Candidates are rows of the queue -/

variable {queue rows : List ClaimRow}

theorem mem_scanClaims {found : List ClaimRow} {rounds scanned : ℕ} {after : Option ClaimRow}
    (h : row ∈ scanClaims worker queue rounds after scanned found) :
    row ∈ found ∨ row ∈ queue ∧ matchesWorker worker row = true := by
  induction rounds generalizing after scanned found with
  | zero => exact Or.inl h
  | succ rounds ih =>
    have hpage {r : ClaimRow} (hr : r ∈ found ++ matchingCandidates worker (claimPage queue after)) :
        r ∈ found ∨ r ∈ queue ∧ matchesWorker worker r = true := by
      refine (List.mem_append.1 hr).imp_right fun hmatch ↦ ?_
      rw [matchingCandidates, List.mem_filter] at hmatch
      exact ⟨(List.mem_filter.1 (List.mem_of_mem_take hmatch.1)).1, hmatch.2⟩
    rw [scanClaims] at h
    split at h
    · dsimp only at h
      split at h
      · exact Or.inl h
      · split at h
        · exact hpage h
        · exact (ih h).elim hpage Or.inr
    · exact Or.inl h

theorem mem_candidates (h : row ∈ candidates worker queue) : row ∈ queue ∧ matchesWorker worker row = true := by
  have hscan : row ∈ scanClaims worker queue maxClaimScanRows none 0 [] :=
    (List.mem_insertionSort _).1 (List.mem_of_mem_take h)
  exact (mem_scanClaims hscan).resolve_left List.not_mem_nil

/-! ## One candidate -/

/-- What trying a candidate can do. -/
theorem attemptClaim_cases (worker : ClaimWorker) (pass : ClaimPass) (row : ClaimRow) :
    (admitRow worker pass.store pass.claimedKeys row = .admitted ∧
      attemptClaim worker pass row = { pass with
        store := pass.store.remove row
        claimedKeys := pass.claimedKeys ++ row.concurrencyKey.toList
        claimed := pass.claimed ++ [row] }) ∨
    (∃ reason, admitRow worker pass.store pass.claimedKeys row = .rejected reason ∧
      attemptClaim worker pass row = { pass with
        store := pass.store.remove row
        rejected := pass.rejected ++ [(row, reason)] }) ∨
    ∃ reason, admitRow worker pass.store pass.claimedKeys row = .deferred reason ∧
      attemptClaim worker pass row = pass := by
  rw [attemptClaim]
  cases hadmit : admitRow worker pass.store pass.claimedKeys row with
  | admitted => exact Or.inl ⟨rfl, rfl⟩
  | rejected reason => exact Or.inr (Or.inl ⟨reason, rfl, rfl⟩)
  | deferred reason => exact Or.inr (Or.inr ⟨reason, rfl, rfl⟩)

/-- The declared duration is not below the lease. -/
def ExceedsLease (worker : ClaimWorker) (row : ClaimRow) : Prop :=
  ∃ duration ∈ row.maxDurationSeconds, PyFloat.le (.finite worker.leaseTtl) duration = true

theorem exceedsLease_of_rejected {keys : List Text} {duration : PyFloat}
    (h : admitRow worker store keys row = .rejected (.durationExceedsLease duration)) :
    ExceedsLease worker row := by
  rw [admitRow] at h
  cases hduration : row.maxDurationSeconds.filter fun d ↦ PyFloat.le (.finite worker.leaseTtl) d with
  | some d => exact ⟨d, (Option.filter_eq_some_iff.1 hduration).1, (Option.filter_eq_some_iff.1 hduration).2⟩
  | none =>
    rw [hduration] at h
    dsimp only at h
    split at h
    · exact absurd h (by simp)
    · split at h
      · exact absurd h (by simp)
      · split at h
        · split at h
          · split at h
            · exact absurd h (by simp)
            · exact absurd h (by simp)
          · exact absurd h (by simp)
        · exact absurd h (by simp)

theorem admit_eq_admitted_iff {keys : List Text} : admitRow worker store keys row = .admitted ↔
    ¬ ExceedsLease worker row ∧
      workerCanServe (matchingTokens row.requiredCapabilities) worker.advertised = true ∧
        ∀ key ∈ row.concurrencyKey, key ∉ keys ∧ key ∉ store.runningKeys := by
  rw [admitRow, ExceedsLease]
  cases hduration : row.maxDurationSeconds.filter fun d ↦ PyFloat.le (.finite worker.leaseTtl) d with
  | some d =>
    have hd := Option.filter_eq_some_iff.1 hduration
    exact iff_of_false (by simp) fun h ↦ h.1 ⟨d, hd.1, hd.2⟩
  | none =>
    have hvalid : ¬ ∃ duration ∈ row.maxDurationSeconds,
        PyFloat.le (.finite worker.leaseTtl) duration = true := by
      rintro ⟨d, hd, hle⟩
      exact Option.filter_eq_none_iff.1 hduration d hd hle
    dsimp only
    cases workerCanServe (matchingTokens row.requiredCapabilities) worker.advertised with
    | false => simp
    | true =>
      cases hkey : row.concurrencyKey with
      | none => exact iff_of_true (by simp) ⟨hvalid, rfl, by simp⟩
      | some key =>
        by_cases hheld : key ∈ keys ∨ key ∈ store.runningKeys
        · have hnot : ¬ (key ∉ keys ∧ key ∉ store.runningKeys) := by tauto
          simp only [hheld, if_true, Bool.not_true, Bool.false_eq_true, if_false, Option.mem_some_iff,
            forall_eq', hnot, and_false, iff_false]
          split
          · split <;> simp
          · simp
        · have hfree : key ∉ keys ∧ key ∉ store.runningKeys := not_or.1 hheld
          refine iff_of_true ?_ ⟨hvalid, rfl, fun k hk ↦ Option.mem_some_iff.1 hk ▸ hfree⟩
          simp only [if_neg hheld, Bool.not_true, Bool.false_eq_true, if_false]

/-! ## One pass -/

/-- The row was claimed, or rejected for a reason. -/
def ClaimPass.Settled (pass : ClaimPass) (row : ClaimRow) : Prop :=
  row ∈ pass.claimed ∨ ∃ reason, (row, reason) ∈ pass.rejected

/-- A pass over a store: rows only leave the queue, and each that has left it is settled. -/
structure PassOver (worker : ClaimWorker) (store : ClaimStore) (pass : ClaimPass) : Prop where
  queue : pass.store.queue.Sublist store.queue
  waiters : pass.store.waiters = store.waiters
  runningKeys : pass.store.runningKeys = store.runningKeys
  settled : ∀ row ∈ store.queue, row ∉ pass.store.queue → pass.Settled row
  exceeds : ∀ row duration, (row, RejectReason.durationExceedsLease duration) ∈ pass.rejected →
    ExceedsLease worker row

theorem length_remove_lt (hrow : row ∈ store.queue) : (store.remove row).queue.length < store.queue.length :=
  List.length_filter_lt_length_iff_exists.2 ⟨row, hrow, by simp⟩

theorem PassOver.remove (h : PassOver worker store pass) (hrow : row ∈ store.queue) :
    (pass.store.remove row).queue.Sublist store.queue ∧
      ∀ other ∈ store.queue, other ∉ (pass.store.remove row).queue → other ∉ pass.store.queue ∨ other = row := by
  refine ⟨List.filter_sublist.trans h.queue, fun other hother hout ↦ ?_⟩
  by_cases hmem : other ∈ pass.store.queue
  · refine Or.inr (List.inj_on_of_nodup_map store.nodup hother hrow ?_)
    rw [ClaimStore.remove, List.mem_filter, decide_eq_true_iff, not_and, not_not] at hout
    exact hout hmem
  · exact Or.inl hmem

theorem PassOver.attemptClaim (h : PassOver worker store pass) (hrow : row ∈ store.queue) :
    PassOver worker store (attemptClaim worker pass row) := by
  obtain ⟨hqueue, hgone⟩ := h.remove hrow
  obtain ⟨-, heq⟩ | ⟨reason, hadmit, heq⟩ | ⟨reason, -, heq⟩ := attemptClaim_cases worker pass row
  · rw [heq]
    refine ⟨hqueue, h.waiters, h.runningKeys, fun other hother hout ↦ ?_, h.exceeds⟩
    obtain hmem | rfl := hgone other hother hout
    · exact (h.settled other hother hmem).imp_left (List.mem_append_left _)
    · exact Or.inl (List.mem_append_right _ List.mem_cons_self)
  · rw [heq]
    refine ⟨hqueue, h.waiters, h.runningKeys, fun other hother hout ↦ ?_, fun other duration hother ↦ ?_⟩
    · obtain hmem | rfl := hgone other hother hout
      · exact (h.settled other hother hmem).imp_right
          (Exists.imp fun _ hreason ↦ List.mem_append_left _ hreason)
      · exact Or.inr ⟨reason, List.mem_append_right _ List.mem_cons_self⟩
    · obtain hmem | hnew := List.mem_append.1 hother
      · exact h.exceeds other duration hmem
      · obtain ⟨rfl, rfl⟩ := Prod.mk.inj (List.mem_singleton.1 hnew)
        exact exceedsLease_of_rejected hadmit
  · rw [heq]
    exact h

theorem PassOver.foldl (h : PassOver worker store pass) (hrows : ∀ row ∈ rows, row ∈ store.queue) :
    PassOver worker store (rows.foldl (Scheduler.attemptClaim worker) pass) := by
  induction rows generalizing pass with
  | nil => exact h
  | cons row rows ih =>
    exact ih (h.attemptClaim (hrows row List.mem_cons_self)) fun r hr ↦ hrows r (List.mem_cons_of_mem row hr)

theorem passOver_claimAndExecute (worker : ClaimWorker) (store : ClaimStore) :
    PassOver worker store (claimAndExecute worker store) :=
  PassOver.foldl ⟨List.Sublist.refl _, rfl, rfl, fun _ h hnot ↦ absurd h hnot,
    fun _ _ h ↦ absurd h List.not_mem_nil⟩ fun _ h ↦ (mem_candidates h).1

theorem length_attemptClaim_le (worker : ClaimWorker) (pass : ClaimPass) (row : ClaimRow) :
    (attemptClaim worker pass row).store.queue.length ≤ pass.store.queue.length := by
  obtain ⟨-, heq⟩ | ⟨reason, -, heq⟩ | ⟨reason, -, heq⟩ := attemptClaim_cases worker pass row
  · rw [heq]
    exact List.length_filter_le _ _
  · rw [heq]
    exact List.length_filter_le _ _
  · rw [heq]

theorem length_foldl_le (worker : ClaimWorker) (rows : List ClaimRow) (pass : ClaimPass) :
    (rows.foldl (attemptClaim worker) pass).store.queue.length ≤ pass.store.queue.length := by
  induction rows generalizing pass with
  | nil => exact Nat.le_refl _
  | cons row rows ih => exact (ih _).trans (length_attemptClaim_le worker pass row)

/-- The first candidate that is not deferred leaves the queue. -/
theorem length_foldl_lt (hrows : ∀ row ∈ rows, row ∈ pass.store.queue)
    (h : ∃ row ∈ rows, ∀ reason, admitRow worker pass.store pass.claimedKeys row ≠ .deferred reason) :
    (rows.foldl (attemptClaim worker) pass).store.queue.length < pass.store.queue.length := by
  induction rows with
  | nil =>
    obtain ⟨row, hrow, -⟩ := h
    exact absurd hrow List.not_mem_nil
  | cons row rows ih =>
    have hleave := length_remove_lt (hrows row List.mem_cons_self)
    rw [List.foldl_cons]
    obtain ⟨-, heq⟩ | ⟨reason, -, heq⟩ | ⟨reason, hadmit, heq⟩ := attemptClaim_cases worker pass row
    · exact (length_foldl_le worker rows _).trans_lt (heq ▸ hleave)
    · exact (length_foldl_le worker rows _).trans_lt (heq ▸ hleave)
    · rw [heq]
      obtain ⟨other, hother, hnot⟩ := h
      obtain rfl | hmem := List.mem_cons.1 hother
      · exact absurd hadmit (hnot reason)
      · exact ih (fun r hr ↦ hrows r (List.mem_cons_of_mem row hr)) ⟨other, hmem, hnot⟩

/-! ## Many passes -/

/-- The worker can serve the row, and admission accepts it by itself. -/
def Acceptable (worker : ClaimWorker) (store : ClaimStore) (row : ClaimRow) : Prop :=
  matchesWorker worker row = true ∧ admitRow worker store store.runningKeys row = .admitted

instance (worker : ClaimWorker) (store : ClaimStore) (row : ClaimRow) :
    Decidable (Acceptable worker store row) :=
  inferInstanceAs (Decidable (_ ∧ _))

/-- While a row that admission accepts is queued, the candidates have one that is not deferred. -/
def Served (worker : ClaimWorker) (store : ClaimStore) : Prop :=
  (∃ row ∈ store.queue, Acceptable worker store row) →
    ∃ row ∈ candidates worker store.queue, ∀ reason, admitRow worker store store.runningKeys row ≠ .deferred reason

theorem acceptable_congr {other : ClaimStore} (h : other.runningKeys = store.runningKeys) :
    Acceptable worker other row ↔ Acceptable worker store row := by
  rw [Acceptable, Acceptable, admit_eq_admitted_iff, admit_eq_admitted_iff, h]

theorem Served.length_lt (h : Served worker store) (hrow : row ∈ store.queue)
    (hacceptable : Acceptable worker store row) :
    (claimAndExecute worker store).store.queue.length < store.queue.length :=
  length_foldl_lt (fun _ h ↦ (mem_candidates h).1) (h ⟨row, hrow, hacceptable⟩)

theorem passes_spec (worker : ClaimWorker) (store : ClaimStore) (n : ℕ) :
    (passes worker store n).queue.Sublist store.queue ∧
      (passes worker store n).runningKeys = store.runningKeys := by
  induction n with
  | zero => exact ⟨List.Sublist.refl _, rfl⟩
  | succ n ih =>
    have hpass := passOver_claimAndExecute worker (passes worker store n)
    exact ⟨hpass.queue.trans ih.1, hpass.runningKeys.trans ih.2⟩

/-- Every pass that leaves an acceptable row has taken another one out of the queue. -/
theorem length_passes_le {n : ℕ} (h : ∀ i < n, Served worker (passes worker store i))
    (hacceptable : Acceptable worker store row) (hrow : row ∈ (passes worker store n).queue) :
    (passes worker store n).queue.length + n ≤ store.queue.length := by
  induction n with
  | zero => exact Nat.le_refl _
  | succ n ih =>
    have hpass := passOver_claimAndExecute worker (passes worker store n)
    have hbefore : row ∈ (passes worker store n).queue := hpass.queue.subset hrow
    have hless := (h n (Nat.lt_succ_self n)).length_lt hbefore
      ((acceptable_congr (passes_spec worker store n).2).2 hacceptable)
    have hle := ih (fun i hi ↦ h i (Nat.lt_succ_of_lt hi)) hbefore
    rw [passes]
    omega

end Pass

end Lionagi.Scheduler
