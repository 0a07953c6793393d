import Mathlib.Data.List.Perm.Subperm
import Lionagi.Scheduler.ClaimProgress

/-!
# Rows behind others

A pass begins at the head of the queue again. When all of its candidates are deferred it changes nothing, and
neither do the passes after it, so a row behind them is never claimed. This does not happen while the rows that
are deferred are fewer than the candidates of a pass, and with the rows that the worker cannot serve fewer than
the rows that a pass scans.
-/

namespace Lionagi.Scheduler

variable {worker : ClaimWorker} {store : ClaimStore} {row : ClaimRow}

/-! ## What a pass scans -/

/-- The page after a row of a sorted queue is of the rows that follow it. -/
theorem filter_after_eq_drop {queue : List ClaimRow} (hsorted : queue.Pairwise fun row later ↦ row.key < later.key)
    {n : ℕ} {last : ClaimRow} (hlast : (queue.take n).getLast? = some last) :
    queue.filter (fun row ↦ decide (last.key < row.key)) = queue.drop n := by
  obtain ⟨front, hfront⟩ := List.getLast?_eq_some_iff.1 hlast
  rw [← List.take_append_drop n queue, hfront, List.pairwise_append, List.pairwise_append] at hsorted
  obtain ⟨⟨-, -, hbefore⟩, -, hafter⟩ := hsorted
  conv_lhs => rw [← List.take_append_drop n queue, hfront]
  have hself : [last].filter (fun row ↦ decide (last.key < row.key)) = [] :=
    List.filter_cons_of_neg (by simp)
  have hgone : front.filter (fun row ↦ decide (last.key < row.key)) = [] := by
    refine List.filter_eq_nil_iff.2 fun r hr ↦ ?_
    rw [decide_eq_true_iff]
    exact (hbefore r hr last (List.mem_singleton_self last)).not_gt
  have hkept : (queue.drop n).filter (fun row ↦ decide (last.key < row.key)) = queue.drop n :=
    List.filter_eq_self.2 fun r hr ↦
      decide_eq_true (hafter last (List.mem_append_right _ (List.mem_singleton_self last)) r hr)
  rw [List.filter_append, List.filter_append, hself, hgone, hkept]
  rfl

/-- The scan has read the rows up to some point of the queue. It ends there because the candidates are enough,
too many rows were scanned, or no row follows. -/
theorem scanClaims_spec {queue : List ClaimRow} (hsorted : queue.Pairwise fun row later ↦ row.key < later.key)
    {rounds scanned : ℕ} {after : Option ClaimRow} (hscanned : scanned ≤ queue.length)
    (hafter : after = (queue.take scanned).getLast?) (hrounds : maxClaimScanRows ≤ scanned + rounds) :
    ∃ n, scanClaims worker queue rounds after scanned (matchingCandidates worker (queue.take scanned)) =
        matchingCandidates worker (queue.take n) ∧
      (worker.limit ≤ (matchingCandidates worker (queue.take n)).length ∨ maxClaimScanRows ≤ n ∨
        queue.length ≤ n) := by
  induction rounds generalizing after scanned with
  | zero => exact ⟨scanned, rfl, Or.inr (Or.inl hrounds)⟩
  | succ rounds ih =>
    have hpage : claimPage queue after = (queue.drop scanned).take claimPageSize := by
      rw [claimPage, hafter]
      cases hlast : (queue.take scanned).getLast? with
      | none =>
        have hzero : scanned = 0 ∨ queue = [] := by
          rw [List.getLast?_eq_none_iff, List.take_eq_nil_iff] at hlast
          exact hlast
        obtain rfl | rfl := hzero <;> simp
      | some last => exact congrArg _ (filter_after_eq_drop hsorted hlast)
    have htake : queue.take (scanned + (claimPage queue after).length) =
        queue.take scanned ++ claimPage queue after := by
      rw [List.take_add, hpage, List.length_take, ← List.take_eq_take_min]
    have happend : matchingCandidates worker (queue.take scanned) ++
        matchingCandidates worker (claimPage queue after) =
          matchingCandidates worker (queue.take (scanned + (claimPage queue after).length)) := by
      rw [htake, matchingCandidates, matchingCandidates, matchingCandidates, List.filter_append]
    have hlength : (claimPage queue after).length = min claimPageSize (queue.length - scanned) := by
      rw [hpage, List.length_take, List.length_drop]
    rw [scanClaims]
    split
    · rename_i hgo
      dsimp only
      split
      · rename_i hlast
        have hnil : (claimPage queue after).length = 0 := by
          rw [List.getLast?_eq_none_iff] at hlast
          rw [hlast, List.length_nil]
        have hpositive : 0 < claimPageSize := by decide
        exact ⟨scanned, rfl, Or.inr (Or.inr (by omega))⟩
      · rename_i last hlast
        rw [happend]
        split
        · rename_i hshort
          exact ⟨_, rfl, Or.inr (Or.inr (by omega))⟩
        · rename_i hfull
          have hpositive : 0 < claimPageSize := by decide
          refine ih (by omega) ?_ (by omega)
          rw [htake, List.getLast?_append, hlast]
          rfl
    · rename_i hstop
      refine ⟨scanned, rfl, ?_⟩
      omega

/-- What the candidates of a pass are, up to their order, unless they are as many as it tries. -/
theorem candidates_spec (worker : ClaimWorker) (store : ClaimStore) :
    (candidates worker store.queue).Nodup ∧ ((candidates worker store.queue).length = worker.limit ∨
      ∃ n, (candidates worker store.queue).Perm (matchingCandidates worker (store.queue.take n)) ∧
        (maxClaimScanRows ≤ n ∨ store.queue.length ≤ n)) := by
  obtain ⟨n, hscan, hend⟩ := @scanClaims_spec worker store.queue store.sorted maxClaimScanRows 0 none
    (Nat.zero_le _) rfl (Nat.le_add_left _ _)
  have hscan' : scanClaims worker store.queue maxClaimScanRows none 0 [] =
      matchingCandidates worker (store.queue.take n) := hscan
  have hnodup : (matchingCandidates worker (store.queue.take n)).Nodup :=
    (List.Nodup.of_map _ store.nodup).sublist (List.filter_sublist.trans (List.take_sublist _ _))
  have hperm := List.perm_insertionSort (fun row other ↦ candidateOrder worker row ≤ candidateOrder worker other)
    (matchingCandidates worker (store.queue.take n))
  rw [candidates, hscan']
  refine ⟨(hperm.nodup_iff.2 hnodup).sublist (List.take_sublist _ _), ?_⟩
  rw [List.length_take, hperm.length_eq]
  by_cases hlimit : worker.limit ≤ (matchingCandidates worker (store.queue.take n)).length
  · exact Or.inl (min_eq_left hlimit)
  · refine Or.inr ⟨n, ?_, hend.resolve_left hlimit⟩
    rw [List.take_of_length_le (hperm.length_eq ▸ (not_le.1 hlimit).le)]
    exact hperm

/-! ## Rows that stay -/

/-- The worker could serve the row, whose key is held by a row that runs. -/
def waits (worker : ClaimWorker) (store : ClaimStore) (row : ClaimRow) : Bool :=
  matchesWorker worker row && row.concurrencyKey.any (· ∈ store.runningKeys)

/-- Fewer rows wait for held keys than a pass tries, and with the rows that the worker cannot serve they are
fewer than a pass scans. -/
structure FewBlocked (worker : ClaimWorker) (store : ClaimStore) : Prop where
  waiting : (store.queue.filter (waits worker store)).length < worker.limit
  blocked : (store.queue.filter fun row ↦ !matchesWorker worker row || waits worker store row).length <
    maxClaimScanRows

instance (worker : ClaimWorker) (store : ClaimStore) : Decidable (FewBlocked worker store) :=
  decidable_of_iff (_ ∧ _) ⟨fun h ↦ ⟨h.1, h.2⟩, fun h ↦ ⟨h.waiting, h.blocked⟩⟩

theorem matchingTokens_matchingTokens (tokens : List Text) :
    matchingTokens (matchingTokens tokens) = matchingTokens tokens := by
  simp only [matchingTokens, List.filter_filter, Bool.and_self]

theorem waits_of_deferred {reason : DeferReason} (hmatches : matchesWorker worker row = true)
    (h : admitRow worker store store.runningKeys row = .deferred reason) : waits worker store row = true := by
  have hserve : workerCanServe (matchingTokens row.requiredCapabilities) worker.advertised = true := by
    rw [workerCanServe, matchingTokens_matchingTokens]
    exact (Bool.and_eq_true_iff.1 hmatches).1
  have hvalid : ¬ ExceedsLease worker row := by
    rintro ⟨duration, hduration, hle⟩
    rw [admitRow, Option.filter_eq_some_iff.2 ⟨hduration, hle⟩] at h
    exact absurd h (by simp)
  by_contra hnot
  have hadmitted : admitRow worker store store.runningKeys row = .admitted := by
    refine admit_eq_admitted_iff.2 ⟨hvalid, hserve, fun key hkey ↦ ?_⟩
    rw [waits, hmatches, Bool.true_and, Option.any_eq_true] at hnot
    have hfree : key ∉ store.runningKeys := fun hheld ↦ hnot ⟨key, hkey, decide_eq_true hheld⟩
    exact ⟨hfree, hfree⟩
  exact absurd (hadmitted.symm.trans h) (by simp)

theorem not_waits_of_acceptable (h : Acceptable worker store row) : waits worker store row = false := by
  rw [waits, Bool.and_eq_false_iff, Option.any_eq_false]
  refine Or.inr fun key hkey ↦ ?_
  exact decide_eq_false ((admit_eq_admitted_iff.1 h.2).2.2 key hkey).2

theorem FewBlocked.served (h : FewBlocked worker store) : Served worker store := by
  rintro ⟨row, hrow, hacceptable⟩
  by_contra hnone
  have hwait : ∀ other ∈ candidates worker store.queue, waits worker store other = true := by
    intro other hother
    by_contra hnot
    exact hnone ⟨other, hother, fun reason hreason ↦ hnot (waits_of_deferred (mem_candidates hother).2 hreason)⟩
  obtain ⟨hnodup, hfull | ⟨n, hperm, hend⟩⟩ := candidates_spec worker store
  · -- All that the pass tries are rows that wait.
    have hle : (candidates worker store.queue).length ≤ (store.queue.filter (waits worker store)).length :=
      (hnodup.subperm fun other hother ↦
        List.mem_filter.2 ⟨(mem_candidates hother).1, hwait other hother⟩).length_le
    exact absurd h.waiting (not_lt.2 (hfull ▸ hle))
  · -- All that the pass scans are rows that stay, so it has scanned the whole queue.
    have hblocked : ∀ other ∈ store.queue.take n,
        (!matchesWorker worker other || waits worker store other) = true := by
      intro other hother
      cases hmatches : matchesWorker worker other with
      | false => rfl
      | true => exact hwait other (hperm.mem_iff.2 (List.mem_filter.2 ⟨hother, hmatches⟩))
    have hsub : (store.queue.take n).Sublist
        (store.queue.filter fun other ↦ !matchesWorker worker other || waits worker store other) := by
      have hfilter := (List.take_sublist n store.queue).filter
        fun other ↦ !matchesWorker worker other || waits worker store other
      rwa [List.filter_eq_self.2 hblocked] at hfilter
    have hlength := hsub.length_le
    have hfew := h.blocked
    rw [List.length_take] at hlength
    have hall : store.queue.length ≤ n := by omega
    rw [List.take_of_length_le hall] at hblocked
    have hself := hblocked row hrow
    rw [hacceptable.1, not_waits_of_acceptable hacceptable] at hself
    exact absurd hself (by decide)

theorem FewBlocked.passes (h : FewBlocked worker store) (n : ℕ) : FewBlocked worker (passes worker store n) := by
  obtain ⟨hqueue, hkeys⟩ := passes_spec worker store n
  have hwaits : waits worker (Scheduler.passes worker store n) = waits worker store := by
    funext row
    rw [waits, waits, hkeys]
  constructor
  · rw [hwaits]
    exact (hqueue.filter _).length_le.trans_lt h.waiting
  · rw [hwaits]
    exact (hqueue.filter _).length_le.trans_lt h.blocked

/-! ## Claims within the bound -/

/-- The passes within which the rows of the queue are to be claimed. -/
def passBound (n : ℕ) : ℕ := (n + (maxClaimScanRows - 1)) / maxClaimScanRows + n

def hostWorker : ClaimWorker where
  advertised := []
  targets := ["host".toList]

/-- A row that the worker cannot serve, before one that asks for nothing. -/
def behindUnservable : ClaimStore where
  queue := [{ id := ['a'], queuedAt := 0, requiredCapabilities := ["gpu".toList] }, { id := ['b'], queuedAt := 1 }]
  sorted := by decide +kernel
  nodup := by decide +kernel
  waiters := []
  runningKeys := []

theorem foldl_attemptClaim_of_deferred {pass : ClaimPass} {rows : List ClaimRow}
    (h : ∀ row ∈ rows, ∃ reason, admitRow worker pass.store pass.claimedKeys row = .deferred reason) :
    rows.foldl (attemptClaim worker) pass = pass := by
  induction rows with
  | nil => rfl
  | cons row rows ih =>
    obtain ⟨reason, hreason⟩ := h row List.mem_cons_self
    have hself : attemptClaim worker pass row = pass := by rw [attemptClaim, hreason]
    rw [List.foldl_cons, hself]
    exact ih fun r hr ↦ h r (List.mem_cons_of_mem row hr)

theorem claimAndExecute_of_not_served (h : ¬ Served worker store) :
    claimAndExecute worker store = { store := store, claimedKeys := store.runningKeys } := by
  refine foldl_attemptClaim_of_deferred fun row hrow ↦ ?_
  by_contra hnone
  refine h fun _ ↦ ⟨row, hrow, fun reason hreason ↦ ?_⟩
  exact hnone ⟨reason, hreason⟩

/-- A pass that is not served leaves everything as it is for all passes after it. -/
theorem not_claimed_of_not_served (h : ¬ Served worker store) (n : ℕ) :
    (claimAndExecute worker (passes worker store n)).claimed = [] := by
  have hsame : passes worker store n = store := by
    induction n with
    | zero => rfl
    | succ n ih => rw [passes, ih, claimAndExecute_of_not_served h]
  rw [hsame, claimAndExecute_of_not_served h]

/-! ## Queues in which rows are not claimed -/

/-- The row is claimed within the bound if admission accepts it. -/
def ClaimedInTime (worker : ClaimWorker) (store : ClaimStore) (row : ClaimRow) : Prop :=
  row ∈ store.queue → Acceptable worker store row → ∃ i < passBound store.queue.length,
    row ∈ (claimAndExecute worker (passes worker store i)).claimed

/-- Rows that ask for one key, which no row holds. -/
def sharedKey : ClaimStore where
  queue := (List.range 4).map fun i ↦
    { id := [Char.ofNat (97 + i)], queuedAt := i, concurrencyKey := some "gpu".toList }
  sorted := by decide +kernel
  nodup := by decide +kernel
  waiters := []
  runningKeys := []

/-- Rows that wait for a held key, as many as a pass tries, before a row that asks for nothing. -/
def parked : ClaimStore where
  queue := (List.range 20).map (fun i ↦
    { id := [Char.ofNat (97 + i)], queuedAt := i, concurrencyKey := some "gpu".toList,
      allowDeferredOverCap := true }) ++ [{ id := ['z'], queuedAt := 20 }]
  sorted := by decide +kernel
  nodup := by decide +kernel
  waiters := []
  runningKeys := ["gpu".toList]

end Lionagi.Scheduler
