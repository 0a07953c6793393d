import Mathlib.Data.Char
import Mathlib.Data.List.Lex
import Mathlib.Data.List.Sort
import Mathlib.Data.Prod.Lex
import Lionagi.Library.PyFloat
import Lionagi.Library.PyText

/-!
# Claim passes over a queue

A pass of the worker pages through the queued rows from the oldest on, keeps those that it can serve until they
are enough or too many rows were scanned, and tries the best of them one after the other. Admission defers a row
whose concurrency key is held, and rejects a row for good when it takes too long or too many rows wait for the
key before it. The worker has free slots and a fresh heartbeat, and a claimed row is executed before the next.
-/

namespace Lionagi.Scheduler

def claimPageSize : ℕ := 50

def maxClaimScanRows : ℕ := 5000

def defaultClaimLimit : ℕ := 20

def defaultWaiterCapMultiplier : ℕ := 2

def defaultKeyConcurrency : ℕ := 1

/-! ## Capabilities -/

inductive CapabilityClass where
  | eligibility
  | serialization
  | affinity
  deriving DecidableEq

def capabilityClass (token : Text) : CapabilityClass :=
  if token = "gpu-exclusive".toList then .serialization
  else if token = "warmed-cache".toList then .affinity
  else .eligibility

def affinityTokens (tokens : List Text) : List Text := tokens.filter (capabilityClass · = .affinity)

/-- The tokens that a worker must advertise. -/
def matchingTokens (tokens : List Text) : List Text := tokens.filter (capabilityClass · ≠ .affinity)

def workerCanServe (required advertised : List Text) : Bool := (matchingTokens required).all (· ∈ advertised)

def affinityScore (required advertised : List Text) : ℕ :=
  ((affinityTokens required).filter (· ∈ advertised)).length

/-! ## Rows -/

/-- A queued row, with what its action declares to the admission. -/
structure ClaimRow where
  id : Text
  queuedAt : ℚ
  requiredCapabilities : List Text := []
  executionTarget : Option Text := none
  concurrencyKey : Option Text := none
  maxDurationSeconds : Option PyFloat := none
  allowDeferredOverCap : Bool := false
  deriving DecidableEq

/-- The order in which rows are paged. -/
def ClaimRow.key (row : ClaimRow) : ℚ ×ₗ Text := toLex (row.queuedAt, row.id)

/-- A row that the claims leave alone and that waits for its key. -/
structure Waiter where
  id : Text
  queuedAt : ℚ
  concurrencyKey : Text
  deriving DecidableEq

/-- The ad-hoc rows that are queued, in their order, the other rows that wait, and the keys of rows that run. -/
structure ClaimStore where
  queue : List ClaimRow
  sorted : queue.Pairwise fun row later ↦ row.key < later.key
  nodup : (queue.map ClaimRow.id).Nodup
  waiters : List Waiter
  runningKeys : List Text

structure ClaimWorker where
  advertised : List Text
  targets : List Text
  leaseTtl : ℚ := 300
  limit : ℕ := defaultClaimLimit
  waiterCapMultiplier : ℕ := defaultWaiterCapMultiplier
  keyConcurrency : ℕ := defaultKeyConcurrency

/-- The row has left the queue. -/
def ClaimStore.remove (store : ClaimStore) (row : ClaimRow) : ClaimStore where
  queue := store.queue.filter (·.id ≠ row.id)
  sorted := store.sorted.filter _
  nodup := store.nodup.sublist (List.filter_sublist.map _)
  waiters := store.waiters
  runningKeys := store.runningKeys

/-! ## Candidates -/

section Candidates

variable (worker : ClaimWorker)

/-- The worker has the capabilities and the target that the row asks for. -/
def matchesWorker (row : ClaimRow) : Bool :=
  workerCanServe row.requiredCapabilities worker.advertised &&
    (row.executionTarget.all fun target ↦ target == [] || target ∈ worker.targets)

def matchingCandidates (page : List ClaimRow) : List ClaimRow := page.filter (matchesWorker worker)

/-- The next page after a row, or the first one. -/
def claimPage (queue : List ClaimRow) (after : Option ClaimRow) : List ClaimRow :=
  (queue.filter fun row ↦ after.all fun last ↦ decide (last.key < row.key)).take claimPageSize

/-- Pages are read until the candidates are enough, too many rows were scanned, or the queue is at its end. -/
def scanClaims (queue : List ClaimRow) : ℕ → Option ClaimRow → ℕ → List ClaimRow → List ClaimRow
  | 0, _, _, candidates => candidates
  | rounds + 1, after, scanned, candidates =>
    if candidates.length < worker.limit ∧ scanned < maxClaimScanRows then
      let page := claimPage queue after
      match page.getLast? with
      | none => candidates
      | some last =>
        let found := candidates ++ matchingCandidates worker page
        if page.length < claimPageSize then found
        else scanClaims queue rounds (some last) (scanned + page.length) found
    else candidates

/-- The declared duration is below the lease. -/
def durationValid (row : ClaimRow) : Bool :=
  row.maxDurationSeconds.all fun duration ↦ PyFloat.lt duration (.finite worker.leaseTtl)

/-- Rows with an invalid duration first, then rows with more affinity. -/
def candidateOrder (row : ClaimRow) : Bool ×ₗ ℤ :=
  toLex (durationValid worker row, -(affinityScore row.requiredCapabilities worker.advertised : ℤ))

/-- The rows that a pass tries. Every round scans a row at least. -/
def candidates (queue : List ClaimRow) : List ClaimRow :=
  ((scanClaims worker queue maxClaimScanRows none 0 []).insertionSort
    fun row other ↦ candidateOrder worker row ≤ candidateOrder worker other).take worker.limit

end Candidates

/-! ## Admission -/

inductive DeferReason where
  | capabilities
  | parkedOverCap (cap : ℕ) (key : Text)
  | keyRunning (key : Text)
  deriving DecidableEq

inductive RejectReason where
  | durationExceedsLease (duration : PyFloat)
  | waiterCapExceeded (cap : ℕ) (key : Text) (ahead : ℕ)
  deriving DecidableEq

inductive AdmissionDecision where
  | admitted
  | deferred (reason : DeferReason)
  | rejected (reason : RejectReason)
  deriving DecidableEq

/-- The rows that wait for the key before the given one. -/
def waiterAheadCount (store : ClaimStore) (key : Text) (row : ClaimRow) : ℕ :=
  (store.queue.filter fun other ↦ other.concurrencyKey = some key ∧ other.id ≠ row.id ∧
    other.key < row.key).length +
  (store.waiters.filter fun other ↦ other.concurrencyKey = key ∧ other.id ≠ row.id ∧
    toLex (other.queuedAt, other.id) < row.key).length

/-- The decision for a row, where some keys were claimed in this pass. -/
def admitRow (worker : ClaimWorker) (store : ClaimStore) (claimedKeys : List Text) (row : ClaimRow) :
    AdmissionDecision :=
  match row.maxDurationSeconds.filter fun duration ↦ PyFloat.le (.finite worker.leaseTtl) duration with
  | some duration => .rejected (.durationExceedsLease duration)
  | none =>
    if !workerCanServe (matchingTokens row.requiredCapabilities) worker.advertised then .deferred .capabilities
    else
      match row.concurrencyKey with
      | none => .admitted
      | some key =>
        if key ∈ claimedKeys ∨ key ∈ store.runningKeys then
          let cap := worker.keyConcurrency * worker.waiterCapMultiplier
          let ahead := waiterAheadCount store key row
          if cap ≤ ahead then
            if row.allowDeferredOverCap then .deferred (.parkedOverCap cap key)
            else .rejected (.waiterCapExceeded cap key ahead)
          else .deferred (.keyRunning key)
        else .admitted

/-! ## Passes -/

/-- A pass, with the rows that it has claimed and rejected. -/
structure ClaimPass where
  store : ClaimStore
  claimedKeys : List Text
  claimed : List ClaimRow := []
  rejected : List (ClaimRow × RejectReason) := []

/-- One candidate is claimed and executed, rejected or left in the queue. -/
def attemptClaim (worker : ClaimWorker) (pass : ClaimPass) (row : ClaimRow) : ClaimPass :=
  match admitRow worker pass.store pass.claimedKeys row with
  | .admitted =>
    { pass with
      store := pass.store.remove row
      claimedKeys := pass.claimedKeys ++ row.concurrencyKey.toList
      claimed := pass.claimed ++ [row] }
  | .rejected reason =>
    { pass with
      store := pass.store.remove row
      rejected := pass.rejected ++ [(row, reason)] }
  | .deferred _ => pass

def claimAndExecute (worker : ClaimWorker) (store : ClaimStore) : ClaimPass :=
  (candidates worker store.queue).foldl (attemptClaim worker) { store := store, claimedKeys := store.runningKeys }

/-- The store after a number of passes. -/
def passes (worker : ClaimWorker) (store : ClaimStore) : ℕ → ClaimStore
  | 0 => store
  | n + 1 => (claimAndExecute worker (passes worker store n)).store

end Lionagi.Scheduler
