import Lionagi.StateDb.LegacyTransition

/-!
# The dispatch outbox

A scan reads the due rows once and delivers them one after the other: a row is claimed by a
compare-and-swap that increments its attempt and leases it, the transport command is executed outside
every transaction, and the outcome is written by a further transition. Scans, acknowledgements, retries and
enqueues of any number of processes interleave between their transactions, and a scan may crash at any
point.
-/

namespace Lionagi.Dispatch

open StateDb Checks OrderedDict

/-! ## Rows -/

def outboxTable : String := "dispatch_outbox"

/-- The value of an integer column that counts from 0. -/
def count (row : Row) (column : String) : ℕ :=
  match row column with
  | some (.num value) => value.num.toNat
  | _ => 0

theorem count_num (row : Row) (column : String) (n : ℕ) (h : row column = Cell.num n) :
    count row column = n := by
  unfold count
  rw [h]
  rfl

/-- The value of a text column. -/
def text? (row : Row) (column : String) : Option String :=
  match row column with
  | some (.text value) => some value
  | _ => none

/-- `column <= time` in SQL and for a column that is not NULL. -/
def AtMost (cell : Cell) (time : ℚ) : Prop :=
  match cell with
  | some (.num value) => value ≤ time
  | _ => False

instance (cell : Cell) (time : ℚ) : Decidable (AtMost cell time) :=
  match cell with
  | some (.num value) => inferInstanceAs (Decidable (value ≤ time))
  | some (.text _) => isFalse id
  | none => isFalse id

def notifyTimeoutSeconds : ℚ := 10

def claimLeaseSeconds : ℚ := notifyTimeoutSeconds + 5

def backoffSeconds (attempt : ℕ) : ℚ := min (30 * 2 ^ attempt) 1800

/-- The row is selected by a scan that started at the given time. -/
def Due (row : Row) (now : ℚ) : Prop :=
  (row "status" = Cell.text "pending" ∨ row "status" = Cell.text "delivering") ∧
    AtMost (row "next_attempt_at") now

instance (row : Row) (now : ℚ) : Decidable (Due row now) := inferInstanceAs (Decidable (_ ∧ _))

/-! ## Scans -/

/-- A row as it was selected. -/
structure DueRow where
  id : String
  row : Row

namespace DueRow

variable (due : DueRow)

def attempt : ℕ := count due.row "attempt"

def nextAttempt : ℕ := due.attempt + 1

def maxAttempts : ℕ := count due.row "max_attempts"

def ackRequired : Bool := (due.row "ack_required").truthy

/-- The attempts are used up. -/
def Exhausted : Prop := due.maxAttempts ≤ due.nextAttempt

instance : Decidable due.Exhausted := inferInstanceAs (Decidable (_ ≤ _))

end DueRow

structure Counts where
  attempted : ℕ := 0
  delivered : ℕ := 0
  deadLetter : ℕ := 0
  expired : ℕ := 0
  retried : ℕ := 0
  deriving DecidableEq

/-- Where a scan is: before its query, between two rows, or with a row it has claimed and not finished
with, whose command is about to start, runs since some time, has ended, has left its error in the row, or
whose retry is yet to be postponed. -/
inductive Phase where
  | started
  | scanning
  | claimed (due : DueRow)
  | executing (due : DueRow) (since : ℚ)
  | executed (due : DueRow) (success : Bool) (err : String)
  | noted (due : DueRow) (err : String)
  | requeued (due : DueRow)
  | ended

/-- The row that a scan has claimed and not finished with. -/
def Phase.held : Phase → Option DueRow
  | .claimed due | .executing due _ | .executed due _ _ | .noted due _ | .requeued due => some due
  | _ => none

/-- A command that runs has not exceeded its timeout. -/
def Phase.WithinTimeout (phase : Phase) (clock : ℚ) : Prop :=
  match phase with
  | .executing _ since => clock ≤ since + notifyTimeoutSeconds
  | _ => True

instance (phase : Phase) (clock : ℚ) : Decidable (phase.WithinTimeout clock) :=
  match phase with
  | .executing _ since => inferInstanceAs (Decidable (clock ≤ since + notifyTimeoutSeconds))
  | .started | .scanning | .claimed _ | .executed _ _ _ | .noted _ _ | .requeued _ | .ended =>
    isTrue trivial

structure Scan where
  now : ℚ
  actor : ActorRecord
  rest : List DueRow := []
  counts : Counts := {}
  phase : Phase := .started

namespace Scan

variable (scan : Scan)

/-- The scan goes on with the next row. -/
def next : Scan := { scan with phase := .scanning }

/-- The scan takes up the first of the rows that are left. -/
def takeUp (rest : List DueRow) : Scan :=
  { scan with rest := rest, counts := { scan.counts with attempted := scan.counts.attempted + 1 } }

/-- What follows a transition: a row that has vanished is skipped, and other exceptions end the scan. -/
def resume (result : Except LifecycleError TransitionOutcome) (applied : Scan) : Scan :=
  match result with
  | .ok outcome => if outcome.result = .applied then applied else scan.next
  | .error (.notFound _ _ _) => scan.next
  | .error _ => { scan with phase := .ended }

/-! ### Requests -/

def expireRequest (due : DueRow) : LegacyTransition where
  entityType := "dispatch"
  entityId := due.id
  fromState := text? due.row "status"
  toState := "expired"
  reason := { code := "dispatch.expired.deadline", summary := "expires_at reached before delivery" }
  actor := scan.actor

/-- The claim is guarded on the attempt that was read, and leases the row from the start of the scan. -/
def claimRequest (due : DueRow) : LegacyTransition where
  entityType := "dispatch"
  entityId := due.id
  fromState := text? due.row "status"
  toState := "delivering"
  reason := { code := "dispatch.delivering.attempt", summary := "attempt " ++ toString due.nextAttempt }
  actor := scan.actor
  guard := ofList [("attempt", due.row "attempt")]
  patch := ofList [("attempt", Cell.num due.nextAttempt),
    ("next_attempt_at", Cell.num (scan.now + claimLeaseSeconds))]

def ackTimeoutRequest (due : DueRow) : LegacyTransition where
  entityType := "dispatch"
  entityId := due.id
  fromState := some "delivering"
  toState := "dead_letter"
  reason := {
    code := "dispatch.dead_letter.ack_timeout"
    summary := toString due.nextAttempt ++ " sends without ack (max_attempts exhausted)" }
  actor := scan.actor

def transportReason : ReasonRecord where
  code := "dispatch.delivered.transport_ok"
  summary := "transport command exited 0; consumer acknowledgement not implied"

def repeatRequest (due : DueRow) : LegacyTransition where
  entityType := "dispatch"
  entityId := due.id
  fromState := some "delivering"
  toState := "pending"
  reason := transportReason
  actor := scan.actor
  patch := ofList [("next_attempt_at", Cell.num (scan.now + backoffSeconds due.nextAttempt))]

def deliveredRequest (due : DueRow) : LegacyTransition where
  entityType := "dispatch"
  entityId := due.id
  fromState := some "delivering"
  toState := "delivered"
  reason := transportReason
  actor := scan.actor

def deadLetterRequest (due : DueRow) (err : String) : LegacyTransition where
  entityType := "dispatch"
  entityId := due.id
  fromState := some "delivering"
  toState := "dead_letter"
  reason := {
    code := "dispatch.dead_letter.max_attempts"
    summary := toString due.nextAttempt ++ " attempts exhausted: " ++ err }
  actor := scan.actor

def retryRequest (due : DueRow) (err : String) : LegacyTransition where
  entityType := "dispatch"
  entityId := due.id
  fromState := some "delivering"
  toState := "pending"
  reason := {
    code := "dispatch.pending.retry_backoff"
    summary := "retry in " ++ toString (backoffSeconds due.nextAttempt) ++ "s: " ++ err }
  actor := scan.actor

/-- The transition that writes the outcome of a successful command. -/
def successRequest (due : DueRow) : LegacyTransition :=
  if due.ackRequired ∧ due.Exhausted then scan.ackTimeoutRequest due
  else if due.ackRequired then scan.repeatRequest due
  else scan.deliveredRequest due

/-- The transition that writes the outcome of a failed command. -/
def failureRequest (due : DueRow) (err : String) : LegacyTransition :=
  if due.Exhausted then scan.deadLetterRequest due err else scan.retryRequest due err

/-- The scan after the outcome of a successful command was written. -/
def succeeded (due : DueRow) : Scan :=
  if due.ackRequired ∧ due.Exhausted then
    { scan.next with counts := { scan.counts with deadLetter := scan.counts.deadLetter + 1 } }
  else { scan.next with counts := { scan.counts with delivered := scan.counts.delivered + 1 } }

/-- The scan after the outcome of a failed command was written. A retry is postponed by a second write. -/
def failed (due : DueRow) : Scan :=
  if due.Exhausted then
    { scan.next with counts := { scan.counts with deadLetter := scan.counts.deadLetter + 1 } }
  else { scan with phase := .requeued due }

end Scan

/-! ## Acknowledgements, retries and enqueues -/

/-- A call that has read its row and is about to write. -/
inductive Call where
  | ack (due : DueRow)
  | retry (due : DueRow) (since : ℚ)
  | returned

def ackRequest (due : DueRow) : LegacyTransition where
  entityType := "dispatch"
  entityId := due.id
  fromState := text? due.row "status"
  toState := "acked"
  reason := { code := "dispatch.acked.consumer", summary := "consumer presented ack_token" }
  actor := ⟨"operator", some "li_dispatch_ack"⟩

/-- `ack_dispatch` goes on to its transition when the row takes acknowledgements and the token is right. -/
def Accepts (row : Row) (ackToken : String) : Prop :=
  (row "ack_required").truthy = true ∧ row "ack_token" = Cell.text ackToken

instance (row : Row) (ackToken : String) : Decidable (Accepts row ackToken) :=
  inferInstanceAs (Decidable (_ ∧ _))

def operatorRetryRequest (due : DueRow) (now : ℚ) : LegacyTransition where
  entityType := "dispatch"
  entityId := due.id
  fromState := text? due.row "status"
  toState := "pending"
  reason := { code := "dispatch.pending.retry_backoff", summary := "operator-forced retry" }
  actor := ⟨"operator", some "li_dispatch_retry"⟩
  patch := ofList [("attempt", Cell.num 0), ("next_attempt_at", Cell.num now), ("last_error", none)]

/-- `retry_dispatch` goes on to its transition for these rows. -/
def Retryable (row : Row) : Prop :=
  row "status" = Cell.text "dead_letter" ∨ row "status" = Cell.text "expired"

instance (row : Row) : Decidable (Retryable row) := inferInstanceAs (Decidable (_ ∨ _))

/-- The arguments of `enqueue_dispatch` with the generated id and token and the text of the payload. -/
structure EnqueueRequest where
  id : String
  kind : String
  deliverTo : String
  payload : String
  dedupKey : Option String := none
  ackToken : Option String := none
  maxAttempts : ℕ := 8
  expiresAt : Option ℚ := none
  sessionId : Option String := none
  scheduleRunId : Option String := none

def EnqueueRequest.row (request : EnqueueRequest) (now : ℚ) : Row :=
  Row.assign (fun _ ↦ none) [
    ("id", Cell.text request.id),
    ("kind", Cell.text request.kind),
    ("deliver_to", Cell.text request.deliverTo),
    ("payload", Cell.text request.payload),
    ("dedup_key", request.dedupKey.map Scalar.text),
    ("status", Cell.text "pending"),
    ("attempt", Cell.num 0),
    ("max_attempts", Cell.num request.maxAttempts),
    ("next_attempt_at", Cell.num now),
    ("ack_required", Cell.num (if request.ackToken.isSome then 1 else 0)),
    ("ack_token", request.ackToken.map Scalar.text),
    ("session_id", request.sessionId.map Scalar.text),
    ("schedule_run_id", request.scheduleRunId.map Scalar.text),
    ("last_error", none),
    ("created_at", Cell.num now),
    ("expires_at", request.expiresAt.map Scalar.num),
    ("updated_at", Cell.num now)]

theorem EnqueueRequest.row_id (request : EnqueueRequest) (now : ℚ) :
    request.row now "id" = Cell.text request.id := by
  simp [EnqueueRequest.row, Row.assign, Function.update]

/-! ## Runs -/

/-- What happened so far: the ids whose `ack_dispatch` returned True, the keys and ids of the enqueues that
returned, the ids of the claims, the attempts each outcome was written for and found, and for each id the
attempts executed since its last retry and the number of its retries. -/
structure Journal where
  acked : List String := []
  enqueued : List (Option String × String) := []
  claims : List String := []
  outcomes : List (ℕ × ℕ) := []
  executed : String → List ℕ := fun _ ↦ []
  retries : String → ℕ := fun _ ↦ 0

/-- The time, the database with the ids of the outbox rows, and the scans and calls that were started. A
scan is listed with the retries its claimed row had seen when it was claimed. -/
structure Outbox where
  clock : ℚ
  db : Db
  ids : List String
  scans : List (Scan × ℕ)
  calls : List Call
  journal : Journal

inductive OutboxOp where
  | tick (seconds : ℚ)
  | start (actor : ActorRecord)
  | query (scan : ℕ) (ids : List String)
  | deliver (scan : ℕ)
  | execute (scan : ℕ)
  | skip (scan : ℕ) (err : String)
  | finish (scan : ℕ) (success : Bool) (err : String)
  | write (scan : ℕ)
  | crash (scan : ℕ)
  | readAck (id ackToken : String)
  | readRetry (id : String)
  | writeCall (call : ℕ) (now : ℚ)
  | enqueue (request : EnqueueRequest) (now : ℚ)

namespace Outbox

variable (outbox : Outbox)

def row (id : String) : Option Row := outbox.db.select outboxTable id

/-- The ids of the rows that are due. -/
def dueIds (now : ℚ) : List String := outbox.ids.filter fun id ↦ (outbox.row id).any fun row ↦ Due row now

/-- The scan with a number is updated. -/
def setScan (i : ℕ) (scan : Scan) (retries : ℕ) : Outbox :=
  { outbox with scans := outbox.scans.set i (scan, retries) }

/-- No command exceeds its timeout. -/
def Timely (clock : ℚ) : Prop := ∀ entry ∈ outbox.scans, entry.1.phase.WithinTimeout clock

instance (clock : ℚ) : Decidable (outbox.Timely clock) :=
  inferInstanceAs (Decidable (∀ entry ∈ outbox.scans, entry.1.phase.WithinTimeout clock))

/-! ### The steps of a scan -/

/-- The rows with the given ids. -/
def selected (ids : List String) : List DueRow :=
  ids.filterMap fun id ↦ (outbox.row id).map fun row ↦ ⟨id, row⟩

/-- The due rows are selected, in any order. -/
def query (i : ℕ) (scan : Scan) (ids : List String) : Outbox :=
  if ids.Perm (outbox.dueIds scan.now) then
    outbox.setScan i { scan with rest := outbox.selected ids, phase := .scanning } 0
  else outbox

/-- The next row is expired. -/
def expire (i : ℕ) (scan : Scan) (due : DueRow) : Outbox :=
  let result := legacyTransition outbox.db (scan.expireRequest due) outbox.clock
  { outbox with db := result.1 }.setScan i (scan.resume result.2
    { scan.next with counts := { scan.counts with expired := scan.counts.expired + 1 } }) 0

/-- The next row is claimed. -/
def claim (i : ℕ) (scan : Scan) (due : DueRow) : Outbox :=
  let result := legacyTransition outbox.db (scan.claimRequest due) outbox.clock
  { outbox with
    db := result.1
    journal := if isApplied result.2 then
      { outbox.journal with claims := outbox.journal.claims ++ [due.id] } else outbox.journal }.setScan i
    (scan.resume result.2 { scan with phase := .claimed due }) (outbox.journal.retries due.id)

/-- `_deliver_one_due_row` up to the claim, for the next row that was selected. -/
def deliver (i : ℕ) (scan : Scan) : Outbox :=
  match scan.rest with
  | [] => outbox.setScan i { scan with phase := .ended } 0
  | due :: rest =>
    if AtMost (due.row "expires_at") scan.now then outbox.expire i (scan.takeUp rest) due
    else outbox.claim i (scan.takeUp rest) due

/-- The transport command of a claimed row starts. -/
def execute (i : ℕ) (scan : Scan) (due : DueRow) (retries : ℕ) : Outbox :=
  { outbox with journal := { outbox.journal with
      executed := Function.update outbox.journal.executed due.id
        (outbox.journal.executed due.id ++ [due.nextAttempt]) } }.setScan i
    { scan with phase := .executing due outbox.clock } retries

/-- The attempts that an outcome is written for and found. -/
def noteOutcome (due : DueRow) : Journal :=
  { outbox.journal with outcomes := outbox.journal.outcomes ++
      [(due.nextAttempt, ((outbox.row due.id).map fun row ↦ count row "attempt").getD 0)] }

/-- An outcome is written by a transition. -/
def settle (i : ℕ) (scan applied : Scan) (due : DueRow) (request : LegacyTransition) (retries : ℕ) :
    Outbox :=
  let result := legacyTransition outbox.db request outbox.clock
  { outbox with
    db := result.1
    journal := if isApplied result.2 then outbox.noteOutcome due else outbox.journal }.setScan i
    (scan.resume result.2 applied) retries

/-- The error of a failed command is left in the row. -/
def note (i : ℕ) (scan : Scan) (due : DueRow) (err : String) (retries : ℕ) : Outbox :=
  let db := outbox.db.update outboxTable due.id
    [("last_error", Cell.text err), ("updated_at", Cell.num scan.now)]
  { outbox with db := db }.setScan i { scan with phase := .noted due err } retries

/-- A retry is postponed by the backoff. -/
def postpone (i : ℕ) (scan : Scan) (due : DueRow) (retries : ℕ) : Outbox :=
  let db := outbox.db.update outboxTable due.id
    [("next_attempt_at", Cell.num (scan.now + backoffSeconds due.nextAttempt))]
  { outbox with db := db, journal := outbox.noteOutcome due }.setScan i
    { scan.next with counts := { scan.counts with retried := scan.counts.retried + 1 } } retries

/-- The next transaction of `_deliver_one_due_row` after the command has ended. -/
def write (i : ℕ) (scan : Scan) (retries : ℕ) : Outbox :=
  match scan.phase with
  | .executed due true _ =>
    outbox.settle i scan (scan.succeeded due) due (scan.successRequest due) retries
  | .executed due false err => outbox.note i scan due err retries
  | .noted due err => outbox.settle i scan (scan.failed due) due (scan.failureRequest due err) retries
  | .requeued due => outbox.postpone i scan due retries
  | _ => outbox

/-! ### The other calls -/

def setCall (k : ℕ) (call : Call) : Outbox := { outbox with calls := outbox.calls.set k call }

def writeAck (k : ℕ) (due : DueRow) : Outbox :=
  let result := legacyTransition outbox.db (ackRequest due) outbox.clock
  { outbox with
    db := result.1
    journal := if isApplied result.2 then
      { outbox.journal with acked := outbox.journal.acked ++ [due.id] } else outbox.journal }.setCall k
    .returned

/-- The attempts and the count of executions start anew. -/
def writeRetry (k : ℕ) (due : DueRow) (now : ℚ) : Outbox :=
  let result := legacyTransition outbox.db (operatorRetryRequest due now) outbox.clock
  { outbox with
    db := result.1
    journal := if isApplied result.2 then
      { outbox.journal with
        executed := Function.update outbox.journal.executed due.id []
        retries := Function.update outbox.journal.retries due.id (outbox.journal.retries due.id + 1) }
      else outbox.journal }.setCall k .returned

/-- The row with a key that is not NULL. -/
def withKey (dedupKey : Option String) : Option String :=
  dedupKey.bind fun key ↦ outbox.ids.find? fun id ↦
    (outbox.row id).any fun row ↦ row "dedup_key" = Cell.text key

def insert (request : EnqueueRequest) (now : ℚ) : Outbox :=
  { outbox with
    db := (outbox.db.put outboxTable request.id (some (request.row now))).appendHistory "dispatch"
      request.id none "pending"
      { code := "dispatch.pending.enqueued", summary := "enqueued kind=" ++ request.kind }
      ⟨"system", some "enqueue_dispatch"⟩ now
    ids := outbox.ids ++ [request.id]
    journal := { outbox.journal with
      enqueued := outbox.journal.enqueued ++ [(request.dedupKey, request.id)] } }

/-- The transaction of `enqueue_dispatch`. -/
def enqueue (request : EnqueueRequest) (now : ℚ) : Outbox :=
  match outbox.withKey request.dedupKey with
  | some existing =>
    { outbox with journal := { outbox.journal with
        enqueued := outbox.journal.enqueued ++ [(request.dedupKey, existing)] } }
  | none =>
    if outbox.row request.id = none then outbox.insert request now else outbox

/-- The step of a process, which is none where it is not at that point. -/
def exec : OutboxOp → Outbox
  | .tick seconds =>
    if 0 ≤ seconds ∧ outbox.Timely (outbox.clock + seconds) then
      { outbox with clock := outbox.clock + seconds }
    else outbox
  | .start actor =>
    { outbox with scans := outbox.scans ++ [({ now := outbox.clock, actor := actor }, 0)] }
  | .query i ids =>
    match outbox.scans[i]? with
    | some (scan, _) =>
      match scan.phase with
      | .started => outbox.query i scan ids
      | _ => outbox
    | none => outbox
  | .deliver i =>
    match outbox.scans[i]? with
    | some (scan, _) =>
      match scan.phase with
      | .scanning => outbox.deliver i scan
      | _ => outbox
    | none => outbox
  | .execute i =>
    match outbox.scans[i]? with
    | some (scan, retries) =>
      match scan.phase with
      | .claimed due => outbox.execute i scan due retries
      | _ => outbox
    | none => outbox
  | .skip i err =>
    match outbox.scans[i]? with
    | some (scan, retries) =>
      match scan.phase with
      | .claimed due => outbox.setScan i { scan with phase := .executed due false err } retries
      | _ => outbox
    | none => outbox
  | .finish i success err =>
    match outbox.scans[i]? with
    | some (scan, retries) =>
      match scan.phase with
      | .executing due _ => outbox.setScan i { scan with phase := .executed due success err } retries
      | _ => outbox
    | none => outbox
  | .write i =>
    match outbox.scans[i]? with
    | some (scan, retries) => outbox.write i scan retries
    | none => outbox
  | .crash i =>
    match outbox.scans[i]? with
    | some (scan, retries) => outbox.setScan i { scan with phase := .ended } retries
    | none => outbox
  | .readAck id ackToken =>
    match outbox.row id with
    | some row =>
      if Accepts row ackToken then { outbox with calls := outbox.calls ++ [.ack ⟨id, row⟩] } else outbox
    | none => outbox
  | .readRetry id =>
    match outbox.row id with
    | some row =>
      if Retryable row then { outbox with calls := outbox.calls ++ [.retry ⟨id, row⟩ outbox.clock] }
      else outbox
    | none => outbox
  | .writeCall k now =>
    match outbox.calls[k]? with
    | some (.ack due) => outbox.writeAck k due
    | some (.retry due since) =>
      if since ≤ now ∧ now ≤ outbox.clock then outbox.writeRetry k due now else outbox
    | _ => outbox
  | .enqueue request now => if now ≤ outbox.clock then outbox.enqueue request now else outbox

end Outbox

end Lionagi.Dispatch
