import Lionagi.Dispatch.Outbox
import Lionagi.StateDb.LifecycleHistory

/-!
# The steps of the outbox

What a transition of the outbox does is said once: it is applied and its row stored, or the table is left.
From this every operation is seen to leave the rows, move one row along the policy, write columns that no
transition is guarded by, or insert a row.
-/

namespace Lionagi.Dispatch

open StateDb Checks OrderedDict

theorem get?_dispatch : defaultRegistry.byEntityType.get? "dispatch" = some dispatchPolicy := by
  rfl

section Result

variable {db : Db} {request : LegacyTransition} {now : ℚ}

/-- A transition of a dispatch is applied to the row it expects, or nothing is written. -/
inductive Outcome (db : Db) (request : LegacyTransition) (now : ℚ)
    (result : Db × Except LifecycleError TransitionOutcome) : Prop
  | moved (row : Row) : isApplied result.2 = true → db.select outboxTable request.entityId = some row →
      request.Expects dispatchPolicy row →
      (result.1.select outboxTable request.entityId = some (request.stored row now)) →
      (∀ id, id ≠ request.entityId → result.1.select outboxTable id = db.select outboxTable id) →
      Outcome db request now result
  | kept : isApplied result.2 = false → result.1 = db → Outcome db request now result

theorem select_of_rows {db' : Db} (h : db'.rows = db.rows) (table id : String) :
    db'.select table id = db.select table id := by
  rw [Db.select, Db.select, h]

theorem outcome_legacyTransition (htype : request.entityType = "dispatch") :
    Outcome db request now (legacyTransition db request now) := by
  have hpolicy : defaultRegistry.byEntityType.get? request.entityType = some dispatchPolicy :=
    htype ▸ get?_dispatch
  have hsession : request.entityType ≠ "session" := htype ▸ by decide
  have hresult : request.Result dispatchPolicy now db (legacyTransition db request now) :=
    legacyTransition_result hpolicy rfl hsession
  generalize legacyTransition db request now = result at hresult
  cases hresult with
  | @moved db' outcome row hrow happlied hmoves =>
    have hid : request.stored row now "id" = Cell.text request.entityId := by
      have hpatch : "id" ∉ request.patch :=
        fun hmem ↦ absurd (hmoves.expects.patch "id" hmem) (by decide)
      rw [LegacyTransition.stored_column (by decide), (get?_eq_none_iff _ _).2 hpatch]
      exact Db.select_id hrow
    refine .moved row (decide_eq_true happlied) hrow hmoves.expects ?_ fun id hne ↦ ?_
    · exact (select_of_rows hmoves.rows _ _).trans (Db.select_put_self hid)
    · exact (select_of_rows hmoves.rows _ _).trans (Db.select_put_of_ne fun heq ↦ hne heq.2)
  | conflict hconflict =>
    refine .kept ?_ rfl
    rw [isApplied, hconflict]
    rfl
  | raised => exact .kept rfl rfl

end Result

/-! ## What follows a transition -/

section Resume

variable {scan applied : Scan} {result : Except LifecycleError TransitionOutcome}

theorem resume_of_applied (h : isApplied result = true) : scan.resume result applied = applied := by
  unfold isApplied at h
  split at h
  · next outcome =>
    have hresult : outcome.result = .applied := of_decide_eq_true h
    simp only [Scan.resume, hresult, if_true]
  · cases h

/-- After a transition that was not applied the scan holds no row. -/
theorem resume_of_not_applied (h : isApplied result = false) :
    (scan.resume result applied).phase.held = none ∧ (scan.resume result applied).rest = scan.rest ∧
      (scan.resume result applied).now = scan.now := by
  unfold isApplied at h
  split at h
  · next outcome =>
    have hresult : outcome.result ≠ .applied := of_decide_eq_false h
    simp only [Scan.resume, hresult, if_false]
    exact ⟨rfl, rfl, rfl⟩
  · unfold Scan.resume
    split
    · next heq => cases heq
    · exact ⟨rfl, rfl, rfl⟩
    · exact ⟨rfl, rfl, rfl⟩

end Resume

/-! ## The operations one by one -/

section Stepped

variable (outbox : Outbox)

/-- The ways in which an operation changes the outbox. -/
inductive Stepped : OutboxOp → Outbox → Prop
  | idle {op : OutboxOp} : Stepped op outbox
  | tick {seconds : ℚ} : Stepped (.tick seconds) { outbox with clock := outbox.clock + seconds }
  | start {actor : ActorRecord} : Stepped (.start actor)
      { outbox with scans := outbox.scans ++ [({ now := outbox.clock, actor := actor }, 0)] }
  | query {i retries : ℕ} {ids : List String} {scan : Scan} : outbox.scans[i]? = some (scan, retries) →
      scan.phase = .started → ids.Perm (outbox.dueIds scan.now) →
      Stepped (.query i ids)
        (outbox.setScan i { scan with rest := outbox.selected ids, phase := .scanning } 0)
  | through {i retries : ℕ} {scan : Scan} : outbox.scans[i]? = some (scan, retries) →
      scan.phase = .scanning → scan.rest = [] →
      Stepped (.deliver i) (outbox.setScan i { scan with phase := .ended } 0)
  | expire {i retries : ℕ} {scan : Scan} {due : DueRow} {rest : List DueRow} :
      outbox.scans[i]? = some (scan, retries) → scan.phase = .scanning → scan.rest = due :: rest →
      AtMost (due.row "expires_at") scan.now →
      Stepped (.deliver i) (outbox.expire i (scan.takeUp rest) due)
  | claim {i retries : ℕ} {scan : Scan} {due : DueRow} {rest : List DueRow} :
      outbox.scans[i]? = some (scan, retries) → scan.phase = .scanning → scan.rest = due :: rest →
      ¬ AtMost (due.row "expires_at") scan.now →
      Stepped (.deliver i) (outbox.claim i (scan.takeUp rest) due)
  | execute {i retries : ℕ} {scan : Scan} {due : DueRow} : outbox.scans[i]? = some (scan, retries) →
      scan.phase = .claimed due → Stepped (.execute i) (outbox.execute i scan due retries)
  | skip {i retries : ℕ} {scan : Scan} {due : DueRow} {err : String} :
      outbox.scans[i]? = some (scan, retries) → scan.phase = .claimed due →
      Stepped (.skip i err) (outbox.setScan i { scan with phase := .executed due false err } retries)
  | finish {i retries : ℕ} {scan : Scan} {due : DueRow} {since : ℚ} {success : Bool} {err : String} :
      outbox.scans[i]? = some (scan, retries) → scan.phase = .executing due since →
      Stepped (.finish i success err)
        (outbox.setScan i { scan with phase := .executed due success err } retries)
  | success {i retries : ℕ} {scan : Scan} {due : DueRow} {err : String} :
      outbox.scans[i]? = some (scan, retries) → scan.phase = .executed due true err →
      Stepped (.write i)
        (outbox.settle i scan (scan.succeeded due) due (scan.successRequest due) retries)
  | note {i retries : ℕ} {scan : Scan} {due : DueRow} {err : String} :
      outbox.scans[i]? = some (scan, retries) → scan.phase = .executed due false err →
      Stepped (.write i) (outbox.note i scan due err retries)
  | failure {i retries : ℕ} {scan : Scan} {due : DueRow} {err : String} :
      outbox.scans[i]? = some (scan, retries) → scan.phase = .noted due err →
      Stepped (.write i)
        (outbox.settle i scan (scan.failed due) due (scan.failureRequest due err) retries)
  | postpone {i retries : ℕ} {scan : Scan} {due : DueRow} : outbox.scans[i]? = some (scan, retries) →
      scan.phase = .requeued due → Stepped (.write i) (outbox.postpone i scan due retries)
  | crash {i retries : ℕ} {scan : Scan} : outbox.scans[i]? = some (scan, retries) →
      Stepped (.crash i) (outbox.setScan i { scan with phase := .ended } retries)
  | readAck {id ackToken : String} {row : Row} : outbox.row id = some row → Accepts row ackToken →
      Stepped (.readAck id ackToken) { outbox with calls := outbox.calls ++ [.ack ⟨id, row⟩] }
  | readRetry {id : String} {row : Row} : outbox.row id = some row → Retryable row →
      Stepped (.readRetry id) { outbox with calls := outbox.calls ++ [.retry ⟨id, row⟩ outbox.clock] }
  | writeAck {k : ℕ} {now : ℚ} {due : DueRow} : outbox.calls[k]? = some (.ack due) →
      Stepped (.writeCall k now) (outbox.writeAck k due)
  | writeRetry {k : ℕ} {now since : ℚ} {due : DueRow} : outbox.calls[k]? = some (.retry due since) →
      Stepped (.writeCall k now) (outbox.writeRetry k due now)
  | existing {request : EnqueueRequest} {now : ℚ} {id : String} :
      outbox.withKey request.dedupKey = some id →
      Stepped (.enqueue request now) { outbox with journal := { outbox.journal with
        enqueued := outbox.journal.enqueued ++ [(request.dedupKey, id)] } }
  | insert {request : EnqueueRequest} {now : ℚ} : outbox.withKey request.dedupKey = none →
      outbox.row request.id = none → Stepped (.enqueue request now) (outbox.insert request now)

theorem exec_stepped (op : OutboxOp) : Stepped outbox op (outbox.exec op) := by
  cases op with
  | tick seconds =>
    rw [Outbox.exec]
    split
    · exact .tick
    · exact .idle
  | start actor => exact .start
  | query i ids =>
    rw [Outbox.exec]
    split
    · next scan retries hscan =>
      split
      · next hphase =>
        unfold Outbox.query
        split
        · next hperm => exact .query hscan hphase hperm
        · exact .idle
      · exact .idle
    · exact .idle
  | deliver i =>
    rw [Outbox.exec]
    split
    · next scan retries hscan =>
      split
      · next hphase =>
        unfold Outbox.deliver
        split
        · next hrest => exact .through hscan hphase hrest
        · next due rest hrest =>
          split
          · next hexpired => exact .expire hscan hphase hrest hexpired
          · next hexpired => exact .claim hscan hphase hrest hexpired
      · exact .idle
    · exact .idle
  | execute i =>
    rw [Outbox.exec]
    split
    · next scan retries hscan =>
      split
      · next due hphase => exact .execute hscan hphase
      · exact .idle
    · exact .idle
  | skip i err =>
    rw [Outbox.exec]
    split
    · next scan retries hscan =>
      split
      · next due hphase => exact .skip hscan hphase
      · exact .idle
    · exact .idle
  | finish i success err =>
    rw [Outbox.exec]
    split
    · next scan retries hscan =>
      split
      · next due since hphase => exact .finish hscan hphase
      · exact .idle
    · exact .idle
  | write i =>
    rw [Outbox.exec]
    split
    · next scan retries hscan =>
      unfold Outbox.write
      split
      · next due err hphase => exact .success hscan hphase
      · next due err hphase => exact .note hscan hphase
      · next due err hphase => exact .failure hscan hphase
      · next due hphase => exact .postpone hscan hphase
      · exact .idle
    · exact .idle
  | crash i =>
    rw [Outbox.exec]
    split
    · next scan retries hscan => exact .crash hscan
    · exact .idle
  | readAck id ackToken =>
    rw [Outbox.exec]
    split
    · next row hrow =>
      split
      · next haccepts => exact .readAck hrow haccepts
      · exact .idle
    · exact .idle
  | readRetry id =>
    rw [Outbox.exec]
    split
    · next row hrow =>
      split
      · next hretryable => exact .readRetry hrow hretryable
      · exact .idle
    · exact .idle
  | writeCall k now =>
    rw [Outbox.exec]
    split
    · next due hcall => exact .writeAck hcall
    · next due since hcall =>
      split
      · exact .writeRetry hcall
      · exact .idle
    · exact .idle
  | enqueue request now =>
    rw [Outbox.exec]
    split
    · unfold Outbox.enqueue
      split
      · next id hkey => exact .existing hkey
      · next hkey =>
        split
        · next hnew => exact .insert hkey hnew
        · exact .idle
    · exact .idle

end Stepped

/-! ## The requests of an outcome -/

section Requests

variable {scan : Scan} {due : DueRow} {err : String}

/-- The outcome of a successful command is written to the row that was delivered and leaves its attempt. -/
theorem successRequest_entity : (scan.successRequest due).entityType = "dispatch" ∧
    (scan.successRequest due).entityId = due.id ∧ "attempt" ∉ (scan.successRequest due).patch := by
  unfold Scan.successRequest
  split
  · exact ⟨rfl, rfl, List.not_mem_nil⟩
  · split
    · exact ⟨rfl, rfl, by simp [Scan.repeatRequest]⟩
    · exact ⟨rfl, rfl, List.not_mem_nil⟩

theorem failureRequest_entity : (scan.failureRequest due err).entityType = "dispatch" ∧
    (scan.failureRequest due err).entityId = due.id ∧ "attempt" ∉ (scan.failureRequest due err).patch := by
  unfold Scan.failureRequest
  split
  · exact ⟨rfl, rfl, List.not_mem_nil⟩
  · exact ⟨rfl, rfl, List.not_mem_nil⟩

end Requests

/-! ## What becomes of a row -/

section Rows

variable {outbox : Outbox} {id : String} {row row' : Row}

/-- The columns that are written without a transition. -/
def touchedColumns : List String := ["last_error", "next_attempt_at", "updated_at"]

/-- A row is moved along the policy, or keeps all the columns but those that no transition is guarded
by. -/
inductive Evolves (row row' : Row) : Prop
  | moved (request : LegacyTransition) (now : ℚ) : request.Expects dispatchPolicy row →
      row' = request.stored row now → Evolves row row'
  | kept : (∀ column ∉ touchedColumns, row' column = row column) → Evolves row row'

theorem Evolves.refl (row : Row) : Evolves row row := .kept fun _ _ ↦ rfl

/-- Only these columns of a row ever change. -/
theorem Evolves.column (h : Evolves row row') {column : String}
    (hcolumn : column ∉ "status" :: "attempt" :: touchedColumns) : row' column = row column := by
  simp only [touchedColumns, List.mem_cons, List.not_mem_nil, or_false, not_or] at hcolumn
  cases h with
  | moved request now hexpects heq =>
    have hpatch : column ∉ request.patch := by
      intro hmem
      have hfield := hexpects.patch column hmem
      simp only [dispatchPolicy, List.mem_cons, List.not_mem_nil, or_false] at hfield
      tauto
    rw [heq, LegacyTransition.stored_column (by simp [hcolumn]), (get?_eq_none_iff _ _).2 hpatch,
      Option.getD_none]
  | kept hkept => exact hkept column (by simp [touchedColumns, hcolumn])

variable {now : ℚ}

/-- A transition that is applied or not leaves a row that evolves. -/
theorem Outcome.evolves {request : LegacyTransition} {result : Db × Except LifecycleError TransitionOutcome}
    (h : Outcome outbox.db request now result) (hrow : outbox.row id = some row) :
    ∃ row', result.1.select outboxTable id = some row' ∧ Evolves row row' := by
  cases h with
  | moved found _ hfound hexpects hstored hothers =>
    by_cases hid : id = request.entityId
    · cases (hid ▸ hrow).symm.trans hfound
      exact ⟨_, hid ▸ hstored, .moved request now hexpects rfl⟩
    · exact ⟨row, (hothers id hid).trans hrow, .refl row⟩
  | kept _ hsame => exact ⟨row, (congrArg (fun db ↦ db.select outboxTable id) hsame).trans hrow, .refl row⟩

theorem update_evolves {key : String} {clauses : List (String × Cell)} (hrow : outbox.row id = some row)
    (hclauses : ∀ column ∈ clauses.map Prod.fst, column ∈ touchedColumns) :
    ∃ row', (outbox.db.update outboxTable key clauses).select outboxTable id = some row' ∧
      Evolves row row' := by
  by_cases hid : id = key
  · subst hid
    have hkey : "id" ∉ clauses.map Prod.fst := fun hmem ↦ absurd (hclauses "id" hmem) (by decide)
    refine ⟨_, select_update_self hrow hkey, .kept fun column hcolumn ↦ ?_⟩
    exact Row.assign_of_not_mem fun hmem ↦ hcolumn (hclauses column hmem)
  · exact ⟨row, (select_update_of_ne fun heq ↦ hid heq.2).trans hrow, .refl row⟩

variable {request : EnqueueRequest}

theorem insert_rows : (outbox.insert request now).db.rows =
    (outbox.db.put outboxTable request.id (some (request.row now))).rows := rfl

theorem row_insert_self : (outbox.insert request now).row request.id = some (request.row now) :=
  (select_of_rows insert_rows _ _).trans (Db.select_put_self (request.row_id now))

theorem row_insert_of_ne (h : id ≠ request.id) : (outbox.insert request now).row id = outbox.row id :=
  (select_of_rows insert_rows _ _).trans (Db.select_put_of_ne fun heq ↦ h heq.2)

/-- No operation removes a row, and every row evolves. -/
theorem exec_row (op : OutboxOp) (hrow : outbox.row id = some row) :
    ∃ row', (outbox.exec op).row id = some row' ∧ Evolves row row' := by
  have hsame : ∃ row', outbox.row id = some row' ∧ Evolves row row' := ⟨row, hrow, .refl row⟩
  have hstep := exec_stepped outbox op
  generalize outbox.exec op = outbox' at hstep ⊢
  cases hstep with
  | idle | tick | start | query | through | execute | skip | finish | crash | readAck | readRetry |
      existing => exact hsame
  | expire | claim | writeAck | writeRetry => exact (outcome_legacyTransition rfl).evolves hrow
  | success => exact (outcome_legacyTransition successRequest_entity.1).evolves hrow
  | failure => exact (outcome_legacyTransition failureRequest_entity.1).evolves hrow
  | note => exact update_evolves hrow (by simp [touchedColumns])
  | postpone => exact update_evolves hrow (by simp [touchedColumns])
  | insert _ hnew =>
    refine ⟨row, ?_, .refl row⟩
    rw [row_insert_of_ne, hrow]
    rintro rfl
    cases hnew.symm.trans hrow

/-- A row that appears was inserted. -/
theorem exec_row_of_none (op : OutboxOp) (hnone : outbox.row id = none)
    (hrow : (outbox.exec op).row id = some row) :
    ∃ request now, outbox.withKey request.dedupKey = none ∧ outbox.exec op = outbox.insert request now ∧
      id = request.id ∧ row = request.row now := by
  have hstep := exec_stepped outbox op
  generalize outbox.exec op = outbox' at hstep hrow ⊢
  have houtcome : ∀ {request now result}, Outcome outbox.db request now result →
      result.1.select outboxTable id = none := by
    intro request now result h
    cases h with
    | moved found _ hfound _ _ hothers =>
      rw [hothers id]
      · exact hnone
      · rintro rfl
        cases hnone.symm.trans hfound
    | kept _ hsame => exact (congrArg (fun db ↦ db.select outboxTable id) hsame).trans hnone
  have hupdate : ∀ {key clauses}, (outbox.db.update outboxTable key clauses).select outboxTable id = none := by
    intro key clauses
    rw [select_eq_none_iff, update_rows_eq_none_iff, ← select_eq_none_iff]
    exact hnone
  cases hstep with
  | idle | tick | start | query | through | execute | skip | finish | crash | readAck | readRetry |
      existing => cases hnone.symm.trans hrow
  | expire | claim | writeAck | writeRetry =>
    cases (houtcome (outcome_legacyTransition rfl)).symm.trans hrow
  | success => cases (houtcome (outcome_legacyTransition successRequest_entity.1)).symm.trans hrow
  | failure => cases (houtcome (outcome_legacyTransition failureRequest_entity.1)).symm.trans hrow
  | note => cases hupdate.symm.trans hrow
  | postpone => cases hupdate.symm.trans hrow
  | @insert request now hkey hnew =>
    by_cases hid : id = request.id
    · rw [hid, row_insert_self] at hrow
      exact ⟨request, now, hkey, rfl, hid, (Option.some.inj hrow).symm⟩
    · rw [row_insert_of_ne hid, hnone] at hrow
      cases hrow

end Rows

end Lionagi.Dispatch
