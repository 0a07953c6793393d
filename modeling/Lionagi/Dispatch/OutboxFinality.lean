import Lionagi.Dispatch.OutboxStep
import Lionagi.Library.Transition

/-!
# Acknowledged and delivered rows

No declared edge leaves the statuses `acked` and `delivered`, and every transition expects a status or
names the stored one, so a row that has one of them keeps it whatever scans and calls are under way. Keys
are looked up in the transaction of the insertion, so each has one row.
-/

namespace Lionagi.Dispatch

open StateDb OrderedDict Transition

/-! ## The table -/

/-- The outbox table with its keys and the unique index of the keys of deduplication. -/
structure Table where
  db : Db
  ids : List String
  listed : ∀ id row, db.select outboxTable id = some row → id ∈ ids
  unique : ∀ id id' row row' key, db.select outboxTable id = some row →
    db.select outboxTable id' = some row' → row "dedup_key" = Cell.text key →
    row' "dedup_key" = Cell.text key → id = id'

/-- No process has started. -/
def Table.start (table : Table) (clock : ℚ) : Outbox := ⟨clock, table.db, table.ids, [], [], {}⟩

def Outbox.run (outbox : Outbox) (ops : List OutboxOp) : Outbox := ops.foldl Outbox.exec outbox

def Outbox.status (outbox : Outbox) (id : String) : Option Cell := (outbox.row id).map fun row ↦ row "status"

/-- The statuses that are never left. -/
def finalStatuses : List String := ["acked", "delivered"]

/-! ## Final statuses -/

section Final

variable {outbox : Outbox} {id status : String} {row row' : Row}

theorem edgesFrom_final (h : status ∈ finalStatuses) : dispatchPolicy.edgesFrom (Cell.text status) = [] := by
  have hall : ∀ status ∈ finalStatuses, dispatchPolicy.edgesFrom (Cell.text status) = [] := by
    decide
  exact hall status h

/-- A request that expects a final status names it. -/
theorem toState_of_final {request : LegacyTransition} (h : request.Expects dispatchPolicy row)
    (hfinal : status ∈ finalStatuses) (hstatus : row "status" = Cell.text status) :
    request.toState = status := by
  obtain hsame | ⟨edge, hedge, -⟩ := h.edge
  · exact (Cell.text_inj.1 (hstatus.symm.trans hsame)).symm
  · rw [hstatus, edgesFrom_final hfinal] at hedge
    cases hedge

theorem Evolves.status_of_final (h : Evolves row row') (hfinal : status ∈ finalStatuses)
    (hstatus : row "status" = Cell.text status) : row' "status" = Cell.text status := by
  cases h with
  | moved request now hexpects heq =>
    have hpatch : "status" ∉ request.patch :=
      fun hmem ↦ absurd (hexpects.patch "status" hmem) (by decide)
    rw [heq, LegacyTransition.stored_status hpatch, toState_of_final hexpects hfinal hstatus]
  | kept hkept => exact (hkept "status" (by decide)).trans hstatus

theorem exec_status_of_final (op : OutboxOp) (hfinal : status ∈ finalStatuses)
    (h : outbox.status id = some (Cell.text status)) :
    (outbox.exec op).status id = some (Cell.text status) := by
  obtain ⟨row, hrow, hstatus⟩ := Option.map_eq_some_iff.1 h
  obtain ⟨row', hrow', hevolves⟩ := exec_row op hrow
  exact Option.map_eq_some_iff.2 ⟨row', hrow', hevolves.status_of_final hfinal hstatus⟩

/-- A row with a final status is not claimed. -/
theorem exec_claims_of_final (op : OutboxOp) (hfinal : status ∈ finalStatuses)
    (h : outbox.status id = some (Cell.text status)) :
    (outbox.exec op).journal.claims.count id = outbox.journal.claims.count id := by
  have hstep := exec_stepped outbox op
  generalize outbox.exec op = outbox' at hstep ⊢
  cases hstep with
  | @claim i retries scan due rest =>
    obtain ⟨row, hrow, hstatus⟩ := Option.map_eq_some_iff.1 h
    have houtcome : Outcome outbox.db ((scan.takeUp rest).claimRequest due) outbox.clock _ :=
      outcome_legacyTransition rfl
    change (ite _ _ _ : Journal).claims.count id = _
    cases houtcome with
    | moved found happlied hfound hexpects =>
      rw [if_pos happlied]
      have hne : due.id ≠ id := by
        rintro rfl
        cases hrow.symm.trans hfound
        have hto : "delivering" = status := toState_of_final hexpects hfinal hstatus
        exact absurd hfinal (hto ▸ by decide)
      simp [List.count_append, hne]
    | kept hkept => rw [if_neg (by rw [hkept]; exact Bool.false_ne_true)]
  | success | failure | writeAck | writeRetry =>
    change (ite _ _ _ : Journal).claims.count id = _
    split <;> rfl
  | _ => rfl

theorem run_of_final (ops : List OutboxOp) (hfinal : status ∈ finalStatuses)
    (h : outbox.status id = some (Cell.text status)) :
    (outbox.run ops).status id = some (Cell.text status) ∧
      (outbox.run ops).journal.claims.count id = outbox.journal.claims.count id := by
  induction ops generalizing outbox with
  | nil => exact ⟨h, rfl⟩
  | cons op ops ih =>
    obtain ⟨hstatus, hclaims⟩ := ih (exec_status_of_final op hfinal h)
    exact ⟨hstatus, hclaims.trans (exec_claims_of_final op hfinal h)⟩

end Final

/-! ## Keys and acknowledgements -/

section Keys

variable {outbox : Outbox} {id key : String} {row : Row}

theorem withKey_eq_some (h : outbox.withKey (some key) = some id) :
    ∃ row, outbox.row id = some row ∧ row "dedup_key" = Cell.text key := by
  have hfound := List.find?_some h
  obtain ⟨row, hrow, hkey⟩ := (Option.any_eq_true _ _).1 hfound
  exact ⟨row, hrow, of_decide_eq_true hkey⟩

theorem withKey_eq_none (h : outbox.withKey (some key) = none) (hid : id ∈ outbox.ids)
    (hrow : outbox.row id = some row) : row "dedup_key" ≠ Cell.text key := by
  intro hkey
  have hnone := List.find?_eq_none.1 h id hid
  rw [hrow, Option.any_some, decide_eq_true hkey] at hnone
  exact hnone rfl

theorem EnqueueRequest.row_key (request : EnqueueRequest) (now : ℚ) :
    request.row now "dedup_key" = request.dedupKey.map Scalar.text := by
  simp [EnqueueRequest.row, Row.assign, Function.update]

/-- The table is listed with one row for each key, and the journal tells of rows that are there. -/
structure Traced (outbox : Outbox) : Prop where
  listed : ∀ id row, outbox.row id = some row → id ∈ outbox.ids
  unique : ∀ id id' row row' key, outbox.row id = some row → outbox.row id' = some row' →
    row "dedup_key" = Cell.text key → row' "dedup_key" = Cell.text key → id = id'
  enqueued : ∀ key id, (some key, id) ∈ outbox.journal.enqueued →
    ∃ row, outbox.row id = some row ∧ row "dedup_key" = Cell.text key
  acked : ∀ id ∈ outbox.journal.acked, outbox.status id = some (Cell.text "acked")

theorem Table.traced (table : Table) (clock : ℚ) : Traced (table.start clock) where
  listed := table.listed
  unique := table.unique
  enqueued _ _ h := absurd h List.not_mem_nil
  acked _ h := absurd h List.not_mem_nil

variable (op : OutboxOp)

/-- A row keeps its key. -/
theorem exec_row_key (hrow : outbox.row id = some row) (hkey : row "dedup_key" = Cell.text key) :
    ∃ row', (outbox.exec op).row id = some row' ∧ row' "dedup_key" = Cell.text key := by
  obtain ⟨row', hrow', hevolves⟩ := exec_row op hrow
  exact ⟨row', hrow', (hevolves.column (by decide)).trans hkey⟩

theorem exec_ids : outbox.ids ⊆ (outbox.exec op).ids := by
  have hstep := exec_stepped outbox op
  generalize outbox.exec op = outbox' at hstep ⊢
  cases hstep with
  | insert => exact List.subset_append_left _ _
  | _ => exact List.Subset.refl _

theorem Traced.exec_listed (h : Traced outbox) (op : OutboxOp)
    (hrow : (outbox.exec op).row id = some row) : id ∈ (outbox.exec op).ids := by
  cases hold : outbox.row id with
  | some old => exact exec_ids op (h.listed id old hold)
  | none =>
    obtain ⟨request, now, -, hexec, hid, -⟩ := exec_row_of_none op hold hrow
    rw [hexec, hid]
    exact List.mem_append_right _ List.mem_cons_self

/-- A key that a row has after an operation was there before, or was not there and is inserted. -/
theorem Traced.key_cases (h : Traced outbox) (op : OutboxOp) (hrow : (outbox.exec op).row id = some row)
    (hkey : row "dedup_key" = Cell.text key) :
    (∃ old, outbox.row id = some old ∧ old "dedup_key" = Cell.text key) ∨
      ∃ request now, outbox.exec op = outbox.insert request now ∧ id = request.id ∧
        ∀ other old, outbox.row other = some old → old "dedup_key" ≠ Cell.text key := by
  cases hold : outbox.row id with
  | some old =>
    obtain ⟨row', hrow', hevolves⟩ := exec_row op hold
    cases hrow'.symm.trans hrow
    exact .inl ⟨old, rfl, (hevolves.column (by decide)).symm.trans hkey⟩
  | none =>
    obtain ⟨request, now, hwithKey, hexec, hid, rfl⟩ := exec_row_of_none op hold hrow
    refine .inr ⟨request, now, hexec, hid, fun other old hother ↦ ?_⟩
    rw [request.row_key] at hkey
    obtain ⟨_, hsome, htext⟩ := Option.map_eq_some_iff.1 hkey
    cases htext
    rw [hsome] at hwithKey
    exact withKey_eq_none hwithKey (h.listed other old hother) hother

theorem Traced.exec_unique (h : Traced outbox) (op : OutboxOp) {id' : String} {row' : Row}
    (hrow : (outbox.exec op).row id = some row) (hrow' : (outbox.exec op).row id' = some row')
    (hkey : row "dedup_key" = Cell.text key) (hkey' : row' "dedup_key" = Cell.text key) : id = id' := by
  obtain ⟨old, hold, holdKey⟩ | ⟨request, now, hexec, hid, hnone⟩ := h.key_cases op hrow hkey
  · obtain ⟨old', hold', holdKey'⟩ | ⟨request, now, -, -, hnone⟩ := h.key_cases op hrow' hkey'
    · exact h.unique id id' old old' key hold hold' holdKey holdKey'
    · exact absurd holdKey (hnone id old hold)
  · obtain ⟨old', hold', holdKey'⟩ | ⟨request', now', hexec', hid', -⟩ := h.key_cases op hrow' hkey'
    · exact absurd holdKey' (hnone id' old' hold')
    · have hids : outbox.ids ++ [request.id] = outbox.ids ++ [request'.id] :=
        congrArg Outbox.ids (hexec.symm.trans hexec')
      rw [hid, hid']
      exact List.singleton_inj.1 (List.append_cancel_left hids)

/-- An enqueue that returns has found or inserted the row with its key. -/
theorem exec_enqueued (hmem : (some key, id) ∈ (outbox.exec op).journal.enqueued) :
    (some key, id) ∈ outbox.journal.enqueued ∨
      ∃ row, (outbox.exec op).row id = some row ∧ row "dedup_key" = Cell.text key := by
  have hstep := exec_stepped outbox op
  generalize outbox.exec op = outbox' at hstep hmem ⊢
  cases hstep with
  | @existing request now found hkey =>
    obtain hold | hnew := List.mem_append.1 hmem
    · exact .inl hold
    · obtain ⟨hrequest, rfl⟩ := Prod.mk.inj (List.mem_singleton.1 hnew)
      rw [← hrequest] at hkey
      exact .inr (withKey_eq_some hkey)
  | @insert request now =>
    obtain hold | hnew := List.mem_append.1 hmem
    · exact .inl hold
    · obtain ⟨hkey, rfl⟩ := Prod.mk.inj (List.mem_singleton.1 hnew)
      refine .inr ⟨_, row_insert_self, ?_⟩
      rw [request.row_key, ← hkey]
      rfl
  | claim | success | failure | writeAck | writeRetry =>
    change _ ∈ (ite _ _ _ : Journal).enqueued at hmem
    split at hmem <;> exact .inl hmem
  | _ => exact .inl hmem

/-- An acknowledgement that returns True has written the status. -/
theorem exec_acked (hmem : id ∈ (outbox.exec op).journal.acked) :
    id ∈ outbox.journal.acked ∨ (outbox.exec op).status id = some (Cell.text "acked") := by
  have hstep := exec_stepped outbox op
  generalize outbox.exec op = outbox' at hstep hmem ⊢
  cases hstep with
  | @writeAck k now due =>
    have houtcome : Outcome outbox.db (ackRequest due) outbox.clock _ := outcome_legacyTransition rfl
    change id ∈ (ite _ _ _ : Journal).acked at hmem
    cases houtcome with
    | moved found happlied _ _ hstored =>
      rw [if_pos happlied] at hmem
      obtain hold | hnew := List.mem_append.1 hmem
      · exact .inl hold
      · cases List.mem_singleton.1 hnew
        refine .inr (Option.map_eq_some_iff.2 ⟨_, hstored, ?_⟩)
        exact LegacyTransition.stored_status List.not_mem_nil
    | kept hkept =>
      rw [if_neg (by rw [hkept]; exact Bool.false_ne_true)] at hmem
      exact .inl hmem
  | claim | success | failure | writeRetry =>
    change id ∈ (ite _ _ _ : Journal).acked at hmem
    split at hmem <;> exact .inl hmem
  | _ => exact .inl hmem

theorem Traced.exec (h : Traced outbox) (op : OutboxOp) : Traced (outbox.exec op) where
  listed _ _ hrow := h.exec_listed op hrow
  unique _ _ _ _ _ hrow hrow' hkey hkey' := h.exec_unique op hrow hrow' hkey hkey'
  enqueued key id hmem := by
    obtain hold | hnew := exec_enqueued op hmem
    · obtain ⟨row, hrow, hkey⟩ := h.enqueued key id hold
      exact exec_row_key op hrow hkey
    · exact hnew
  acked id hmem := by
    obtain hold | hnew := exec_acked op hmem
    · exact exec_status_of_final op (by decide) (h.acked id hold)
    · exact hnew

end Keys

end Lionagi.Dispatch
