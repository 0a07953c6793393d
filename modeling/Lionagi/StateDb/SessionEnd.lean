import Lionagi.Library.Transition
import Lionagi.StateDb.LifecycleExit
import Lionagi.StateDb.LifecycleFinality
import Lionagi.StateDb.ManagedEntity

/-!
# The end of a session

A session that reaches a terminal status has its end, the flag of a guessed end and its duration settled
together from the stored row and the patch. The relation between the three is followed over a run of
lifecycle calls. Same-status writes store their patch as it is, a reopened session keeps an old end, and an
override between terminal statuses may measure an end of its own.
-/

namespace Lionagi.StateDb

open Checks OrderedDict Transition

/-! ## The run of one session -/

/-- The database, and what the calls on the session supplied: the ends, the durations for the end that is
stored, and the time of the write that last moved the session out of a non-terminal status. -/
structure SessionLog where
  db : Db
  suppliedEnds : List Cell
  suppliedDurations : List Cell
  movedAt : Option ℚ

namespace SessionLog

variable (sid : String) (log : SessionLog)

def row : Option Row := log.db.select "sessions" sid

/-- A column of the session, NULL where there is no row. -/
def column (name : String) : Cell := (log.row sid).bind fun row ↦ row name

/-- The column of the flag is NOT NULL, and a transaction that violates it is rolled back. -/
def keepNotNull (db db' : Db) : Db :=
  if (db'.select "sessions" sid).any fun row ↦ decide (row "ended_at_is_approximate" = none) then db
  else db'

/-- A transition of the session was committed. -/
def Wrote (db' : Db) : Prop := db'.historyOf "session" sid ≠ log.db.historyOf "session" sid

instance (db' : Db) : Decidable (log.Wrote sid db') :=
  inferInstanceAs (Decidable (db'.historyOf "session" sid ≠ log.db.historyOf "session" sid))

/-- What the log knows after a call that leaves the database `db'`. -/
def after (db' : Db) (command : TransitionCommand) (now : ℚ) : SessionLog :=
  if log.Wrote sid db' then
    { db := db'
      suppliedEnds := (command.patch.get? "ended_at").toList.filter (· ≠ none) ++ log.suppliedEnds
      suppliedDurations := (command.patch.get? "duration_ms").toList ++
        if (db'.select "sessions" sid).map (· "ended_at") = (log.row sid).map (· "ended_at") then
          log.suppliedDurations
        else []
      movedAt :=
        if (db'.select "sessions" sid).any (fun row ↦ decide (sessionPolicy.isTerminal (row "status"))) ∧
            ¬ sessionPolicy.isTerminal (log.column sid "status") then some now
        else log.movedAt }
  else { log with db := db' }

/-- One lifecycle call at a point of time. -/
def exec (validReasonCodes : List String) (step : TransitionOp × ℚ) : SessionLog :=
  log.after sid (keepNotNull sid log.db (step.1.exec defaultRegistry validReasonCodes log.db step.2))
    step.1.command step.2

end SessionLog

/-- The duration between two ends that are numbers. -/
def spanMs : Cell → Cell → Cell
  | some (.num startedAt), some (.num endedAt) => Cell.num (max 0 ((endedAt - startedAt) * 1000))
  | _, _ => none

theorem spanMs_of_ne {startedAt : Cell} (h : ∀ value, startedAt ≠ Cell.num value) (endedAt : Cell) :
    spanMs startedAt endedAt = none := by
  unfold spanMs
  split
  · next value _ => exact absurd rfl (h value)
  · rfl

/-- The end of a terminal session is known, it has no duration beside an approximate end and otherwise one
that was supplied for this end or follows from it, and an end that was not supplied was measured when the
session last left a non-terminal status. -/
structure EndSettled (log : SessionLog) (row : Row) : Prop where
  ended : row "ended_at" ≠ none
  approximate : (row "ended_at_is_approximate").truthy = true → row "duration_ms" = none
  measured : (row "ended_at_is_approximate").truthy = false →
    row "duration_ms" ∈ log.suppliedDurations ∨
      row "duration_ms" = spanMs (row "started_at") (row "ended_at")
  moved : row "ended_at" ∈ log.suppliedEnds ∨ row "ended_at" = log.movedAt.map Scalar.num

/-- Whenever the session is terminal its end is settled. -/
def SessionLog.Settled (sid : String) (log : SessionLog) : Prop :=
  ∀ row, log.row sid = some row → sessionPolicy.isTerminal (row "status") → EndSettled log row

/-! ## The condition -/

/-- The call writes the row it reads. -/
structure TransitionOp.Writes (op : TransitionOp) (row : Row) : Prop where
  status : ¬ op.command.StatusDiffers row
  permitted : ∃ override, op.command.Permits sessionPolicy (op.options sessionPolicy) (row "status") override
  version : ¬ op.command.VersionDiffers row
  guard : ¬ (op.options sessionPolicy).GuardDiffers row

/-- A same-status write to a terminal session assigns none of the columns of the end. -/
def KeepsEnd (row : Row) (command : TransitionCommand) : Prop :=
  sessionPolicy.isTerminal (row "status") → command.sameStatus (row "status") →
    ∀ column ∈ endColumns, column ∉ command.patch

/-- A write that takes a running session to a terminal status measures the end, or the end it keeps was
supplied. -/
def EndsAnew (log : SessionLog) (row : Row) (command : TransitionCommand) : Prop :=
  ¬ sessionPolicy.isTerminal (row "status") → command.toStatus ∈ sessionTerminal →
    MeasuredHere command.patch row ∨ "ended_at" ∈ command.patch ∨ row "ended_at" ∈ log.suppliedEnds

/-- A write from one terminal status to another measures no end. -/
def MeasuresOnce (row : Row) (command : TransitionCommand) : Prop :=
  sessionPolicy.isTerminal (row "status") → command.toStatus ∈ sessionTerminal →
    ¬ command.sameStatus (row "status") → ¬ MeasuredHere command.patch row

/-- A write that ends a session without a start gives the duration or makes the end approximate, finds no
duration, or keeps the end that the stored one was supplied for. -/
def HasDuration (log : SessionLog) (row : Row) (command : TransitionCommand) (now : ℚ) : Prop :=
  command.toStatus ∈ sessionTerminal → ¬ command.sameStatus (row "status") →
    (∃ startedAt, row "started_at" = Cell.num startedAt) ∨ "duration_ms" ∈ command.patch ∨
      approximateEnd command.patch row now = true ∨ row "duration_ms" = none ∨
      row "duration_ms" ∈ log.suppliedDurations ∧ endedAt command.patch row now = row "ended_at"

/-- What is asked of a call that writes the session. -/
def SettlesEnd (sid : String) (log : SessionLog) (step : TransitionOp × ℚ) : Prop :=
  step.1.command.entityType = "session" → step.1.command.entityId = sid →
    ∀ row, log.row sid = some row → step.1.Writes row →
      KeepsEnd row step.1.command ∧ EndsAnew log row step.1.command ∧
        MeasuresOnce row step.1.command ∧ HasDuration log row step.1.command step.2

/-! ## The columns of the end -/

section EndColumns

variable {patch patch' : OrderedDict String Cell} {row : Row} {now : ℚ}

theorem get?_settleEnd_ended :
    (settleEnd patch row now).get? "ended_at" = some (endedAt patch row now) := by
  unfold settleEnd
  split
  · rw [get?_set_of_ne _ (by decide), get?_set_self]
  · next hmeasured =>
    rw [get?_setdefault_of_ne _ (by decide), get?_setdefault_self, endedAt, if_neg hmeasured, givenEnd]
    cases patch.get? "ended_at" with
    | none => rfl
    | some ended => rfl

theorem get?_settleEnd_flag : ∃ flag, (settleEnd patch row now).get? "ended_at_is_approximate" = some flag ∧
    flag.truthy = approximateEnd patch row now := by
  have hsome : ∃ flag, (settleEnd patch row now).get? "ended_at_is_approximate" = some flag := by
    unfold settleEnd
    split
    · exact ⟨_, get?_set_self _ _ _⟩
    · exact ⟨_, get?_setdefault_self _ _ _⟩
  obtain ⟨flag, hflag⟩ := hsome
  refine ⟨flag, hflag, ?_⟩
  rw [approximateEnd, hflag, Option.getD_some]

theorem get?_settleEnd_duration :
    (settleEnd patch row now).get? "duration_ms" = patch.get? "duration_ms" := by
  unfold settleEnd
  split
  · rw [get?_set_of_ne _ (by decide), get?_set_of_ne _ (by decide)]
  · rw [get?_setdefault_of_ne _ (by decide), get?_setdefault_of_ne _ (by decide)]

/-- What the patch of a session that ends says of the duration. -/
inductive DurationOf (patch : OrderedDict String Cell) (row : Row) (now : ℚ)
    (patch' : OrderedDict String Cell) : Prop
  | cleared : approximateEnd patch row now = true → patch'.get? "duration_ms" = some none → DurationOf ..
  | given (duration : Cell) : approximateEnd patch row now = false →
      patch.get? "duration_ms" = some duration → patch'.get? "duration_ms" = some duration →
      DurationOf ..
  | derived : approximateEnd patch row now = false →
      patch'.get? "duration_ms" = some (spanMs (row "started_at") (endedAt patch row now)) →
      DurationOf ..
  | unknown : approximateEnd patch row now = false → "duration_ms" ∉ patch →
      (∀ startedAt, row "started_at" ≠ Cell.num startedAt) → patch'.get? "duration_ms" = none →
      DurationOf ..

theorem durationOf_sessionEndPatch (h : sessionEndPatch patch row now = .ok patch') :
    DurationOf patch row now patch' := by
  unfold sessionEndPatch at h
  split at h
  · next happroximate =>
    cases h
    exact .cleared happroximate (get?_set_self _ _ _)
  · next happroximate =>
    have happroximate : approximateEnd patch row now = false := Bool.eq_false_iff.2 happroximate
    split at h
    · next hduration =>
      cases h
      obtain ⟨duration, hget⟩ := (mem_iff_exists_get? _ _).1 hduration
      exact .given duration happroximate (get?_settleEnd_duration.symm.trans hget) hget
    · next hduration =>
      have hnone : (settleEnd patch row now).get? "duration_ms" = none := (get?_eq_none_iff _ _).2 hduration
      unfold deriveDuration at h
      split at h
      · next startedAt ended hstarted hended =>
        cases h
        apply DurationOf.derived happroximate
        rw [get?_set_self, hstarted, hended, spanMs]
      · cases h
      · next hstarted _ =>
        cases h
        apply DurationOf.unknown happroximate
        · rw [← get?_eq_none_iff]
          exact get?_settleEnd_duration.symm.trans hnone
        · intro startedAt heq
          exact hstarted startedAt heq
        · exact hnone

/-- The end of the session and its flag are settled by its patch. -/
theorem get?_sessionEndPatch (h : sessionEndPatch patch row now = .ok patch') :
    patch'.get? "ended_at" = some (endedAt patch row now) ∧
      ∃ flag, patch'.get? "ended_at_is_approximate" = some flag ∧
        flag.truthy = approximateEnd patch row now := by
  have hkept : ∀ column ∈ ["ended_at", "ended_at_is_approximate"],
      patch'.get? column = (settleEnd patch row now).get? column := by
    intro column hcolumn
    have hne : column ≠ "duration_ms" := fun heq ↦ absurd (heq ▸ hcolumn) (by decide)
    unfold sessionEndPatch at h
    split at h
    · cases h
      exact get?_set_of_ne _ hne _
    · split at h
      · cases h
        rfl
      · unfold deriveDuration at h
        split at h
        · cases h
          exact get?_set_of_ne _ hne _
        · cases h
        · cases h
          rfl
  rw [hkept "ended_at" (by decide), hkept "ended_at_is_approximate" (by decide)]
  exact ⟨get?_settleEnd_ended, get?_settleEnd_flag⟩

end EndColumns

/-! ## What a write leaves -/

section Write

variable {sid : String} {log : SessionLog} {row : Row} {command : TransitionCommand}
variable {options : TransitionOptions} {patch : OrderedDict String Cell} {now : ℚ}
variable {duration ended : Cell}

theorem mem_suppliedEnds {db' : Db} (hwrote : log.Wrote sid db') (h : command.patch.get? "ended_at" = some ended)
    (hended : ended ≠ none) : ended ∈ (log.after sid db' command now).suppliedEnds := by
  rw [SessionLog.after, if_pos hwrote]
  apply List.mem_append_left
  rw [h]
  simpa using hended

theorem suppliedEnds_subset {db' : Db} (h : ended ∈ log.suppliedEnds) :
    ended ∈ (log.after sid db' command now).suppliedEnds := by
  unfold SessionLog.after
  split
  · exact List.mem_append_right _ h
  · exact h

theorem mem_suppliedDurations {db' : Db} (hwrote : log.Wrote sid db')
    (h : command.patch.get? "duration_ms" = some duration) :
    duration ∈ (log.after sid db' command now).suppliedDurations := by
  rw [SessionLog.after, if_pos hwrote]
  apply List.mem_append_left
  rw [h]
  exact List.mem_singleton_self _

variable {row' : Row}

/-- A duration that was supplied for the end that stays. -/
theorem suppliedDurations_subset {db' : Db} (hrow : log.row sid = some row)
    (hrow' : db'.select "sessions" sid = some row') (hended : row' "ended_at" = row "ended_at")
    (h : duration ∈ log.suppliedDurations) : duration ∈ (log.after sid db' command now).suppliedDurations := by
  unfold SessionLog.after
  split
  · apply List.mem_append_right
    have heq : (db'.select "sessions" sid).map (· "ended_at") = (log.row sid).map (· "ended_at") := by
      rw [hrow, hrow', Option.map_some, Option.map_some, hended]
    rw [if_pos heq]
    exact h
  · exact h

/-- The end moves the session out of a non-terminal status, or the time of that move stays. -/
theorem movedAt_after {db' : Db} (hwrote : log.Wrote sid db') (hrow : log.row sid = some row)
    (hrow' : db'.select "sessions" sid = some row') (hterminal : sessionPolicy.isTerminal ( row' "status")) :
    (log.after sid db' command now).movedAt =
      if sessionPolicy.isTerminal (row "status") then log.movedAt else some now := by
  rw [SessionLog.after, if_pos hwrote]
  simp only [SessionLog.column, hrow, hrow', Option.bind_some, Option.any_some, hterminal, decide_true,
    true_and]
  by_cases hrowTerminal : sessionPolicy.isTerminal (row "status")
  · simp only [hrowTerminal, not_true, if_true, if_false]
  · simp only [hrowTerminal, not_false_eq_true, if_true, if_false]

theorem updated_column {column : String} (h : column ∉ statusColumns) :
    updated command options row now patch column = (patch.get? column).getD (row column) :=
  assign_setClauses_of_not_mem command options row now patch h

variable {db' : Db}

/-- A write that leaves the columns of the end and the time of the move. -/
theorem EndSettled.of_columns (h : EndSettled log row) (hrow : log.row sid = some row)
    (hrow' : db'.select "sessions" sid = some row')
    (hcolumns : ∀ column ∈ "started_at" :: endColumns, row' column = row column)
    (hmoved : (log.after sid db' command now).movedAt = log.movedAt) :
    EndSettled (log.after sid db' command now) row' := by
  have hstarted := hcolumns "started_at" (by decide)
  have hended := hcolumns "ended_at" (by decide)
  have hflag := hcolumns "ended_at_is_approximate" (by decide)
  have hduration := hcolumns "duration_ms" (by decide)
  exact {
    ended := hended ▸ h.ended
    approximate := by
      rw [hflag, hduration]
      exact h.approximate
    measured := by
      rw [hflag, hduration, hstarted, hended]
      intro hexact
      exact (h.measured hexact).imp_left (suppliedDurations_subset hrow hrow' hended)
    moved := by
      rw [hended, hmoved]
      exact h.moved.imp_left suppliedEnds_subset }

/-- The end that a terminal write settles: it was supplied, or measured by this write or by the one that
last moved the session out of a non-terminal status. -/
theorem moved_of_ends (hsettled : sessionPolicy.isTerminal (row "status") → EndSettled log row)
    (hrow : log.row sid = some row) (hwrote : log.Wrote sid db') (hrow' : db'.select "sessions" sid = some row')
    (hterminal : sessionPolicy.isTerminal ( row' "status")) (hended : row' "ended_at" = endedAt command.patch row now)
    (hto : command.toStatus ∈ sessionTerminal) (hdiffers : ¬ command.sameStatus (row "status"))
    (hanew : EndsAnew log row command) (honce : MeasuresOnce row command) :
    row' "ended_at" ∈ (log.after sid db' command now).suppliedEnds ∨
      row' "ended_at" = (log.after sid db' command now).movedAt.map Scalar.num := by
  rw [hended, movedAt_after hwrote hrow hrow' hterminal]
  by_cases hmeasured : MeasuredHere command.patch row
  · have hrunning : ¬ sessionPolicy.isTerminal (row "status") :=
      fun hrowTerminal ↦ honce hrowTerminal hto hdiffers hmeasured
    rw [if_neg hrunning, endedAt, if_pos hmeasured]
    exact .inr rfl
  · rw [endedAt, if_neg hmeasured]
    have hgiven : givenEnd command.patch row ≠ none := fun hnone ↦ hmeasured (.inl hnone)
    cases hpatch : command.patch.get? "ended_at" with
    | some ended =>
      have heq : givenEnd command.patch row = ended := by rw [givenEnd, hpatch, Option.getD_some]
      rw [heq] at hgiven ⊢
      exact .inl (mem_suppliedEnds hwrote hpatch hgiven)
    | none =>
      have heq : givenEnd command.patch row = row "ended_at" := by
        rw [givenEnd, hpatch, Option.getD_none]
      rw [heq]
      by_cases hrowTerminal : sessionPolicy.isTerminal (row "status")
      · rw [if_pos hrowTerminal]
        exact (hsettled hrowTerminal).moved.imp_left suppliedEnds_subset
      · have hnot : "ended_at" ∉ command.patch := (get?_eq_none_iff _ _).1 hpatch
        obtain hhere | hmem | hsupplied := hanew hrowTerminal hto
        · exact absurd hhere hmeasured
        · exact absurd hmem hnot
        · exact .inl (suppliedEnds_subset hsupplied)

/-- A write that ends the session settles its end. -/
theorem EndSettled.of_ends (hsettled : sessionPolicy.isTerminal (row "status") → EndSettled log row)
    (hrow : log.row sid = some row) (hwrote : log.Wrote sid db')
    (hrow' : db'.select "sessions" sid = some (updated command options row now patch))
    (hends : command.EndsSession sessionPolicy row)
    (hpatch : command.completePatch sessionPolicy row now = .ok patch)
    (hstarted : "started_at" ∉ command.patch)
    (hterminal : sessionPolicy.isTerminal (updated command options row now patch "status"))
    (hanew : EndsAnew log row command) (honce : MeasuresOnce row command)
    (hhas : HasDuration log row command now) :
    EndSettled (log.after sid db' command now) (updated command options row now patch) := by
  have hend : sessionEndPatch command.patch row now = .ok patch := by
    rw [TransitionCommand.completePatch, if_pos hends] at hpatch
    exact hpatch
  obtain ⟨hended, flag, hflag, hflagged⟩ := get?_sessionEndPatch hend
  have hstart : updated command options row now patch "started_at" = row "started_at" := by
    rw [updated_column (by decide), get?_completePatch (by decide) hpatch,
      (get?_eq_none_iff _ _).2 hstarted, Option.getD_none]
  have hended' : updated command options row now patch "ended_at" = endedAt command.patch row now := by
    rw [updated_column (by decide), hended, Option.getD_some]
  have hflag' : (updated command options row now patch "ended_at_is_approximate").truthy =
      approximateEnd command.patch row now := by
    rw [updated_column (by decide), hflag, Option.getD_some, hflagged]
  have hduration := durationOf_sessionEndPatch hend
  exact {
    ended := by
      rw [hended', endedAt]
      split
      · exact Option.some_ne_none _
      · next hmeasured => exact fun hnone ↦ hmeasured (.inl hnone)
    approximate := by
      rw [hflag', updated_column (by decide)]
      intro happroximate
      cases hduration with
      | cleared _ hget => rw [hget, Option.getD_some]
      | given _ hexact => exact absurd (hexact.symm.trans happroximate) Bool.false_ne_true
      | derived hexact => exact absurd (hexact.symm.trans happroximate) Bool.false_ne_true
      | unknown hexact => exact absurd (hexact.symm.trans happroximate) Bool.false_ne_true
    measured := by
      rw [hflag', hstart, hended', updated_column (by decide)]
      intro hexact
      cases hduration with
      | cleared happroximate => exact absurd (hexact.symm.trans happroximate) Bool.false_ne_true
      | given duration _ hgiven hget =>
        rw [hget, Option.getD_some]
        exact .inl (mem_suppliedDurations hwrote hgiven)
      | derived _ hget =>
        rw [hget, Option.getD_some]
        exact .inr rfl
      | unknown _ hnot hunstarted hget =>
        rw [hget, Option.getD_none]
        obtain ⟨startedAt, hstartedAt⟩ | hmem | happroximate | hnone | ⟨hsupplied, hsame⟩ :=
          hhas hends.1.2 hends.2
        · exact absurd hstartedAt (hunstarted startedAt)
        · exact absurd hmem hnot
        · exact absurd (hexact.symm.trans happroximate) Bool.false_ne_true
        · rw [hnone, spanMs_of_ne hunstarted]
          exact .inr rfl
        · exact .inl (suppliedDurations_subset hrow hrow' (hended'.trans hsame) hsupplied)
    moved := moved_of_ends hsettled hrow hwrote hrow' hterminal hended' hends.1.2 hends.2 hanew honce }

end Write

/-! ## Steps and runs -/

section Steps

variable {validReasonCodes : List String} {sid : String} {log : SessionLog}

/-- The session is there with a flag that is not NULL, and its end is settled whenever it is terminal. -/
structure SessionLog.Sound (sid : String) (log : SessionLog) : Prop where
  present : ∃ row, log.row sid = some row ∧ row "ended_at_is_approximate" ≠ none
  settled : log.Settled sid

variable {command : TransitionCommand}

/-- A database that leaves the row and the history of the session. -/
theorem SessionLog.Sound.of_unchanged (h : log.Sound sid) {db' : Db} {now : ℚ}
    (hrow : db'.select "sessions" sid = log.row sid)
    (hhistory : db'.historyOf "session" sid = log.db.historyOf "session" sid) :
    (log.after sid (SessionLog.keepNotNull sid log.db db') command now).Sound sid := by
  have hkeep : SessionLog.keepNotNull sid log.db db' = db' := by
    obtain ⟨row, hsome, hflag⟩ := h.present
    unfold SessionLog.keepNotNull
    rw [hrow, hsome, Option.any_some, decide_eq_false hflag]
    rfl
  have hafter : log.after sid db' command now = { log with db := db' } := by
    rw [SessionLog.after, if_neg]
    exact fun hwrote ↦ hwrote hhistory
  rw [hkeep, hafter]
  have hsame : SessionLog.row sid { log with db := db' } = log.row sid := hrow
  exact {
    present := hsame ▸ h.present
    settled := by
      intro row hrow' hterminal
      have hsettled := h.settled row (hsame ▸ hrow') hterminal
      exact ⟨hsettled.ended, hsettled.approximate, hsettled.measured, hsettled.moved⟩ }

/-- A write of the session leaves its end settled, or is rolled back for the flag. -/
theorem SessionLog.Sound.of_write (h : log.Sound sid) {row : Row} {options : TransitionOptions}
    {patch : OrderedDict String Cell} {db' : Db} {now : ℚ} (hrow : log.row sid = some row)
    (htype : command.entityType = "session") (hvalid : command.Valid sessionPolicy)
    (hpatch : command.completePatch sessionPolicy row now = .ok patch)
    (hrow' : db'.select "sessions" sid = some (updated command options row now patch)) (hwrote : log.Wrote sid db')
    (hkeeps : KeepsEnd row command) (hanew : EndsAnew log row command) (honce : MeasuresOnce row command)
    (hhas : HasDuration log row command now) :
    (log.after sid (SessionLog.keepNotNull sid log.db db') command now).Sound sid := by
  have hnot : ∀ column, column ∉ sessionPolicy.patchFields → column ∉ command.patch :=
    fun column hcolumn hmem ↦ hcolumn (hvalid.patch column hmem)
  by_cases hflag : updated command options row now patch "ended_at_is_approximate" = none
  · have hkeep : SessionLog.keepNotNull sid log.db db' = log.db := by
      unfold SessionLog.keepNotNull
      rw [hrow', Option.any_some, decide_eq_true hflag, if_pos rfl]
    rw [hkeep]
    have hself : (log.after sid (SessionLog.keepNotNull sid log.db log.db) command now).Sound sid :=
      h.of_unchanged rfl rfl
    have hkeep' : SessionLog.keepNotNull sid log.db log.db = log.db := by
      unfold SessionLog.keepNotNull
      split <;> rfl
    rw [hkeep'] at hself
    exact hself
  · have hkeep : SessionLog.keepNotNull sid log.db db' = db' := by
      unfold SessionLog.keepNotNull
      rw [hrow', Option.any_some, decide_eq_false hflag]
      rfl
    rw [hkeep]
    have hdb : (log.after sid db' command now).db = db' := by
      unfold SessionLog.after
      split <;> rfl
    have hafter : (log.after sid db' command now).row sid = some (updated command options row now patch) := by
      rw [SessionLog.row, hdb, hrow']
    have hstatus : updated command options row now patch "status" = Cell.text command.toStatus :=
      updated_status (hnot "status" (by decide)) hpatch
    refine ⟨⟨_, hafter, hflag⟩, ?_⟩
    intro row' hsome hterminal
    cases hafter.symm.trans hsome
    by_cases hends : command.EndsSession sessionPolicy row
    · exact .of_ends (fun hrowTerminal ↦ h.settled row hrow hrowTerminal) hrow hwrote hrow' hends hpatch
        (hnot "started_at" (by decide)) hterminal hanew honce hhas
    · have hto : command.toStatus ∈ sessionPolicy.terminalStatuses := by
        obtain ⟨terminal, hmem, heq⟩ := hterminal
        rw [hstatus, Cell.text_inj] at heq
        exact heq ▸ hmem
      have hsame : command.sameStatus (row "status") :=
        Classical.not_not.1 fun hdiffers ↦ hends ⟨⟨htype, hto⟩, hdiffers⟩
      have hrowTerminal : sessionPolicy.isTerminal (row "status") := ⟨_, hto, hsame⟩
      have hunchanged : patch = command.patch := by
        rw [TransitionCommand.completePatch, if_neg hends] at hpatch
        exact (Except.ok.inj hpatch).symm
      subst hunchanged
      apply (h.settled row hrow hrowTerminal).of_columns hrow hrow'
      · intro column hcolumn
        have hmem : column ∉ command.patch := by
          obtain heq | hend := List.mem_cons.1 hcolumn
          · exact heq ▸ hnot "started_at" (by decide)
          · exact hkeeps hrowTerminal hsame column hend
        have hother : column ∉ statusColumns := by
          have hall : ∀ column ∈ "started_at" :: endColumns, column ∉ statusColumns := by decide
          exact hall column hcolumn
        rw [updated_column hother, (get?_eq_none_iff _ _).2 hmem, Option.getD_none]
      · rw [movedAt_after hwrote hrow hrow' hterminal, if_pos hrowTerminal]

/-- A call that is no write of the session, or one that settles the end, keeps the end settled. -/
theorem SessionLog.Sound.exec (h : log.Sound sid) (step : TransitionOp × ℚ)
    (hsettles : SettlesEnd sid log step) : (log.exec sid validReasonCodes step).Sound sid := by
  obtain ⟨op, now⟩ := step
  have hpolicy : defaultRegistry.byEntityType.get? "session" = some sessionPolicy := rfl
  obtain ⟨row, hrow, -⟩ := h.present
  change (log.after sid (SessionLog.keepNotNull sid log.db (op.exec defaultRegistry validReasonCodes
    log.db now)) op.command now).Sound sid
  apply op.exec_of_guarded (I := fun db' ↦
    (log.after sid (SessionLog.keepNotNull sid log.db db') op.command now).Sound sid)
  · exact h.of_unchanged rfl rfl
  · intro policy row' db' outcome hother hvalid hrow' hexit
    cases hexit with
    | statusConflict => exact h.of_unchanged rfl rfl
    | noop => exact h.of_unchanged rfl rfl
    | versionConflict => exact h.of_unchanged rfl rfl
    | rejected => exact h.of_unchanged rfl rfl
    | guardConflict =>
      apply h.of_unchanged (select_recordOverride _ _ _)
      rw [Db.historyOf, recordOverride_history, Db.historyOf]
    | nullGuard =>
      apply h.of_unchanged (select_recordOverride _ _ _)
      rw [Db.historyOf, recordOverride_history, Db.historyOf]
    | @applied override patch stored hstatus hpermits hversion hguard hpatch _ hreplace =>
      have hhistory : stored.history = log.db.history :=
        (Db.replace_history hreplace).1.trans (recordOverride_history _)
      have happend : (stored.appendHistory op.command.entityType op.command.entityId ( row' "status")
          op.command.toStatus op.command.reason op.command.actor now).history = log.db.history ++ [_] :=
        congrArg (· ++ [_]) hhistory
      by_cases hentity : op.command.entityType = "session" ∧ op.command.entityId = sid
      · obtain ⟨htype, rfl⟩ := hentity
        rw [htype] at hother
        cases hpolicy.symm.trans hother
        have hid : "id" ∉ op.command.patch := fun hmem ↦ absurd (hvalid.patch "id" hmem) (by decide)
        have hstored : stored.select sessionPolicy.table op.command.entityId =
            some (updated op.command (op.options sessionPolicy) row' now patch) := by
          cases (replace_updated hrow' hid hpatch).symm.trans hreplace
          exact Db.select_put_self (updated_id hrow' hid hpatch)
        obtain ⟨hkeeps, hanew, honce, hhas⟩ :=
          hsettles htype rfl row' hrow' ⟨hstatus, ⟨override, hpermits⟩, hversion, hguard⟩
        refine h.of_write hrow' htype hvalid hpatch hstored ?_ hkeeps hanew honce hhas
        · intro hsame
          rw [← htype] at hsame
          have hlonger := (historyOf_concat happend).symm.trans hsame
          simp at hlonger
      · apply h.of_unchanged
        · have hkept : stored.select sessionPolicy.table sid = some row :=
            select_of_other hpolicy hother hentity
              ((select_recordOverride override _ _).trans hrow) hreplace
          exact hkept.trans hrow.symm
        · apply historyOf_of_ne happend
          intro heq
          exact hentity ⟨heq.1.symm, heq.2.symm⟩

/-- A session just inserted as running without an end. -/
structure Inserted (sid : String) (db : Db) (row : Row) : Prop where
  stored : db.select "sessions" sid = some row
  running : row "status" = Cell.text "running"
  unended : row "ended_at" = none
  flag : row "ended_at_is_approximate" ≠ none

def SessionLog.start (db : Db) : SessionLog := ⟨db, [], [], none⟩

theorem SessionLog.Sound.start {db : Db} {row : Row} (h : Inserted sid db row) :
    (SessionLog.start db).Sound sid where
  present := ⟨row, h.stored, h.flag⟩
  settled := by
    intro row' hrow' hterminal
    cases h.stored.symm.trans hrow'
    rw [h.running] at hterminal
    exact absurd hterminal (by decide)

end Steps

/-! ## An end that is lost and an end that is old -/

section Unsettled

/-- A session that started at 1. -/
def startedRow : Row :=
  Row.assign (fun _ ↦ none) [("id", Cell.text "s1"), ("status", Cell.text "running"),
    ("updated_at", Cell.num 1), ("started_at", Cell.num 1), ("ended_at_is_approximate", Cell.num 0)]

def startedSession : Db where
  rows table id := if table = "sessions" ∧ id = "s1" then some startedRow else none
  history := []
  adminEvents := []

def sessionUpdate (status : String) (patch : OrderedDict String Cell) (override : Bool) : TransitionOp :=
  .updateStatus {
    entityType := "session"
    entityId := "s1"
    newStatus := status
    reason := { code := "run.completed.ok" }
    source := "executor"
    actor := none
    extraFields := patch
    override := override
    overrideActor := some "cli"
    overrideJustification := some "resumed" }

def complete : TransitionOp := sessionUpdate "completed" .empty false

theorem inserted_startedSession :
    Inserted "s1" startedSession (Function.update startedRow "id" (Cell.text "s1")) where
  stored := rfl
  running := rfl
  unended := rfl
  flag := by decide

/-- A second completion that sends NULL as the end, and a way back to running that leaves the end. -/
def erasure : TransitionOp := sessionUpdate "completed" (ofList [("ended_at", none)]) false

def reopening : TransitionOp := sessionUpdate "running" .empty true

def erased : List (TransitionOp × ℚ) := [(complete, 5), (erasure, 6)]

def resumed : List (TransitionOp × ℚ) := [(complete, 5), (reopening, 6), (complete, 9)]

theorem SessionLog.Settled.column {sid : String} {log : SessionLog} (h : log.Settled sid)
    (hstatus : sessionPolicy.isTerminal (log.column sid "status")) :
    log.column sid "ended_at" ≠ none ∧ (log.column sid "ended_at" ∈ log.suppliedEnds ∨
      log.column sid "ended_at" = log.movedAt.map Scalar.num) := by
  unfold SessionLog.column at hstatus ⊢
  cases hrow : log.row sid with
  | none =>
    rw [hrow] at hstatus
    exact absurd hstatus (by decide)
  | some row =>
    rw [hrow] at hstatus
    have hsettled := h row hrow hstatus
    exact ⟨hsettled.ended, hsettled.moved⟩

end Unsettled

end Lionagi.StateDb
