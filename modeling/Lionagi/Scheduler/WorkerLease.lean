import Lionagi.Library.Transition
import Lionagi.Scheduler.WorkerStep

/-!
# Exclusive execution

Every lease of a tick counts from its start, while the rows are claimed one after the other. A row that is
claimed late is therefore reaped and claimed by another worker while it is executed. As long as no tick
starts after the end of a lease whose holder has not finished, a row that is held is running under the
lease of its holder, and is left alone by all the others.
-/

namespace Lionagi.Scheduler

open StateDb OrderedDict Transition Processes

/-! ## The property and the condition -/

section Lease

variable (passes : List Pass)

/-- A tick executes a row. -/
def Executing (i : ℕ) (id : String) : Prop :=
  ∃ pass task since began, passes[i]? = some pass ∧ pass.stage = .executing task since began ∧ task.id = id

/-- A tick has claimed a row under a lease and not finished with it. -/
def Holds (i : ℕ) (id : String) (lease : ℚ) : Prop :=
  ∃ pass task, passes[i]? = some pass ∧ pass.stage.held = some task ∧ task.id = id ∧
    pass.leaseExpiresAt = lease

/-- A tick has read that a lease of a row has lapsed and is yet to reap it. -/
def Reads (id : String) (lease : Cell) : Prop :=
  ∃ pass ∈ passes, ∃ task ∈ pass.lapsed, task.id = id ∧ task.row "lease_expires_at" = lease

variable (queue : TaskQueue)

/-- One tick at a time executes a row, no lease is reaped within its time while its row is executed, and a
terminal status is written by no tick while the row is leased by another one. -/
structure ExecutesExclusively : Prop where
  exclusive : ∀ i j id, Executing queue.passes i id → Executing queue.passes j id → i = j
  live : queue.ledger.reapedLive = []
  written : ∀ write ∈ queue.ledger.writes, ∀ holder ∈ write.2, write.1 = holder

/-- Ticks that do not crash. None that reads the lapsed leases has started after the end of a lease whose
holder has not finished, and no row is claimed under a lease that was read as lapsed. -/
def KeepsLeases : WorkerOp → Prop
  | .select i _ => ∀ pass, queue.passes[i]? = some pass → pass.stage = .started →
      ∀ j id lease, Holds queue.passes j id lease → pass.now ≤ lease
  | .claim i => ∀ pass task rest, queue.passes[i]? = some pass → pass.stage = .claiming →
      pass.rest = task :: rest → ¬ Reads queue.passes task.id (Cell.num pass.leaseExpiresAt)
  | .crash _ => False
  | _ => True

/-- Executions take less than the lease. -/
def InTime : WorkerOp → Prop
  | .tick seconds => ∀ pass ∈ queue.passes, pass.stage.InTime (queue.clock + seconds) pass.leaseTtl
  | _ => True

instance (op : WorkerOp) : Decidable (InTime queue op) :=
  match op with
  | .tick seconds => inferInstanceAs (Decidable
      (∀ pass ∈ queue.passes, pass.stage.InTime (queue.clock + seconds) pass.leaseTtl))
  | .start _ _ _ | .select _ _ | .reap _ | .scan _ _ | .defer _ | .reject _ _ | .claim _ | .execute _
    | .finish _ _ | .complete _ | .crash _ | .submit _ _ => isTrue trivial

/-- A row that is held runs under the lease of its one holder, which no tick has read as lapsed. -/
structure Leased : Prop where
  held : ∀ i id lease, Holds queue.passes i id lease → ∃ row, queue.row id = some row ∧
    row "status" = Cell.text "running" ∧ row "lease_expires_at" = Cell.num lease
  unique : ∀ i j id lease lease', Holds queue.passes i id lease → Holds queue.passes j id lease' → i = j
  fresh : ∀ i id lease, Holds queue.passes i id lease → ¬ Reads queue.passes id (Cell.num lease)
  leases : ∀ id i, queue.ledger.leases id = some i → ∃ lease, Holds queue.passes i id lease
  live : queue.ledger.reapedLive = []
  written : ∀ write ∈ queue.ledger.writes, ∀ holder ∈ write.2, write.1 = holder

end Lease

/-! ## Ticks that are updated -/

section Passes

variable {passes : List Pass} {i j : ℕ} {id : String} {lease : ℚ} {cell : Cell} {pass pass' : Pass}

theorem Executing.holds (h : Executing passes i id) : ∃ lease, Holds passes i id lease := by
  obtain ⟨pass, task, since, began, hpass, hstage, hid⟩ := h
  exact ⟨pass.leaseExpiresAt, pass, task, hpass, hstage ▸ rfl, hid, rfl⟩

theorem Holds.id_eq {id' : String} {lease' : ℚ} (h : Holds passes i id lease) (h' : Holds passes i id' lease') :
    id = id' := by
  obtain ⟨pass, task, hpass, hheld, rfl, -⟩ := h
  obtain ⟨pass', task', hpass', hheld', rfl, -⟩ := h'
  cases hpass.symm.trans hpass'
  cases hheld.symm.trans hheld'
  rfl

/-- A tick that goes on holds what it held. -/
theorem holds_set (hpass : passes[i]? = some pass) (hheld : pass'.stage.held = pass.stage.held)
    (hlease : pass'.leaseExpiresAt = pass.leaseExpiresAt) :
    Holds (passes.set i pass') j id lease ↔ Holds passes j id lease := by
  constructor
  · intro h
    obtain ⟨found, task, hfound, htask, hid, heq⟩ := h
    obtain ⟨rfl, rfl⟩ | ⟨-, hfound⟩ := getElem?_set_cases hfound
    · exact ⟨pass, task, hpass, hheld ▸ htask, hid, hlease ▸ heq⟩
    · exact ⟨found, task, hfound, htask, hid, heq⟩
  · intro h
    obtain ⟨found, task, hfound, htask, hid, heq⟩ := h
    by_cases hj : j = i
    · subst hj
      cases hfound.symm.trans hpass
      exact ⟨pass', task, getElem?_set_self_of_some hpass, hheld ▸ htask, hid, hlease ▸ heq⟩
    · refine ⟨found, task, ?_, htask, hid, heq⟩
      rw [List.getElem?_set_ne (Ne.symm hj), hfound]

/-- A tick that lets go of its row leaves the others theirs. -/
theorem holds_set_of_none (hheld : pass'.stage.held = none) (h : Holds (passes.set i pass') j id lease) :
    j ≠ i ∧ Holds passes j id lease := by
  obtain ⟨found, task, hfound, htask, hid, heq⟩ := h
  obtain ⟨rfl, rfl⟩ | ⟨hj, hfound⟩ := getElem?_set_cases hfound
  · cases hheld.symm.trans htask
  · exact ⟨hj, found, task, hfound, htask, hid, heq⟩

theorem holds_set_of_ne (hj : j ≠ i) (h : Holds passes j id lease) :
    Holds (passes.set i pass') j id lease := by
  obtain ⟨found, task, hfound, htask, hid, heq⟩ := h
  refine ⟨found, task, ?_, htask, hid, heq⟩
  rw [List.getElem?_set_ne (Ne.symm hj), hfound]

theorem reads_set (hpass : passes[i]? = some pass) (hlapsed : pass'.lapsed ⊆ pass.lapsed)
    (h : Reads (passes.set i pass') id cell) : Reads passes id cell := by
  obtain ⟨found, hfound, task, htask, hid, hcell⟩ := h
  obtain hold | rfl := List.mem_or_eq_of_mem_set hfound
  · exact ⟨found, hold, task, htask, hid, hcell⟩
  · exact ⟨pass, List.mem_of_getElem? hpass, task, hlapsed htask, hid, hcell⟩

end Passes

/-! ## Steps -/

section Steps

variable {queue queue' : TaskQueue} {i : ℕ} {pass pass' : Pass} {task : TaskRow}

theorem Leased.executesExclusively (h : Leased queue) : ExecutesExclusively queue where
  exclusive i j id hi hj := by
    obtain ⟨lease, hi⟩ := hi.holds
    obtain ⟨lease', hj⟩ := hj.holds
    exact h.unique i j id lease lease' hi hj
  live := h.live
  written := h.written

/-- A step that leaves the rows that are held and gives none away. -/
theorem Leased.of_frame (h : Leased queue)
    (hholds : ∀ i id lease, Holds queue'.passes i id lease ↔ Holds queue.passes i id lease)
    (hrows : ∀ i id lease, Holds queue.passes i id lease → queue'.row id = queue.row id)
    (hfresh : ∀ i id lease, Holds queue.passes i id lease → ¬ Reads queue'.passes id (Cell.num lease))
    (hleases : ∀ id i, queue'.ledger.leases id = some i → queue.ledger.leases id = some i)
    (hlive : queue'.ledger.reapedLive = [])
    (hwritten : ∀ write ∈ queue'.ledger.writes, ∀ holder ∈ write.2, write.1 = holder) : Leased queue' where
  held i id lease hheld := by
    rw [hholds] at hheld
    rw [hrows i id lease hheld]
    exact h.held i id lease hheld
  unique i j id lease lease' hi hj := h.unique i j id lease lease' ((hholds _ _ _).1 hi) ((hholds _ _ _).1 hj)
  fresh i id lease hheld := hfresh i id lease ((hholds _ _ _).1 hheld)
  leases id i hi := by
    obtain ⟨lease, hheld⟩ := h.leases id i (hleases id i hi)
    exact ⟨lease, (hholds _ _ _).2 hheld⟩
  live := hlive
  written := hwritten

/-- A tick goes on without a transition. -/
theorem Leased.setPass (h : Leased queue) (hpass : queue.passes[i]? = some pass)
    (hheld : pass'.stage.held = pass.stage.held) (hlease : pass'.leaseExpiresAt = pass.leaseExpiresAt)
    (hlapsed : pass'.lapsed ⊆ pass.lapsed) : Leased (queue.setPass i pass') :=
  h.of_frame (fun _ _ _ ↦ holds_set hpass hheld hlease) (fun _ _ _ _ ↦ rfl)
    (fun _ _ _ hholds hreads ↦ h.fresh _ _ _ hholds (reads_set hpass hlapsed hreads)) (fun _ _ hi ↦ hi)
    h.live h.written

/-- The leases that are read have ended before the tick started, and those that are held have not. -/
theorem Leased.select (h : Leased queue) {ids : List String} (hpass : queue.passes[i]? = some pass)
    (hstage : pass.stage = .started) (hids : ids.Perm (queue.lapsedIds pass.now))
    (hends : ∀ j id lease, Holds queue.passes j id lease → pass.now ≤ lease) :
    Leased (queue.setPass i { pass with lapsed := queue.selected ids, stage := .reaping }) := by
  have hheld : Stage.held .reaping = pass.stage.held := hstage ▸ rfl
  refine h.of_frame (fun _ _ _ ↦ holds_set hpass hheld rfl) (fun _ _ _ _ ↦ rfl) ?_ (fun _ _ hi ↦ hi) h.live
    h.written
  intro j id lease hholds hreads
  obtain ⟨found, hfound, task, htask, hid, hcell⟩ := hreads
  obtain hold | rfl := List.mem_or_eq_of_mem_set hfound
  · exact h.fresh j id lease hholds ⟨found, hold, task, htask, hid, hcell⟩
  · obtain ⟨id', hid', hrow⟩ := List.mem_filterMap.1 htask
    obtain ⟨row, hfound, rfl⟩ := Option.map_eq_some_iff.1 hrow
    have hlapsed := (List.mem_filter.1 (hids.mem_iff.1 hid')).2
    rw [hfound, Option.any_some] at hlapsed
    have hbefore : Before (row "lease_expires_at") pass.now := (of_decide_eq_true hlapsed).2
    have hrow' : row "lease_expires_at" = Cell.num lease := hcell
    rw [hrow'] at hbefore
    exact absurd (hends j id lease hholds) (not_le.2 hbefore)

variable {row : Row}

/-- The row of a lease that is reaped is held by no tick. -/
theorem Leased.unheld_of_reap (h : Leased queue) (hpass : queue.passes[i]? = some pass) (htask : task ∈ pass.lapsed)
    (hrow : queue.row task.id = some row) (hexpects : task.reapRequest.Expects scheduleRunPolicy row) (j : ℕ)
    (lease : ℚ) : ¬ Holds queue.passes j task.id lease := by
  intro hholds
  obtain ⟨found, hfound, -, hlease⟩ := h.held j task.id lease hholds
  cases hrow.symm.trans hfound
  have hguard : row "lease_expires_at" = task.row "lease_expires_at" := by
    apply hexpects.guard ("lease_expires_at", task.row "lease_expires_at")
    rw [reapRequest_entity.2.2.2.1]
    exact List.mem_singleton_self _
  refine h.fresh j task.id lease hholds ⟨pass, List.mem_of_getElem? hpass, task, htask, rfl, ?_⟩
  exact hguard.symm.trans hlease

theorem Leased.not_live (h : ∀ j lease, ¬ Holds queue.passes j task.id lease) : ¬ queue.Live task.id := by
  intro hlive
  obtain ⟨pass, hpass, hstage⟩ := hlive
  obtain ⟨j, hj⟩ := List.getElem?_of_mem hpass
  cases hexecuting : pass.stage with
  | executing task' since began =>
    rw [hexecuting] at hstage
    exact h j pass.leaseExpiresAt ⟨pass, task', hj, hexecuting ▸ rfl, hstage.1, rfl⟩
  | started | reaping | reaped | claiming | claimed | executed | ended =>
    rw [hexecuting] at hstage
    exact hstage

/-- The lease of a row that no tick holds is held by none. -/
theorem Leased.leases_eq_none (h : Leased queue) (hunheld : ∀ j lease, ¬ Holds queue.passes j task.id lease) :
    queue.ledger.leases task.id = none := by
  cases hleases : queue.ledger.leases task.id with
  | none => rfl
  | some j =>
    obtain ⟨lease, hj⟩ := h.leases task.id j hleases
    exact absurd hj (hunheld j lease)

/-- A terminal status is written to a row that no other tick holds. -/
theorem Leased.noteWrite (h : Leased queue)
    (hholder : ∀ holder, queue.ledger.leases task.id = some holder → i = holder) :
    ∀ write ∈ (queue.noteWrite i task.id).writes, ∀ holder ∈ write.2, write.1 = holder := by
  intro write hmem holder
  obtain hold | hnew := List.mem_append.1 hmem
  · exact h.written write hold holder
  · rw [List.mem_singleton.1 hnew]
    exact hholder holder

theorem Leased.reapLease (h : Leased queue) {lapsed : List TaskRow} (hpass : queue.passes[i]? = some pass)
    (hstage : pass.stage = .reaping) (hlapsed : pass.lapsed = task :: lapsed) :
    Leased (queue.reapLease i { pass with lapsed := lapsed } task) := by
  obtain ⟨applied, pass', hresumed, htransacted⟩ :=
    @reapLease_transacted queue i { pass with lapsed := lapsed } task
  generalize queue.reapLease i { pass with lapsed := lapsed } task = queue' at *
  obtain ⟨hmove, hpasses, hledger⟩ := htransacted
  have hnone : pass.stage.held = none := hstage ▸ rfl
  have hholds : ∀ j id lease, Holds queue'.passes j id lease ↔ Holds queue.passes j id lease := by
    intro j id lease
    rw [hpasses]
    exact holds_set hpass ((hresumed.held hnone).trans hnone.symm) hresumed.leaseExpiresAt
  have hreads : ∀ j id lease, Holds queue.passes j id lease → ¬ Reads queue'.passes id (Cell.num lease) := by
    intro j id lease hj hreads
    rw [hpasses] at hreads
    refine h.fresh j id lease hj (reads_set hpass ?_ hreads)
    rw [hresumed.lapsed, hlapsed]
    exact List.subset_cons_self _ _
  cases hmove with
  | @moved row row' hrow _ hmoves hothers =>
    have hunheld := h.unheld_of_reap hpass (hlapsed ▸ List.mem_cons_self) hrow hmoves.1
    have hleases := h.leases_eq_none hunheld
    have hlive : ¬ queue.Live task.id := Leased.not_live hunheld
    rw [if_pos rfl] at hledger
    refine h.of_frame hholds ?_ hreads ?_ ?_ ?_
    · intro j id lease hj
      apply hothers
      rintro rfl
      exact hunheld j lease hj
    · intro id j hj
      rw [hledger] at hj
      by_cases hid : id = task.id
      · subst hid
        cases (Function.update_self _ _ _).symm.trans hj
      · have hsame : (queue.noteReap i task).leases id = queue.ledger.leases id := by
          refine (Function.update_of_ne hid _ _).trans ?_
          split <;> rfl
        exact hsame.symm.trans hj
    · rw [hledger, TaskQueue.noteReap]
      simp only [hlive, if_false]
      split <;> exact h.live
    · rw [hledger]
      have hwrites : (queue.noteReap i task).writes = (queue.noteWrite i task.id).writes ∨
          (queue.noteReap i task).writes = queue.ledger.writes := by
        unfold TaskQueue.noteReap
        by_cases hexhausted : task.Exhausted
        · left
          rw [if_pos hexhausted]
        · right
          rw [if_neg hexhausted]
      obtain hwrites | hwrites := hwrites
      · rw [hwrites]
        exact h.noteWrite fun holder hholder ↦ by cases hleases.symm.trans hholder
      · rw [hwrites]
        exact h.written
  | kept hsame =>
    rw [if_neg Bool.false_ne_true] at hledger
    exact h.of_frame hholds (fun _ id _ _ ↦ hsame id) hreads (fun _ _ hi ↦ hledger ▸ hi)
      (hledger ▸ h.live) (hledger ▸ h.written)

variable {id : String}

/-- A row that is not running is held by no tick. -/
theorem Leased.unheld_of_status (h : Leased queue) (hrow : queue.row id = some row)
    (hstatus : row "status" = Cell.text "queued") (j : ℕ) (lease : ℚ) : ¬ Holds queue.passes j id lease := by
  intro hholds
  obtain ⟨found, hfound, hrunning, -⟩ := h.held j id lease hholds
  cases hrow.symm.trans hfound
  exact absurd (hstatus.symm.trans hrunning) (by decide)

variable {rest : List TaskRow}

theorem Leased.reject (h : Leased queue) {reason : ReasonRecord} (hpass : queue.passes[i]? = some pass)
    (hstage : pass.stage = .claiming) : Leased (queue.reject i { pass with rest := rest } task reason) := by
  obtain ⟨applied, pass', hresumed, htransacted⟩ :=
    @reject_transacted queue i { pass with rest := rest } task reason
  generalize queue.reject i { pass with rest := rest } task reason = queue' at *
  obtain ⟨hmove, hpasses, hledger⟩ := htransacted
  have hnone : pass.stage.held = none := hstage ▸ rfl
  have hholds : ∀ j id lease, Holds queue'.passes j id lease ↔ Holds queue.passes j id lease := by
    intro j id lease
    rw [hpasses]
    exact holds_set hpass ((hresumed.held hnone).trans hnone.symm) hresumed.leaseExpiresAt
  have hreads : ∀ j id lease, Holds queue.passes j id lease → ¬ Reads queue'.passes id (Cell.num lease) := by
    intro j id lease hj hreads
    rw [hpasses] at hreads
    exact h.fresh j id lease hj (reads_set hpass (hresumed.lapsed ▸ List.Subset.refl _) hreads)
  cases hmove with
  | @moved row row' hrow _ hmoves hothers =>
    have hstatus : row "status" = Cell.text "queued" := List.mem_singleton.1 (hmoves.1 _ rfl)
    have hunheld := h.unheld_of_status hrow hstatus
    have hleases := h.leases_eq_none hunheld
    rw [if_pos rfl] at hledger
    refine h.of_frame hholds ?_ hreads (fun _ _ hj ↦ ?_) ?_ ?_
    · intro j id lease hj
      apply hothers
      rintro rfl
      exact hunheld j lease hj
    · rw [hledger] at hj
      exact hj
    · rw [hledger]
      exact h.live
    · rw [hledger]
      exact h.noteWrite fun holder hholder ↦ by cases hleases.symm.trans hholder
  | kept hsame =>
    rw [if_neg Bool.false_ne_true] at hledger
    exact h.of_frame hholds (fun _ id _ _ ↦ hsame id) hreads (fun _ _ hi ↦ hledger ▸ hi)
      (hledger ▸ h.live) (hledger ▸ h.written)

/-- The row as it is stored by a claim. -/
theorem claimed_row {row' : Row} {now : ℚ} (h : (pass.claimRequest task).MovesRow scheduleRunPolicy now row row') :
    row "status" = Cell.text "queued" ∧ row' "status" = Cell.text "running" ∧
      row' "lease_expires_at" = Cell.num pass.leaseExpiresAt := by
  obtain ⟨hexpects, rfl⟩ := h
  refine ⟨hexpects.source "queued" rfl, ?_, ?_⟩
  · exact LegacyTransition.stored_status (by simp [Pass.claimRequest])
  · rw [LegacyTransition.stored_column (by decide)]
    rfl

theorem Leased.claim (h : Leased queue) (hpass : queue.passes[i]? = some pass) (hstage : pass.stage = .claiming)
    (hlease : ¬ Reads queue.passes task.id (Cell.num pass.leaseExpiresAt)) :
    Leased (queue.claim i { pass with rest := rest } task) := by
  obtain ⟨applied, pass', attempts, happlied, -, htransacted⟩ :=
    @claim_transacted queue i { pass with rest := rest } task
  generalize queue.claim i { pass with rest := rest } task = queue' at *
  obtain ⟨hmove, hpasses, hledger⟩ := htransacted
  have hnone : pass.stage.held = none := hstage ▸ rfl
  cases hmove with
  | @moved row row' hrow hrow' hmoves hothers =>
    obtain ⟨hqueued, hrunning, hexpires⟩ := claimed_row hmoves
    have hunheld := h.unheld_of_status hrow hqueued
    rw [if_pos rfl] at happlied hledger
    subst happlied
    -- the tick holds the row it has claimed, and the others hold what they held
    have hholds : ∀ j id lease, Holds queue'.passes j id lease →
        j = i ∧ id = task.id ∧ lease = pass.leaseExpiresAt ∨ Holds queue.passes j id lease := by
      intro j id lease hj
      rw [hpasses] at hj
      obtain ⟨found, held, hfound, hheld, hid, heq⟩ := hj
      obtain ⟨rfl, rfl⟩ | ⟨-, hfound⟩ := getElem?_set_cases hfound
      · cases hheld
        exact .inl ⟨rfl, hid.symm, heq.symm⟩
      · exact .inr ⟨found, held, hfound, hheld, hid, heq⟩
    have hnew : Holds queue'.passes i task.id pass.leaseExpiresAt := by
      rw [hpasses]
      exact ⟨_, task, getElem?_set_self_of_some hpass, rfl, rfl, rfl⟩
    have hreads : ∀ id cell, Reads queue'.passes id cell → Reads queue.passes id cell := by
      intro id cell hreads
      rw [hpasses] at hreads
      have hlapsed : (Pass.claim { pass with rest := rest } task queue.clock).lapsed ⊆ pass.lapsed :=
        List.Subset.refl _
      exact reads_set hpass hlapsed hreads
    constructor
    · intro j id lease hj
      obtain ⟨-, rfl, rfl⟩ | hold := hholds j id lease hj
      · exact ⟨row', hrow', hrunning, hexpires⟩
      · obtain ⟨stored, hstored, hstatus⟩ := h.held j id lease hold
        refine ⟨stored, (hothers id ?_).trans hstored, hstatus⟩
        rintro rfl
        exact hunheld j lease hold
    · intro j k id lease lease' hj hk
      obtain ⟨rfl, rfl, -⟩ | hj := hholds j id lease hj
      · obtain ⟨rfl, -, -⟩ | hk := hholds k task.id lease' hk
        · rfl
        · exact absurd hk (hunheld k lease')
      · obtain ⟨rfl, rfl, -⟩ | hk := hholds k id lease' hk
        · exact absurd hj (hunheld j lease)
        · exact h.unique j k id lease lease' hj hk
    · intro j id lease hj hread
      obtain ⟨-, rfl, rfl⟩ | hj := hholds j id lease hj
      · exact hlease (hreads _ _ hread)
      · exact h.fresh j id lease hj (hreads _ _ hread)
    · intro id j hj
      rw [hledger] at hj
      by_cases hid : id = task.id
      · subst hid
        cases (Function.update_self _ _ _).symm.trans hj
        exact ⟨_, hnew⟩
      · obtain ⟨lease, hold⟩ := h.leases id j ((Function.update_of_ne hid _ _).symm.trans hj)
        have hne : j ≠ i := by
          rintro rfl
          obtain ⟨found, held, hfound, hheld, -⟩ := hold
          cases hpass.symm.trans hfound
          cases hnone.symm.trans hheld
        rw [hpasses]
        exact ⟨lease, holds_set_of_ne hne hold⟩
    · rw [hledger]
      exact h.live
    · rw [hledger]
      exact h.written
  | kept hsame =>
    rw [if_neg Bool.false_ne_true] at happlied hledger
    have hheld : pass'.stage.held = pass.stage.held := (happlied.held hnone).trans hnone.symm
    have hlapsed : pass'.lapsed ⊆ pass.lapsed := happlied.lapsed ▸ List.Subset.refl _
    refine h.of_frame (fun j id lease ↦ ?_) (fun _ id _ _ ↦ hsame id) ?_ (fun _ _ hi ↦ hledger ▸ hi)
      (hledger ▸ h.live) (hledger ▸ h.written)
    · rw [hpasses]
      exact holds_set hpass hheld happlied.leaseExpiresAt
    · intro j id lease hj hreads
      rw [hpasses] at hreads
      exact h.fresh j id lease hj (reads_set hpass hlapsed hreads)

theorem release_leases {ledger : Ledger} {id' : String} {k : ℕ}
    (h : (TaskQueue.release ledger i id).leases id' = some k) : ledger.leases id' = some k ∧ (id' = id → k ≠ i) := by
  unfold TaskQueue.release at h
  split at h
  · next hlease =>
    by_cases hid : id' = id
    · subst hid
      cases (Function.update_self _ _ _).symm.trans h
    · exact ⟨(Function.update_of_ne hid _ _).symm.trans h, fun heq ↦ absurd heq hid⟩
  · next hlease =>
    refine ⟨h, ?_⟩
    rintro rfl rfl
    exact hlease h

theorem release_of_leases {ledger : Ledger} :
    (TaskQueue.release ledger i id).writes = ledger.writes ∧
      (TaskQueue.release ledger i id).reapedLive = ledger.reapedLive := by
  unfold TaskQueue.release
  split <;> exact ⟨rfl, rfl⟩

theorem Leased.complete (h : Leased queue) {ending : Ending} (hpass : queue.passes[i]? = some pass)
    (hstage : pass.stage = .executed task ending) : Leased (queue.complete i pass task ending) := by
  obtain ⟨applied, pass', hresumed, hmove, hpasses, hledger⟩ := @complete_transacted queue i pass task ending
  generalize queue.complete i pass task ending = queue' at *
  have hdone : Holds queue.passes i task.id pass.leaseExpiresAt :=
    ⟨pass, task, hpass, hstage ▸ rfl, rfl, rfl⟩
  have hnone : pass'.stage.held = none := hresumed.held rfl
  have hlapsed : pass'.lapsed ⊆ pass.lapsed := hresumed.lapsed ▸ List.Subset.refl _
  have hholds : ∀ j id lease, Holds queue'.passes j id lease → j ≠ i ∧ Holds queue.passes j id lease := by
    intro j id lease hj
    rw [hpasses] at hj
    exact holds_set_of_none hnone hj
  have hothers : ∀ id, id ≠ task.id → queue'.row id = queue.row id := by
    intro id hid
    cases hmove with
    | moved _ _ _ hothers => exact hothers id hid
    | kept hsame => exact hsame id
  have hwrites : ∀ write ∈ queue'.ledger.writes, ∀ holder ∈ write.2, write.1 = holder := by
    rw [hledger, release_of_leases.1]
    split
    · refine h.noteWrite fun holder hholder ↦ ?_
      obtain ⟨lease, hheld⟩ := h.leases task.id holder hholder
      exact h.unique i holder task.id _ lease hdone hheld
    · exact h.written
  constructor
  · intro j id lease hj
    obtain ⟨hne, hold⟩ := hholds j id lease hj
    have hid : id ≠ task.id := by
      rintro rfl
      exact hne (h.unique j i task.id lease _ hold hdone)
    rw [hothers id hid]
    exact h.held j id lease hold
  · intro j k id lease lease' hj hk
    exact h.unique j k id lease lease' (hholds j id lease hj).2 (hholds k id lease' hk).2
  · intro j id lease hj hreads
    rw [hpasses] at hreads
    exact h.fresh j id lease (hholds j id lease hj).2 (reads_set hpass hlapsed hreads)
  · intro id k hk
    rw [hledger] at hk
    obtain ⟨hk, hne⟩ := release_leases hk
    have hold : queue.ledger.leases id = some k := by
      split at hk <;> exact hk
    obtain ⟨lease, hheld⟩ := h.leases id k hold
    have hki : k ≠ i := by
      rintro rfl
      exact hne (hheld.id_eq hdone) rfl
    rw [hpasses]
    exact ⟨lease, holds_set_of_ne hki hheld⟩
  · rw [hledger, release_of_leases.2]
    split <;> exact h.live
  · exact hwrites

theorem Leased.submit (h : Leased queue) {application : TaskApplication} {now : ℚ}
    (hnew : queue.row application.id = none) : Leased (queue.submit application now) := by
  refine h.of_frame (fun _ _ _ ↦ Iff.rfl) (fun j id lease hj ↦ ?_) h.fresh (fun _ _ hi ↦ hi) h.live h.written
  obtain ⟨row, hrow, -⟩ := h.held j id lease hj
  apply row_submit_of_ne
  rintro rfl
  cases hnew.symm.trans hrow

theorem Leased.start (h : Leased queue) (hheld : pass.stage.held = none) (hlapsed : pass.lapsed = []) :
    Leased { queue with passes := queue.passes ++ [pass] } := by
  have hholds : ∀ j id lease, Holds (queue.passes ++ [pass]) j id lease ↔ Holds queue.passes j id lease := by
    intro j id lease
    constructor
    · intro hj
      obtain ⟨found, task, hfound, htask, hid, heq⟩ := hj
      obtain ⟨-, rfl⟩ | hfound := getElem?_concat_cases hfound
      · cases hheld.symm.trans htask
      · exact ⟨found, task, hfound, htask, hid, heq⟩
    · intro hj
      obtain ⟨found, task, hfound, htask, hid, heq⟩ := hj
      exact ⟨found, task, getElem?_concat_of_some hfound, htask, hid, heq⟩
  refine h.of_frame hholds (fun _ _ _ _ ↦ rfl) (fun j id lease hj hreads ↦ ?_) (fun _ _ hi ↦ hi) h.live
    h.written
  obtain ⟨found, hfound, task, htask, hid, hcell⟩ := hreads
  obtain hold | hnew := List.mem_append.1 hfound
  · exact h.fresh j id lease hj ⟨found, hold, task, htask, hid, hcell⟩
  · rw [List.mem_singleton.1 hnew, hlapsed] at htask
    cases htask

theorem Leased.exec (h : Leased queue) (op : WorkerOp) (hop : KeepsLeases queue op) :
    Leased (queue.exec op) := by
  have hstep := exec_stepped queue op
  generalize queue.exec op = queue' at hstep ⊢
  cases hstep with
  | idle => exact h
  | tick =>
    exact h.of_frame (fun _ _ _ ↦ Iff.rfl) (fun _ _ _ _ ↦ rfl) h.fresh (fun _ _ hi ↦ hi) h.live h.written
  | start => exact h.start rfl rfl
  | select hpass hstage hids => exact h.select hpass hstage hids (hop _ hpass hstage)
  | reaped hpass hstage => exact h.setPass hpass (hstage ▸ rfl) rfl (List.Subset.refl _)
  | reap hpass hstage hlapsed => exact h.reapLease hpass hstage hlapsed
  | scan hpass hstage => exact h.setPass hpass (hstage ▸ rfl) rfl (List.Subset.refl _)
  | defer hpass hstage => exact h.setPass hpass rfl rfl (List.Subset.refl _)
  | reject hpass hstage => exact h.reject hpass hstage
  | claim hpass hstage hrest => exact h.claim hpass hstage (hop _ _ _ hpass hstage hrest)
  | through hpass hstage => exact h.setPass hpass (hstage ▸ rfl) rfl (List.Subset.refl _)
  | execute hpass hstage => exact h.setPass hpass (hstage ▸ rfl) rfl (List.Subset.refl _)
  | finish hpass hstage => exact h.setPass hpass (hstage ▸ rfl) rfl (List.Subset.refl _)
  | complete hpass hstage => exact h.complete hpass hstage
  | crash => cases hop
  | submit hnew => exact h.submit hnew

end Steps

/-! ## Runs -/

/-- Any table of schedule runs, before a tick has started. -/
def startQueue (db : Db) (ids : List String) (clock : ℚ) : TaskQueue := ⟨clock, db, ids, [], {}⟩

def TaskQueue.run (queue : TaskQueue) (ops : List WorkerOp) : TaskQueue := ops.foldl TaskQueue.exec queue

theorem leased_startQueue (db : Db) (ids : List String) (clock : ℚ) : Leased (startQueue db ids clock) where
  held _ _ _ h := by
    obtain ⟨_, _, hpass, -⟩ := h
    cases hpass
  unique _ _ _ _ _ h := by
    obtain ⟨_, _, hpass, -⟩ := h
    cases hpass
  fresh _ _ _ h := by
    obtain ⟨_, _, hpass, -⟩ := h
    cases hpass
  leases _ _ h := by cases h
  live := rfl
  written _ h := absurd h List.not_mem_nil

/-- Over every run of ticks of any number of workers in which no tick that reads the lapsed leases has
started after the end of a lease whose holder has not finished, one tick at a time executes a row, no lease
of a row that is executed is reaped, and terminal statuses are written under the lease. -/
theorem executesExclusively_throughout (db : Db) (ids : List String) (clock : ℚ) (ops : List WorkerOp)
    (hops : Along TaskQueue.exec KeepsLeases (startQueue db ids clock) ops) :
    Throughout TaskQueue.exec ExecutesExclusively (startQueue db ids clock) ops := by
  have hleased : Throughout TaskQueue.exec Leased (startQueue db ids clock) ops :=
    .of_along (fun _ op h hop ↦ h.exec op hop) (leased_startQueue db ids clock) hops
  exact hleased.mono fun _ h ↦ h.executesExclusively

/-! ## Two workers -/

section TwoWorkers

variable {queue : TaskQueue} {i : ℕ}

/-- No tick has started after the end of a lease of another one. -/
theorem keepsLeases_select {ids : List String}
    (h : ∀ pass ∈ queue.passes, ∀ holder ∈ queue.passes, pass.now ≤ holder.leaseExpiresAt) :
    KeepsLeases queue (.select i ids) := by
  intro pass hpass _ j id lease hj
  obtain ⟨holder, _, hholder, -, -, rfl⟩ := hj
  exact h pass (List.mem_of_getElem? hpass) holder (List.mem_of_getElem? hholder)

/-- No lease is yet to be reaped. -/
theorem keepsLeases_claim (h : ∀ pass ∈ queue.passes, pass.lapsed.length = 0) : KeepsLeases queue (.claim i) := by
  intro pass task rest _ _ _ hreads
  obtain ⟨reaper, hreaper, task, htask, -⟩ := hreads
  rw [List.length_eq_zero_iff.1 (h reaper hreaper)] at htask
  cases htask

def agentTask (id : String) : TaskApplication where
  id := id
  actionKind := "agent"
  actionArgs := "\x7b\x7d"

def tasksDb (ids : List String) : Db where
  rows table id := if table = runsTable ∧ id ∈ ids then some ((agentTask id).row 0) else none
  history := []
  adminEvents := []

/-- The start of a tick up to the scan for candidates. -/
def startTick (i : ℕ) (worker : String) (now : ℚ) (lapsed ids : List String) : List WorkerOp :=
  [.start worker now defaultLeaseTtlSeconds, .select i lapsed] ++ lapsed.map (fun _ ↦ .reap i) ++
    [.reap i, .scan i ids]

/-- Two workers execute a row each, and the first one loses the race for the second row. -/
theorem executesExclusively_startTick :
    Throughout TaskQueue.exec ExecutesExclusively (startQueue (tasksDb ["a", "b"]) ["a", "b"] 0)
      (startTick 0 "w0" 0 [] ["a", "b"] ++ [.claim 0, .execute 0, .tick 10] ++
        startTick 1 "w1" 10 [] ["b"] ++
        [.claim 1, .execute 1, .finish 0 (.exited 0 ""), .complete 0, .claim 0]) := by
  apply executesExclusively_throughout
  refine ⟨trivial, ?_, trivial, trivial, ?_, trivial, trivial, trivial, ?_, trivial, trivial, ?_, trivial,
    trivial, trivial, ?_, trivial⟩
  · apply keepsLeases_select
    decide +kernel
  · apply keepsLeases_claim
    decide +kernel
  · apply keepsLeases_select
    decide +kernel
  · apply keepsLeases_claim
    decide +kernel
  · apply keepsLeases_claim
    decide +kernel

/-- The first of two rows takes 200 seconds. While the second one is executed, the lease of 300 seconds
from the start of the tick ends, and another worker reaps it and claims the row. -/
def lateClaim : List WorkerOp :=
  startTick 0 "w0" 0 [] ["a", "b"] ++
    [.claim 0, .execute 0, .tick 200, .finish 0 (.exited 0 ""), .complete 0, .claim 0, .execute 0,
      .tick 101] ++
    startTick 1 "w1" 301 ["b"] ["b"] ++ [.claim 1, .execute 1]

/-- The row that is executed by a tick. -/
def TaskQueue.executing (queue : TaskQueue) (i : ℕ) : Option String :=
  match queue.passes[i]? with
  | some ⟨_, _, _, _, _, _, .executing task _ _⟩ => some task.id
  | _ => none

theorem executing_of_eq_some {id : String} (h : queue.executing i = some id) : Executing queue.passes i id := by
  unfold TaskQueue.executing at h
  split at h
  · next task since began hpass => exact ⟨_, task, since, began, hpass, rfl, Option.some.inj h⟩
  · cases h

theorem not_executesExclusively_throughout :
    ¬ (Along TaskQueue.exec InTime (startQueue (tasksDb ["a", "b"]) ["a", "b"] 0) lateClaim →
      Throughout TaskQueue.exec ExecutesExclusively (startQueue (tasksDb ["a", "b"]) ["a", "b"] 0)
        lateClaim) := by
  intro h
  have htime : Along TaskQueue.exec InTime (startQueue (tasksDb ["a", "b"]) ["a", "b"] 0) lateClaim := by
    decide +kernel
  have hfirst : Executing ((startQueue (tasksDb ["a", "b"]) ["a", "b"] 0).run lateClaim).passes 0 "b" := by
    apply executing_of_eq_some
    decide +kernel
  have hsecond : Executing ((startQueue (tasksDb ["a", "b"]) ["a", "b"] 0).run lateClaim).passes 1 "b" := by
    apply executing_of_eq_some
    decide +kernel
  have heq : 0 = 1 := (h htime).final.exclusive 0 1 "b" hfirst hsecond
  exact absurd heq Nat.zero_ne_one

end TwoWorkers

end Lionagi.Scheduler
