import Lionagi.Operations.ExecutorSafety

/-!
# Progress signals

Every announced operation is owed one terminal signal. The exits of `_execute_operation` pay it, except
those by an unexpected exception before the start; what a cancelled run leaves open is swept at its end.
Tasks are kept under arbitrary keys here, so that one operation may have several.
-/

namespace Lionagi.Operations

open Ln Transition Executor

/-! ## Signals of one operation -/

section Signals

variable {U : Type} [DecidableEq U]

/-- The terminal signals of an operation, in the order in which they were emitted. -/
def Executor.terminals (e : Executor U) (n : U) : List (U × Progress) :=
  e.progress.filter fun entry ↦ entry.1 = n ∧ entry.2.terminal = true

/-- At most one terminal signal is added, it is one of `n`, and it is remembered. -/
structure Executor.Pays (n : U) (e e' : Executor U) : Prop where
  others : ∀ m, m ≠ n → e'.terminals m = e.terminals m
  own : (e'.record n).terminalEmitted = (e.record n).terminalEmitted ∧
      e'.terminals n = e.terminals n ∨
    (e.record n).terminalEmitted = false ∧ (e'.record n).terminalEmitted = true ∧
      (e'.terminals n).length = (e.terminals n).length + 1

theorem Executor.Pays.refl (n : U) (e : Executor U) : Pays n e e :=
  ⟨fun _ _ ↦ rfl, .inl ⟨rfl, rfl⟩⟩

theorem Executor.Pays.trans {n : U} {e₁ e₂ e₃ : Executor U} (h : Pays n e₁ e₂)
    (h' : Pays n e₂ e₃) : Pays n e₁ e₃ where
  others m hm := (h'.others m hm).trans (h.others m hm)
  own := by
    obtain ⟨hflag, hlist⟩ | ⟨hopen, hpaid, hlength⟩ := h.own
    · obtain ⟨hflag', hlist'⟩ | ⟨hopen', hpaid', hlength'⟩ := h'.own
      · exact .inl ⟨hflag'.trans hflag, hlist'.trans hlist⟩
      · exact .inr ⟨hflag.symm.trans hopen', hpaid', hlist ▸ hlength'⟩
    · obtain ⟨hflag', hlist'⟩ | ⟨hopen', -, -⟩ := h'.own
      · exact .inr ⟨hopen, hflag'.trans hpaid, hlist' ▸ hlength⟩
      · exact absurd (hpaid.symm.trans hopen') (by decide)

theorem Executor.pays_modify (e : Executor U) (n : U) {f : Record U → Record U}
    (hf : (f (e.record n)).terminalEmitted = (e.record n).terminalEmitted) :
    Pays n e (e.modify n f) :=
  ⟨fun _ _ ↦ rfl, .inl ⟨by simpa using hf, rfl⟩⟩

theorem Executor.pays_setEvent (e : Executor U) (n : U) : Pays n e (e.setEvent n) :=
  e.pays_modify n rfl

theorem Executor.pays_emitTerminalOnce (e : Executor U) (n : U) {p : Progress}
    (hp : p.terminal = true) : Pays n e (e.emitTerminalOnce n p) := by
  unfold emitTerminalOnce
  split
  · exact .refl n e
  · next hopen =>
    refine ⟨fun m hm ↦ ?_, .inr ⟨by simpa using hopen, by simp, ?_⟩⟩
    · simp [terminals, emitProgress, hm.symm]
    · simp [terminals, emitProgress, hp]

theorem Executor.pays_emitAbandonedTerminal (e : Executor U) (n : U) {p : Progress}
    (hp : p.terminal = true) (requireStarted : Bool) :
    Pays n e (e.emitAbandonedTerminal n p requireStarted) := by
  unfold emitAbandonedTerminal
  split
  · exact .refl n e
  · exact e.pays_emitTerminalOnce n hp

theorem Executor.pays_preterminal (e : Executor U) (n : U) : Pays n e (e.preterminal n) := by
  unfold preterminal
  dsimp only
  have hbook : Pays n e (e.modify n fun r ↦ { r with book := preterminalBook r }) :=
    e.pays_modify n rfl
  cases hstatus : (e.record n).status with
  | completed | failed | skipped | cancelled =>
    exact (hbook.trans (pays_emitTerminalOnce _ n rfl)).trans (pays_setEvent _ n)
  | pending | processing | aborted => exact hbook.trans (pays_setEvent _ n)

theorem Executor.pays_fail (e : Executor U) (n : U) (message : String) :
    Pays n e (e.fail n message) :=
  ((e.pays_modify n rfl).trans (pays_emitAbandonedTerminal _ n rfl _)).trans (pays_setEvent _ n)

theorem Executor.pays_cancel (e : Executor U) (n : U) : Pays n e (e.cancel n) :=
  ((e.pays_setEvent n).trans (pays_modify _ n rfl)).trans (pays_emitAbandonedTerminal _ n rfl _)

/-- Only the record of an operation and the signals matter to what it is owed. -/
theorem Executor.Pays.of_eq {n : U} {e e₁ e' : Executor U} (h : Pays n e₁ e')
    (hrecord : (e₁.record n).terminalEmitted = (e.record n).terminalEmitted)
    (hprogress : ∀ m, e₁.terminals m = e.terminals m) : Pays n e e' :=
  Pays.trans ⟨fun m _ ↦ hprogress m, .inl ⟨hrecord, hprogress n⟩⟩ h

/-- What has been signalled and what is remembered agree. -/
def Executor.Once (e : Executor U) : Prop :=
  ∀ n, (e.terminals n).length = if (e.record n).terminalEmitted then 1 else 0

theorem Executor.Once.pays {n : U} {e e' : Executor U} (h : e.Once) (hpays : Pays n e e')
    (hrecord : ∀ m, m ≠ n → e'.record m = e.record m) : e'.Once := by
  intro m
  by_cases hm : m = n
  · subst hm
    have hold := h m
    obtain ⟨hflag, hlist⟩ | ⟨hopen, hpaid, hlength⟩ := hpays.own
    · rw [hflag, hlist, hold]
    · rw [hlength, hold, hopen, hpaid]
      rfl
  · rw [hpays.others m hm, hrecord m hm]
    exact h m

/-- `_cancel_announced_unfinished`, over the operations that were announced. -/
def Executor.cancelAnnouncedUnfinished (e : Executor U) (announced : List U) : Executor U :=
  announced.foldl (fun e n ↦ e.emitAbandonedTerminal n .cancelled false) e

/-- The sweep leaves every announced operation with one terminal signal. -/
theorem Executor.Once.swept {e : Executor U} (h : e.Once) {announced : List U} {n : U}
    (hn : n ∈ announced) : ((e.cancelAnnouncedUnfinished announced).terminals n).length = 1 := by
  have hfold : ∀ (l : List U) (e : Executor U), e.Once → (n ∈ l ∨ (e.record n).terminalEmitted = true) →
      ((e.cancelAnnouncedUnfinished l).terminals n).length = 1 := by
    intro l
    induction l with
    | nil =>
      intro e he hpaid
      have hflag : (e.record n).terminalEmitted = true := hpaid.resolve_left List.not_mem_nil
      rw [show e.cancelAnnouncedUnfinished [] = e from rfl, he n, if_pos hflag]
    | cons m l ih =>
      intro e he hpaid
      have hrecord := e.record_emitAbandonedTerminal m .cancelled false
      refine ih _ (he.pays (e.pays_emitAbandonedTerminal m rfl false) fun k hk ↦ ?_) ?_
      · rw [hrecord, Function.update_of_ne hk]
      · by_cases hnm : n = m
        · right
          rw [hrecord, hnm, Function.update_self]
          simp
        · apply Or.imp (fun hmem ↦ (List.mem_cons.1 hmem).resolve_left hnm) (fun hflag ↦ ?_) hpaid
          rw [hrecord, Function.update_of_ne hnm]
          exact hflag
  exact hfold announced e h (.inl hn)

variable [ToString U]

theorem Executor.pays_skip (e : Executor U) (n : U) (reason : Option (GateReason U)) :
    Pays n e (e.skip n reason) :=
  ((e.pays_modify n rfl).trans (pays_emitTerminalOnce _ n rfl)).trans (pays_setEvent _ n)

variable [JsonLoads]

theorem Executor.pays_settle (e : Executor U) (n : U) (op : Operation) :
    Pays n e (e.settle n op) := by
  have hkeep : ∀ (e' : Executor U) {p : Progress}, p.terminal = true →
      Pays n e' ((e'.emitTerminalOnce n p).setEvent n) := fun e' _ hp ↦
    (e'.pays_emitTerminalOnce n hp).trans (pays_setEvent _ n)
  unfold settle
  dsimp only
  split
  · split
    · exact (e.pays_modify n rfl).trans (hkeep _ rfl)
    · exact ((pays_modify _ n rfl).trans (hkeep _ rfl)).of_eq rfl fun _ ↦ rfl
    · exact (e.pays_modify n rfl).trans (hkeep _ rfl)
  · exact (e.pays_modify n rfl).trans (hkeep _ rfl)
  · exact hkeep _ rfl
  · exact e.pays_setEvent n

theorem Executor.pays_conclude (e : Executor U) (n : U) (op : Operation) (outcome : Outcome) :
    Pays n e (e.conclude n op outcome) := by
  cases outcome with
  | completed response => exact ((pays_modify _ n rfl).trans (pays_settle _ n op)).of_eq rfl fun _ ↦ rfl
  | failed message => exact ((pays_modify _ n rfl).trans (pays_settle _ n op)).of_eq rfl fun _ ↦ rfl
  | cancelled => exact ((pays_modify _ n rfl).trans (pays_cancel _ n)).of_eq rfl fun _ ↦ rfl

omit [ToString U] [JsonLoads] in
theorem Executor.pays_begin (e : Executor U) (n : U) (parameters : Entries) :
    Pays n e (e.begin n parameters) := by
  refine ⟨fun m hm ↦ ?_, .inl ⟨by simp [startedRecord], ?_⟩⟩
  · simp [Executor.begin, terminals, emitProgress, Progress.terminal]
  · simp [Executor.begin, terminals, emitProgress, Progress.terminal]

omit [ToString U] [JsonLoads] in
theorem Executor.pays_process (e : Executor U) (n : U) : Pays n e (e.process n) :=
  ⟨fun _ _ ↦ rfl, .inl ⟨by simp, rfl⟩⟩

variable {κ : Type} {G : OperationGraph U κ} {capacity : ℕ} {n : U} {op : Operation}
variable {e e' : Executor U} {t t' : TaskState U κ} {action : Action}

theorem Moves.pays (h : Moves G capacity n op e t action e' t') : Pays n e e' := by
  cases h with
  | preterminal => exact e.pays_preterminal n
  | skipped => exact e.pays_skip n _
  | invoke => exact (e.pays_begin n _).trans (pays_process _ n)
  | noInvoke => exact (e.pays_begin n _).trans (pays_settle _ n op)
  | settled => exact e.pays_conclude n op _
  | stopped => exact e.pays_conclude n op _
  | cancelled => exact e.pays_cancel n
  | unreadable | conditionRaised | noEvent | unprepared => exact e.pays_fail n _
  | _ => exact .refl n e

end Signals

/-! ## What a move does to the status -/

section Courses

variable {U κ : Type} [DecidableEq U] [ToString U] [JsonLoads]

/-- The task is under way, neither at its beginning nor at its end. -/
def TaskState.Inside : TaskState U κ → Prop
  | created => False
  | finished _ => False
  | _ => True

/-- How a move of the task of an operation changes the record of the operation. -/
inductive Course (r r' : Record U) : TaskState U κ → Action → TaskState U κ → Prop
  | inner {t action t'} (hrecord : r' = r) (hopen : t = .created → r.status.terminal = false)
      (ht : ∀ prepared, t ≠ .invoking prepared) (ht' : t'.Inside)
      (hnew : ∀ prepared, t' ≠ .invoking prepared) : Course r r' t action t'
  | failed {t action exit} (hstatus : r'.status = r.status) (ht : t.Inside)
      (hnot : ∀ prepared, t ≠ .invoking prepared) (hexit : exit = .scanError ∨ exit = .error) :
      Course r r' t action (.finished exit)
  | answered {t action exit} (hstatus : r'.status.terminal = true) (hpaid : r'.terminalEmitted = true)
      (hkeep : r'.status = .aborted → r.status = .aborted) (ht : t.Inside)
      (hexit : exit = .skipped ∨ exit = .settled ∨ exit = .cancelled)
      (hcancelled : exit = .cancelled → action = .cancel ∨ action = .returned .cancelled) :
      Course r r' t action (.finished exit)
  | preterminal {action} (hstatus : r'.status = r.status) (hterminal : r.status.terminal = true)
      (hpaid : r.status ≠ .aborted → r'.terminalEmitted = true) :
      Course r r' .created action (.finished .preterminal)
  | invoked {action prepared} (hstatus : r.status = .pending) (hstatus' : r'.status = .processing) :
      Course r r' .acquiring action (.invoking prepared)
  | unanswered {action} (hstatus : r'.status = r.status)
      (hopen : r.status = .processing ∨ r.status = .skipped ∨ r.status = .aborted) :
      Course r r' .acquiring action (.finished .settled)
  | abandoned (hrecord : r' = r) : Course r r' .created .cancel (.finished .abandoned)

variable {G : OperationGraph U κ} {capacity : ℕ} {n : U} {op : Operation}
variable {e e' : Executor U} {t t' : TaskState U κ} {action : Action}

omit [DecidableEq U] in
theorem answered_settledRecord (n : U) (op : Operation) {r : Record U}
    (h : r.status = .completed ∨ r.status = .failed ∨ r.status = .cancelled) :
    (settledRecord n op r).status.terminal = true ∧ (settledRecord n op r).terminalEmitted = true ∧
      (settledRecord n op r).status ≠ .aborted := by
  unfold settledRecord
  obtain hstatus | hstatus | hstatus := h
  · simp only [hstatus]
    split <;> simp [raised, hstatus, EventStatus.terminal]
  · simp [hstatus, raised, EventStatus.terminal]
  · simp [hstatus, raised, EventStatus.terminal]

omit [DecidableEq U] [ToString U] [JsonLoads] in
theorem answered_cancelledRecord (r : Record U) :
    (cancelledRecord r).status.terminal = true ∧ (cancelledRecord r).terminalEmitted = true ∧
      ((cancelledRecord r).status = .aborted → r.status = .aborted) := by
  unfold cancelledRecord
  cases hstatus : r.status <;> simp [EventStatus.terminal]

theorem Moves.course (h : Moves G capacity n op e t action e' t') :
    Course (e.record n) (e'.record n) t action t' := by
  cases h with
  | preterminal hterminal =>
    rw [record_preterminal, Function.update_self]
    refine .preterminal rfl hterminal fun hstatus ↦ ?_
    have hannounce : (announceStatus (e.record n).status).isSome = true := by
      cases hs : (e.record n).status <;> simp_all [EventStatus.terminal, announceStatus]
    simp [preterminalRecord, hannounce]
  | source hopen => exact .inner rfl (fun _ ↦ hopen) (by simp) trivial (by simp)
  | scan hopen => exact .inner rfl (fun _ ↦ hopen) (by simp) trivial (by simp)
  | unreadable | conditionRaised =>
    rw [record_fail, Function.update_self]
    exact .failed rfl trivial (by simp) (.inl rfl)
  | noEvent | unprepared =>
    rw [record_fail, Function.update_self]
    exact .failed rfl trivial (by simp) (.inr rfl)
  | skipped =>
    rw [record_skip, Function.update_self]
    exact .answered rfl rfl (by simp [skippedRecord]) trivial (.inl rfl) (by simp)
  | invoke hcap hprepare hstatus => exact .invoked hstatus (by simp)
  | noInvoke hcap hprepare hstatus =>
    rw [record_settle, Function.update_self, record_begin, Function.update_self]
    cases hs : (e.record n).status with
    | pending => exact absurd hs hstatus
    | completed =>
      obtain ⟨hterminal, hpaid, hkeep⟩ := answered_settledRecord n op
        (r := startedRecord _ (e.record n)) (.inl hs)
      exact .answered hterminal hpaid (fun h ↦ absurd h hkeep) trivial (.inr (.inl rfl)) (by simp)
    | failed =>
      obtain ⟨hterminal, hpaid, hkeep⟩ := answered_settledRecord n op
        (r := startedRecord _ (e.record n)) (.inr (.inl hs))
      exact .answered hterminal hpaid (fun h ↦ absurd h hkeep) trivial (.inr (.inl rfl)) (by simp)
    | cancelled =>
      obtain ⟨hterminal, hpaid, hkeep⟩ := answered_settledRecord n op
        (r := startedRecord _ (e.record n)) (.inr (.inr hs))
      exact .answered hterminal hpaid (fun h ↦ absurd h hkeep) trivial (.inr (.inl rfl)) (by simp)
    | processing => exact .unanswered (by simp [settledRecord, startedRecord, raised, hs]) (.inl hs)
    | skipped =>
      exact .unanswered (by simp [settledRecord, startedRecord, raised, hs]) (.inr (.inl hs))
    | aborted =>
      exact .unanswered (by simp [settledRecord, startedRecord, raised, hs]) (.inr (.inr hs))
  | @settled prepared outcome houtcome =>
    rw [record_conclude, Function.update_self]
    have hanswered : (concludedRecord n op outcome (e.record n)).status.terminal = true ∧
        (concludedRecord n op outcome (e.record n)).terminalEmitted = true ∧
        (concludedRecord n op outcome (e.record n)).status ≠ .aborted := by
      cases outcome with
      | completed response => exact answered_settledRecord n op (.inl rfl)
      | failed message => exact answered_settledRecord n op (.inr (.inl rfl))
      | cancelled => exact absurd rfl houtcome
    exact .answered hanswered.1 hanswered.2.1 (fun h ↦ absurd h hanswered.2.2) trivial
      (.inr (.inl rfl)) (by simp)
  | stopped haction =>
    rw [record_conclude, Function.update_self]
    exact .answered rfl rfl (by simp [concludedRecord, cancelledRecord, EventStatus.terminal])
      trivial (.inr (.inr rfl)) fun _ ↦ haction.symm
  | abandoned => exact .abandoned rfl
  | @cancelled t hcreated hinvoking hfinished =>
    rw [record_cancel, Function.update_self]
    obtain ⟨hterminal, hpaid, hkeep⟩ := answered_cancelledRecord (e.record n)
    refine .answered hterminal hpaid hkeep ?_ (.inr (.inr rfl)) fun _ ↦ .inl rfl
    cases t with
    | created => exact absurd rfl hcreated
    | finished exit => exact absurd rfl (hfinished exit)
    | _ => trivial
  | _ => exact .inner rfl (by simp) (by simp) trivial (by simp)

end Courses

/-! ## The invariant -/

namespace RunState

variable {K U κ : Type} [DecidableEq K] [DecidableEq U] [ToString U] [JsonLoads]

/-- The body of an operation is running in one of its tasks. -/
def Running (s : RunState K U κ) (n : U) : Prop :=
  ∃ key prepared, s.task key = some ⟨n, .invoking prepared⟩

/-- `announced` gives the status that an operation had when it was announced. -/
structure Settling (announced : U → Option EventStatus) (s : RunState K U κ) : Prop where
  once : s.executor.Once
  terminal : ∀ n st, announced n = some st → (s.executor.record n).status.terminal = true →
    (s.executor.record n).terminalEmitted = true ∨ (s.executor.record n).status = st
  stays : ∀ n st, announced n = some st → st.terminal = true →
    (s.executor.record n).status.terminal = true
  outside : ∀ key n t st, s.task key = some ⟨n, t⟩ → announced n = some st → st.terminal = true →
    ¬ t.Inside
  aborted : ∀ n st, announced n = some st → (s.executor.record n).status = .aborted → st = .aborted
  processing : ∀ n st, announced n = some st → (s.executor.record n).status = .processing →
    st = .processing ∨ s.Running n
  answered : ∀ key n exit st, s.task key = some ⟨n, .finished exit⟩ → announced n = some st →
    st ≠ .aborted → st ≠ .processing → exit ≠ .scanError → exit ≠ .error → exit ≠ .abandoned →
    (s.executor.record n).terminalEmitted = true ∨ s.Running n
  stopped : ∀ key n exit, s.task key = some ⟨n, .finished exit⟩ →
    exit = .abandoned ∨ exit = .cancelled → s.cancelling = true

variable {announced : U → Option EventStatus} {s : RunState K U κ} {key : K} {n : U}
variable {op : Operation} {t t' : TaskState U κ} {action : Action} {e' : Executor U}

omit [DecidableEq U] [ToString U] [JsonLoads] in
/-- A body keeps running while a task moves that does not run it. -/
theorem Running.moved {m : U} (h : s.Running m) (htask : s.task key = some ⟨n, t⟩)
    (hother : m ≠ n ∨ ∀ prepared, t ≠ .invoking prepared) :
    (s.moved key n action e' t').Running m := by
  obtain ⟨key', prepared, hrunning⟩ := h
  have hkey : key' ≠ key := by
    rintro rfl
    rw [htask, Option.some.injEq, Task.mk.injEq] at hrunning
    obtain hm | ht := hother
    · exact hm hrunning.1.symm
    · exact ht prepared hrunning.2
  exact ⟨key', prepared, (Function.update_of_ne hkey _ _).trans hrunning⟩

omit [DecidableEq U] [ToString U] [JsonLoads] in
/-- The tasks after a move: the one that moved, and the others as they were. -/
theorem task_moved_cases {key' : K} {m : U} {u : TaskState U κ}
    (h : (s.moved key n action e' t').task key' = some ⟨m, u⟩) :
    (key' = key ∧ m = n ∧ u = t') ∨ (key' ≠ key ∧ s.task key' = some ⟨m, u⟩) := by
  unfold RunState.moved at h
  dsimp only at h
  by_cases hkey : key' = key
  · subst hkey
    rw [Function.update_self, Option.some.injEq, Task.mk.injEq] at h
    exact .inl ⟨rfl, h.1.symm, h.2.symm⟩
  · rw [Function.update_of_ne hkey] at h
    exact .inr ⟨hkey, h⟩

variable {G : OperationGraph U κ} {capacity : ℕ}

omit [ToString U] [JsonLoads] in
theorem paid_mono {e : Executor U} (hpays : Pays n e e') {m : U}
    (hrecord : m ≠ n → e'.record m = e.record m) (h : (e.record m).terminalEmitted = true) :
    (e'.record m).terminalEmitted = true := by
  by_cases hm : m = n
  · subst hm
    obtain ⟨hflag, -⟩ | ⟨hopen, -⟩ := hpays.own
    · exact hflag.trans h
    · exact absurd (h.symm.trans hopen) (by decide)
  · rw [hrecord hm]
    exact h

/-- The status of an operation and what it is owed, after one of its tasks has moved. -/
theorem Settling.own_moved (h : Settling announced s) (htask : s.task key = some ⟨n, t⟩)
    (hmove : Moves G capacity n op s.executor t action e' t') {st : EventStatus}
    (hst : announced n = some st) :
    ((e'.record n).status.terminal = true →
      (e'.record n).terminalEmitted = true ∨ (e'.record n).status = st) ∧
    (st.terminal = true → (e'.record n).status.terminal = true ∧ ¬ t'.Inside) ∧
    ((e'.record n).status = .aborted → st = .aborted) ∧
    ((e'.record n).status = .processing →
      st = .processing ∨ (s.moved key n action e' t').Running n) := by
  have hmono := paid_mono hmove.pays (m := n) (absurd rfl)
  have hstays := h.stays n st hst
  have houtside := h.outside key n t st htask hst
  -- whatever leaves the status alone leaves all four facts alone
  have hquiet : (e'.record n).status = (s.executor.record n).status →
      (∀ prepared, t ≠ .invoking prepared) → (st.terminal = true → ¬ t'.Inside) →
      ((e'.record n).status.terminal = true →
        (e'.record n).terminalEmitted = true ∨ (e'.record n).status = st) ∧
      (st.terminal = true → (e'.record n).status.terminal = true ∧ ¬ t'.Inside) ∧
      ((e'.record n).status = .aborted → st = .aborted) ∧
      ((e'.record n).status = .processing →
        st = .processing ∨ (s.moved key n action e' t').Running n) := by
    intro hstatus hidle hend
    rw [hstatus]
    refine ⟨fun hterminal ↦ (h.terminal n st hst hterminal).imp_left hmono,
      fun hterminal ↦ ⟨hstays hterminal, hend hterminal⟩, h.aborted n st hst, fun hprocessing ↦ ?_⟩
    exact (h.processing n st hst hprocessing).imp_right fun hrunning ↦
      hrunning.moved htask (.inr hidle)
  cases hmove.course with
  | inner hrecord hopen ht ht' hnew =>
    refine hquiet (congrArg Record.status hrecord) ht fun hterminal hinside ↦ ?_
    cases t with
    | created => exact absurd (hstays hterminal) (by simp [hopen rfl])
    | finished exit => exact hmove.not_finished exit rfl
    | _ => exact houtside hterminal trivial
  | failed hstatus ht hnot hexit => exact hquiet hstatus hnot fun _ ↦ id
  | answered hstatus hpaid hkeep ht hexit hcancelled =>
    refine ⟨fun _ ↦ .inl hpaid, fun _ ↦ ⟨hstatus, id⟩, fun haborted ↦ ?_, fun hprocessing ↦ ?_⟩
    · exact h.aborted n st hst (hkeep haborted)
    · simp [hprocessing, EventStatus.terminal] at hstatus
  | preterminal hstatus hterminal hpaid => exact hquiet hstatus (by simp) fun _ ↦ id
  | @invoked action prepared hstatus hstatus' =>
    refine ⟨fun hterminal ↦ ?_, fun hterminal ↦ ?_, fun haborted ↦ ?_, fun _ ↦ .inr ?_⟩
    · simp [hstatus', EventStatus.terminal] at hterminal
    · exact absurd trivial (houtside hterminal)
    · simp [hstatus'] at haborted
    · exact ⟨key, prepared, Function.update_self _ _ _⟩
  | unanswered hstatus hopen => exact hquiet hstatus (by simp) fun _ ↦ id
  | abandoned hrecord => exact hquiet (congrArg Record.status hrecord) (by simp) fun _ ↦ id

/-- What a task that comes to its end owes is paid, or another task of the operation will pay it. -/
theorem Settling.answered_moved (h : Settling announced s) (htask : s.task key = some ⟨n, t⟩)
    {exit : Exit} (hmove : Moves G capacity n op s.executor t action e' (.finished exit))
    {st : EventStatus} (hst : announced n = some st) (haborted : st ≠ .aborted)
    (hprocessing : st ≠ .processing) (hscan : exit ≠ .scanError) (herror : exit ≠ .error)
    (habandoned : exit ≠ .abandoned) :
    (e'.record n).terminalEmitted = true ∨
      (s.moved key n action e' (.finished exit)).Running n := by
  cases hmove.course with
  | inner hrecord hopen ht ht' hnew => exact absurd ht' id
  | failed hstatus ht hnot hexit => exact (hexit.elim hscan herror).elim
  | answered hstatus hpaid => exact .inl hpaid
  | preterminal hstatus hterminal hpaid =>
    exact .inl (hpaid fun hs ↦ haborted (h.aborted n st hst hs))
  | unanswered hstatus hopen =>
    obtain hs | hs | hs := hopen
    · obtain heq | hrunning := h.processing n st hst hs
      · exact absurd heq hprocessing
      · exact .inr (hrunning.moved htask (.inr (by simp)))
    · obtain hpaid | heq := h.terminal n st hst (by simp [hs, EventStatus.terminal])
      · exact .inl (paid_mono hmove.pays (absurd rfl) hpaid)
      · have hterminal : st.terminal = true := by simp [← heq, hs, EventStatus.terminal]
        exact absurd trivial (h.outside key n .acquiring st htask hst hterminal)
    · exact absurd (h.aborted n st hst hs) haborted
  | abandoned => exact absurd rfl habandoned

theorem Settling.moved (h : Settling announced s) (htask : s.task key = some ⟨n, t⟩)
    (hdeliver : action.deliverable s.cancelling = true)
    (hmove : Moves G capacity n op s.executor t action e' t') :
    Settling announced (s.moved key n action e' t') where
  once := h.once.pays hmove.pays fun _ ↦ hmove.record_of_ne
  terminal := by
    intro m st hst
    by_cases hm : m = n
    · subst hm
      exact (h.own_moved htask hmove hst).1
    · rw [show (s.moved key n action e' t').executor = e' from rfl, hmove.record_of_ne hm]
      exact h.terminal m st hst
  stays := by
    intro m st hst hterminal
    by_cases hm : m = n
    · subst hm
      exact ((h.own_moved htask hmove hst).2.1 hterminal).1
    · rw [show (s.moved key n action e' t').executor = e' from rfl, hmove.record_of_ne hm]
      exact h.stays m st hst hterminal
  outside := by
    intro key' m u st hu hst hterminal
    obtain ⟨-, rfl, rfl⟩ | ⟨-, hold⟩ := task_moved_cases hu
    · exact ((h.own_moved htask hmove hst).2.1 hterminal).2
    · exact h.outside key' m u st hold hst hterminal
  aborted := by
    intro m st hst
    by_cases hm : m = n
    · subst hm
      exact (h.own_moved htask hmove hst).2.2.1
    · rw [show (s.moved key n action e' t').executor = e' from rfl, hmove.record_of_ne hm]
      exact h.aborted m st hst
  processing := by
    intro m st hst
    by_cases hm : m = n
    · subst hm
      exact (h.own_moved htask hmove hst).2.2.2
    · rw [show (s.moved key n action e' t').executor = e' from rfl, hmove.record_of_ne hm]
      exact fun hprocessing ↦ (h.processing m st hst hprocessing).imp_right fun hrunning ↦
        hrunning.moved htask (.inl hm)
  answered := by
    intro key' m exit st hu hst haborted hprocessing hscan herror habandoned
    obtain ⟨-, rfl, rfl⟩ | ⟨-, hold⟩ := task_moved_cases hu
    · exact h.answered_moved htask hmove hst haborted hprocessing hscan herror habandoned
    · have hpast := h.answered key' m exit st hold hst haborted hprocessing hscan herror habandoned
      obtain hpaid | hrunning := hpast
      · exact .inl (paid_mono hmove.pays (fun hm ↦ hmove.record_of_ne hm) hpaid)
      · by_cases hidle : m ≠ n ∨ ∀ prepared, t ≠ .invoking prepared
        · exact .inr (hrunning.moved htask hidle)
        · -- the body that was running has just come to its end
          simp only [not_or, not_forall, not_not, ne_eq] at hidle
          obtain ⟨rfl, prepared, rfl⟩ := hidle
          cases hmove.course with
          | inner hrecord hopen ht => exact absurd rfl (ht prepared)
          | failed hstatus ht hnot => exact absurd rfl (hnot prepared)
          | answered hstatus hpaid => exact .inl hpaid
  stopped := by
    intro key' m exit hu hexit
    obtain ⟨-, rfl, rfl⟩ | ⟨-, hold⟩ := task_moved_cases hu
    · rw [RunState.moved, Bool.or_eq_true]
      cases hmove.course with
      | inner hrecord hopen ht ht' => exact absurd ht' id
      | failed hstatus ht hnot hfailed =>
        exact absurd hexit (by obtain rfl | rfl := hfailed <;> simp)
      | @answered _ _ _ hstatus hpaid hkeep ht hended hcancelled =>
        have hcancel : exit = .cancelled := by
          obtain rfl | rfl := hexit
          · simp at hended
          · rfl
        obtain rfl | rfl := hcancelled hcancel
        · exact .inl hdeliver
        · exact .inr rfl
      | preterminal => simp at hexit
      | unanswered => simp at hexit
      | abandoned => exact .inl hdeliver
    · rw [RunState.moved, Bool.or_eq_true]
      exact .inl (h.stopped key' m exit hold hexit)

omit [DecidableEq K] [ToString U] [JsonLoads] in
/-- What touches neither records, signals nor tasks. -/
theorem Settling.of_same {s' : RunState K U κ} (h : Settling announced s)
    (hrecord : s'.executor.record = s.executor.record)
    (hterminals : ∀ n, s'.executor.terminals n = s.executor.terminals n) (htask : s'.task = s.task)
    (hcancelling : s.cancelling = true → s'.cancelling = true) : Settling announced s' where
  once n := by
    rw [hterminals, hrecord]
    exact h.once n
  terminal n st hst := hrecord ▸ h.terminal n st hst
  stays n st hst := hrecord ▸ h.stays n st hst
  outside := htask ▸ h.outside
  aborted n st hst := hrecord ▸ h.aborted n st hst
  processing n st hst hprocessing := by
    rw [hrecord] at hprocessing
    exact (h.processing n st hst hprocessing).imp_right fun hrunning ↦ by
      rwa [Running, htask]
  answered key n exit st hu hst haborted hprocessing hscan herror habandoned := by
    rw [htask] at hu
    rw [hrecord, Running, htask]
    exact h.answered key n exit st hu hst haborted hprocessing hscan herror habandoned
  stopped key n exit hu hexit := hcancelling (h.stopped key n exit (htask ▸ hu) hexit)

theorem Settling.step {W : World U κ} {l : Label K} {s' : RunState K U κ} (h : Settling announced s)
    (hstep : Step W G capacity s l s') : Settling announced s' := by
  rcases step_cases hstep with ⟨key, n, op, t, action, e', t', -, htask, rfl⟩ | hcontrol
  · exact h.moved htask.task htask.deliverable htask.moves
  · apply h.of_same hcontrol.record (fun n ↦ ?_) hcontrol.task (fun hcancelling ↦ ?_)
    · rw [terminals, hcontrol.progress, terminals]
    · by_cases hl : l = .cancel
      · subst hl
        cases hstep.1
        rfl
      · rw [hcontrol.cancelling hl, hcancelling]

/-! ## Growing groups -/

omit [ToString U] [JsonLoads] in
/-- A task is scheduled under a new key. -/
theorem Settling.schedule (h : Settling announced s) (hkey : s.task key = none) (n : U) :
    Settling announced { s with task := Function.update s.task key (some ⟨n, .created⟩) } := by
  have hrunning : ∀ m, s.Running m →
      Running { s with task := Function.update s.task key (some ⟨n, .created⟩) } m := by
    rintro m ⟨key', prepared, hrunning⟩
    have hne : key' ≠ key := by
      rintro rfl
      rw [hkey] at hrunning
      cases hrunning
    exact ⟨key', prepared, (Function.update_of_ne hne _ _).trans hrunning⟩
  have hold : ∀ key' m t, Function.update s.task key (some ⟨n, .created⟩) key' = some ⟨m, t⟩ →
      t = .created ∨ s.task key' = some ⟨m, t⟩ := by
    intro key' m t ht
    by_cases hne : key' = key
    · subst hne
      rw [Function.update_self, Option.some.injEq, Task.mk.injEq] at ht
      exact .inl ht.2.symm
    · exact .inr ((Function.update_of_ne hne _ _).symm.trans ht)
  exact
    { once := h.once
      terminal := h.terminal
      stays := h.stays
      outside := by
        intro key' m t st ht hst hterminal
        obtain rfl | ht := hold key' m t ht
        · exact id
        · exact h.outside key' m t st ht hst hterminal
      aborted := h.aborted
      processing := fun m st hst hprocessing ↦
        (h.processing m st hst hprocessing).imp_right (hrunning m)
      answered := by
        intro key' m exit st ht hst haborted hprocessing hscan herror habandoned
        obtain hcreated | ht := hold key' m _ ht
        · cases hcreated
        · exact (h.answered key' m exit st ht hst haborted hprocessing hscan herror habandoned).imp_right
            (hrunning m)
      stopped := by
        intro key' m exit ht hexit
        obtain hcreated | ht := hold key' m _ ht
        · cases hcreated
        · exact h.stopped key' m exit ht hexit }

omit [DecidableEq K] [ToString U] [JsonLoads] in
/-- An operation without tasks is announced with the status it has. -/
theorem Settling.announce (h : Settling announced s)
    (hidle : ∀ key t, s.task key ≠ some ⟨n, t⟩) :
    Settling (Function.update announced n (some (s.executor.record n).status)) s := by
  have hcases : ∀ m st, Function.update announced n (some (s.executor.record n).status) m = some st →
      m = n ∧ (s.executor.record n).status = st ∨ announced m = some st := by
    intro m st hst
    by_cases hm : m = n
    · subst hm
      rw [Function.update_self, Option.some.injEq] at hst
      exact .inl ⟨rfl, hst⟩
    · exact .inr ((Function.update_of_ne hm _ _).symm.trans hst)
  exact
    { once := h.once
      terminal := by
        intro m st hst hterminal
        obtain ⟨rfl, rfl⟩ | hst := hcases m st hst
        · exact .inr rfl
        · exact h.terminal m st hst hterminal
      stays := by
        intro m st hst hterminal
        obtain ⟨rfl, rfl⟩ | hst := hcases m st hst
        · exact hterminal
        · exact h.stays m st hst hterminal
      outside := by
        intro key m t st ht hst hterminal
        obtain ⟨rfl, rfl⟩ | hst := hcases m st hst
        · exact absurd ht (hidle key t)
        · exact h.outside key m t st ht hst hterminal
      aborted := by
        intro m st hst haborted
        obtain ⟨rfl, rfl⟩ | hst := hcases m st hst
        · exact haborted
        · exact h.aborted m st hst haborted
      processing := by
        intro m st hst hprocessing
        obtain ⟨rfl, rfl⟩ | hst := hcases m st hst
        · exact .inl hprocessing
        · exact h.processing m st hst hprocessing
      answered := by
        intro key m exit st ht hst haborted hprocessing hscan herror habandoned
        obtain ⟨rfl, rfl⟩ | hst := hcases m st hst
        · exact absurd ht (hidle key _)
        · exact h.answered key m exit st ht hst haborted hprocessing hscan herror habandoned
      stopped := h.stopped }

omit [DecidableEq K] [ToString U] [JsonLoads] in
/-- The record of an operation that was not announced is rewritten. -/
theorem Settling.modify (h : Settling announced s) (hn : announced n = none)
    {f : Record U → Record U}
    (hf : (f (s.executor.record n)).terminalEmitted = (s.executor.record n).terminalEmitted) :
    Settling announced { s with executor := s.executor.modify n f } := by
  have hrecord : ∀ m st, announced m = some st →
      (s.executor.modify n f).record m = s.executor.record m := by
    intro m st hst
    apply Function.update_of_ne
    rintro rfl
    rw [hn] at hst
    cases hst
  exact
    { once := h.once.pays (s.executor.pays_modify n hf) fun m hm ↦ Function.update_of_ne hm _ _
      terminal := by
        intro m st hst
        rw [hrecord m st hst]
        exact h.terminal m st hst
      stays := by
        intro m st hst
        rw [hrecord m st hst]
        exact h.stays m st hst
      outside := h.outside
      aborted := by
        intro m st hst
        rw [hrecord m st hst]
        exact h.aborted m st hst
      processing := by
        intro m st hst
        rw [hrecord m st hst]
        exact h.processing m st hst
      answered := by
        intro key m exit st ht hst haborted hprocessing hscan herror habandoned
        rw [hrecord m st hst]
        exact h.answered key m exit st ht hst haborted hprocessing hscan herror habandoned
      stopped := h.stopped }

/-! ## What the signals come to -/

/-- No operation has two terminal signals. When all tasks have ended, an announced operation has one,
unless it was aborted or already under way when it was announced, or its tasks all ended with an
unexpected exception before its start or before their first step; tasks are only cancelled in a group
that is being cancelled. The sweep of a cancelled run leaves every announced operation with one. -/
structure Answered (announced : U → Option EventStatus) (s : RunState K U κ) : Prop where
  atMostOnce : ∀ n, (s.executor.terminals n).length ≤ 1
  once : s.Complete → ∀ key n exit st, s.task key = some ⟨n, .finished exit⟩ → announced n = some st →
    st ≠ .aborted → st ≠ .processing → exit ≠ .scanError → exit ≠ .error → exit ≠ .abandoned →
    (s.executor.terminals n).length = 1
  stopped : ∀ key n exit, s.task key = some ⟨n, .finished exit⟩ →
    exit = .abandoned ∨ exit = .cancelled → s.cancelling = true
  swept : ∀ (ns : List U), ∀ n ∈ ns,
    ((s.executor.cancelAnnouncedUnfinished ns).terminals n).length = 1

omit [DecidableEq K] [ToString U] [JsonLoads] in
theorem Settling.result (h : Settling announced s) : Answered announced s where
  atMostOnce n := by
    rw [h.once n]
    split <;> decide
  once := by
    intro hcomplete key n exit st ht hst haborted hprocessing hscan herror habandoned
    have hpaid : (s.executor.record n).terminalEmitted = true := by
      apply (h.answered key n exit st ht hst haborted hprocessing hscan herror habandoned).resolve_right
      rintro ⟨key', prepared, hrunning⟩
      obtain ⟨exit', hexit'⟩ := hcomplete key' _ hrunning
      cases hexit'
    rw [h.once n, if_pos hpaid]
  stopped := h.stopped
  swept := fun _ _ hn ↦ h.once.swept hn

end RunState

/-! ## The announcements of `execute` -/

section Start

variable {U κ : Type} [DecidableEq U]

/-- The operations that `execute` announces, with the status they have then. -/
def announcedAtStart (G : OperationGraph U κ) (initial : U → Initial) (n : U) : Option EventStatus :=
  if n ∈ G.nodes ∧ (G.operation n).isSome = true then some (initial n).status else none

theorem settling_start (G : OperationGraph U κ) (initial : U → Initial) (workspace : Entries) :
    RunState.Settling (announcedAtStart G initial) (start G initial workspace) := by
  have hrecord : ∀ n st, announcedAtStart G initial n = some st →
      ((start G initial workspace).executor.record n).status = st := by
    intro n st hst
    unfold announcedAtStart at hst
    split at hst
    · next hn =>
      rw [Option.some.injEq] at hst
      simp [start, hn.2, Initial.record, hst]
    · cases hst
  have hcreated : ∀ key n t, (start G initial workspace).task key = some ⟨n, t⟩ → t = .created := by
    intro key n t ht
    simp only [start] at ht
    split at ht
    · cases ht
      rfl
    · cases ht
  exact
    { once := by
        intro n
        have hnone : (start G initial workspace).executor.terminals n = [] := by
          apply List.filter_eq_nil_iff.2
          intro entry hentry
          obtain ⟨m, -, rfl⟩ := List.mem_map.1 hentry
          simp [Progress.terminal]
        have hopen : ((start G initial workspace).executor.record n).terminalEmitted = false := by
          simp only [start]
          split <;> rfl
        rw [hnone, hopen]
        rfl
      terminal := fun n st hst _ ↦ .inr (hrecord n st hst)
      stays := fun n st hst hterminal ↦ by rwa [hrecord n st hst]
      outside := by
        intro key n t st ht _ _
        rw [hcreated key n t ht]
        exact id
      aborted := fun n st hst haborted ↦ (hrecord n st hst).symm.trans haborted
      processing := fun n st hst hprocessing ↦ .inl ((hrecord n st hst).symm.trans hprocessing)
      answered := fun key n exit st ht ↦ by cases hcreated key n _ ht
      stopped := fun key n exit ht ↦ by cases hcreated key n _ ht }

end Start

end Lionagi.Operations
