import Mathlib.Logic.Relation
import Lionagi.Operations.ExecutorSafety

/-!
# The veto of a rejecting gate

A gate that completes with a reject verdict leaves a reason in the bookkeeping, and the scan of the
incoming edges hands it on from operation to operation. The scan of an operation that ends with an
exception hands nothing on, and nothing travels across nodes that are no operations: where neither
happens downstream of a rejecting gate, everything downstream is skipped.
-/

namespace Lionagi.Operations

open Ln Transition Executor

section Reading

variable {U κ : Type}

/-- A gate reason that was read off the heads of some edges. -/
structure Executor.ReadOff (e : Executor U) (edges : List (InEdge U κ))
    (reason : Option (GateReason U)) : Prop where
  settled : ∀ edge ∈ edges, (e.record edge.head).event ≠ some false
  complete : ∀ edge ∈ edges, (e.book edge.head).upstreamReason.isSome = true → reason.isSome = true
  sound : ∀ r, reason = some r → ∃ edge ∈ edges, (e.book edge.head).upstreamReason = some r

theorem Executor.ReadOff.nil (e : Executor U) : e.ReadOff ([] : List (InEdge U κ)) none :=
  ⟨by simp, by simp, by simp⟩

variable {edges : List (InEdge U κ)} {reason : Option (GateReason U)}

/-- One more edge is read. -/
theorem Executor.ReadOff.snoc {e : Executor U} (h : e.ReadOff edges reason) {edge : InEdge U κ}
    (hset : (e.record edge.head).event ≠ some false) :
    e.ReadOff (edges ++ [edge]) (reason.or (e.book edge.head).upstreamReason) where
  settled := by
    intro edge' hedge'
    obtain hold | hnew := List.mem_append.1 hedge'
    · exact h.settled edge' hold
    · exact List.mem_singleton.1 hnew ▸ hset
  complete := by
    intro edge' hedge' hsome
    rw [Option.isSome_or, Bool.or_eq_true]
    obtain hold | hnew := List.mem_append.1 hedge'
    · exact .inl (h.complete edge' hold hsome)
    · exact .inr (List.mem_singleton.1 hnew ▸ hsome)
  sound := by
    intro r hr
    rw [Option.or_eq_some_iff] at hr
    obtain hold | ⟨-, hnew⟩ := hr
    · obtain ⟨edge', hedge', hreason⟩ := h.sound r hold
      exact ⟨edge', List.mem_append_left _ hedge', hreason⟩
    · exact ⟨edge, List.mem_append_right _ (List.mem_singleton_self edge), hnew⟩

/-- What was read off settled heads stays true. -/
theorem Executor.ReadOff.stays {e e' : Executor U} (h : e.ReadOff edges reason)
    (hevent : ∀ m, (e.record m).event ≠ some false → (e'.record m).event ≠ some false)
    (hbook : ∀ m, (e.record m).event ≠ some false → e'.book m = e.book m) :
    e'.ReadOff edges reason where
  settled edge hedge := hevent _ (h.settled edge hedge)
  complete := by
    intro edge hedge
    rw [hbook _ (h.settled edge hedge)]
    exact h.complete edge hedge
  sound := by
    intro r hr
    obtain ⟨edge, hedge, hreason⟩ := h.sound r hr
    exact ⟨edge, hedge, (hbook _ (h.settled edge hedge)).symm ▸ hreason⟩

end Reading

/-! ## What a task knows -/

section Knowledge

variable {U κ : Type} [JsonLoads]

/-- The gate has completed with a reject verdict. -/
def Record.Rejects (op : Operation) (r : Record U) : Prop :=
  r.status = .completed ∧ op.isGate = true ∧ gateRejects r.response = .ok true

/-- The record of an operation in the different stages of its task. -/
def TaskState.Keeps (n : U) (op : Operation) (r : Record U) : TaskState U κ → Prop
  | invoking _ => r.book = Book.empty ∧ r.event = some false ∧ r.status = .processing
  | finished .skipped =>
    r.event = some true ∧ r.status = .skipped ∧ r.book.skipped = true ∧ r.book.gateRejection = none
  | finished _ =>
    r.event = some true ∧ r.book.skipReason = none ∧
      (r.book.gateRejection.isSome = true ↔ r.Rejects op) ∧
      ∀ reason, r.book.gateRejection = some reason → reason.gateId = n
  | _ => r.book = Book.empty ∧ r.event = some false ∧ r.status = .pending

variable {n : U} {op : Operation} {r : Record U}

theorem TaskState.Keeps.event {exit : Exit} (h : (finished exit : TaskState U κ).Keeps n op r) :
    r.event = some true := by
  cases exit <;> exact h.1

variable {t : TaskState U κ}

theorem TaskState.Keeps.skipReason (h : t.Keeps n op r) (ht : t ≠ .finished .skipped) : r.book.skipReason = none := by
  cases t with
  | finished exit =>
    cases exit with
    | skipped => exact absurd rfl ht
    | _ => exact h.2.1
  | _ => exact h.1 ▸ rfl

theorem TaskState.Keeps.gateRejection (h : t.Keeps n op r) {reason : GateReason U}
    (hreason : r.book.gateRejection = some reason) : reason.gateId = n ∧ r.Rejects op := by
  cases t with
  | finished exit =>
    cases exit with
    | skipped => simp [h.2.2.2] at hreason
    | _ => exact ⟨h.2.2.2 reason hreason, h.2.2.1.1 (hreason ▸ rfl)⟩
  | _ => simp [h.1, Book.empty] at hreason

theorem TaskState.Keeps.unsettled (h : t.Keeps n op r) (ht : ∀ exit, t ≠ .finished exit) :
    r.book = Book.empty ∧ r.event = some false := by
  cases t with
  | finished exit => exact absurd rfl (ht exit)
  | _ => exact ⟨h.1, h.2.1⟩

/-- The scan of the incoming edges has come as far as the task says. -/
def TaskState.Sighted (G : OperationGraph U κ) (e : Executor U) (n : U) : TaskState U κ → Prop
  | created => True
  | scanning rest _ reason => ∃ front, G.incoming n = front ++ rest ∧ e.ReadOff front reason
  | checking edge _ rest reason =>
    ∃ front, G.incoming n = front ++ [edge] ++ rest ∧ e.ReadOff (front ++ [edge]) reason
  | finished .skipped => e.ReadOff (G.incoming n) (e.book n).skipReason
  | finished .scanError => True
  | finished .preterminal => False
  | finished .cancelled => False
  | finished .abandoned => False
  | _ => e.ReadOff (G.incoming n) none

omit [JsonLoads] in
/-- What a task has read off stays true while other tasks move. -/
theorem TaskState.Sighted.stays {G : OperationGraph U κ} {e e' : Executor U} (h : t.Sighted G e n)
    (hevent : ∀ m, (e.record m).event ≠ some false → (e'.record m).event ≠ some false)
    (hbook : ∀ m, (e.record m).event ≠ some false → e'.book m = e.book m) (hself : e'.book n = e.book n) :
    t.Sighted G e' n := by
  have hstays : ∀ {edges : List (InEdge U κ)} {reason : Option (GateReason U)},
      e.ReadOff edges reason → e'.ReadOff edges reason := fun hread ↦ hread.stays hevent hbook
  cases t with
  | created => trivial
  | scanning rest valid reason =>
    obtain ⟨front, hfront, hread⟩ := h
    exact ⟨front, hfront, hstays hread⟩
  | checking edge value rest reason =>
    obtain ⟨front, hfront, hread⟩ := h
    exact ⟨front, hfront, hstays hread⟩
  | finished exit =>
    cases exit with
    | skipped =>
      simp only [Sighted, hself]
      exact hstays h
    | settled => exact hstays h
    | error => exact hstays h
    | _ => exact h
  | _ => exact hstays h

/-- The task has left the edge scan, other than by an exception. -/
def TaskState.PastScan : TaskState U κ → Prop
  | created => False
  | scanning _ _ _ => False
  | checking _ _ _ _ => False
  | finished .scanError => False
  | _ => True

/-- The body of the operation has begun, and has not been cut off. -/
def TaskState.Ran : TaskState U κ → Prop
  | invoking _ => True
  | finished .settled => True
  | _ => False

end Knowledge

section Moves

variable {U κ : Type} [DecidableEq U] [ToString U] [JsonLoads]
variable {G : OperationGraph U κ} {capacity : ℕ} {n : U} {op : Operation} {e e' : Executor U}
variable {t t' : TaskState U κ} {action : Action}
variable {r : Record U}

omit [DecidableEq U] in
/-- A gate that completes records its verdict, and nothing else does. -/
theorem gateRejection_completedBook (n : U) (op : Operation) (hbook : r.book = Book.empty) :
    (completedBook n op r.response r.book).skipReason = none ∧
      ((completedBook n op r.response r.book).gateRejection.isSome = true ↔
        op.isGate = true ∧ gateRejects r.response = .ok true) ∧
      ∀ reason, (completedBook n op r.response r.book).gateRejection = some reason →
        reason.gateId = n := by
  unfold completedBook recordGateVerdict
  cases hgate : op.isGate with
  | false => simp [hbook, Book.empty]
  | true =>
    cases hrejects : gateRejects r.response with
    | error message => simp [hbook, Book.empty]
    | ok verdict => cases verdict <;> simp [hbook, Book.empty]

omit [DecidableEq U] [ToString U] in
/-- A failed operation leaves no gate reason. -/
theorem keeps_failed {exit : Exit} (hexit : exit ≠ .skipped) (hevent : r.event = some true)
    (hstatus : r.status ≠ .completed) (hskip : r.book.skipReason = none) (hrejection : r.book.gateRejection = none) :
    (TaskState.finished exit : TaskState U κ).Keeps n op r := by
  cases exit with
  | skipped => exact absurd rfl hexit
  | _ => simp [TaskState.Keeps, Record.Rejects, hevent, hstatus, hskip, hrejection]

omit [DecidableEq U] in
theorem keeps_settledRecord (hbook : r.book = Book.empty) (hevent : r.event = some false)
    (hstatus : r.status = .completed ∨ r.status = .failed) :
    (TaskState.finished .settled : TaskState U κ).Keeps n op (settledRecord n op r) := by
  obtain ⟨hskip, hrejection, hname⟩ := gateRejection_completedBook n op hbook
  unfold settledRecord
  obtain hstatus | hstatus := hstatus
  · simp only [hstatus]
    split
    · exact ⟨by simp [raised, hevent], hskip, by simpa [Record.Rejects, raised, hstatus], hname⟩
    · exact ⟨by simp [raised, hevent], hskip, by simpa [Record.Rejects, raised, hstatus], hname⟩
    · exact keeps_failed (by decide) (by simp [raised, hevent]) (by simp)
        (by simp [failedBook, hbook, Book.empty]) (by simp [failedBook, hbook, Book.empty])
  · simp only [hstatus]
    exact keeps_failed (by decide) (by simp [raised, hevent]) (by simp [raised, hstatus])
      (by simp [failedBook, hbook, Book.empty]) (by simp [failedBook, hbook, Book.empty])

omit [DecidableEq U] [ToString U] in
theorem keeps_failedRecord {message : String} {exit : Exit} (hexit : exit ≠ .skipped)
    (hkeeps : r.book = Book.empty ∧ r.event = some false ∧ r.status = .pending) :
    (TaskState.finished exit : TaskState U κ).Keeps n op (failedRecord message r) := by
  obtain ⟨hbook, hevent, hstatus⟩ := hkeeps
  apply keeps_failed hexit
  · simp [failedRecord, raised, hevent]
  · simp [failedRecord, raised, hstatus]
  · simp [failedRecord, hbook, Book.empty]
  · simp [failedRecord, hbook, Book.empty]

/-- The record stays in step with the task. -/
theorem Moves.keeps (h : Moves G capacity n op e t action e' t') (hcancel : action ≠ .cancel)
    (hstop : action ≠ .returned .cancelled) (hkeeps : t.Keeps n op (e.record n)) :
    t'.Keeps n op (e'.record n) := by
  cases h with
  | preterminal hterminal => simp [hkeeps.2.2, EventStatus.terminal] at hterminal
  | unreadable | conditionRaised | noEvent | unprepared =>
    rw [record_fail, Function.update_self]
    exact keeps_failedRecord (by decide) hkeeps
  | skipped =>
    rw [record_skip, Function.update_self]
    simp [TaskState.Keeps, skippedRecord, raised, skippedBook, hkeeps.1, hkeeps.2.1, Book.empty]
  | invoke =>
    simp [TaskState.Keeps, startedRecord, hkeeps.1, hkeeps.2.1]
  | noInvoke hcap hprepare hstatus => exact absurd hkeeps.2.2 hstatus
  | @settled prepared outcome houtcome =>
    rw [record_conclude, Function.update_self]
    cases outcome with
    | completed response => exact keeps_settledRecord hkeeps.1 hkeeps.2.1 (.inl rfl)
    | failed message => exact keeps_settledRecord hkeeps.1 hkeeps.2.1 (.inr rfl)
    | cancelled => exact absurd rfl houtcome
  | stopped haction => exact (haction.elim hstop hcancel).elim
  | abandoned => exact absurd rfl hcancel
  | cancelled => exact absurd rfl hcancel
  | _ => exact hkeeps

/-- The scan of the incoming edges reads off what it has passed. -/
theorem Moves.sighted (h : Moves G capacity n op e t action e' t') (hcancel : action ≠ .cancel)
    (hstop : action ≠ .returned .cancelled) (hkeeps : t.Keeps n op (e.record n))
    (hbook : ∀ m, (e.record m).event ≠ some false → e'.book m = e.book m)
    (hsighted : t.Sighted G e n) : t'.Sighted G e' n := by
  have hstays : ∀ {edges : List (InEdge U κ)} {reason : Option (GateReason U)},
      e.ReadOff edges reason → e'.ReadOff edges reason := fun hread ↦
    hread.stays (fun m hm ↦ h.settled_stays hm) hbook
  cases h with
  | preterminal hterminal => simp [hkeeps.2.2, EventStatus.terminal] at hterminal
  | source hopen hin =>
    simp only [TaskState.Sighted, hin]
    exact ReadOff.nil e
  | scan => exact ⟨[], rfl, ReadOff.nil e⟩
  | @vetoed edge rest valid reason upstream hset hreason =>
    obtain ⟨front, hfront, hread⟩ := hsighted
    refine ⟨front ++ [edge], by simpa using hfront, ?_⟩
    have hsnoc := hread.snoc hset
    rwa [show (e.book edge.head).upstreamReason = some upstream from hreason] at hsnoc
  | @passed edge rest valid reason hset hreason hpass =>
    obtain ⟨front, hfront, hread⟩ := hsighted
    refine ⟨front ++ [edge], by simpa using hfront, ?_⟩
    have hsnoc := hread.snoc hset
    rwa [show (e.book edge.head).upstreamReason = none from hreason, Option.or_none] at hsnoc
  | @ask edge rest reason value hset hreason hopen hplain =>
    obtain ⟨front, hfront, hread⟩ := hsighted
    refine ⟨front, by simpa using hfront, ?_⟩
    have hsnoc := hread.snoc hset
    rwa [show (e.book edge.head).upstreamReason = none from hreason, Option.or_none] at hsnoc
  | @answered edge value rest reason valid =>
    obtain ⟨front, hfront, hread⟩ := hsighted
    exact ⟨front ++ [edge], hfront, hread⟩
  | unreadable => trivial
  | conditionRaised => trivial
  | @skipped valid reason hskip =>
    obtain ⟨front, hfront, hread⟩ := hsighted
    rw [List.append_nil] at hfront
    have hself : ((e.skip n reason).book n).skipReason = reason := by
      simp [Executor.book, record_skip, skippedRecord, skippedBook, hkeeps.1, Book.empty]
    simp only [TaskState.Sighted, hself, hfront]
    exact hstays hread
  | admitted =>
    obtain ⟨front, hfront, hread⟩ := hsighted
    rw [List.append_nil] at hfront
    simp only [TaskState.Sighted, hfront]
    exact hread
  | noInvoke hcap hprepare hstatus => exact absurd hkeeps.2.2 hstatus
  | stopped haction => exact (haction.elim hstop hcancel).elim
  | abandoned => exact absurd rfl hcancel
  | cancelled => exact absurd rfl hcancel
  | _ => exact hstays hsighted

/-- A skipped operation carries the reason that its scan has read off. -/
theorem Moves.skipped_reads (h : Moves G capacity n op e t action e' (.finished .skipped))
    (hkeeps : t.Keeps n op (e.record n)) (hsighted : t.Sighted G e n) :
    e.ReadOff (G.incoming n) (e'.book n).skipReason := by
  cases h with
  | @skipped valid reason hskip =>
    obtain ⟨front, hfront, hread⟩ := hsighted
    rw [List.append_nil] at hfront
    have hself : ((e.skip n reason).book n).skipReason = reason := by
      simp [Executor.book, record_skip, skippedRecord, skippedBook, hkeeps.1, Book.empty]
    rw [hself, hfront]
    exact hread

/-- The calls of `invoke` are those of bodies that have begun. -/
theorem Moves.ran (h : Moves G capacity n op e t action e' t') (hkeeps : t.Keeps n op (e.record n)) :
    e'.invocations = e.invocations ∨ (e'.invocations = e.invocations ++ [n] ∧ t'.Ran) := by
  obtain hsame | ⟨rfl, -, hnew⟩ := h.invocations
  · exact .inl hsame
  · cases h with
    | invoke => exact .inr ⟨hnew, trivial⟩
    | noInvoke => exact .inr ⟨hnew, trivial⟩
    | unprepared => exact .inl (e.sameShared_fail n _).invocations
    | cancelled => exact .inl (e.sameShared_cancel n).invocations

theorem Moves.ran_stays (h : Moves G capacity n op e t action e' t') (hcancel : action ≠ .cancel)
    (hstop : action ≠ .returned .cancelled) (hran : t.Ran) : t'.Ran := by
  cases h with
  | settled => trivial
  | stopped haction => exact (haction.elim hstop hcancel).elim
  | cancelled => exact absurd rfl hcancel
  | _ => exact absurd hran id

end Moves

/-! ## Runs -/

namespace RunState

variable {U κ : Type} [DecidableEq U] [ToString U] [JsonLoads]
variable {W : World U κ} {G : OperationGraph U κ} {capacity : ℕ}

/-- The gate has completed with a reject verdict. -/
def Rejecting (G : OperationGraph U κ) (s : RunState U U κ) (g : U) : Prop :=
  ∃ op, G.operation g = some op ∧ (s.executor.record g).Rejects op

/-- `gate_short_circuited_operations` -/
def GateShortCircuited (s : RunState U U κ) (n : U) : Prop :=
  (s.executor.book n).skipReason.isSome = true ∧ (s.executor.book n).skipped = true

structure Watched (G : OperationGraph U κ) (s : RunState U U κ) : Prop where
  safe : Safe G s
  calm : s.cancelling = false
  plain : ∀ n, G.operation n = none → s.executor.record n = Record.absent
  task : ∀ n op, G.operation n = some op → ∃ t, s.task n = some ⟨n, t⟩ ∧
    t.Keeps n op (s.executor.record n) ∧ t.Sighted G s.executor n
  traced : ∀ n r, (s.executor.book n).skipReason = some r →
    (s.executor.book r.gateId).gateRejection = some r ∧ Relation.TransGen G.Edge r.gateId n
  ran : ∀ n ∈ s.executor.invocations, ∃ t, s.task n = some ⟨n, t⟩ ∧ t.Ran

variable {initial : U → Initial}

omit [DecidableEq U] [ToString U] in
theorem watched_start (hpending : ∀ n, (initial n).status = .pending) (workspace : Entries) :
    Watched G (start G initial workspace) where
  safe := safe_start initial workspace
  calm := rfl
  plain := by
    intro n hn
    simp [start, hn]
  task := by
    intro n op hop
    refine ⟨.created, by simp [start, hop], ?_, trivial⟩
    simp [start, hop, TaskState.Keeps, Initial.record, hpending, Book.empty]
  traced := by
    intro n r hr
    simp only [Executor.book, start] at hr
    split at hr <;> simp [Initial.record, Record.absent, Book.empty] at hr
  ran := by simp [start]

variable {s : RunState U U κ} {g m n : U} {op : Operation} {t : TaskState U κ}

omit [DecidableEq U] [ToString U] in
/-- The task of an operation is known with its record. -/
theorem Watched.task_eq (h : Watched G s) (hop : G.operation n = some op) (ht : s.task n = some ⟨n, t⟩) :
    t.Keeps n op (s.executor.record n) ∧ t.Sighted G s.executor n := by
  obtain ⟨t₀, ht₀, hknown⟩ := h.task n op hop
  rw [ht, Option.some.injEq, Task.mk.injEq] at ht₀
  exact ht₀.2 ▸ hknown

omit [DecidableEq U] [ToString U] in
/-- Bookkeeping is only kept of what is settled. -/
theorem Watched.settled_of_book (h : Watched G s) (hm : s.executor.book m ≠ Book.empty) :
    (s.executor.record m).event ≠ some false := by
  cases hop : G.operation m with
  | none =>
    rw [h.plain m hop]
    simp [Record.absent]
  | some op =>
    obtain ⟨t, -, hkeeps, -⟩ := h.task m op hop
    by_cases hfinished : ∃ exit, t = .finished exit
    · obtain ⟨exit, rfl⟩ := hfinished
      simp [hkeeps.event]
    · exact absurd (hkeeps.unsettled fun exit ht ↦ hfinished ⟨exit, ht⟩).1 hm

omit [DecidableEq U] [ToString U] in
/-- A recorded rejection is that of the gate itself. -/
theorem Watched.rejecting (h : Watched G s) {r : GateReason U} (hr : (s.executor.book g).gateRejection = some r) :
    r.gateId = g ∧ s.Rejecting G g := by
  cases hop : G.operation g with
  | none => simp [Executor.book, h.plain g hop, Record.absent, Book.empty] at hr
  | some op =>
    obtain ⟨t, -, hkeeps, -⟩ := h.task g op hop
    exact ⟨(hkeeps.gateRejection hr).1, op, hop, (hkeeps.gateRejection hr).2⟩

theorem Watched.book_moved (h : Watched G s) {t' : TaskState U κ} {action : Action} {e' : Executor U}
    (ht : s.task n = some ⟨n, t⟩) (hop : G.operation n = some op)
    (hmove : Moves G capacity n op s.executor t action e' t') (hm : (s.executor.record m).event ≠ some false) :
    e'.book m = s.executor.book m := by
  by_cases hmn : m = n
  · subst hmn
    exact absurd ((h.task_eq hop ht).1.unsettled hmove.not_finished).2 hm
  · exact congrArg Record.book (hmove.record_of_ne hmn)

theorem Watched.moved (hW : ∀ n prepared, ¬ W.invoke n prepared .cancelled) (h : Watched G s) {t' : TaskState U κ}
    {action : Action} {e' : Executor U} (hstep : TaskStep W G capacity s n n op t action e' t') :
    Watched G (s.moved n n action e' t') := by
  obtain ⟨hcancel, hstop⟩ := hstep.uncancelled hW h.calm
  have hmove := hstep.moves
  have hbook : ∀ m, (s.executor.record m).event ≠ some false → e'.book m = s.executor.book m :=
    fun m hm ↦ h.book_moved hstep.task hstep.operation hmove hm
  obtain ⟨hkeeps, hsighted⟩ := h.task_eq hstep.operation hstep.task
  have hkeeps' := hmove.keeps hcancel hstop hkeeps
  have hcancels : action.cancels = false := by
    unfold Action.cancels
    split
    · exact absurd rfl hstop
    · rfl
  refine ⟨h.safe.moved hstep.task hmove, by simp [RunState.moved, h.calm, hcancels], ?_, ?_, ?_, ?_⟩
  · intro m hm
    have hmn : m ≠ n := by
      rintro rfl
      rw [hstep.operation] at hm
      cases hm
    exact (hmove.record_of_ne hmn).trans (h.plain m hm)
  · intro m opm hopm
    by_cases hmn : m = n
    · subst hmn
      rw [hstep.operation, Option.some.injEq] at hopm
      subst hopm
      exact ⟨t', task_moved_self s m action e' t', hkeeps',
        hmove.sighted hcancel hstop hkeeps hbook hsighted⟩
    · obtain ⟨tm, htm, hkeepsm, hsightedm⟩ := h.task m opm hopm
      have hrecord : e'.record m = s.executor.record m := hmove.record_of_ne hmn
      exact ⟨tm, (task_moved_of_ne s hmn action e' t').trans htm, hrecord.symm ▸ hkeepsm,
        hsightedm.stays (fun k hk ↦ hmove.settled_stays hk) hbook (congrArg Record.book hrecord)⟩
  · intro m r hr
    have hkept : ∀ k, s.executor.book k ≠ Book.empty → e'.book k = s.executor.book k := fun k hk ↦
      hbook k (h.settled_of_book hk)
    have hold : ∀ k, (s.executor.book k).skipReason = some r →
        (e'.book r.gateId).gateRejection = some r ∧ Relation.TransGen G.Edge r.gateId k := by
      intro k hk
      obtain ⟨hrejection, hpath⟩ := h.traced k r hk
      rw [hkept r.gateId (by intro hempty; simp [hempty, Book.empty] at hrejection)]
      exact ⟨hrejection, hpath⟩
    by_cases hmn : m = n
    · subst hmn
      change (e'.book m).skipReason = some r at hr
      have hskipped : t' = .finished .skipped := by
        by_contra hne
        simp [Executor.book, hkeeps'.skipReason hne] at hr
      subst hskipped
      obtain ⟨edge, hedge, hupstream⟩ := (hmove.skipped_reads hkeeps hsighted).sound r hr
      have hhead : G.Edge edge.head m := List.mem_map_of_mem hedge
      rw [Book.upstreamReason, Option.or_eq_some_iff] at hupstream
      obtain hskip | ⟨-, hrejection⟩ := hupstream
      · obtain ⟨hrejection, hpath⟩ := hold edge.head hskip
        exact ⟨hrejection, hpath.tail hhead⟩
      · have hgate : r.gateId = edge.head := (h.rejecting hrejection).1
        rw [hgate]
        refine ⟨?_, .single hhead⟩
        exact (congrArg Book.gateRejection (hkept edge.head fun hempty ↦ by
          simp [hempty, Book.empty] at hrejection)).trans hrejection
    · have hrecord : e'.record m = s.executor.record m := hmove.record_of_ne hmn
      exact hold m ((congrArg (fun k ↦ k.book.skipReason) hrecord).symm.trans hr)
  · intro m hm
    obtain hsame | ⟨hnew, hran⟩ := hmove.ran hkeeps
    · obtain ⟨tm, htm, hranm⟩ := h.ran m (hsame ▸ hm)
      by_cases hmn : m = n
      · subst hmn
        rw [hstep.task, Option.some.injEq, Task.mk.injEq] at htm
        exact ⟨t', task_moved_self s m action e' t', hmove.ran_stays hcancel hstop (htm.2 ▸ hranm)⟩
      · exact ⟨tm, (task_moved_of_ne s hmn action e' t').trans htm, hranm⟩
    · by_cases hmn : m = n
      · subst hmn
        exact ⟨t', task_moved_self s m action e' t', hran⟩
      · have hmem : m ∈ s.executor.invocations ++ [n] := hnew ▸ hm
        obtain ⟨tm, htm, hranm⟩ := h.ran m (by simpa [hmn] using hmem)
        exact ⟨tm, (task_moved_of_ne s hmn action e' t').trans htm, hranm⟩

omit [DecidableEq U] [ToString U] in
theorem Watched.control {s' : RunState U U κ} {l : Label U} (h : Watched G s) (hstep : ControlStep s l s')
    (hl : l ≠ .cancel) : Watched G s' where
  safe := h.safe.control hstep
  calm := (hstep.cancelling hl).trans h.calm
  plain := by
    rw [hstep.record]
    exact h.plain
  task := by
    intro n op hop
    obtain ⟨t, ht, hkeeps, hsighted⟩ := h.task n op hop
    have hrecord : ∀ m, s'.executor.record m = s.executor.record m := fun m ↦
      congrFun hstep.record m
    refine ⟨t, (congrFun hstep.task n).trans ht, (hrecord n).symm ▸ hkeeps, ?_⟩
    exact hsighted.stays (fun m hm ↦ (hrecord m).symm ▸ hm)
      (fun m _ ↦ congrArg Record.book (hrecord m)) (congrArg Record.book (hrecord n))
  traced := by
    unfold Executor.book
    rw [hstep.record]
    exact h.traced
  ran := by
    rw [hstep.task, hstep.invocations]
    exact h.ran

theorem watched_of_reachable (hW : ∀ n prepared, ¬ W.invoke n prepared .cancelled)
    (hpending : ∀ n, (initial n).status = .pending) {workspace : Entries}
    (hs : Reachable (Proceeds W G capacity) (start G initial workspace) s) : Watched G s := by
  refine hs.invariant (watched_start hpending workspace) ?_
  rintro u l v h ⟨hstep, hl⟩
  obtain ⟨key, n, op, t, action, e', t', -, htask, rfl⟩ | hcontrol := step_cases hstep
  · obtain rfl : n = key := h.safe.own key _ htask.task
    exact h.moved hW htask
  · exact h.control hcontrol hl

/-! ## The veto -/

/-- What a rejecting gate does to the operations downstream of it, and to no others. -/
structure GateVeto (G : OperationGraph U κ) (s : RunState U U κ) : Prop where
  not_invoked : ∀ g n, s.Rejecting G g → Relation.TransGen G.Edge g n → n ∉ s.executor.invocations
  short_circuited : ∀ g n op exit, s.Rejecting G g → Relation.TransGen G.Edge g n →
    G.operation n = some op → s.task n = some ⟨n, .finished exit⟩ →
    (s.executor.record n).status = .skipped ∧ s.GateShortCircuited n
  traced : ∀ n r, (s.executor.book n).skipReason = some r →
    s.Rejecting G r.gateId ∧ Relation.TransGen G.Edge r.gateId n

omit [DecidableEq U] [ToString U] in
theorem Watched.rejection_isSome (h : Watched G s) (hg : s.Rejecting G g) :
    (s.executor.book g).gateRejection.isSome = true := by
  obtain ⟨op, hop, hrejects⟩ := hg
  obtain ⟨t, -, hkeeps, -⟩ := h.task g op hop
  have hcompleted := hrejects.1
  cases t with
  | finished exit =>
    cases exit with
    | skipped => simp [hkeeps.2.1] at hcompleted
    | _ => exact hkeeps.2.2.1.2 hrejects
  | invoking prepared => exact absurd hcompleted (by simp [hkeeps.2.2])
  | _ => exact absurd hcompleted (by simp [hkeeps.2.2])

omit [DecidableEq U] [ToString U] in
/-- A reason at one of the heads is handed on by an operation that has left the edge scan. -/
theorem Watched.handed_on (h : Watched G s) (hop : G.operation n = some op) (ht : s.task n = some ⟨n, t⟩)
    (hpast : t.PastScan) (hedge : G.Edge m n) :
    (s.executor.record m).event ≠ some false ∧
      ((s.executor.book m).upstreamReason.isSome = true →
        t = .finished .skipped ∧ (s.executor.book n).skipReason.isSome = true) := by
  have hsighted := (h.task_eq hop ht).2
  obtain ⟨edge, hmem, rfl⟩ := List.mem_map.1 hedge
  have hnone : s.executor.ReadOff (G.incoming n) none →
      (s.executor.record edge.head).event ≠ some false ∧
        ((s.executor.book edge.head).upstreamReason.isSome = true →
          t = .finished .skipped ∧ (s.executor.book n).skipReason.isSome = true) := fun hread ↦
    ⟨hread.settled edge hmem, fun hsome ↦ absurd (hread.complete edge hmem hsome) (by simp)⟩
  cases t with
  | created => exact absurd hpast id
  | scanning rest valid reason => exact absurd hpast id
  | checking edge value rest reason => exact absurd hpast id
  | finished exit =>
    cases exit with
    | skipped =>
      exact ⟨hsighted.settled edge hmem, fun hsome ↦ ⟨rfl, hsighted.complete edge hmem hsome⟩⟩
    | scanError => exact absurd hpast id
    | preterminal => exact absurd hsighted id
    | cancelled => exact absurd hsighted id
    | abandoned => exact absurd hsighted id
    | error => exact hnone hsighted
    | settled => exact hnone hsighted
  | _ => exact hnone hsighted

/-- Downstream of a rejecting gate no edge scan has ended with an exception, and there are no nodes
but operations on the way. -/
structure Unbroken (G : OperationGraph U κ) (s : RunState U U κ) : Prop where
  scan : ∀ g n, s.Rejecting G g → Relation.TransGen G.Edge g n →
    s.task n ≠ some ⟨n, .finished .scanError⟩
  operations : ∀ g m n, s.Rejecting G g → Relation.TransGen G.Edge g m → G.Edge m n →
    (G.operation n).isSome = true → (G.operation m).isSome = true

omit [DecidableEq U] [ToString U] in
/-- Whatever has left its edge scan downstream of a rejecting gate was skipped. -/
theorem Watched.downstream (h : Watched G s) (hunbroken : s.Unbroken G) (hg : s.Rejecting G g)
    (hpath : Relation.TransGen G.Edge g n) (hop : G.operation n = some op) (ht : s.task n = some ⟨n, t⟩)
    (hpast : t.PastScan) : t = .finished .skipped ∧ (s.executor.book n).skipReason.isSome = true := by
  induction hpath generalizing op t with
  | single hedge =>
    apply (h.handed_on hop ht hpast hedge).2
    rw [Book.upstreamReason, Option.isSome_or, h.rejection_isSome hg, Bool.or_true]
  | @tail m n hgm hedge ih =>
    obtain ⟨opm, hopm⟩ := Option.isSome_iff_exists.1
      (hunbroken.operations g m n hg hgm hedge (hop ▸ rfl))
    obtain ⟨hset, hhanded⟩ := h.handed_on hop ht hpast hedge
    obtain ⟨tm, htm, hkeeps, hsighted⟩ := h.task m opm hopm
    have hpastm : tm.PastScan := by
      have hscan := hunbroken.scan g m hg hgm
      cases tm with
      | created => exact hset hkeeps.2.1
      | scanning rest valid reason => exact hset hkeeps.2.1
      | checking edge value rest reason => exact hset hkeeps.2.1
      | finished exit =>
        cases exit with
        | scanError => exact hscan htm
        | _ => trivial
      | _ => trivial
    apply hhanded
    rw [Book.upstreamReason, Option.isSome_or, (ih hopm htm hpastm).2, Bool.true_or]

end RunState

/-! ## A rejecting gate -/

section Rejection

open RunState

def gateOperation : Operation := { plainOperation with isGate := true }

/-- Operation 1 is a gate that operation 2 depends on. -/
def gated : OperationGraph ℕ Unit where
  nodes := [1, 2]
  operation n := if n = 1 then some gateOperation else if n = 2 then some plainOperation else none
  incoming n := if n = 2 then [⟨1, none⟩] else []

/-- Every operation rejects, and no edge condition can be evaluated. -/
def rejecter : Oracle ℕ Unit where
  condition _ _ := .error "condition"
  invoke _ _ := .ok (.dict [(.str "gate_verdict", .str " Reject ")])

local instance gatedLoads : JsonLoads := JsonLoads.never

def gatedRun : RunState ℕ ℕ Unit :=
  (start gated idle []).play rejecter gated 1 (List.replicate 6 1 ++ List.replicate 4 2)

theorem rejecting_gatedRun : gatedRun.Rejecting gated 1 :=
  ⟨gateOperation, rfl, by decide +kernel, rfl, by rfl⟩

theorem unbroken_gatedRun : gatedRun.Unbroken gated where
  scan := by
    intro g n _ _ hn
    have hs := reachable_play rejecter gated 1 (start gated idle [])
      (List.replicate 6 1 ++ List.replicate 4 2)
    obtain ⟨op, hop⟩ := (safe_of_reachable (hs.mono fun _ _ _ hstep ↦ hstep.1)).known n _ hn
    have hstate := congrArg (Option.map Task.state) hn
    by_cases h1 : n = 1
    · subst h1
      have hend : (gatedRun.task 1).map Task.state = some (.finished .settled) := by rfl
      simp [hend] at hstate
    · by_cases h2 : n = 2
      · subst h2
        have hend : (gatedRun.task 2).map Task.state = some (.finished .skipped) := by rfl
        simp [hend] at hstate
      · simp [gated, h1, h2] at hop
  operations := by
    intro g m n _ _ hedge _
    by_cases h2 : n = 2
    · subst h2
      obtain rfl : m = 1 := by simpa [OperationGraph.Edge, OperationGraph.predecessors, gated] using hedge
      rfl
    · simp [OperationGraph.Edge, OperationGraph.predecessors, gated, h2] at hedge

/-- Operation 3 depends on operation 1 under a condition and on the gate 2, operation 4 on
operation 3. -/
def bypassed : OperationGraph ℕ Unit where
  nodes := [1, 2, 3, 4]
  operation n := if n = 2 then some gateOperation
    else if n = 1 ∨ n = 3 ∨ n = 4 then some plainOperation else none
  incoming n := if n = 3 then [⟨1, some ()⟩, ⟨2, none⟩] else if n = 4 then [⟨3, none⟩] else []

def bypassedRun : RunState ℕ ℕ Unit :=
  (start bypassed idle []).play rejecter bypassed 1
    (List.replicate 6 1 ++ List.replicate 6 2 ++ List.replicate 3 3 ++ List.replicate 9 4)

end Rejection

end Lionagi.Operations
