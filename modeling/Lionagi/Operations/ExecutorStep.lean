import Lionagi.Operations.Executor
import Lionagi.Library.Transition

/-!
# What a step of the executor does

Each way out of `_execute_operation` rewrites the record of its own operation and no other; it is
described once, as a function of that record. The moves of a task are listed as a relation, from which
every invariant of a run is derived.
-/

namespace Lionagi.Operations

open Ln

namespace Executor

variable {U κ : Type} [DecidableEq U] (e : Executor U) (n : U)

/-! ## Elementary updates -/

variable (f : Record U → Record U)

@[simp] theorem record_modify :
    (e.modify n f).record = Function.update e.record n (f (e.record n)) := rfl

@[simp] theorem workspace_modify :
    (e.modify n f).workspace = e.workspace := rfl

@[simp] theorem borrowed_modify :
    (e.modify n f).borrowed = e.borrowed := rfl

@[simp] theorem pauseEvent_modify :
    (e.modify n f).pauseEvent = e.pauseEvent := rfl

@[simp] theorem invocations_modify :
    (e.modify n f).invocations = e.invocations := rfl

@[simp] theorem progress_modify :
    (e.modify n f).progress = e.progress := rfl

@[simp] theorem record_modifyBook (f : Book U → Book U) :
    (e.modifyBook n f).record =
      Function.update e.record n { e.record n with book := f (e.record n).book } := rfl

@[simp] theorem record_setEvent :
    (e.setEvent n).record =
      Function.update e.record n { e.record n with event := (e.record n).event.map fun _ ↦ true } := rfl

variable (p : Progress)

omit [DecidableEq U] in
@[simp] theorem record_emitProgress : (e.emitProgress n p).record = e.record := rfl

@[simp] theorem record_emitTerminalOnce :
    (e.emitTerminalOnce n p).record =
      Function.update e.record n { e.record n with terminalEmitted := true } := by
  unfold emitTerminalOnce
  split
  · next h =>
    rw [← h]
    exact (Function.update_eq_self n e.record).symm
  · rfl

theorem record_emitAbandonedTerminal (requireStarted : Bool) :
    (e.emitAbandonedTerminal n p requireStarted).record =
      Function.update e.record n { e.record n with
        terminalEmitted := (e.record n).terminalEmitted || !(requireStarted && !(e.record n).started) } := by
  unfold emitAbandonedTerminal
  split
  · next h => simp [h]
  · next h => simp [h]

/-! ## The rest of the executor -/

/-- The parts that only preparation, settlement and the limiter touch. -/
structure SameShared (e e' : Executor U) : Prop where
  workspace : e'.workspace = e.workspace
  borrowed : e'.borrowed = e.borrowed
  pauseEvent : e'.pauseEvent = e.pauseEvent
  invocations : e'.invocations = e.invocations

omit [DecidableEq U] in
theorem SameShared.refl : SameShared e e := ⟨rfl, rfl, rfl, rfl⟩

omit [DecidableEq U] in
theorem SameShared.trans {e₁ e₂ e₃ : Executor U} (h : SameShared e₁ e₂) (h' : SameShared e₂ e₃) :
    SameShared e₁ e₃ where
  workspace := h'.workspace.trans h.workspace
  borrowed := h'.borrowed.trans h.borrowed
  pauseEvent := h'.pauseEvent.trans h.pauseEvent
  invocations := h'.invocations.trans h.invocations

theorem sameShared_modify : SameShared e (e.modify n f) :=
  ⟨rfl, rfl, rfl, rfl⟩

theorem sameShared_setEvent : SameShared e (e.setEvent n) := e.sameShared_modify n _

theorem sameShared_emitTerminalOnce : SameShared e (e.emitTerminalOnce n p) := by
  unfold emitTerminalOnce
  split
  · exact .refl e
  · exact ⟨rfl, rfl, rfl, rfl⟩

theorem sameShared_emitAbandonedTerminal (requireStarted : Bool) :
    SameShared e (e.emitAbandonedTerminal n p requireStarted) := by
  unfold emitAbandonedTerminal
  split
  · exact .refl e
  · exact e.sameShared_emitTerminalOnce n p

/-! ## Exits -/

/-- The record of an operation once its completion event is set. -/
def raised (r : Record U) : Record U := { r with event := r.event.map fun _ ↦ true }

def preterminalRecord (r : Record U) : Record U :=
  { raised r with
    book := preterminalBook r
    terminalEmitted := r.terminalEmitted || (announceStatus r.status).isSome }

def failedRecord (message : String) (r : Record U) : Record U :=
  { raised r with
    book := { r.book with
      result := r.book.result.or (some (errorResult message)), failed := true }
    terminalEmitted := r.terminalEmitted || r.started }

def cancelledRecord (r : Record U) : Record U :=
  { raised r with
    status := if r.status.terminal then r.status else .cancelled
    terminalEmitted := true }

theorem record_preterminal :
    (e.preterminal n).record = Function.update e.record n (preterminalRecord (e.record n)) := by
  unfold preterminal preterminalRecord raised
  cases h : announceStatus (e.record n).status <;> simp [h]

theorem sameShared_preterminal : SameShared e (e.preterminal n) := by
  unfold preterminal
  dsimp only
  split
  · exact (e.sameShared_modify n _).trans (sameShared_setEvent _ n)
  · exact ((e.sameShared_modify n _).trans (sameShared_emitTerminalOnce _ n _)).trans
      (sameShared_setEvent _ n)

theorem record_fail (message : String) :
    (e.fail n message).record = Function.update e.record n (failedRecord message (e.record n)) := by
  simp [fail, failedRecord, raised, record_emitAbandonedTerminal]

theorem sameShared_fail (message : String) : SameShared e (e.fail n message) :=
  ((e.sameShared_modify n _).trans (sameShared_emitAbandonedTerminal _ n _ _)).trans
    (sameShared_setEvent _ n)

theorem record_cancel :
    (e.cancel n).record = Function.update e.record n (cancelledRecord (e.record n)) := by
  simp [cancel, cancelledRecord, raised, record_emitAbandonedTerminal]

theorem sameShared_cancel : SameShared e (e.cancel n) :=
  ((e.sameShared_setEvent n).trans (sameShared_modify _ n _)).trans
    (sameShared_emitAbandonedTerminal _ n _ _)

section Skip

variable [ToString U]

def skippedRecord (reason : Option (GateReason U)) (r : Record U) : Record U :=
  { raised r with status := .skipped, book := skippedBook r.book reason, terminalEmitted := true }

variable (reason : Option (GateReason U))

theorem record_skip : (e.skip n reason).record = Function.update e.record n (skippedRecord reason (e.record n)) := by
  simp [skip, skippedRecord, raised]

theorem sameShared_skip : SameShared e (e.skip n reason) :=
  ((e.sameShared_modify n _).trans (sameShared_emitTerminalOnce _ n _)).trans
    (sameShared_setEvent _ n)

end Skip

/-! ## Settlement -/

section Settle

variable [ToString U] [JsonLoads]

/-- The record of an operation whose `invoke` has returned. -/
def settledRecord (n : U) (op : Operation) (r : Record U) : Record U :=
  match r.status with
  | .completed =>
    match responseContext r.response with
    | none =>
      { raised r with book := completedBook n op r.response r.book, terminalEmitted := true }
    | some (.dict _) =>
      { raised r with book := completedBook n op r.response r.book, terminalEmitted := true }
    | some context =>
      { raised r with
        status := .failed
        error := contextMessage n op context
        book := failedBook (contextMessage n op context) r.book
        terminalEmitted := true }
  | .failed => { raised r with book := failedBook r.error r.book, terminalEmitted := true }
  | .cancelled => { raised r with terminalEmitted := true }
  | _ => raised r

variable (op : Operation)

theorem record_settle : (e.settle n op).record = Function.update e.record n (settledRecord n op (e.record n)) := by
  unfold settle settledRecord raised
  dsimp only
  cases hstatus : (e.record n).status <;> dsimp only
  case completed => split <;> simp [*]
  all_goals simp [hstatus]

/-- Settlement writes the workspace and nothing else that operations share. -/
theorem sharedSettle :
    (e.settle n op).borrowed = e.borrowed ∧ (e.settle n op).pauseEvent = e.pauseEvent ∧
      (e.settle n op).invocations = e.invocations := by
  have hkeep : ∀ (e' : Executor U) (p : Progress),
      SameShared e' ((e'.emitTerminalOnce n p).setEvent n) := fun e' p ↦
    (e'.sameShared_emitTerminalOnce n p).trans (sameShared_setEvent _ n)
  unfold settle
  dsimp only
  split
  · split
    all_goals exact ⟨(hkeep _ _).borrowed, (hkeep _ _).pauseEvent, (hkeep _ _).invocations⟩
  · exact ⟨(hkeep _ _).borrowed, (hkeep _ _).pauseEvent, (hkeep _ _).invocations⟩
  · exact ⟨(hkeep _ _).borrowed, (hkeep _ _).pauseEvent, (hkeep _ _).invocations⟩
  · exact ⟨rfl, rfl, rfl⟩

/-- The workspace changes only with the context of a response. -/
theorem workspace_settle (h : (e.record n).status = .completed → responseContext (e.record n).response = none) :
    (e.settle n op).workspace = e.workspace := by
  have hkeep : ∀ (e' : Executor U) (p : Progress),
      SameShared e' ((e'.emitTerminalOnce n p).setEvent n) := fun e' p ↦
    (e'.sameShared_emitTerminalOnce n p).trans (sameShared_setEvent _ n)
  unfold settle
  dsimp only
  split
  · next hstatus =>
    rw [h hstatus]
    exact (hkeep _ _).workspace
  · exact (hkeep _ _).workspace
  · exact (hkeep _ _).workspace
  · rfl

/-- The record of an operation from the call of `invoke` on. -/
def startedRecord (parameters : Entries) (r : Record U) : Record U :=
  { r with parameters := .dict parameters, started := true }

omit [ToString U] [JsonLoads] in
@[simp] theorem record_begin (parameters : Entries) :
    (e.begin n parameters).record =
      Function.update e.record n (startedRecord parameters (e.record n)) := rfl

omit [ToString U] [JsonLoads] in
@[simp] theorem record_process :
    (e.process n).record = Function.update e.record n { e.record n with status := .processing } := rfl

/-- The record of an operation whose body has ended. -/
def concludedRecord (n : U) (op : Operation) (outcome : Outcome) (r : Record U) : Record U :=
  match outcome with
  | .completed response => settledRecord n op { r with status := .completed, response }
  | .failed message => settledRecord n op { r with status := .failed, error := message }
  | .cancelled => cancelledRecord { r with status := .cancelled }

theorem record_conclude (outcome : Outcome) :
    (e.conclude n op outcome).record =
      Function.update e.record n (concludedRecord n op outcome (e.record n)) := by
  cases outcome <;> simp [conclude, concludedRecord, record_settle, record_cancel]

theorem shared_conclude (outcome : Outcome) :
    (e.conclude n op outcome).borrowed = e.borrowed - 1 ∧
      (e.conclude n op outcome).pauseEvent = e.pauseEvent ∧
      (e.conclude n op outcome).invocations = e.invocations := by
  cases outcome with
  | completed response => exact sharedSettle _ n op
  | failed message => exact sharedSettle _ n op
  | cancelled =>
    have h := sameShared_cancel
      ({ e with borrowed := e.borrowed - 1 }.modify n fun r ↦ { r with status := .cancelled }) n
    exact ⟨h.borrowed, h.pauseEvent, h.invocations⟩

theorem workspace_conclude {op : Operation} {outcome : Outcome}
    (h : ∀ response, outcome = .completed response → responseContext response = none) :
    (e.conclude n op outcome).workspace = e.workspace := by
  cases outcome with
  | completed response =>
    refine workspace_settle _ n op fun _ ↦ ?_
    simpa using h response rfl
  | failed message =>
    refine workspace_settle _ n op fun hstatus ↦ ?_
    simp at hstatus
  | cancelled => exact (sameShared_cancel _ n).workspace

end Settle

end Executor

/-! ## The moves of a task -/

section Moves

variable {U κ : Type} [DecidableEq U] [ToString U] [JsonLoads]

/-- The task of `n` goes from one state to the next, and the executor from `e` to `e'`. -/
inductive Moves (G : OperationGraph U κ) (capacity : ℕ) (n : U) (op : Operation) (e : Executor U) :
    TaskState U κ → Action → Executor U → TaskState U κ → Prop
  | preterminal (h : (e.record n).status.terminal = true) :
      Moves G capacity n op e .created .run (e.preterminal n) (.finished .preterminal)
  | source (h : (e.record n).status.terminal = false) (hin : G.incoming n = []) :
      Moves G capacity n op e .created .run e (.aggregating op.aggregationSources)
  | scan (h : (e.record n).status.terminal = false) (hin : G.incoming n ≠ []) :
      Moves G capacity n op e .created .run e (.scanning (G.incoming n) false none)
  | vetoed {edge rest valid gateReason reason} (hset : (e.record edge.head).event ≠ some false)
      (h : (e.record edge.head).book.upstreamReason = some reason) :
      Moves G capacity n op e (.scanning (edge :: rest) valid gateReason) .run e
        (.scanning rest valid (gateReason.or (some reason)))
  | passed {edge rest valid gateReason} (hset : (e.record edge.head).event ≠ some false)
      (h : (e.record edge.head).book.upstreamReason = none)
      (hpass : (e.record edge.head).book.closed = true ∨ valid = true) :
      Moves G capacity n op e (.scanning (edge :: rest) valid gateReason) .run e
        (.scanning rest valid gateReason)
  | unreadable {edge rest gateReason message} (hset : (e.record edge.head).event ≠ some false)
      (h : (e.record edge.head).book.upstreamReason = none)
      (hopen : (e.record edge.head).book.closed = false)
      (hplain : ((e.record edge.head).book.result.getD .none).plain = .error message) :
      Moves G capacity n op e (.scanning (edge :: rest) false gateReason) .run (e.fail n message)
        (.finished .scanError)
  | ask {edge rest gateReason value} (hset : (e.record edge.head).event ≠ some false)
      (h : (e.record edge.head).book.upstreamReason = none)
      (hopen : (e.record edge.head).book.closed = false)
      (hplain : ((e.record edge.head).book.result.getD .none).plain = .ok value) :
      Moves G capacity n op e (.scanning (edge :: rest) false gateReason) .run e
        (.checking edge value rest gateReason)
  | answered {edge value rest gateReason valid} :
      Moves G capacity n op e (.checking edge value rest gateReason) (.condition (.ok valid)) e
        (.scanning rest valid gateReason)
  | conditionRaised {edge value rest gateReason message} :
      Moves G capacity n op e (.checking edge value rest gateReason) (.condition (.error message))
        (e.fail n message) (.finished .scanError)
  | skipped {valid gateReason} (h : gateReason.isSome = true ∨ valid = false) :
      Moves G capacity n op e (.scanning [] valid gateReason) .run (e.skip n gateReason)
        (.finished .skipped)
  | admitted : Moves G capacity n op e (.scanning [] true none) .run e
        (.aggregating op.aggregationSources)
  | aggregated {source rest} (h : ∀ m, G.resolve source = some m → (e.record m).event ≠ some false) :
      Moves G capacity n op e (.aggregating (source :: rest)) .run e (.aggregating rest)
  | depend : Moves G capacity n op e (.aggregating []) .run e (.waiting (G.predecessors n))
  | noEvent {pred rest} (h : (e.record pred).event = none) :
      Moves G capacity n op e (.waiting (pred :: rest)) .run (e.fail n s!"UUID('{pred}')")
        (.finished .error)
  | waited {pred rest} (h : (e.record pred).event = some true) :
      Moves G capacity n op e (.waiting (pred :: rest)) .run e (.waiting rest)
  | hold {gate} (h : e.pauseEvent = some gate) :
      Moves G capacity n op e (.waiting []) .run e (.paused gate)
  | pass (h : e.pauseEvent = none) : Moves G capacity n op e (.waiting []) .run e .acquiring
  | released {gate} (h : e.pauseEvent ≠ some gate) :
      Moves G capacity n op e (.paused gate) .run e (.waiting [])
  | unprepared {message} (hcap : e.borrowed < capacity)
      (h : Executor.prepare e.book (e.record n).parameters e.workspace (G.predecessors n) =
        .error message) :
      Moves G capacity n op e .acquiring .run (e.fail n message) (.finished .error)
  | invoke {prepared} (hcap : e.borrowed < capacity)
      (h : Executor.prepare e.book (e.record n).parameters e.workspace (G.predecessors n) =
        .ok prepared)
      (hstatus : (e.record n).status = .pending) :
      Moves G capacity n op e .acquiring .run ((e.begin n prepared.parameters).process n)
        (.invoking prepared)
  | noInvoke {prepared} (hcap : e.borrowed < capacity)
      (h : Executor.prepare e.book (e.record n).parameters e.workspace (G.predecessors n) =
        .ok prepared)
      (hstatus : (e.record n).status ≠ .pending) :
      Moves G capacity n op e .acquiring .run ((e.begin n prepared.parameters).settle n op)
        (.finished .settled)
  | settled {prepared outcome} (h : outcome ≠ .cancelled) :
      Moves G capacity n op e (.invoking prepared) (.returned outcome) (e.conclude n op outcome)
        (.finished .settled)
  | stopped {prepared action} (h : action = .returned .cancelled ∨ action = .cancel) :
      Moves G capacity n op e (.invoking prepared) action (e.conclude n op .cancelled)
        (.finished .cancelled)
  | abandoned : Moves G capacity n op e .created .cancel e (.finished .abandoned)
  | cancelled {t} (hcreated : t ≠ .created) (hinvoking : ∀ prepared, t ≠ .invoking prepared)
      (hfinished : ∀ exit, t ≠ .finished exit) :
      Moves G capacity n op e t .cancel (e.cancel n) (.finished .cancelled)

variable {G : OperationGraph U κ} {capacity : ℕ} {n : U} {op : Operation} {e e' : Executor U}
variable {t t' : TaskState U κ} {action : Action}

theorem moves_enter (h : enter G n op e = (e', t')) :
    Moves G capacity n op e .created .run e' t' := by
  unfold enter at h
  split at h
  · next hstatus =>
    cases h
    exact .preterminal hstatus
  · next hstatus =>
    have hopen : (e.record n).status.terminal = false := Bool.eq_false_iff.2 hstatus
    split at h
    · next hin =>
      cases h
      exact .source hopen hin
    · next hin =>
      cases h
      exact .scan hopen hin

variable {reason : Option (GateReason U)}

theorem moves_scanEdge {edge : InEdge U κ} {rest : List (InEdge U κ)} {valid : Bool}
    (hset : (e.record edge.head).event ≠ some false) (h : scanEdge n e edge rest valid reason = (e', t')) :
    Moves G capacity n op e (.scanning (edge :: rest) valid reason) .run e' t' := by
  unfold scanEdge at h
  dsimp only at h
  split at h
  · next hreason =>
    cases h
    exact .vetoed hset hreason
  · next hreason =>
    split at h
    · next hpass =>
      cases h
      exact .passed hset hreason (by simpa using hpass)
    · next hpass =>
      obtain ⟨hopen, rfl⟩ : (e.record edge.head).book.closed = false ∧ valid = false := by
        simpa using hpass
      split at h
      · next hplain =>
        cases h
        exact .unreadable hset hreason hopen hplain
      · next hplain =>
        cases h
        exact .ask hset hreason hopen hplain

theorem moves_concludeScan {valid : Bool} (h : concludeScan n op e valid reason = (e', t')) :
    Moves G capacity n op e (.scanning [] valid reason) .run e' t' := by
  unfold concludeScan at h
  split at h
  · next hskip =>
    cases h
    exact .skipped (by simpa using hskip)
  · next hskip =>
    obtain ⟨rfl, rfl⟩ : reason = none ∧ valid = true := by simpa using hskip
    cases h
    exact .admitted

theorem moves_launch (hcap : e.borrowed < capacity) (h : launch G n op e = (e', t')) :
    Moves G capacity n op e .acquiring .run e' t' := by
  unfold launch at h
  split at h
  · next hprepare =>
    cases h
    exact .unprepared hcap hprepare
  · next prepared hprepare =>
    have hsame : ((e.begin n prepared.parameters).record n).status = (e.record n).status := by
      simp [Executor.startedRecord]
    dsimp only at h
    split at h
    · next hstatus =>
      cases h
      exact .invoke hcap hprepare (hsame ▸ hstatus)
    · next hstatus =>
      cases h
      exact .noInvoke hcap hprepare (hsame ▸ hstatus)

/-- The moves are all that a task can do. -/
theorem moves_of_advance (h : advance G capacity n op e t action = some (e', t')) :
    Moves G capacity n op e t action e' t' := by
  unfold advance at h
  split at h
  · exact moves_enter (Option.some.inj h)
  · cases h
    exact .abandoned
  · exact moves_concludeScan (Option.some.inj h)
  · split at h
    · cases h
    · next hset => exact moves_scanEdge hset (Option.some.inj h)
  · cases h
    exact .answered
  · cases h
    exact .conditionRaised
  · cases h
    exact .depend
  · split at h
    · next hnone =>
      cases h
      exact .aggregated (by simp [hnone])
    · next m hsome =>
      split at h
      · cases h
      · next hset =>
        cases h
        refine .aggregated fun m' hm' ↦ ?_
        rw [hsome, Option.some.injEq] at hm'
        exact hm' ▸ hset
  · split at h
    · next hpause =>
      cases h
      exact .hold hpause
    · next hpause =>
      cases h
      exact .pass hpause
  · split at h
    · next hevent =>
      cases h
      exact .noEvent hevent
    · cases h
    · next hevent =>
      cases h
      exact .waited hevent
  · split at h
    · cases h
    · next hgate =>
      cases h
      exact .released hgate
  · split at h
    · next hcap => exact moves_launch hcap (Option.some.inj h)
    · cases h
  · cases h
    exact .stopped (.inl rfl)
  · next houtcome =>
    cases h
    exact .settled houtcome
  · cases h
    exact .stopped (.inr rfl)
  · cases h
  · next hcreated hinvoking hfinished =>
    cases h
    exact .cancelled hcreated hinvoking hfinished
  · cases h

/-- A task writes the record of its own operation only. -/
theorem Moves.record_of_ne (h : Moves G capacity n op e t action e' t') {m : U} (hm : m ≠ n) :
    e'.record m = e.record m := by
  cases h with
  | preterminal => rw [Executor.record_preterminal, Function.update_of_ne hm]
  | skipped => rw [Executor.record_skip, Function.update_of_ne hm]
  | invoke => simp [Function.update_of_ne hm]
  | noInvoke => simp [Executor.record_settle, Function.update_of_ne hm]
  | settled => rw [Executor.record_conclude, Function.update_of_ne hm]
  | stopped => rw [Executor.record_conclude, Function.update_of_ne hm]
  | cancelled => rw [Executor.record_cancel, Function.update_of_ne hm]
  | unreadable | conditionRaised | noEvent | unprepared =>
    rw [Executor.record_fail, Function.update_of_ne hm]
  | _ => rfl

end Moves

/-! ## The steps of a run -/

namespace RunState

variable {K U κ : Type} [DecidableEq K] [DecidableEq U] [ToString U] [JsonLoads]
variable {W : World U κ} {G : OperationGraph U κ} {capacity : ℕ} {s s' : RunState K U κ} {l : Label K}

/-- The state after the task under a key has moved. -/
def moved (s : RunState K U κ) (key : K) (node : U) (action : Action) (e' : Executor U)
    (t' : TaskState U κ) : RunState K U κ where
  executor := e'
  task := Function.update s.task key (some ⟨node, t'⟩)
  cancelling := s.cancelling || action.cancels

/-- The step of a task. -/
structure TaskStep (W : World U κ) (G : OperationGraph U κ) (capacity : ℕ) (s : RunState K U κ)
    (key : K) (n : U) (op : Operation) (t : TaskState U κ) (action : Action) (e' : Executor U)
    (t' : TaskState U κ) : Prop where
  task : s.task key = some ⟨n, t⟩
  operation : G.operation n = some op
  deliverable : action.deliverable s.cancelling = true
  permits : W.Permits s.executor n t action
  moves : Moves G capacity n op s.executor t action e' t'

/-- Nothing is cancelled in a run that nobody cancels. -/
theorem TaskStep.uncancelled (hW : ∀ n prepared, ¬ W.invoke n prepared .cancelled)
    {s : RunState U U κ} {key n : U} {op : Operation} {t t' : TaskState U κ} {action : Action}
    {e' : Executor U} (h : TaskStep W G capacity s key n op t action e' t')
    (hcalm : s.cancelling = false) : action ≠ .cancel ∧ action ≠ .returned .cancelled := by
  constructor
  · rintro rfl
    have hdeliver := h.deliverable
    rw [hcalm] at hdeliver
    cases hdeliver
  · rintro rfl
    have hpermits := h.permits
    cases h.moves with
    | settled hne => exact hne rfl
    | stopped => exact hW n _ hpermits

/-- Pausing, resuming and cancelling touch neither records nor tasks. -/
structure ControlStep (s : RunState K U κ) (l : Label K) (s' : RunState K U κ) : Prop where
  record : s'.executor.record = s.executor.record
  workspace : s'.executor.workspace = s.executor.workspace
  borrowed : s'.executor.borrowed = s.executor.borrowed
  progress : s'.executor.progress = s.executor.progress
  invocations : s'.executor.invocations = s.executor.invocations
  task : s'.task = s.task
  cancelling : l ≠ .cancel → s'.cancelling = s.cancelling

theorem taskStep_of_step {key : K} {action : Action} (h : Step W G capacity s (.task key action) s') :
    ∃ n op t e' t', TaskStep W G capacity s key n op t action e' t' ∧ s' = s.moved key n action e' t' := by
  obtain ⟨hnext, hpermits⟩ := h
  simp only [next] at hnext
  split at hnext
  · cases hnext
  · next task htask =>
    obtain ⟨n, t⟩ := task
    split at hnext
    · cases hnext
    · next op hop =>
      split at hnext
      · next hdeliver =>
        rw [Option.map_eq_some_iff] at hnext
        obtain ⟨⟨e', t'⟩, hadvance, rfl⟩ := hnext
        exact ⟨n, op, t, e', t', ⟨htask, hop, hdeliver, hpermits _ htask, moves_of_advance hadvance⟩, rfl⟩
      · cases hnext

theorem step_cases (h : Step W G capacity s l s') :
    (∃ key n op t action e' t', l = .task key action ∧
      TaskStep W G capacity s key n op t action e' t' ∧ s' = s.moved key n action e' t') ∨
    ControlStep s l s' := by
  cases l with
  | task key action =>
    obtain ⟨n, op, t, e', t', htask, hmoved⟩ := taskStep_of_step h
    exact .inl ⟨key, n, op, t, action, e', t', rfl, htask, hmoved⟩
  | pause =>
    right
    have hnext := h.1
    simp only [next] at hnext
    split at hnext
    · cases hnext
      exact ⟨rfl, rfl, rfl, rfl, rfl, rfl, fun _ ↦ rfl⟩
    · cases hnext
      exact ⟨rfl, rfl, rfl, rfl, rfl, rfl, fun _ ↦ rfl⟩
  | resume =>
    right
    cases h.1
    exact ⟨rfl, rfl, rfl, rfl, rfl, rfl, fun _ ↦ rfl⟩
  | cancel =>
    right
    cases h.1
    exact ⟨rfl, rfl, rfl, rfl, rfl, rfl, fun h ↦ absurd rfl h⟩

/-- Tasks are neither added nor removed, and each stays with its operation. -/
theorem node_step (h : Step W G capacity s l s') (key : K) :
    (s'.task key).map Task.node = (s.task key).map Task.node := by
  rcases step_cases h with ⟨key', n, op, t, action, e', t', -, htask, rfl⟩ | hcontrol
  · by_cases hkey : key = key'
    · subst hkey
      rw [htask.task, show (s.moved key n action e' t').task key = some ⟨n, t'⟩ from
        Function.update_self _ _ _]
      rfl
    · exact congrArg (Option.map Task.node) (Function.update_of_ne hkey _ _)
  · rw [hcontrol.task]

end RunState

/-! ## Schedules -/

/-- Conditions that read only the upstream value, and operations that respond or raise as a function of
what they are invoked with. -/
structure Oracle (U κ : Type) where
  condition : κ → Value → Except String Bool
  invoke : U → Prepared U → Except String Value

namespace Oracle

variable {U κ : Type}

/-- The outcome of an operation that is invoked. -/
def outcome (O : Oracle U κ) (n : U) (prepared : Prepared U) : Outcome :=
  match O.invoke n prepared with
  | .ok response => .completed response
  | .error message => .failed message

/-- The answer of an edge. -/
def ask (O : Oracle U κ) (edge : InEdge U κ) (value : Value) : Except String Bool :=
  match edge.condition with
  | none => .ok true
  | some c => O.condition c value

def world (O : Oracle U κ) : World U κ where
  condition c value _ outcome := outcome = O.condition c value
  invoke n prepared outcome := outcome = O.outcome n prepared

/-- How a task goes on when it is scheduled. -/
def action (O : Oracle U κ) (n : U) : TaskState U κ → Action
  | .checking edge value _ _ => .condition (O.ask edge value)
  | .invoking prepared => .returned (O.outcome n prepared)
  | _ => .run

theorem outcome_ne_cancelled (O : Oracle U κ) (n : U) (prepared : Prepared U) :
    O.outcome n prepared ≠ .cancelled := by
  unfold outcome
  split <;> exact nofun

theorem permits_condition {O : Oracle U κ} {e : Executor U} {n : U} {edge : InEdge U κ}
    {value : Value} {rest : List (InEdge U κ)} {reason : Option (GateReason U)}
    {answer : Except String Bool} :
    O.world.Permits e n (.checking edge value rest reason) (.condition answer) ↔
      answer = O.ask edge value := by
  cases hcondition : edge.condition <;> simp [World.Permits, ask, world, hcondition]

theorem permits_action (O : Oracle U κ) (e : Executor U) (n : U) (t : TaskState U κ) :
    O.world.Permits e n t (O.action n t) := by
  cases t with
  | checking edge value rest reason => exact permits_condition.2 rfl
  | invoking prepared => rfl
  | _ => trivial

end Oracle

namespace RunState

variable {K U κ : Type} [DecidableEq K] [DecidableEq U] [ToString U] [JsonLoads]

/-- A step of a run that nobody cancels. -/
def Proceeds (W : World U κ) (G : OperationGraph U κ) (capacity : ℕ) (s : RunState K U κ)
    (l : Label K) (t : RunState K U κ) : Prop :=
  Step W G capacity s l t ∧ l ≠ .cancel

/-- Schedule one task. -/
def turn (O : Oracle U κ) (G : OperationGraph U κ) (capacity : ℕ) (s : RunState K U κ) (key : K) :
    Option (RunState K U κ) :=
  match s.task key with
  | none => none
  | some t => s.next G capacity (.task key (O.action t.node t.state))

/-- Schedule the tasks one after the other; a task that cannot go on is passed over. -/
def play (O : Oracle U κ) (G : OperationGraph U κ) (capacity : ℕ) (s : RunState K U κ)
    (schedule : List K) : RunState K U κ :=
  schedule.foldl (fun s key ↦ (s.turn O G capacity key).getD s) s

variable {G : OperationGraph U κ}

theorem proceeds_of_turn {O : Oracle U κ} {capacity : ℕ} {s s' : RunState K U κ} {key : K}
    (h : s.turn O G capacity key = some s') : ∃ l, Proceeds O.world G capacity s l s' := by
  unfold turn at h
  split at h
  · cases h
  · next t ht =>
    refine ⟨_, ⟨h, fun t' ht' ↦ ?_⟩, nofun⟩
    rw [ht, Option.some.injEq] at ht'
    exact ht' ▸ O.permits_action s.executor t.node t.state

/-- A turn that is possible is a step to the state that `play` gives. -/
theorem proceeds_play {O : Oracle U κ} {capacity : ℕ} {s : RunState K U κ} {key : K}
    (h : (s.turn O G capacity key).isSome = true) :
    ∃ l, Proceeds O.world G capacity s l (s.play O G capacity [key]) := by
  obtain ⟨s', hs'⟩ := Option.isSome_iff_exists.1 h
  have hplay : s.play O G capacity [key] = s' := by simp [play, hs']
  exact hplay ▸ proceeds_of_turn hs'

theorem reachable_play (O : Oracle U κ) (G : OperationGraph U κ) (capacity : ℕ)
    (s : RunState K U κ) (schedule : List K) :
    Transition.Reachable (Proceeds O.world G capacity) s (s.play O G capacity schedule) := by
  have hprefix : ∀ u, Transition.Reachable (Proceeds O.world G capacity) s u →
      Transition.Reachable (Proceeds O.world G capacity) s (u.play O G capacity schedule) := by
    induction schedule with
    | nil => exact fun _ hu ↦ hu
    | cons key rest ih =>
      intro u hu
      refine ih _ ?_
      dsimp only
      cases hturn : u.turn O G capacity key with
      | none => exact hu
      | some u' =>
        obtain ⟨l, hl⟩ := proceeds_of_turn hturn
        exact hu.step hl
  exact hprefix s .start

end RunState

end Lionagi.Operations
