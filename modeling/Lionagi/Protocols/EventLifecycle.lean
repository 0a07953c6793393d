import Mathlib.Data.Int.Notation
import Mathlib.Data.List.Chain
import Lionagi.Library.Transition
import Lionagi.Operations.Executor

/-!
# The lifecycle of an event

`invoke` and `stream` share one status. Any number of coroutines and generators are made of them, and
each goes on in steps between the points where it waits, or where its consumer holds it. An invocation
begins only while the event is pending, a stream as long as the event is not terminal.
-/

namespace Lionagi.Protocols

open Transition
open Operations (EventStatus)

/-- What a body raises: an exception of the class `Exception`, one outside it such as a cancellation,
or an exception group. -/
inductive Raised (X : Type) where
  | exception (exc : X)
  | baseException (exc : X)
  | group (message : String) (exceptions : List (Raised X))

/-- `isinstance(exc, Exception)` -/
def Raised.isException {X : Type} : Raised X → Bool
  | baseException _ => false
  | _ => true

/-- What `Execution.error` holds when it holds something. -/
inductive ExecutionError (X : Type) where
  | text (message : String)
  | raised (exc : Raised X)

/-- A duration that is unset, or that of no start, is `none`. -/
structure Execution (R X : Type) where
  status : EventStatus
  duration : Option ℤ
  response : Option R
  error : Option (ExecutionError X)

namespace Execution

variable {R X : Type}

def maxErrors : ℕ := 100

/-- `ExceptionGroup(message, exceptions)`, a `TypeError` where one of them is no `Exception`. -/
def exceptionGroup (message : String) (exceptions : List (Raised X)) : Option (ExecutionError X) :=
  if exceptions.all Raised.isException then some (.raised (.group message exceptions)) else none

/-- `none` where the errors cannot be grouped. -/
def addError (execution : Execution R X) (exc : Raised X) : Option (Execution R X) :=
  match execution.error with
  | none => some { execution with error := some (.raised exc) }
  | some (.raised (.group message exceptions)) =>
    if maxErrors ≤ exceptions.length then some execution
    else (exceptionGroup message (exceptions ++ [exc])).map fun error ↦
      { execution with error := some error }
  | some (.raised error) =>
    (exceptionGroup "multiple errors" [error, exc]).map fun error ↦ { execution with error := some error }
  | some (.text _) => some { execution with error := some (.raised exc) }

end Execution

inductive CallKind where
  | invoke
  | stream
  deriving DecidableEq

/-- A call that is made and not begun, in its body since `start`, held at a `yield`, left at a `yield`
by an exception that the inner generator is being closed for, or over. -/
inductive CallPhase where
  | created (kind : CallKind)
  | running (kind : CallKind) (start : ℤ)
  | yielded (start : ℤ)
  | closing (start : ℤ)
  | finished
  deriving DecidableEq

/-- The call has entered `_invoke` or `_stream` and has not left it. -/
def CallPhase.inBody : CallPhase → Bool
  | created _ => false
  | finished => false
  | _ => true

/-- The event and the calls made of it. `completionEvent` says whether the lazily made event is set.
`entered` counts the bodies entered and `statuses` lists the statuses taken, the first one included. -/
structure Event (R X : Type) where
  execution : Execution R X
  completionEvent : Option Bool
  calls : List CallPhase
  entered : ℕ
  statuses : List EventStatus

/-- A call of `invoke` or `stream`, a step of one of the calls, or a look at `completion_event`. The
body gives its consumer a chunk, returns, or raises; at a `yield` the consumer asks for more or lets an
exception through, be it by closing the generator or by abandoning it. A call that was not begun is
discarded. -/
inductive EventOp (R X : Type) where
  | call (kind : CallKind)
  | begin (i : ℕ) (now : ℤ)
  | yields (i : ℕ)
  | next (i : ℕ)
  | throw (i : ℕ)
  | returns (i : ℕ) (response : R) (now : ℤ)
  | raises (i : ℕ) (exc : Raised X) (now : ℤ)
  | discard (i : ℕ)
  | completionEvent

/-- The guard of `invoke` and that of `stream`. -/
def CallKind.Admits : CallKind → EventStatus → Prop
  | invoke, status => status = .pending
  | stream, status => status.terminal = false

instance : (kind : CallKind) → (status : EventStatus) → Decidable (kind.Admits status)
  | .invoke, status => inferInstanceAs (Decidable (status = .pending))
  | .stream, status => inferInstanceAs (Decidable (status.terminal = false))

namespace Event

variable {R X : Type}

/-- No call has been made of the event yet. -/
def init (execution : Execution R X) : Event R X where
  execution := execution
  completionEvent := none
  calls := []
  entered := 0
  statuses := [execution.status]

variable (e : Event R X)

def withPhase (i : ℕ) (phase : CallPhase) : Event R X := { e with calls := e.calls.set i phase }

/-- The setter of `status`. -/
def setStatus (status : EventStatus) : Event R X :=
  { e with
    execution := { e.execution with status := status }
    statuses := e.statuses ++ [status]
    completionEvent :=
      if status.terminal then e.completionEvent.map fun _ ↦ true else e.completionEvent }

/-- The status is assigned beside the setter, and the body runs up to where it waits. -/
def enter (i : ℕ) (kind : CallKind) (now : ℤ) : Event R X :=
  { e with
    execution := { e.execution with status := .processing }
    statuses := e.statuses ++ [.processing]
    entered := e.entered + 1
    calls := e.calls.set i (.running kind now) }

def begin (i : ℕ) (kind : CallKind) (now : ℤ) : Event R X :=
  if kind.Admits e.execution.status then e.enter i kind now else e.withPhase i .finished

/-- `finally` -/
def leave (i : ℕ) (start now : ℤ) : Event R X :=
  { e with
    execution := { e.execution with duration := some (now - start) }
    calls := e.calls.set i .finished }

def setResponse (kind : CallKind) (response : R) : Event R X :=
  match kind with
  | .invoke => { e with execution := { e.execution with response := some response } }
  | .stream => e

def returned (kind : CallKind) (response : R) : Event R X :=
  (e.setResponse kind response).setStatus .completed

/-- An error that cannot be added leaves an execution as it is. -/
def addError (exc : Raised X) : Event R X :=
  { e with execution := (e.execution.addError exc).getD e.execution }

/-- `except Exception` sets the status first, `except BaseException` adds the error first. -/
def raised (exc : Raised X) : Event R X :=
  if exc.isException then (e.setStatus .failed).addError exc
  else
    match e.execution.addError exc with
    | none => e
    | some execution => { e with execution := execution }.setStatus .cancelled

/-- One step; what is not enabled changes nothing. -/
def exec : Event R X → EventOp R X → Event R X
  | e, .call kind => { e with calls := e.calls ++ [.created kind] }
  | e, .begin i now =>
    match e.calls[i]? with
    | some (.created kind) => e.begin i kind now
    | _ => e
  | e, .yields i =>
    match e.calls[i]? with
    | some (.running .stream start) => e.withPhase i (.yielded start)
    | _ => e
  | e, .next i =>
    match e.calls[i]? with
    | some (.yielded start) => e.withPhase i (.running .stream start)
    | _ => e
  | e, .throw i =>
    match e.calls[i]? with
    | some (.yielded start) => e.withPhase i (.closing start)
    | _ => e
  | e, .returns i response now =>
    match e.calls[i]? with
    | some (.running kind start) => (e.returned kind response).leave i start now
    | _ => e
  | e, .raises i exc now =>
    match e.calls[i]? with
    | some (.running _ start) => (e.raised exc).leave i start now
    | some (.closing start) => (e.raised exc).leave i start now
    | _ => e
  | e, .discard i =>
    match e.calls[i]? with
    | some (.created _) => e.withPhase i .finished
    | _ => e
  | e, .completionEvent =>
    match e.completionEvent with
    | none => { e with completionEvent := some e.execution.status.terminal }
    | some _ => e

/-! ## What a step does -/

/-- The calls that are in their bodies. -/
def bodies : ℕ := e.calls.countP CallPhase.inBody

/-- The status stays, and no call enters its body or leaves it. -/
structure Quiet (e e' : Event R X) : Prop where
  status : e'.execution.status = e.execution.status
  statuses : e'.statuses = e.statuses
  entered : e'.entered = e.entered
  bodies : e'.bodies = e.bodies
  signal : e'.completionEvent = e.completionEvent ∨
    e'.completionEvent = some e.execution.status.terminal

/-- A call of the kind enters its body. -/
structure Enters (kind : CallKind) (e e' : Event R X) : Prop where
  admits : kind.Admits e.execution.status
  status : e'.execution.status = .processing
  statuses : e'.statuses = e.statuses ++ [.processing]
  entered : e'.entered = e.entered + 1
  bodies : e'.bodies = e.bodies + 1
  signal : e'.completionEvent = e.completionEvent

/-- The setter of the status was called with a terminal status, once, or the status stays. -/
inductive Settles (e e' : Event R X) : Prop
  | kept (status : e'.execution.status = e.execution.status) (statuses : e'.statuses = e.statuses)
      (signal : e'.completionEvent = e.completionEvent)
  | set (terminal : e'.execution.status.terminal = true)
      (statuses : e'.statuses = e.statuses ++ [e'.execution.status])
      (signal : e'.completionEvent = e.completionEvent.map fun _ ↦ true)

/-- A call leaves its body. -/
structure Leaves (e e' : Event R X) : Prop where
  entered : e'.entered = e.entered
  bodies : e'.bodies + 1 = e.bodies
  settles : Settles e e'

variable {e : Event R X} {i : ℕ}

theorem Quiet.refl (e : Event R X) : Quiet e e := ⟨rfl, rfl, rfl, rfl, .inl rfl⟩

variable {old : CallPhase}

theorem countP_set_add {calls : List CallPhase} (h : calls[i]? = some old) (new : CallPhase) :
    (calls.set i new).countP CallPhase.inBody + old.inBody.toNat =
      calls.countP CallPhase.inBody + new.inBody.toNat := by
  obtain ⟨hi, rfl⟩ := List.getElem?_eq_some_iff.1 h
  have hcount := List.countP_set (p := CallPhase.inBody) (a := new) hi
  cases hold : calls[i].inBody with
  | false =>
    rw [hold] at hcount
    rw [hcount]
    cases new.inBody <;> rfl
  | true =>
    have hpos : 0 < calls.countP CallPhase.inBody := List.countP_pos_iff.2 ⟨_, List.getElem_mem hi, hold⟩
    rw [hold] at hcount
    rw [hcount]
    cases new.inBody <;> simp <;> omega

theorem quiet_withPhase {new : CallPhase} (h : e.calls[i]? = some old) (hnew : new.inBody = old.inBody) :
    Quiet e (e.withPhase i new) := by
  have hcount := countP_set_add h new
  rw [hnew] at hcount
  exact ⟨rfl, rfl, rfl, Nat.add_right_cancel hcount, .inl rfl⟩

theorem quiet_call (kind : CallKind) : Quiet e (e.exec (.call kind)) := by
  refine ⟨rfl, rfl, rfl, ?_, .inl rfl⟩
  show (e.calls ++ [CallPhase.created kind]).countP CallPhase.inBody = e.bodies
  rw [List.countP_append]
  rfl

variable {kind : CallKind}

theorem enters_enter (h : e.calls[i]? = some (.created kind)) (hadmits : kind.Admits e.execution.status) (now : ℤ) :
    Enters kind e (e.enter i kind now) where
  admits := hadmits
  status := rfl
  statuses := rfl
  entered := rfl
  bodies := countP_set_add h (.running kind now)
  signal := rfl

variable {e' : Event R X}

theorem leaves_leave (h : e.calls[i]? = some old) (hold : old.inBody = true) (hcalls : e'.calls = e.calls)
    (hentered : e'.entered = e.entered) (hsettles : Settles e e') (start now : ℤ) :
    Leaves e (e'.leave i start now) where
  entered := hentered
  bodies := by
    have hcount := countP_set_add h .finished
    rw [hold] at hcount
    show (e'.calls.set i .finished).countP CallPhase.inBody + 1 = e.bodies
    rw [hcalls]
    exact hcount
  settles := by
    cases hsettles with
    | kept status statuses signal => exact .kept status statuses signal
    | set terminal statuses signal => exact .set terminal statuses signal

theorem addError_status {execution execution' : Execution R X} {exc : Raised X}
    (h : execution.addError exc = some execution') : execution'.status = execution.status := by
  unfold Execution.addError at h
  split at h
  · cases h
    rfl
  · split at h
    · cases h
      rfl
    · obtain ⟨_, -, rfl⟩ := Option.map_eq_some_iff.1 h
      rfl
  · obtain ⟨_, -, rfl⟩ := Option.map_eq_some_iff.1 h
    rfl
  · cases h
    rfl

variable (execution : Execution R X)

theorem getD_addError_status (exc : Raised X) :
    ((execution.addError exc).getD execution).status = execution.status := by
  cases h : execution.addError exc with
  | none => rfl
  | some execution' => exact addError_status h

variable (exc : Raised X)

theorem settles_raised : Settles e (e.raised exc) := by
  rw [Event.raised]
  split
  · have hstatus : ((e.setStatus .failed).addError exc).execution.status = .failed :=
      getD_addError_status (e.setStatus .failed).execution exc
    refine .set (congrArg EventStatus.terminal hstatus) ?_ rfl
    rw [hstatus]
    rfl
  · split
    · exact .kept rfl rfl rfl
    · exact .set rfl rfl rfl

theorem settles_returned (kind : CallKind) (response : R) : Settles e (e.returned kind response) := by
  cases kind with
  | invoke => exact .set rfl rfl rfl
  | stream => exact .set rfl rfl rfl

theorem raised_calls : (e.raised exc).calls = e.calls := by
  unfold Event.raised
  split
  · rfl
  · split <;> rfl

theorem raised_entered : (e.raised exc).entered = e.entered := by
  unfold Event.raised
  split
  · rfl
  · split <;> rfl

/-- A step is quiet, or it lets the call it begins into its body, or a call leaves its body. -/
theorem exec_cases (e : Event R X) (op : EventOp R X) :
    Quiet e (e.exec op) ∨
    (∃ i now kind, op = .begin i now ∧ e.calls[i]? = some (.created kind) ∧ Enters kind e (e.exec op)) ∨
    Leaves e (e.exec op) := by
  cases op with
  | call kind => exact .inl (quiet_call kind)
  | begin i now =>
    rw [Event.exec]
    split
    · next kind hcall =>
      rw [Event.begin]
      split
      · next hadmits => exact .inr (.inl ⟨i, now, kind, rfl, hcall, enters_enter hcall hadmits now⟩)
      · exact .inl (quiet_withPhase hcall rfl)
    · exact .inl (.refl e)
  | yields i =>
    rw [Event.exec]
    split
    · next hcall => exact .inl (quiet_withPhase hcall rfl)
    · exact .inl (.refl e)
  | next i =>
    rw [Event.exec]
    split
    · next hcall => exact .inl (quiet_withPhase hcall rfl)
    · exact .inl (.refl e)
  | throw i =>
    rw [Event.exec]
    split
    · next hcall => exact .inl (quiet_withPhase hcall rfl)
    · exact .inl (.refl e)
  | returns i response now =>
    rw [Event.exec]
    split
    · next kind start hcall =>
      refine .inr (.inr (leaves_leave hcall rfl ?_ ?_ (settles_returned kind response) start now))
      · cases kind <;> rfl
      · cases kind <;> rfl
    · exact .inl (.refl e)
  | raises i exc now =>
    rw [Event.exec]
    split
    · next start hcall =>
      exact .inr (.inr (leaves_leave hcall rfl (raised_calls exc) (raised_entered exc) (settles_raised exc) start now))
    · next start hcall =>
      exact .inr (.inr (leaves_leave hcall rfl (raised_calls exc) (raised_entered exc) (settles_raised exc) start now))
    · exact .inl (.refl e)
  | discard i =>
    rw [Event.exec]
    split
    · next hcall => exact .inl (quiet_withPhase hcall rfl)
    · exact .inl (.refl e)
  | completionEvent =>
    rw [Event.exec]
    split
    · exact .inl ⟨rfl, rfl, rfl, rfl, .inr rfl⟩
    · exact .inl (.refl e)

/-! ## The completion event -/

/-- Neither guard lets a call into the body of a terminal event. -/
theorem terminal_eq_false_of_admits {status : EventStatus} (h : kind.Admits status) : status.terminal = false := by
  cases kind with
  | invoke => exact congrArg EventStatus.terminal h
  | stream => exact h

/-! ## One body -/

/-- The moves of a status: it stays, or it goes from pending to processing, or from there to a terminal
one. -/
def Moves (before after : EventStatus) : Prop :=
  after = before ∨ (before = .pending ∧ after = .processing) ∨
    (before = .processing ∧ after.terminal = true)

instance (before after : EventStatus) : Decidable (Moves before after) :=
  inferInstanceAs (Decidable (_ ∨ _))

/-- At most one body has been entered, and the status has made no other moves. -/
def Lawful (e : Event R X) : Prop := e.entered ≤ 1 ∧ e.statuses.IsChain Moves

instance (e : Event R X) : Decidable e.Lawful :=
  inferInstanceAs (Decidable (_ ∧ _))

/-- No stream is begun that finds the event processing because a call has entered its body before. -/
def NoSecondEntry (e : Event R X) : EventOp R X → Prop
  | .begin i _ =>
    ¬ (e.calls[i]? = some (.created .stream) ∧ e.execution.status = .processing ∧ 0 < e.entered)
  | _ => True

/-- At most one call is in its body, and the event is processing while it is. -/
structure Single (e : Event R X) : Prop where
  lawful : e.Lawful
  current : e.statuses.getLast? = some e.execution.status
  bodies : e.bodies ≤ e.entered
  processing : 0 < e.bodies → e.execution.status = .processing
  pending : e.execution.status = .pending → e.entered = 0

theorem isChain_concat {statuses : List EventStatus} {before after : EventStatus}
    (h : statuses.IsChain Moves) (hlast : statuses.getLast? = some before) (hmoves : Moves before after) :
    (statuses ++ [after]).IsChain Moves := by
  refine List.isChain_append.2 ⟨h, .singleton after, ?_⟩
  intro status hstatus after' hafter
  obtain rfl : before = status := Option.some.inj (hlast.symm.trans hstatus)
  obtain rfl : after = after' := Option.some.inj hafter
  exact hmoves

theorem single_init : (init execution).Single where
  lawful := ⟨Nat.zero_le 1, .singleton execution.status⟩
  current := rfl
  bodies := le_refl 0
  processing := fun h ↦ absurd h (Nat.lt_irrefl 0)
  pending := fun _ ↦ rfl

theorem Single.quiet (h : e.Single) (hquiet : Quiet e e') : e'.Single where
  lawful := by
    rw [Lawful, hquiet.entered, hquiet.statuses]
    exact h.lawful
  current := by
    rw [hquiet.statuses, hquiet.status]
    exact h.current
  bodies := by
    rw [hquiet.bodies, hquiet.entered]
    exact h.bodies
  processing := by
    rw [hquiet.bodies, hquiet.status]
    exact h.processing
  pending := by
    rw [hquiet.status, hquiet.entered]
    exact h.pending

/-- A first body is entered from a status that is not terminal. -/
theorem Single.enters (h : e.Single) (henters : Enters kind e e') (hfirst : e.entered = 0) : e'.Single where
  lawful := by
    refine ⟨?_, ?_⟩
    · exact (henters.entered.trans (congrArg Nat.succ hfirst)).le
    · rw [henters.statuses]
      apply isChain_concat h.lawful.2 h.current
      have hfalse := terminal_eq_false_of_admits henters.admits
      cases hstatus : e.execution.status with
      | pending => exact .inr (.inl ⟨rfl, rfl⟩)
      | processing => exact .inl rfl
      | _ =>
        rw [hstatus] at hfalse
        cases hfalse
  current := by
    rw [henters.statuses, henters.status, List.getLast?_concat]
  bodies := by
    rw [henters.bodies, henters.entered]
    exact Nat.succ_le_succ h.bodies
  processing := fun _ ↦ henters.status
  pending := by
    intro hpending
    cases henters.status.symm.trans hpending

/-- The call that leaves its body was the only one in it. -/
theorem Single.leaves (h : e.Single) (hleaves : Leaves e e') : e'.Single := by
  have hin : 0 < e.bodies := by
    rw [← hleaves.bodies]
    exact Nat.succ_pos _
  have hprocessing := h.processing hin
  have hnone : e'.bodies = 0 := by
    have hbodies := hleaves.bodies
    have hle := h.bodies.trans h.lawful.1
    omega
  have hentered : e'.entered ≤ 1 := hleaves.entered.trans_le h.lawful.1
  have hbodies : e'.bodies ≤ e'.entered := hnone.trans_le (Nat.zero_le _)
  have hout : 0 < e'.bodies → e'.execution.status = .processing := fun hpos ↦
    absurd hnone (Nat.ne_of_gt hpos)
  cases hleaves.settles with
  | kept hstatus hstatuses _ =>
    refine ⟨⟨hentered, ?_⟩, ?_, hbodies, hout, ?_⟩
    · rw [hstatuses]
      exact h.lawful.2
    · rw [hstatuses, hstatus]
      exact h.current
    · intro hpending
      cases (hprocessing.symm.trans hstatus.symm).trans hpending
  | set hterminal hstatuses _ =>
    refine ⟨⟨hentered, ?_⟩, ?_, hbodies, hout, ?_⟩
    · rw [hstatuses]
      exact isChain_concat h.lawful.2 h.current (.inr (.inr ⟨hprocessing, hterminal⟩))
    · rw [hstatuses, List.getLast?_concat]
    · intro hpending
      rw [hpending] at hterminal
      cases hterminal

variable {op : EventOp R X}

/-- What `stream` lets in beyond `invoke` is exactly an event that is processing. -/
theorem Single.entered_eq_zero (h : e.Single) (hop : e.NoSecondEntry op) {now : ℤ} (hbegin : op = .begin i now)
    (hcall : e.calls[i]? = some (.created kind)) (hadmits : kind.Admits e.execution.status) : e.entered = 0 := by
  subst hbegin
  cases kind with
  | invoke => exact h.pending hadmits
  | stream =>
    by_contra hne
    cases hstatus : e.execution.status with
    | pending => exact hne (h.pending hstatus)
    | processing => exact hop ⟨hcall, hstatus, Nat.pos_of_ne_zero hne⟩
    | _ =>
      rw [hstatus] at hadmits
      cases hadmits

theorem Single.exec (h : e.Single) (hop : e.NoSecondEntry op) : (e.exec op).Single := by
  obtain hquiet | ⟨i, now, kind, hbegin, hcall, henters⟩ | hleaves := exec_cases e op
  · exact h.quiet hquiet
  · exact h.enters henters (h.entered_eq_zero hop hbegin hcall henters.admits)
  · exact h.leaves hleaves

/-- A stream that finds the event processing enters a second body. -/
theorem not_lawful_exec (hop : ¬ e.NoSecondEntry op) : ¬ (e.exec op).Lawful := by
  cases op with
  | begin i now =>
    obtain ⟨hcall, hstatus, hpos⟩ := Classical.not_not.1 hop
    intro hlawful
    have hadmits : CallKind.stream.Admits e.execution.status := by
      rw [hstatus]
      rfl
    rw [Event.exec, hcall] at hlawful
    simp only [Event.begin, if_pos hadmits] at hlawful
    have hle : e.entered + 1 ≤ 1 := hlawful.1
    omega
  | _ => exact absurd trivial hop

/-- In a run of any calls on an event, at most one body is entered and the status only moves from
pending to processing and on to one terminal status, exactly when no stream is begun while the event is
processing after another call has entered its body. -/
theorem lawful_throughout_iff (execution : Execution R X) (ops : List (EventOp R X)) :
    Throughout Event.exec Lawful (init execution) ops ↔
      Along Event.exec NoSecondEntry (init execution) ops :=
  throughout_iff_along (fun _ h ↦ h.lawful) (fun _ _ h hop ↦ h.exec hop)
    (fun _ _ _ hop ↦ not_lawful_exec hop) (single_init execution)

def fresh : Execution ℕ String where
  status := .pending
  duration := none
  response := none
  error := none

/-- Two streams of one event, as a processor begins them when the event is queued twice. -/
def twoStreams : List (EventOp ℕ String) :=
  [.call .stream, .call .stream, .begin 0 0, .yields 0, .begin 1 1, .raises 1 (.exception "refused") 2,
    .next 0, .returns 0 0 3]

/-- Both enter the body, and the failed event is completed afterwards. -/
theorem not_lawful_throughout :
    ¬ Throughout Event.exec Lawful (init fresh) twoStreams ∧
      (twoStreams.foldl Event.exec (init fresh)).entered = 2 ∧
      (twoStreams.foldl Event.exec (init fresh)).statuses =
        [.pending, .processing, .processing, .failed, .completed] := by
  refine ⟨fun h ↦ ?_, by decide, by decide⟩
  exact absurd h.final (by decide)

end Event

end Lionagi.Protocols
