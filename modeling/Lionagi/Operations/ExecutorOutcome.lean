import Lionagi.Operations.ExecutorSafety

/-!
# The outcome of a run

What becomes of an operation is a function of the bookkeeping of the operations it depends on. The
function is written down without tasks, events or a limiter, and the executor is shown to compute it:
at every point of a run the rest of a task leads to the ending that the function gives. Two runs that
have come to their end therefore agree, whatever the interleaving.
-/

namespace Lionagi.Operations

open Ln Transition Executor

section Endings

variable {U κ : Type} [DecidableEq U] [ToString U] [JsonLoads]

/-- The status and the bookkeeping that an operation ends with. -/
abbrev Ending (U : Type) := EventStatus × Book U

/-- The ending of an operation that an unexpected exception takes out before it starts. -/
def unexpected (message : String) : Ending U :=
  (.pending, failedBook message Book.empty)

/-- The ending of an operation whose body has ended. -/
def concluded (n : U) (op : Operation) (outcome : Outcome) : Ending U :=
  ((concludedRecord n op outcome Record.absent).status,
    (concludedRecord n op outcome Record.absent).book)

namespace Oracle

variable (O : Oracle U κ) (G : OperationGraph U κ)

/-- The loop of `_check_edge_conditions` over settled bookkeeping. -/
def scan (book : U → Book U) :
    List (InEdge U κ) → Bool → Option (GateReason U) → Except String (Bool × Option (GateReason U))
  | [], valid, reason => .ok (valid, reason)
  | edge :: rest, valid, reason =>
    match (book edge.head).upstreamReason with
    | some upstream => scan book rest valid (reason.or (some upstream))
    | none =>
      if (book edge.head).closed || valid then scan book rest valid reason
      else
        match ((book edge.head).result.getD .none).plain with
        | .error message => .error message
        | .ok value =>
          match O.ask edge value with
          | .error message => .error message
          | .ok answer => scan book rest answer reason

/-- From the admission by the limiter on. -/
def admitted (n : U) (op : Operation) (parameters : Parameters) (workspace : Entries)
    (book : U → Book U) : Ending U :=
  match prepare book parameters workspace (G.predecessors n) with
  | .error message => unexpected message
  | .ok prepared => concluded n op (O.outcome n prepared)

/-- From the wait for the remaining predecessors on. -/
def awaited (n : U) (op : Operation) (parameters : Parameters) (workspace : Entries)
    (book : U → Book U) (rest : List U) : Ending U :=
  match rest.find? fun pred ↦ (G.operation pred).isNone with
  | some pred => unexpected s!"UUID('{pred}')"
  | none => O.admitted G n op parameters workspace book

/-- From the result of the edge scan on. -/
def scanned (n : U) (op : Operation) (parameters : Parameters) (workspace : Entries)
    (book : U → Book U) : Except String (Bool × Option (GateReason U)) → Ending U
  | .error message => unexpected message
  | .ok (valid, reason) =>
    if reason.isSome || !valid then (.skipped, skippedBook Book.empty reason)
    else O.awaited G n op parameters workspace book (G.predecessors n)

/-- How an operation ends, given the bookkeeping of the others. -/
def ending (n : U) (op : Operation) (i : Initial) (workspace : Entries) (book : U → Book U) :
    Ending U :=
  if i.status.terminal then (i.status, preterminalBook i.record)
  else
    match G.incoming n with
    | [] => O.awaited G n op i.parameters workspace book (G.predecessors n)
    | edges => O.scanned G n op i.parameters workspace book (O.scan book edges false none)

/-- The ending that a task in a given state is on its way to. -/
def remaining (n : U) (op : Operation) (i : Initial) (workspace : Entries) (r : Record U)
    (book : U → Book U) : TaskState U κ → Ending U
  | .created => O.ending G n op i workspace book
  | .scanning rest valid reason =>
    O.scanned G n op i.parameters workspace book (O.scan book rest valid reason)
  | .checking edge value rest reason =>
    O.scanned G n op i.parameters workspace book
      ((O.ask edge value).bind fun answer ↦ O.scan book rest answer reason)
  | .aggregating _ => O.awaited G n op i.parameters workspace book (G.predecessors n)
  | .waiting rest => O.awaited G n op i.parameters workspace book rest
  | .paused _ => O.admitted G n op i.parameters workspace book
  | .acquiring => O.admitted G n op i.parameters workspace book
  | .invoking prepared => concluded n op (O.outcome n prepared)
  | .finished _ => (r.status, r.book)

/-- No response carries a context for the workspace. -/
def NoContext : Prop :=
  ∀ n prepared response, O.invoke n prepared = .ok response → responseContext response = none

/-- What the admitted operations do depends on their own parameters and on what their predecessors
contribute, not on the workspace. -/
def IgnoresWorkspace (initial : U → Initial) : Prop :=
  ∀ n op book workspace workspace',
    O.admitted G n op (initial n).parameters workspace book =
      O.admitted G n op (initial n).parameters workspace' book

end Oracle

/-! ## Lookups -/

/-- The bookkeeping of an executor where it is final, anything elsewhere. -/
def Executor.Agrees (e : Executor U) (book : U → Book U) : Prop :=
  ∀ m, (e.record m).event ≠ some false → book m = e.book m

omit [DecidableEq U] [ToString U] [JsonLoads] in
theorem Executor.Agrees.refl (e : Executor U) : e.Agrees e.book := fun _ _ ↦ rfl

variable {book book' : U → Book U}

omit [DecidableEq U] [ToString U] in
theorem predContext_congr {preds : List U} (h : ∀ p ∈ preds, book p = book' p) :
    predContext book preds = predContext book' preds := by
  induction preds with
  | nil => rfl
  | cons p rest ih =>
    have hrest := ih fun q hq ↦ h q (List.mem_cons_of_mem p hq)
    simp only [predContext, h p List.mem_cons_self, hrest]

omit [DecidableEq U] in
theorem prepare_congr {preds : List U} (h : ∀ p ∈ preds, book p = book' p) (parameters : Parameters)
    (workspace : Entries) : prepare book parameters workspace preds = prepare book' parameters workspace preds := by
  unfold prepare
  rw [predContext_congr h]

omit [DecidableEq U] in
/-- The ending of a concluded operation does not depend on what was recorded before its body ended. -/
theorem concludedRecord_ending {n : U} {op : Operation} {outcome : Outcome} {r : Record U}
    (hbook : r.book = Book.empty) (h : outcome ≠ .cancelled) :
    ((concludedRecord n op outcome r).status, (concludedRecord n op outcome r).book) =
      concluded n op outcome := by
  cases outcome with
  | completed response =>
    simp only [concluded, concludedRecord, settledRecord, raised, hbook, Record.absent]
    split <;> rfl
  | failed message => simp [concluded, concludedRecord, settledRecord, raised, hbook, Record.absent]
  | cancelled => exact absurd rfl h

omit [DecidableEq U] [ToString U] [JsonLoads] in
theorem failedRecord_ending {i : Initial} {message : String} (h : i.status = .pending) :
    ((failedRecord message (i.record : Record U)).status, (failedRecord message i.record).book) =
      (unexpected message : Ending U) := by
  simp [failedRecord, raised, Initial.record, h, unexpected, failedBook, Book.empty]

end Endings

/-! ## The invariant -/

namespace TaskState

variable {U κ : Type}

/-- The record of an operation stays as it was found until its body begins. -/
def Expects (i : Initial) (r : Record U) : TaskState U κ → Prop
  | created => r = i.record
  | invoking _ => r.book = Book.empty ∧ r.event = some false
  | finished _ => r.event = some true
  | _ => r = i.record ∧ i.status = .pending

end TaskState

namespace RunState

variable {U κ : Type} [DecidableEq U] [ToString U] [JsonLoads]
variable {O : Oracle U κ} {G : OperationGraph U κ} {capacity : ℕ}
variable {initial : U → Initial} {workspace : Entries}

/-- Every task is on its way to the ending that its operation has over the bookkeeping, as far as it
is final. -/
structure Foretold (O : Oracle U κ) (G : OperationGraph U κ) (initial : U → Initial)
    (workspace : Entries) (s : RunState U U κ) : Prop where
  safe : Safe G s
  calm : s.cancelling = false
  steady : O.NoContext → s.executor.workspace = workspace
  plain : ∀ n, G.operation n = none → s.executor.record n = Record.absent
  task : ∀ n op, G.operation n = some op → ∃ t, s.task n = some ⟨n, t⟩ ∧
    t.Expects (initial n) (s.executor.record n) ∧
    ∀ book, s.executor.Agrees book →
      O.remaining G n op (initial n) workspace (s.executor.record n) book t =
        O.ending G n op (initial n) workspace book

omit [DecidableEq U] in
theorem foretold_start : Foretold O G initial workspace (start G initial workspace) where
  safe := safe_start initial workspace
  calm := rfl
  steady _ := rfl
  plain := by
    intro n hn
    simp [start, hn]
  task := by
    intro n op hop
    exact ⟨.created, by simp [start, hop], by simp [start, hop, TaskState.Expects], fun _ _ ↦ rfl⟩

omit [DecidableEq U] [ToString U] [JsonLoads] in
theorem uncancelled_world (O : Oracle U κ) (n : U) (prepared : Prepared U) :
    ¬ O.world.invoke n prepared .cancelled := fun h ↦ O.outcome_ne_cancelled n prepared h.symm

variable {s : RunState U U κ} {n : U} {op : Operation} {t t' : TaskState U κ} {action : Action} {e' : Executor U}

/-- A set event stands for bookkeeping that no step touches any more. -/
theorem Foretold.book_moved (h : Foretold O G initial workspace s)
    (hstep : TaskStep O.world G capacity s n n op t action e' t') {m : U}
    (hm : (s.executor.record m).event ≠ some false) : e'.book m = s.executor.book m := by
  by_cases hmn : m = n
  · subst hmn
    obtain ⟨t₀, ht₀, hexpects, -⟩ := h.task m op hstep.operation
    rw [hstep.task, Option.some.injEq, Task.mk.injEq] at ht₀
    obtain ⟨-, rfl⟩ := ht₀
    have hnot := hstep.moves.not_finished
    obtain ⟨hcancel, hstop⟩ := hstep.uncancelled (uncancelled_world O) h.calm
    cases t with
    | created =>
      have hrecord : s.executor.record m = (initial m).record := hexpects
      have hcompleted : (initial m).status = .completed := by
        simpa [hrecord, Initial.record] using hm
      have hterminal : (s.executor.record m).status.terminal = true := by
        simp [hrecord, Initial.record, hcompleted, EventStatus.terminal]
      cases hstep.moves with
      | preterminal =>
        simp [Executor.book, record_preterminal, preterminalRecord, preterminalBook, raised, hrecord,
          Initial.record, hcompleted, Book.empty]
      | source hopen => simp [hterminal] at hopen
      | scan hopen => simp [hterminal] at hopen
      | abandoned => exact absurd rfl hcancel
      | cancelled => exact absurd rfl hcancel
    | invoking prepared => exact absurd hexpects.2 hm
    | finished exit => exact absurd rfl (hnot exit)
    | _ =>
      obtain ⟨hrecord, hpending⟩ := hexpects
      exact absurd (by simp [hrecord, Initial.record, hpending]) hm
  · exact congrArg Record.book (hstep.moves.record_of_ne hmn)

variable {book : U → Book U}

theorem Foretold.agrees_moved (h : Foretold O G initial workspace s)
    (hstep : TaskStep O.world G capacity s n n op t action e' t') (hbook : e'.Agrees book) :
    s.executor.Agrees book := by
  intro m hm
  exact (hbook m (hstep.moves.settled_stays hm)).trans (h.book_moved hstep hm)

omit [DecidableEq U] in
theorem Foretold.operation_of_event (h : Foretold O G initial workspace s) {m : U} :
    (s.executor.record m).event = none ↔ G.operation m = none := by
  constructor
  · intro hevent
    by_contra hop
    obtain ⟨op, hop⟩ := Option.ne_none_iff_exists'.1 hop
    obtain ⟨t, -, hexpects, -⟩ := h.task m op hop
    cases t with
    | invoking prepared => simp [hexpects.2] at hevent
    | finished exit => simp [show (s.executor.record m).event = some true from hexpects] at hevent
    | created =>
      simp [show s.executor.record m = (initial m).record from hexpects, Initial.record] at hevent
    | _ => simp [hexpects.1, Initial.record] at hevent
  · intro hop
    rw [h.plain m hop]
    rfl

omit [DecidableEq U] in
/-- What an admitted operation does is settled, since its predecessors are. -/
theorem Foretold.admitted_eq (h : Foretold O G initial workspace s) (hO : O.IgnoresWorkspace G initial ∨ O.NoContext)
    (op : Operation) (htask : s.task n = some ⟨n, .acquiring⟩) (hbook : s.executor.Agrees book) :
    O.admitted G n op (initial n).parameters workspace book =
      O.admitted G n op (initial n).parameters s.executor.workspace s.executor.book := by
  have hpreds : ∀ p ∈ G.predecessors n, book p = s.executor.book p := by
    intro p hp
    apply hbook
    simp [h.safe.past n .acquiring htask p hp trivial]
  calc
    O.admitted G n op (initial n).parameters workspace book =
        O.admitted G n op (initial n).parameters s.executor.workspace book := by
      obtain hignores | hcontext := hO
      · exact hignores n op book workspace s.executor.workspace
      · rw [h.steady hcontext]
    _ = O.admitted G n op (initial n).parameters s.executor.workspace s.executor.book := by
      unfold Oracle.admitted
      rw [prepare_congr hpreds]

/-- A move of a task does not change where the task is going. -/
theorem Foretold.remaining_moved (h : Foretold O G initial workspace s)
    (hO : O.IgnoresWorkspace G initial ∨ O.NoContext) (hstep : TaskStep O.world G capacity s n n op t action e' t')
    (hexpects : t.Expects (initial n) (s.executor.record n)) (hbook : s.executor.Agrees book) :
    O.remaining G n op (initial n) workspace (e'.record n) book t' =
      O.remaining G n op (initial n) workspace (s.executor.record n) book t := by
  obtain ⟨hcancel, hstop⟩ := hstep.uncancelled (uncancelled_world O) h.calm
  have hpermits := hstep.permits
  have htask := hstep.task
  cases hstep.moves with
  | preterminal hterminal =>
    have hrecord : s.executor.record n = (initial n).record := hexpects
    have hi : (initial n).status.terminal = true := by
      simpa [hrecord, Initial.record] using hterminal
    simp only [Oracle.remaining, Oracle.ending, hi, if_true, record_preterminal, Function.update_self,
      hrecord, preterminalRecord, raised, Initial.record]
  | source hopen hin =>
    have hi : (initial n).status.terminal = false := by
      simpa [show s.executor.record n = (initial n).record from hexpects, Initial.record] using hopen
    simp [Oracle.remaining, Oracle.ending, hi, hin]
  | scan hopen hin =>
    have hi : (initial n).status.terminal = false := by
      simpa [show s.executor.record n = (initial n).record from hexpects, Initial.record] using hopen
    simp only [Oracle.remaining, Oracle.ending, hi, Bool.false_eq_true, if_false]
  | vetoed hset hreason =>
    have hhead := hbook _ hset
    simp only [Oracle.remaining, Oracle.scan, hhead, Executor.book, hreason]
  | passed hset hreason hpass =>
    have hhead := hbook _ hset
    simp [Oracle.remaining, Oracle.scan, hhead, Executor.book, hreason, hpass]
  | unreadable hset hreason hopen hplain =>
    have hhead := hbook _ hset
    simp only [Oracle.remaining, Oracle.scan, hhead, Executor.book, hreason, hopen, hplain,
      Oracle.scanned, record_fail, Function.update_self, hexpects.1, Bool.or_self, Bool.false_eq_true,
      if_false]
    exact failedRecord_ending hexpects.2
  | @ask edge rest reason value hset hreason hopen hplain =>
    have hhead := hbook _ hset
    simp only [Oracle.remaining, Oracle.scan, hhead, Executor.book, hreason, hopen, hplain,
      Bool.or_self, Bool.false_eq_true, if_false]
    cases O.ask edge value <;> rfl
  | answered =>
    rw [Oracle.permits_condition] at hpermits
    simp only [Oracle.remaining, ← hpermits]
    rfl
  | conditionRaised =>
    rw [Oracle.permits_condition] at hpermits
    simp only [Oracle.remaining, ← hpermits, record_fail, Function.update_self, hexpects.1]
    exact failedRecord_ending hexpects.2
  | @skipped valid reason hskip =>
    have hcond : (reason.isSome || !valid) = true := by simpa using hskip
    simp only [Oracle.remaining, Oracle.scan, Oracle.scanned, hcond, if_true, record_skip,
      Function.update_self, hexpects.1]
    simp [skippedRecord, raised, Initial.record, hexpects.2, Book.empty]
  | admitted => rfl
  | aggregated => rfl
  | depend => rfl
  | @noEvent pred rest hevent =>
    have hop : G.operation pred = none := h.operation_of_event.1 hevent
    simp only [Oracle.remaining, Oracle.awaited, record_fail, Function.update_self, hexpects.1,
      List.find?_cons, hop, Option.isNone_none]
    exact failedRecord_ending hexpects.2
  | @waited pred rest hevent =>
    have hop : (G.operation pred).isNone = false := by
      rw [Option.isNone_eq_false_iff, Option.isSome_iff_ne_none]
      intro hnone
      simp [h.operation_of_event.2 hnone] at hevent
    simp only [Oracle.remaining, Oracle.awaited, List.find?_cons, hop]
  | hold => rfl
  | pass => rfl
  | released => rfl
  | @unprepared message hcap hprepare =>
    simp only [hexpects.1, Initial.record] at hprepare
    have hadmitted : O.admitted G n op (initial n).parameters workspace book = unexpected message := by
      rw [h.admitted_eq hO op htask hbook, Oracle.admitted, hprepare]
    simp only [Oracle.remaining, hadmitted, record_fail, Function.update_self, hexpects.1]
    exact failedRecord_ending hexpects.2
  | @invoke prepared hcap hprepare hstatus =>
    simp only [hexpects.1, Initial.record] at hprepare
    have hadmitted : O.admitted G n op (initial n).parameters workspace book =
        concluded n op (O.outcome n prepared) := by
      rw [h.admitted_eq hO op htask hbook, Oracle.admitted, hprepare]
    exact hadmitted.symm
  | noInvoke hcap hprepare hstatus =>
    exact absurd (by simp [hexpects.1, Initial.record, hexpects.2]) hstatus
  | settled houtcome =>
    have horacle : _ = O.outcome n _ := hpermits
    simp only [Oracle.remaining, record_conclude, Function.update_self, ← horacle]
    exact concludedRecord_ending hexpects.1 houtcome
  | stopped haction => exact haction.elim (absurd · hstop) (absurd · hcancel)
  | abandoned => exact absurd rfl hcancel
  | cancelled => exact absurd rfl hcancel

/-- The record of an operation is what its task expects it to be. -/
theorem Foretold.expects_moved (h : Foretold O G initial workspace s)
    (hinitial : ∀ n, (initial n).status = .pending ∨ (initial n).status.terminal = true)
    (hstep : TaskStep O.world G capacity s n n op t action e' t')
    (hexpects : t.Expects (initial n) (s.executor.record n)) : t'.Expects (initial n) (e'.record n) := by
  have hended : ∀ exit, t' = .finished exit → exit ≠ .abandoned →
      (e'.record n).event = some true := by
    intro exit hexit hran
    rw [hstep.moves.event_finished hexit hran]
    cases hevent : (s.executor.record n).event with
    | none => exact absurd (h.operation_of_event.1 hevent) (by simp [hstep.operation])
    | some b => rfl
  have hpending : s.executor.record n = (initial n).record →
      (s.executor.record n).status.terminal = false →
      s.executor.record n = (initial n).record ∧ (initial n).status = .pending := by
    intro hrecord hopen
    refine ⟨hrecord, (hinitial n).resolve_right ?_⟩
    simpa [hrecord, Initial.record] using hopen
  cases hstep.moves with
  | source hopen hin => exact hpending hexpects hopen
  | scan hopen hin => exact hpending hexpects hopen
  | vetoed | passed | ask | answered | admitted | aggregated | depend | waited | hold | pass
  | released => exact hexpects
  | invoke =>
    simp [TaskState.Expects, startedRecord, hexpects.1, Initial.record, hexpects.2, Book.empty]
  | abandoned => exact absurd rfl (hstep.uncancelled (uncancelled_world O) h.calm).1
  | _ => exact hended _ rfl (by decide)

/-- Where no response carries a context, no step writes the workspace. -/
theorem workspace_moved (hcontext : O.NoContext) (hstep : TaskStep O.world G capacity s n n op t action e' t')
    (hexpects : t.Expects (initial n) (s.executor.record n)) : e'.workspace = s.executor.workspace := by
  have hpermits := hstep.permits
  cases hstep.moves with
  | preterminal => exact (sameShared_preterminal _ n).workspace
  | skipped => exact (sameShared_skip _ n _).workspace
  | invoke => rfl
  | noInvoke hcap hprepare hstatus =>
    exact absurd (by simp [hexpects.1, Initial.record, hexpects.2]) hstatus
  | @settled prepared outcome houtcome =>
    have horacle : outcome = O.outcome n prepared := hpermits
    apply workspace_conclude
    rintro response rfl
    unfold Oracle.outcome at horacle
    split at horacle
    · next hinvoke =>
      cases horacle
      exact hcontext n prepared _ hinvoke
    · cases horacle
  | stopped =>
    apply workspace_conclude _ n
    intro response houtcome
    cases houtcome
  | cancelled => exact (sameShared_cancel _ n).workspace
  | unreadable | conditionRaised | noEvent | unprepared => exact (sameShared_fail _ n _).workspace
  | _ => rfl

theorem Foretold.moved (h : Foretold O G initial workspace s) (hO : O.IgnoresWorkspace G initial ∨ O.NoContext)
    (hinitial : ∀ n, (initial n).status = .pending ∨ (initial n).status.terminal = true)
    (hstep : TaskStep O.world G capacity s n n op t action e' t') :
    Foretold O G initial workspace (s.moved n n action e' t') where
  safe := h.safe.moved hstep.task hstep.moves
  calm := by
    obtain ⟨hcancel, hstop⟩ := hstep.uncancelled (uncancelled_world O) h.calm
    have hcancels : action.cancels = false := by
      unfold Action.cancels
      split
      · exact absurd rfl hstop
      · rfl
    simp [RunState.moved, h.calm, hcancels]
  steady := by
    intro hcontext
    refine Eq.trans ?_ (h.steady hcontext)
    obtain ⟨t₀, ht₀, hexpects, -⟩ := h.task n op hstep.operation
    rw [hstep.task, Option.some.injEq, Task.mk.injEq] at ht₀
    obtain ⟨-, rfl⟩ := ht₀
    exact workspace_moved hcontext hstep hexpects
  plain := by
    intro m hm
    have hmn : m ≠ n := by
      rintro rfl
      rw [hstep.operation] at hm
      cases hm
    exact (hstep.moves.record_of_ne hmn).trans (h.plain m hm)
  task := by
    intro m opm hopm
    obtain ⟨t₀, ht₀, hexpects, hremaining⟩ := h.task m opm hopm
    by_cases hmn : m = n
    · subst hmn
      rw [hstep.task, Option.some.injEq, Task.mk.injEq] at ht₀
      obtain ⟨-, rfl⟩ := ht₀
      rw [hstep.operation, Option.some.injEq] at hopm
      subst hopm
      refine ⟨t', task_moved_self s m action e' t', h.expects_moved hinitial hstep hexpects, ?_⟩
      intro book hbook
      have hagrees := h.agrees_moved hstep hbook
      exact (h.remaining_moved hO hstep hexpects hagrees).trans (hremaining book hagrees)
    · have hrecord : e'.record m = s.executor.record m := hstep.moves.record_of_ne hmn
      refine ⟨t₀, (task_moved_of_ne s hmn action e' t').trans ht₀, ?_, ?_⟩
      · exact hrecord.symm ▸ hexpects
      · intro book hbook
        exact hrecord.symm ▸ hremaining book (h.agrees_moved hstep hbook)

omit [DecidableEq U] in
theorem Foretold.control {s' : RunState U U κ} {l : Label U} (h : Foretold O G initial workspace s)
    (hstep : ControlStep s l s') (hl : l ≠ .cancel) :
    Foretold O G initial workspace s' where
  safe := h.safe.control hstep
  calm := (hstep.cancelling hl).trans h.calm
  steady hcontext := hstep.workspace.trans (h.steady hcontext)
  plain := by
    rw [hstep.record]
    exact h.plain
  task := by
    unfold Executor.Agrees Executor.book
    rw [hstep.record, hstep.task]
    exact h.task

theorem foretold_of_reachable (hO : O.IgnoresWorkspace G initial ∨ O.NoContext)
    (hinitial : ∀ n, (initial n).status = .pending ∨ (initial n).status.terminal = true)
    (hs : Reachable (Proceeds O.world G capacity) (start G initial workspace) s) :
    Foretold O G initial workspace s := by
  refine hs.invariant foretold_start ?_
  rintro s l t h ⟨hstep, hl⟩
  obtain ⟨key, n, op, st, action, e', t', -, htask, rfl⟩ | hcontrol := step_cases hstep
  · obtain rfl : n = key := h.safe.own key _ htask.task
    exact h.moved hO hinitial htask
  · exact h.control hcontrol hl

omit [DecidableEq U] in
/-- What has come to its end has the ending that the function gives over the bookkeeping of the
executor. -/
theorem Foretold.ended (h : Foretold O G initial workspace s) (hop : G.operation n = some op) {exit : Exit}
    (hn : s.task n = some ⟨n, .finished exit⟩) (hbook : s.executor.Agrees book) :
    ((s.executor.record n).status, (s.executor.record n).book) =
      O.ending G n op (initial n) workspace book := by
  obtain ⟨t, ht, -, hremaining⟩ := h.task n op hop
  rw [hn, Option.some.injEq, Task.mk.injEq] at ht
  obtain ⟨-, rfl⟩ := ht
  exact hremaining book hbook

/-! ## Agreement -/

omit [DecidableEq U] in
/-- In a complete state nothing is left open. -/
theorem Foretold.final (h : Foretold O G initial workspace s) (hcomplete : s.Complete) (hop : G.operation n = some op) :
    (s.executor.record n).event = some true ∧
      ((s.executor.record n).status, (s.executor.record n).book) =
        O.ending G n op (initial n) workspace s.executor.book := by
  obtain ⟨t, ht, hexpects, hremaining⟩ := h.task n op hop
  obtain ⟨exit, rfl⟩ := hcomplete n _ ht
  exact ⟨hexpects, hremaining _ (.refl s.executor)⟩

variable {capacity' : ℕ}

/-- Whatever is settled in the course of one run is settled as at the end of another one. -/
theorem agrees_of_reachable (hO : O.IgnoresWorkspace G initial ∨ O.NoContext)
    (hinitial : ∀ n, (initial n).status = .pending ∨ (initial n).status.terminal = true) {t : RunState U U κ}
    (hs : Reachable (Proceeds O.world G capacity) (start G initial workspace) s)
    (ht : Reachable (Proceeds O.world G capacity') (start G initial workspace) t) (hcomplete : t.Complete) :
    s.executor.Agrees t.executor.book := by
  have hforetold := foretold_of_reachable hO hinitial ht
  induction hs with
  | start =>
    intro m hm
    cases hop : G.operation m with
    | none =>
      have hstart : Foretold O G initial workspace (start G initial workspace) := foretold_start
      exact congrArg Record.book ((hforetold.plain m hop).trans (hstart.plain m hop).symm)
    | some op =>
      have hcompleted : (initial m).status = .completed := by
        simpa [start, hop, Initial.record] using hm
      have hend := (hforetold.final hcomplete hop).2
      simp only [Oracle.ending, hcompleted, EventStatus.terminal, if_true, Prod.mk.injEq] at hend
      rw [show t.executor.book m = _ from hend.2]
      simp [Executor.book, start, hop, Initial.record, preterminalBook, hcompleted, Book.empty]
  | @step u v l hu hstep ih =>
    have hold := foretold_of_reachable hO hinitial hu
    obtain ⟨key, n, op, st, action, e', t', -, htask, rfl⟩ | hcontrol := step_cases hstep.1
    · obtain rfl : n = key := hold.safe.own key _ htask.task
      intro m hm
      by_cases hset : (u.executor.record m).event ≠ some false
      · exact (ih m hset).trans (hold.book_moved htask hset).symm
      · have hmn : m = n := by
          by_contra hmn
          rw [show (u.moved n n action e' t').executor = e' from rfl,
            htask.moves.record_of_ne hmn] at hm
          exact hset hm
        subst hmn
        obtain ⟨st₀, hst₀, hexpects, hremaining⟩ := hold.task m op htask.operation
        rw [htask.task, Option.some.injEq, Task.mk.injEq] at hst₀
        obtain ⟨-, rfl⟩ := hst₀
        obtain hsame | ⟨⟨exit, rfl⟩, -⟩ := htask.moves.event
        · exact absurd (hsame.trans (not_not.1 hset)) hm
        · have hend := (hold.remaining_moved hO htask hexpects ih).trans (hremaining _ ih)
          have hend' := (hforetold.final hcomplete htask.operation).2
          exact (congrArg Prod.snd (hend.trans hend'.symm)).symm
    · unfold Executor.Agrees Executor.book at ih ⊢
      rw [hcontrol.record]
      exact ih

theorem status_book_eq_of_complete (hO : O.IgnoresWorkspace G initial ∨ O.NoContext)
    (hinitial : ∀ n, (initial n).status = .pending ∨ (initial n).status.terminal = true) {t : RunState U U κ}
    (hs : Reachable (Proceeds O.world G capacity) (start G initial workspace) s) (hs' : s.Complete)
    (ht : Reachable (Proceeds O.world G capacity') (start G initial workspace) t) (ht' : t.Complete) (n : U) :
    (s.executor.record n).status = (t.executor.record n).status ∧
      s.executor.book n = t.executor.book n := by
  have hforetold := foretold_of_reachable hO hinitial hs
  have hforetold' := foretold_of_reachable hO hinitial ht
  cases hop : G.operation n with
  | none =>
    have hrecord := (hforetold.plain n hop).trans (hforetold'.plain n hop).symm
    exact ⟨congrArg Record.status hrecord, congrArg Record.book hrecord⟩
  | some op =>
    have hagrees := agrees_of_reachable hO hinitial hs ht ht'
    obtain ⟨exit, hexit⟩ : ∃ exit, s.task n = some ⟨n, .finished exit⟩ := by
      obtain ⟨st, hst, -⟩ := hforetold.task n op hop
      obtain ⟨exit, hexit⟩ := hs' n _ hst
      exact ⟨exit, hexit ▸ hst⟩
    have hend := hforetold.ended hop hexit hagrees
    have hend' := (hforetold'.final ht' hop).2
    exact Prod.mk.inj (hend.trans hend'.symm)

/-- What `execute` returns, up to the order of its lists and dictionaries. -/
structure Report (U : Type) where
  operationResults : U → Option Value
  skippedOperations : Set U
  failedOperations : Set U
  gateRejectedOperations : Set U

def report (s : RunState U U κ) : Report U where
  operationResults n := (s.executor.book n).result
  skippedOperations := { n | (s.executor.book n).skipped = true }
  failedOperations := { n | (s.executor.book n).failed = true }
  gateRejectedOperations := { n | (s.executor.book n).gateRejection.isSome = true }

/-- Two complete runs of one graph return the same, whatever their interleavings and limits. -/
theorem report_eq_of_complete (hO : O.IgnoresWorkspace G initial ∨ O.NoContext)
    (hinitial : ∀ n, (initial n).status = .pending ∨ (initial n).status.terminal = true) {t : RunState U U κ}
    (hs : Reachable (Proceeds O.world G capacity) (start G initial workspace) s) (hs' : s.Complete)
    (ht : Reachable (Proceeds O.world G capacity') (start G initial workspace) t) (ht' : t.Complete) :
    s.report = t.report := by
  have hbook : s.executor.book = t.executor.book := by
    funext n
    exact (status_book_eq_of_complete hO hinitial hs hs' ht ht' n).2
  unfold report
  rw [hbook]

end RunState

end Lionagi.Operations
