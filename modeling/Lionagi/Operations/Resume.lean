import Lionagi.Operations.ExecutorOutcome
import Lionagi.Operations.GateVeto

/-!
# Resuming a run

A resumed executor finds some operations in the terminal status that an earlier run gave them. Of their
bookkeeping only the results are read back. The rest of the resumed run agrees with the earlier one
where every edge scan comes to the same verdict over what is left of the bookkeeping.
-/

namespace Lionagi.Operations

open Ln Transition Executor

section Entries

variable {U κ : Type}

theorem OperationGraph.edge_head (G : OperationGraph U κ) {n : U} {edge : InEdge U κ}
    (h : edge ∈ G.incoming n) : G.Edge edge.head n := List.mem_map_of_mem h

/-- Entries that no dependent can tell apart. -/
structure Book.Alike (b b' : Book U) : Prop where
  reason : b.upstreamReason.isSome = b'.upstreamReason.isSome
  closed : b.closed = b'.closed
  result : b.closed = false → b.result = b'.result

theorem Book.Alike.refl (b : Book U) : b.Alike b := ⟨rfl, rfl, fun _ ↦ rfl⟩

/-- What an operation contributes to the context of its dependents. -/
def Book.contribution (b : Book U) : Option Value := if b.closed then none else b.result

/-- The first gate reason among the heads of some edges. -/
def firstReason (book : U → Book U) (edges : List (InEdge U κ)) : Option (GateReason U) :=
  edges.findSome? fun edge ↦ (book edge.head).upstreamReason

theorem firstReason_alike {book book' : U → Book U} {edges : List (InEdge U κ)}
    (h : ∀ edge ∈ edges, (book edge.head).Alike (book' edge.head)) :
    (firstReason book edges).isSome = (firstReason book' edges).isSome := by
  induction edges with
  | nil => rfl
  | cons edge rest ih =>
    have hrest := ih fun edge' hedge' ↦ h edge' (List.mem_cons_of_mem edge hedge')
    have hhead := (h edge List.mem_cons_self).reason
    unfold firstReason at hrest ⊢
    rw [List.findSome?_cons, List.findSome?_cons]
    cases hreason : (book edge.head).upstreamReason with
    | none =>
      cases hreason' : (book' edge.head).upstreamReason with
      | none => exact hrest
      | some r => simp [hreason, hreason'] at hhead
    | some r =>
      cases hreason' : (book' edge.head).upstreamReason with
      | none => simp [hreason, hreason'] at hhead
      | some r' => rfl

end Entries

section Verdicts

variable {U κ : Type} [ToString U] [JsonLoads] (O : Oracle U κ) (G : OperationGraph U κ)

/-- What the edge scan of an operation decides: to run it, to skip it, or to raise. -/
def Oracle.verdict (book : U → Book U) (n : U) : Except String Bool :=
  match G.incoming n with
  | [] => .ok true
  | edges =>
    match O.scan book edges false none with
    | .error message => .error message
    | .ok (valid, reason) => .ok (!(reason.isSome || !valid))

variable {O G}
variable {book book' : U → Book U}

omit [ToString U] in
/-- The scan collects the first reason. -/
theorem Oracle.reason_of_scan {edges : List (InEdge U κ)} {valid : Bool} {reason : Option (GateReason U)}
    {out : Bool × Option (GateReason U)} (h : O.scan book edges valid reason = .ok out) :
    out.2 = reason.or (firstReason book edges) := by
  induction edges generalizing valid reason with
  | nil =>
    cases h
    exact (Option.or_none).symm
  | cons edge rest ih =>
    unfold firstReason
    rw [List.findSome?_cons]
    rw [Oracle.scan] at h
    cases hreason : (book edge.head).upstreamReason with
    | some upstream =>
      simp only [hreason] at h
      rw [ih h]
      cases reason <;> rfl
    | none =>
      simp only [hreason] at h
      split at h
      · exact ih h
      · split at h
        · cases h
        · split at h
          · cases h
          · exact ih h

omit [ToString U] in
/-- The scan goes the same way over entries that cannot be told apart. -/
theorem Oracle.scan_alike {book book' : U → Book U} {edges : List (InEdge U κ)}
    (h : ∀ edge ∈ edges, (book edge.head).Alike (book' edge.head)) (valid : Bool)
    {reason reason' : Option (GateReason U)} (hreason : reason.isSome = reason'.isSome) :
    (O.scan book edges valid reason).map (fun out ↦ (out.1, out.2.isSome)) =
      (O.scan book' edges valid reason').map fun out ↦ (out.1, out.2.isSome) := by
  induction edges generalizing valid reason reason' with
  | nil => simp [Oracle.scan, Except.map, hreason]
  | cons edge rest ih =>
    have hrest := ih fun edge' hedge' ↦ h edge' (List.mem_cons_of_mem edge hedge')
    have hhead := h edge List.mem_cons_self
    rw [Oracle.scan, Oracle.scan]
    cases hup : (book edge.head).upstreamReason with
    | some upstream =>
      obtain ⟨upstream', hup'⟩ := Option.isSome_iff_exists.1
        (hhead.reason.symm.trans (hup ▸ rfl))
      simp only [hup']
      exact hrest valid (by simp)
    | none =>
      have hup' : (book' edge.head).upstreamReason = none := by
        rw [← Option.not_isSome_iff_eq_none, ← hhead.reason, hup]
        simp
      simp only [hup', ← hhead.closed]
      split
      · exact hrest valid hreason
      · next hopen =>
        have hclosed : (book edge.head).closed = false := by
          cases hc : (book edge.head).closed <;> simp [hc] at hopen ⊢
        rw [← hhead.result hclosed]
        split
        · rfl
        · split
          · rfl
          · exact hrest _ hreason

omit [ToString U] in
theorem Oracle.verdict_alike {n : U} (h : ∀ p ∈ G.predecessors n, (book p).Alike (book' p)) :
    O.verdict G book n = O.verdict G book' n := by
  have hscan := Oracle.scan_alike (O := O)
    (fun edge hedge ↦ h edge.head (G.edge_head hedge)) false
    (rfl : (none : Option (GateReason U)).isSome = (none : Option (GateReason U)).isSome)
  unfold Oracle.verdict
  split
  · rfl
  · cases hout : O.scan book (G.incoming n) false none with
    | error message =>
      cases hout' : O.scan book' (G.incoming n) false none with
      | error message' => simpa [hout, hout', Except.map] using hscan
      | ok out' => simp [hout, hout', Except.map] at hscan
    | ok out =>
      cases hout' : O.scan book' (G.incoming n) false none with
      | error message' => simp [hout, hout', Except.map] at hscan
      | ok out' =>
        simp only [hout, hout', Except.map, Except.ok.injEq, Prod.mk.injEq] at hscan
        simp [hscan.1, hscan.2]

/-- The ending of an operation that has not run, by the verdict of its edge scan. -/
theorem Oracle.ending_eq {n : U} {op : Operation} {i : Initial} (hi : i.status = .pending)
    (workspace : Entries) (book : U → Book U) :
    O.ending G n op i workspace book =
      match O.verdict G book n with
      | .error message => unexpected message
      | .ok true => O.awaited G n op i.parameters workspace book (G.predecessors n)
      | .ok false => (.skipped, skippedBook Book.empty (firstReason book (G.incoming n))) := by
  unfold Oracle.ending Oracle.verdict
  cases hin : G.incoming n with
  | nil => simp [hi, EventStatus.terminal]
  | cons edge rest =>
    simp only [hi, EventStatus.terminal, Bool.false_eq_true, if_false]
    cases hscan : O.scan book (edge :: rest) false none with
    | error message => rfl
    | ok out =>
      have hreason := Oracle.reason_of_scan hscan
      rw [Option.none_or] at hreason
      cases hskip : out.2.isSome || !out.1 with
      | false => simp only [Oracle.scanned, hskip, Bool.not_false, Bool.false_eq_true, if_false]
      | true =>
        simp only [Oracle.scanned, hskip, Bool.not_true, if_true]
        rw [hreason]

omit [ToString U] in
theorem predContext_cons (book : U → Book U) (p : U) (rest : List U) :
    predContext book (p :: rest) = (book p).contribution.elim (predContext book rest) fun result ↦ do
      let value ← result.plain
      let context ← predContext book rest
      return (p, value) :: context := by
  rw [predContext, Book.contribution]
  split
  · rfl
  · split
    · next hnone => rw [hnone, Option.elim_none]
    · next result hsome => rw [hsome, Option.elim_some]

omit [ToString U] in
theorem predContext_contribution {preds : List U} (h : ∀ p ∈ preds, (book p).contribution = (book' p).contribution) :
    predContext book preds = predContext book' preds := by
  induction preds with
  | nil => rfl
  | cons p rest ih =>
    rw [predContext_cons, predContext_cons, h p List.mem_cons_self,
      ih fun q hq ↦ h q (List.mem_cons_of_mem p hq)]

theorem Oracle.admitted_contribution {n : U}
    (h : ∀ p ∈ G.predecessors n, (book p).contribution = (book' p).contribution) (op : Operation)
    (parameters : Parameters) (workspace : Entries) :
    O.admitted G n op parameters workspace book = O.admitted G n op parameters workspace book' := by
  unfold Oracle.admitted prepare
  rw [predContext_contribution h]

/-- An operation that the edge scan lets through is not skipped. -/
theorem Oracle.awaited_ne_skipped (n : U) (op : Operation) (parameters : Parameters)
    (workspace : Entries) (book : U → Book U) (rest : List U) :
    (O.awaited G n op parameters workspace book rest).1 ≠ .skipped := by
  unfold Oracle.awaited Oracle.admitted
  split
  · simp [unexpected]
  · split
    · simp [unexpected]
    · next prepared _ =>
      unfold Oracle.outcome
      split
      · simp only [concluded, concludedRecord, settledRecord]
        split <;> simp [raised]
      · simp [concluded, concludedRecord, settledRecord, raised]

/-- An operation that the edge scan lets through is open to its dependents. -/
theorem Oracle.awaited_closed (n : U) (op : Operation) (parameters : Parameters)
    (workspace : Entries) (book : U → Book U) (rest : List U) :
    (O.awaited G n op parameters workspace book rest).2.closed = false := by
  have hcompleted : ∀ response,
      (completedBook n op response (Book.empty : Book U)).closed = false := by
    intro response
    unfold completedBook recordGateVerdict
    split
    · split <;> rfl
    · rfl
  unfold Oracle.awaited Oracle.admitted
  split
  · rfl
  · split
    · rfl
    · next prepared _ =>
      unfold Oracle.outcome
      split
      · simp only [concluded, concludedRecord, settledRecord]
        split
        · exact hcompleted _
        · exact hcompleted _
        · rfl
      · rfl

end Verdicts

/-! ## Who was invoked -/

section Accounts

variable {U κ : Type} [DecidableEq U] [ToString U] [JsonLoads]

/-- What the end of a task says about its operation. -/
def TaskState.Accounts (i : Initial) (invoked : Prop) (r : Record U) : TaskState U κ → Prop
  | invoking _ => invoked ∧ i.status = .pending
  | finished .settled =>
    invoked ∧ i.status = .pending ∧ ((r.status = .completed ∧ r.book.result = some r.response) ∨ r.status = .failed)
  | finished .skipped => ¬ invoked ∧ r.status = .skipped ∧ r.response = i.response
  | finished .preterminal => ¬ invoked ∧ i.status.terminal = true
  | finished .scanError => ¬ invoked ∧ r.status = .pending
  | finished .error => ¬ invoked ∧ r.status = .pending
  | finished _ => False
  | _ => ¬ invoked

omit [DecidableEq U] in
theorem accounts_completed (n : U) (op : Operation) (response : Value) (r : Record U) :
    let r' := concludedRecord n op (.completed response) r
    (r'.status = .completed ∧ r'.book.result = some r'.response) ∨ r'.status = .failed := by
  have hresult : ∀ b : Book U, (completedBook n op response b).result = some response := by
    intro b
    unfold completedBook recordGateVerdict
    split
    · split <;> rfl
    · rfl
  simp only [concludedRecord, settledRecord]
  split
  · exact .inl ⟨rfl, hresult _⟩
  · exact .inl ⟨rfl, hresult _⟩
  · exact .inr rfl

variable {G : OperationGraph U κ} {capacity : ℕ} {n : U} {op : Operation} {e e' : Executor U}
variable {t t' : TaskState U κ} {action : Action} {i : Initial}

theorem Moves.accounts (h : Moves G capacity n op e t action e' t') (hcancel : action ≠ .cancel)
    (hstop : action ≠ .returned .cancelled) (hexpects : t.Expects i (e.record n))
    (haccounts : t.Accounts i (n ∈ e.invocations) (e.record n)) :
    t'.Accounts i (n ∈ e'.invocations) (e'.record n) := by
  cases h with
  | preterminal hterminal =>
    rw [(e.sameShared_preterminal n).invocations]
    refine ⟨haccounts, ?_⟩
    simpa [show e.record n = i.record from hexpects, Initial.record] using hterminal
  | unreadable | conditionRaised | noEvent | unprepared =>
    rw [(e.sameShared_fail n _).invocations]
    refine ⟨haccounts, ?_⟩
    simp [record_fail, failedRecord, raised, hexpects.1, Initial.record, hexpects.2]
  | skipped =>
    rw [(e.sameShared_skip n _).invocations]
    refine ⟨haccounts, ?_⟩
    simp [record_skip, skippedRecord, raised, hexpects.1, Initial.record]
  | invoke => exact ⟨List.mem_append_right _ (List.mem_singleton_self n), hexpects.2⟩
  | noInvoke hcap hprepare hstatus =>
    exact absurd (by simp [hexpects.1, Initial.record, hexpects.2]) hstatus
  | @settled prepared outcome houtcome =>
    rw [(e.shared_conclude n op outcome).2.2]
    refine ⟨haccounts.1, haccounts.2, ?_⟩
    rw [record_conclude, Function.update_self]
    cases outcome with
    | completed response => exact accounts_completed n op response (e.record n)
    | failed message => exact .inr rfl
    | cancelled => exact absurd rfl houtcome
  | stopped haction => exact (haction.elim hstop hcancel).elim
  | abandoned => exact absurd rfl hcancel
  | cancelled => exact absurd rfl hcancel
  | _ => exact haccounts

/-- Other tasks leave the account of an operation alone. -/
theorem Moves.accounts_of_ne (h : Moves G capacity n op e t action e' t') {m : U} (hm : m ≠ n) :
    m ∈ e'.invocations ↔ m ∈ e.invocations := by
  obtain hsame | ⟨-, -, hnew⟩ := h.invocations
  · rw [hsame]
  · simp [hnew, hm]

end Accounts

namespace RunState

variable {U κ : Type} [DecidableEq U] [ToString U] [JsonLoads]
variable {O : Oracle U κ} {G : OperationGraph U κ} {capacity : ℕ}
variable {initial : U → Initial} {workspace : Entries}

/-- Every task accounts for the calls of `invoke` and for the record of its operation. -/
structure Accounted (O : Oracle U κ) (G : OperationGraph U κ) (initial : U → Initial)
    (workspace : Entries) (s : RunState U U κ) : Prop where
  foretold : Foretold O G initial workspace s
  task : ∀ n t, s.task n = some ⟨n, t⟩ →
    t.Accounts (initial n) (n ∈ s.executor.invocations) (s.executor.record n)

variable {s : RunState U U κ}

theorem accounted_of_reachable (hO : O.IgnoresWorkspace G initial ∨ O.NoContext)
    (hinitial : ∀ n, (initial n).status = .pending ∨ (initial n).status.terminal = true)
    (hs : Reachable (Proceeds O.world G capacity) (start G initial workspace) s) :
    Accounted O G initial workspace s := by
  refine hs.invariant (I := Accounted O G initial workspace) ⟨foretold_start, ?_⟩ ?_
  · intro n t ht
    simp only [start] at ht
    split at ht <;> cases ht
    exact List.not_mem_nil
  · intro u l v h hproceeds
    obtain ⟨hstep, hl⟩ := hproceeds
    obtain ⟨key, n, op, t, action, e', t', -, htask, rfl⟩ | hcontrol := step_cases hstep
    · obtain rfl : n = key := h.foretold.safe.own key _ htask.task
      refine ⟨h.foretold.moved hO hinitial htask, ?_⟩
      obtain ⟨hcancel, hstop⟩ := htask.uncancelled (uncancelled_world O) h.foretold.calm
      intro m tm htm
      by_cases hmn : m = n
      · subst hmn
        rw [task_moved_self, Option.some.injEq, Task.mk.injEq] at htm
        obtain ⟨-, rfl⟩ := htm
        obtain ⟨t₀, ht₀, hexpects, -⟩ := h.foretold.task m op htask.operation
        rw [htask.task, Option.some.injEq, Task.mk.injEq] at ht₀
        obtain ⟨-, rfl⟩ := ht₀
        exact htask.moves.accounts hcancel hstop hexpects (h.task m t htask.task)
      · rw [task_moved_of_ne u hmn] at htm
        have hrecord : e'.record m = u.executor.record m := htask.moves.record_of_ne hmn
        have hold := h.task m tm htm
        rw [← propext (htask.moves.accounts_of_ne hmn), ← hrecord] at hold
        exact hold
    · refine ⟨h.foretold.control hcontrol hl, ?_⟩
      rw [hcontrol.task, hcontrol.invocations, hcontrol.record]
      exact h.task

variable {n : U} {op : Operation}

omit [DecidableEq U] in
/-- The operations that were invoked are those whose body completed or failed. -/
theorem Accounted.invoked_iff (h : Accounted O G initial workspace s) (hcomplete : s.Complete)
    (hop : G.operation n = some op) (hi : (initial n).status = .pending) :
    n ∈ s.executor.invocations ↔
      (s.executor.record n).status = .completed ∨ (s.executor.record n).status = .failed := by
  obtain ⟨t, ht, -, -⟩ := h.foretold.task n op hop
  obtain ⟨exit, rfl⟩ := hcomplete n _ ht
  have haccounts := h.task n _ ht
  cases exit with
  | settled => exact ⟨fun _ ↦ haccounts.2.2.imp_left And.left, fun _ ↦ haccounts.1⟩
  | skipped => simp [haccounts.1, haccounts.2.1]
  | preterminal => exact absurd haccounts.2 (by simp [hi, EventStatus.terminal])
  | scanError => simp [haccounts.1, haccounts.2]
  | error => simp [haccounts.1, haccounts.2]
  | cancelled => exact haccounts.elim
  | abandoned => exact haccounts.elim

omit [DecidableEq U] in
/-- What is terminal on arrival is not invoked. -/
theorem Accounted.not_invoked (h : Accounted O G initial workspace s) (hi : (initial n).status.terminal = true) :
    n ∉ s.executor.invocations := by
  intro hn
  obtain ⟨t, ht, hlaunched⟩ := h.foretold.safe.launched n hn
  have haccounts := h.task n t ht
  have hpending : (initial n).status ≠ .pending := by
    intro hpending
    simp [hpending, EventStatus.terminal] at hi
  cases t with
  | invoking prepared => exact hpending haccounts.2
  | finished exit =>
    cases exit with
    | settled => exact hpending haccounts.2.1
    | cancelled => exact haccounts
    | abandoned => exact haccounts
    | _ => exact haccounts.1 hn
  | _ => exact hlaunched

/-! ## Resuming -/

/-- An operation that has not run. -/
def fresh (parameters : U → Parameters) (n : U) : Initial := ⟨.pending, .none, parameters n⟩

/-- An operation as an earlier run left it. -/
def restored (t : RunState U U κ) (parameters : U → Parameters) (n : U) : Initial :=
  ⟨(t.executor.record n).status, (t.executor.record n).response, parameters n⟩

/-- The graph as a resumed executor finds it: the operations of `D` as the earlier run left them. -/
def resumed (D : Set U) [DecidablePred (· ∈ D)] (t : RunState U U κ) (parameters : U → Parameters)
    (n : U) : Initial :=
  if n ∈ D then t.restored parameters n else fresh parameters n

/-- The bookkeeping of the earlier run without what a resumed executor does not read back: of `D` there
are only the results, and the gate reasons outside `D` are those that do not come from there. -/
structure Reconstructed (G : OperationGraph U κ) (D : Set U) (t : RunState U U κ)
    (parameters : U → Parameters) (R : U → Book U) : Prop where
  restored : ∀ n ∈ D, R n = preterminalBook (t.restored parameters n).record
  kept : ∀ n, n ∉ D → (t.executor.record n).status ≠ .skipped → R n = t.executor.book n
  skipped : ∀ n, n ∉ D → (t.executor.record n).status = .skipped →
    R n = skippedBook Book.empty (firstReason R (G.incoming n))

/-- The reconstruction goes along the edges of the graph. -/
noncomputable def reconstruct (hedges : WellFounded G.Edge) (D : Set U) [DecidablePred (· ∈ D)]
    (t : RunState U U κ) (parameters : U → Parameters) : U → Book U :=
  hedges.fix fun n R ↦
    if n ∈ D then preterminalBook (t.restored parameters n).record
    else if (t.executor.record n).status = .skipped then
      skippedBook Book.empty <| (G.incoming n).attach.findSome? fun edge ↦
        (R edge.1.head (G.edge_head edge.2)).upstreamReason
    else t.executor.book n

omit [DecidableEq U] [JsonLoads] in
theorem reconstructed (hedges : WellFounded G.Edge) (D : Set U) [DecidablePred (· ∈ D)]
    (t : RunState U U κ) (parameters : U → Parameters) :
    Reconstructed G D t parameters (reconstruct hedges D t parameters) where
  restored := by
    intro n hn
    rw [reconstruct, WellFounded.fix_eq, if_pos hn]
  kept := by
    intro n hn hstatus
    rw [reconstruct, WellFounded.fix_eq, if_neg hn, if_neg hstatus]
  skipped := by
    intro n hn hstatus
    rw [reconstruct, WellFounded.fix_eq, if_neg hn, if_pos hstatus]
    have hsub := List.findSome?_subtype (l := (G.incoming n).attach)
      (f := fun edge ↦
        (reconstruct hedges D t parameters edge.1.head).upstreamReason)
      (g := fun edge ↦ (reconstruct hedges D t parameters edge.head).upstreamReason)
      (fun edge _ ↦ rfl)
    rw [List.unattach_attach] at hsub
    exact congrArg (skippedBook Book.empty) hsub

/-- The resumed run does outside `D` what the earlier one did. -/
structure Resumes (G : OperationGraph U κ) (D : Set U) (t t' : RunState U U κ) : Prop where
  invoked : ∀ n, n ∈ t'.executor.invocations ↔ n ∉ D ∧ n ∈ t.executor.invocations
  status : ∀ n, n ∉ D → (G.operation n).isSome = true →
    (t'.executor.record n).status = (t.executor.record n).status

/-- Two complete runs, the second of which resumes the first. -/
structure Resumption (O : Oracle U κ) (G : OperationGraph U κ) (parameters : U → Parameters)
    (workspace : Entries) (D : Set U) [DecidablePred (· ∈ D)] (t t' : RunState U U κ) : Prop where
  earlier : Accounted O G (fresh parameters) workspace t
  complete : t.Complete
  later : Accounted O G (resumed D t parameters) workspace t'
  complete' : t'.Complete
  ended : ∀ n ∈ D, (G.operation n).isSome = true ∧
    ((t.executor.record n).status = .completed ∨ (t.executor.record n).status = .skipped)

section Agreement

variable {D : Set U} [DecidablePred (· ∈ D)] {parameters : U → Parameters} {t t' : RunState U U κ}
variable {R : U → Book U}

omit [DecidableEq U] in
/-- The ending of an operation in the earlier run. -/
theorem Resumption.ending (h : Resumption O G parameters workspace D t t') (hop : G.operation n = some op) :
    ((t.executor.record n).status, t.executor.book n) =
      match O.verdict G t.executor.book n with
      | .error message => unexpected message
      | .ok true =>
        O.awaited G n op (parameters n) workspace t.executor.book (G.predecessors n)
      | .ok false =>
        (.skipped, skippedBook Book.empty (firstReason t.executor.book (G.incoming n))) :=
  (h.earlier.foretold.final h.complete hop).2.trans (Oracle.ending_eq rfl workspace _)

omit [DecidableEq U] in
/-- The ending of an operation outside `D` in the resumed run. -/
theorem Resumption.ending' (h : Resumption O G parameters workspace D t t') (hop : G.operation n = some op) (hn : n ∉ D)
    :
    ((t'.executor.record n).status, t'.executor.book n) =
      match O.verdict G t'.executor.book n with
      | .error message => unexpected message
      | .ok true =>
        O.awaited G n op (parameters n) workspace t'.executor.book (G.predecessors n)
      | .ok false =>
        (.skipped, skippedBook Book.empty (firstReason t'.executor.book (G.incoming n))) := by
  have hfinal := (h.later.foretold.final h.complete' hop).2
  rw [show resumed D t parameters n = fresh parameters n from if_neg hn] at hfinal
  exact hfinal.trans (Oracle.ending_eq rfl workspace _)

omit [DecidableEq U] in
theorem Resumption.book_restored (h : Resumption O G parameters workspace D t t') (hn : n ∈ D) :
    t'.executor.book n = preterminalBook (t.restored parameters n).record := by
  obtain ⟨hop, hended⟩ := h.ended n hn
  obtain ⟨op, hop⟩ := Option.isSome_iff_exists.1 hop
  have hfinal := (h.later.foretold.final h.complete' hop).2
  rw [show resumed D t parameters n = t.restored parameters n from if_pos hn] at hfinal
  have hterminal : (t.restored parameters n).status.terminal = true := by
    obtain hcompleted | hskipped := hended
    · simp [RunState.restored, hcompleted, EventStatus.terminal]
    · simp [RunState.restored, hskipped, EventStatus.terminal]
  simp only [Oracle.ending, hterminal, if_true, Prod.mk.injEq] at hfinal
  exact hfinal.2

omit [DecidableEq U] in
/-- Exactly the skipped operations of the earlier run are closed. -/
theorem Resumption.closed_iff (h : Resumption O G parameters workspace D t t') (hop : G.operation n = some op) :
    (t.executor.book n).closed = true ↔ (t.executor.record n).status = .skipped := by
  have hend := h.ending hop
  cases hverdict : O.verdict G t.executor.book n with
  | error message =>
    simp only [hverdict, unexpected, Prod.mk.injEq] at hend
    simp [hend.1, hend.2, Book.closed, failedBook, Book.empty]
  | ok answer =>
    cases answer with
    | false =>
      simp only [hverdict, Prod.mk.injEq] at hend
      simp [hend.1, hend.2, Book.closed, skippedBook]
    | true =>
      simp only [hverdict] at hend
      have hstatus := Oracle.awaited_ne_skipped (O := O) (G := G) n op (parameters n) workspace
        t.executor.book (G.predecessors n)
      have hclosed := Oracle.awaited_closed (O := O) (G := G) n op (parameters n) workspace
        t.executor.book (G.predecessors n)
      rw [← hend] at hstatus hclosed
      exact ⟨fun hopen ↦ absurd (hclosed.symm.trans hopen) (by simp), fun hskip ↦ absurd hskip hstatus⟩

omit [DecidableEq U] in
/-- What the earlier run left in the response of an operation that it completed or skipped. -/
theorem Resumption.response_eq (h : Resumption O G parameters workspace D t t') (hop : G.operation n = some op) :
    ((t.executor.record n).status = .completed →
      (t.executor.book n).result = some (t.executor.record n).response) ∧
    ((t.executor.record n).status = .skipped → (t.executor.record n).response = .none) := by
  obtain ⟨state, htask, -, -⟩ := h.earlier.foretold.task n op hop
  obtain ⟨exit, rfl⟩ := h.complete n _ htask
  have haccounts := h.earlier.task n _ htask
  cases exit with
  | settled =>
    obtain hgood | hbad := haccounts.2.2
    · exact ⟨fun _ ↦ hgood.2, fun hskip ↦ absurd (hgood.1.symm.trans hskip) (by decide)⟩
    · exact ⟨fun hgood ↦ absurd (hbad.symm.trans hgood) (by decide),
        fun hskip ↦ absurd (hbad.symm.trans hskip) (by decide)⟩
  | skipped =>
    exact ⟨fun hgood ↦ absurd (haccounts.2.1.symm.trans hgood) (by decide), fun _ ↦ haccounts.2.2⟩
  | preterminal => exact absurd haccounts.2 (by simp [fresh, EventStatus.terminal])
  | scanError =>
    exact ⟨fun hgood ↦ absurd (haccounts.2.symm.trans hgood) (by decide),
      fun hskip ↦ absurd (haccounts.2.symm.trans hskip) (by decide)⟩
  | error =>
    exact ⟨fun hgood ↦ absurd (haccounts.2.symm.trans hgood) (by decide),
      fun hskip ↦ absurd (haccounts.2.symm.trans hskip) (by decide)⟩
  | cancelled => exact haccounts.elim
  | abandoned => exact haccounts.elim

omit [DecidableEq U] in
/-- A restored operation contributes to the context what it contributed before. -/
theorem Resumption.contribution_restored (h : Resumption O G parameters workspace D t t') (hn : n ∈ D) :
    (t'.executor.book n).contribution = (t.executor.book n).contribution := by
  obtain ⟨hop, hended⟩ := h.ended n hn
  obtain ⟨op, hop⟩ := Option.isSome_iff_exists.1 hop
  obtain ⟨hresult, hresponse⟩ := h.response_eq hop
  have hclosed := h.closed_iff hop
  rw [h.book_restored hn, Book.contribution, Book.contribution]
  obtain hcompleted | hskipped := hended
  · have hopen : (t.executor.book n).closed = false := by
      rw [← Bool.not_eq_true, hclosed, hcompleted]
      decide
    rw [hopen, hresult hcompleted]
    simp [Book.closed, preterminalBook, Initial.record, RunState.restored, hcompleted, Book.empty]
  · rw [hclosed.2 hskipped]
    simp [Book.closed, preterminalBook, Initial.record, RunState.restored, hskipped, Book.empty,
      hresponse hskipped, Value.isNone]

/-- What the resumed run leaves of an operation looks to its dependents like the reconstructed
bookkeeping, and contributes what it did before. -/
structure Follows (t t' : RunState U U κ) (R : U → Book U) (n : U) : Prop where
  alike : (t'.executor.book n).Alike (R n)
  contribution : (t'.executor.book n).contribution = (t.executor.book n).contribution

omit [DecidableEq U] in
/-- Where the verdict is as before, the resumed run does to an operation what the earlier one did. -/
theorem Resumption.follows_step (h : Resumption O G parameters workspace D t t') (hR : Reconstructed G D t parameters R)
    (hop : G.operation n = some op) (hn : n ∉ D) (hverdict : O.verdict G R n = O.verdict G t.executor.book n)
    (hpreds : ∀ p ∈ G.predecessors n, Follows t t' R p) :
    (t'.executor.record n).status = (t.executor.record n).status ∧ Follows t t' R n := by
  have hend := h.ending hop
  have hend' := h.ending' hop hn
  rw [Oracle.verdict_alike fun p hp ↦ (hpreds p hp).alike, hverdict] at hend'
  -- unless the operation is skipped, nothing of its bookkeeping is lost
  have hsame : ((t'.executor.record n).status, t'.executor.book n) =
      ((t.executor.record n).status, t.executor.book n) →
      (t.executor.record n).status ≠ .skipped →
      (t'.executor.record n).status = (t.executor.record n).status ∧ Follows t t' R n := by
    intro heq hstatus
    rw [Prod.mk.injEq] at heq
    refine ⟨heq.1, ⟨?_, by rw [heq.2]⟩⟩
    rw [heq.2, hR.kept n hn hstatus]
    exact .refl _
  cases hanswer : O.verdict G t.executor.book n with
  | error message =>
    simp only [hanswer] at hend hend'
    refine hsame (hend'.trans hend.symm) ?_
    rw [show (t.executor.record n).status = .pending from congrArg Prod.fst hend]
    decide
  | ok answer =>
    cases answer with
    | true =>
      simp only [hanswer] at hend hend'
      have hawaited : O.awaited G n op (parameters n) workspace t'.executor.book (G.predecessors n) =
          O.awaited G n op (parameters n) workspace t.executor.book (G.predecessors n) := by
        unfold Oracle.awaited
        rw [Oracle.admitted_contribution fun p hp ↦ (hpreds p hp).contribution]
      refine hsame (hend'.trans (hawaited.trans hend.symm)) ?_
      have hstatus := Oracle.awaited_ne_skipped (O := O) (G := G) n op (parameters n) workspace
        t.executor.book (G.predecessors n)
      rwa [← hend] at hstatus
    | false =>
      simp only [hanswer, Prod.mk.injEq] at hend hend'
      refine ⟨hend'.1.trans hend.1.symm, ⟨?_, ?_⟩⟩
      · have hreason : (firstReason t'.executor.book (G.incoming n)).isSome =
            (firstReason R (G.incoming n)).isSome :=
          firstReason_alike fun edge hedge ↦
            (hpreds edge.head (G.edge_head hedge)).alike
        rw [hend'.2, hR.skipped n hn hend.1]
        exact ⟨by simpa [skippedBook, Book.upstreamReason, Book.empty] using hreason, rfl, nofun⟩
      · rw [hend'.2, hend.2]
        rfl

omit [DecidableEq U] in
theorem Resumption.follows (h : Resumption O G parameters workspace D t t')
    (hedges : WellFounded G.Edge) (hR : Reconstructed G D t parameters R)
    (hverdict : ∀ n, n ∉ D → (G.operation n).isSome = true →
      O.verdict G R n = O.verdict G t.executor.book n) (n : U) : Follows t t' R n := by
  induction n using hedges.induction with
  | _ n ih =>
    by_cases hn : n ∈ D
    · refine ⟨?_, h.contribution_restored hn⟩
      rw [h.book_restored hn, hR.restored n hn]
      exact .refl _
    · cases hop : G.operation n with
      | some op => exact (h.follows_step hR hop hn (hverdict n hn (hop ▸ rfl)) ih).2
      | none =>
        have hrecord := h.earlier.foretold.plain n hop
        have hbook : t'.executor.book n = t.executor.book n :=
          congrArg Record.book ((h.later.foretold.plain n hop).trans hrecord.symm)
        have hkept : R n = t.executor.book n := hR.kept n hn (by simp [hrecord, Record.absent])
        refine ⟨?_, by rw [hbook]⟩
        rw [hbook, hkept]
        exact .refl _

end Agreement

end RunState

/-! ## A resumed chain and a resumed gate -/

section Restart

open RunState

local instance restartLoads : JsonLoads := JsonLoads.never

/-- The operations that were done before. -/
def firstDone : Set ℕ := {n | n = 1}

instance firstDoneDecidable : DecidablePred (· ∈ firstDone) := fun n ↦ Nat.decEq n 1

def noParameters (_ : ℕ) : Parameters := .dict []

/-- The chain, run to its end. -/
def chainDone : RunState ℕ ℕ Unit :=
  (start chain (fresh noParameters) []).play echo chain 1
    (List.replicate 6 1 ++ List.replicate 10 2)

def chainResumed : RunState ℕ ℕ Unit :=
  (start chain (resumed firstDone chainDone noParameters) []).play echo chain 1
    (List.replicate 1 1 ++ List.replicate 10 2)

/-- A run over two operations is complete when both tasks have come to their end. -/
theorem complete_of_two {W : World ℕ Unit} {G : OperationGraph ℕ Unit} {capacity : ℕ}
    {initial : ℕ → Initial} {s : RunState ℕ ℕ Unit}
    (hG : ∀ n op, G.operation n = some op → n = 1 ∨ n = 2)
    (hs : Reachable (Proceeds W G capacity) (start G initial []) s)
    (hfirst : ∃ exit, (s.task 1).map Task.state = some (.finished exit))
    (hsecond : ∃ exit, (s.task 2).map Task.state = some (.finished exit)) : s.Complete := by
  intro n t ht
  obtain ⟨op, hop⟩ := (safe_of_reachable (hs.mono fun _ _ _ hstep ↦ hstep.1)).known n t ht
  have hend : ∃ exit, (s.task n).map Task.state = some (.finished exit) := by
    obtain rfl | rfl := hG n op hop
    · exact hfirst
    · exact hsecond
  obtain ⟨exit, hexit⟩ := hend
  rw [ht] at hexit
  exact ⟨exit, Option.some.inj hexit⟩

/-- The gate 1 has rejected, and operation 2 was skipped. -/
def gatedDone : RunState ℕ ℕ Unit :=
  (start gated (fresh noParameters) []).play rejecter gated 1
    (List.replicate 6 1 ++ List.replicate 4 2)

def gatedResumed : RunState ℕ ℕ Unit :=
  (start gated (resumed firstDone gatedDone noParameters) []).play rejecter gated 1
    (List.replicate 1 1 ++ List.replicate 10 2)

end Restart

end Lionagi.Operations
