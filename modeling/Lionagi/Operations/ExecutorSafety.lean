import Mathlib.Data.List.Nodup
import Lionagi.Operations.ExecutorStep

/-!
# Dependencies come first

An operation is invoked only after the completion events of all its predecessors are set, and an
operation whose event is set is not invoked any more. Both are read off one invariant of a run: a set
event belongs to a task that has come to its end, or to an operation that was completed before the run.
-/

namespace Lionagi.Operations

open Ln Transition

section Moves

variable {U κ : Type} [DecidableEq U] [ToString U] [JsonLoads]
variable {G : OperationGraph U κ} {capacity : ℕ} {n : U} {op : Operation} {e e' : Executor U}
variable {t t' : TaskState U κ} {action : Action}

/-- A task has `p` behind it among the predecessors it waits for. -/
def TaskState.PastPredecessor (p : U) : TaskState U κ → Prop
  | waiting rest => p ∉ rest
  | paused _ => True
  | acquiring => True
  | invoking _ => True
  | _ => False

/-- The body of the operation has begun. -/
def TaskState.Launched : TaskState U κ → Prop
  | invoking _ => True
  | finished _ => True
  | _ => False

omit [DecidableEq U] [ToString U] [JsonLoads] in
@[simp] theorem event_raised (r : Record U) :
    (Executor.raised r).event = r.event.map fun _ ↦ true := rfl

omit [DecidableEq U] in
theorem event_settledRecord (r : Record U) :
    (Executor.settledRecord n op r).event = r.event.map fun _ ↦ true := by
  unfold Executor.settledRecord
  split
  · split <;> rfl
  all_goals rfl

omit [DecidableEq U] in
theorem event_concludedRecord (outcome : Outcome) (r : Record U) :
    (Executor.concludedRecord n op outcome r).event = r.event.map fun _ ↦ true := by
  cases outcome <;> simp [Executor.concludedRecord, event_settledRecord, Executor.cancelledRecord]

/-- A task that comes to its end sets the event of its operation, unless it never ran. -/
theorem Moves.event_finished (h : Moves G capacity n op e t action e' t') {exit : Exit}
    (hexit : t' = .finished exit) (hran : exit ≠ .abandoned) :
    (e'.record n).event = (e.record n).event.map fun _ ↦ true := by
  cases h with
  | preterminal => simp [Executor.record_preterminal, Executor.preterminalRecord]
  | skipped => simp [Executor.record_skip, Executor.skippedRecord]
  | noInvoke => simp [Executor.record_settle, event_settledRecord, Executor.startedRecord]
  | settled => simp [Executor.record_conclude, event_concludedRecord]
  | stopped => simp [Executor.record_conclude, event_concludedRecord]
  | cancelled => simp [Executor.record_cancel, Executor.cancelledRecord]
  | unreadable | conditionRaised | noEvent | unprepared =>
    simp [Executor.record_fail, Executor.failedRecord]
  | abandoned =>
    cases hexit
    exact absurd rfl hran
  | _ => cases hexit

/-- A task that is not at its end leaves the event of its operation alone. -/
theorem Moves.event_running (h : Moves G capacity n op e t action e' t')
    (hrunning : ∀ exit, t' ≠ .finished exit) : (e'.record n).event = (e.record n).event := by
  cases h with
  | invoke => simp [Executor.startedRecord]
  | source | scan | vetoed | passed | ask | answered | admitted | aggregated | depend | waited | hold
  | pass | released => rfl
  | _ => exact absurd rfl (hrunning _)

theorem Moves.event (h : Moves G capacity n op e t action e' t') :
    (e'.record n).event = (e.record n).event ∨
      ((∃ exit, t' = .finished exit) ∧ (e'.record n).event = (e.record n).event.map fun _ ↦ true) := by
  by_cases hexit : ∃ exit, t' = .finished exit
  · obtain ⟨exit, rfl⟩ := hexit
    by_cases hran : exit = .abandoned
    · subst hran
      cases h
      exact .inl rfl
    · exact .inr ⟨⟨exit, rfl⟩, h.event_finished rfl hran⟩
  · exact .inl (h.event_running fun exit ht ↦ hexit ⟨exit, ht⟩)

/-- A set event stays set. -/
theorem Moves.event_stays (h : Moves G capacity n op e t action e' t') {m : U}
    (hm : (e.record m).event = some true) : (e'.record m).event = some true := by
  by_cases hmn : m = n
  · subst hmn
    obtain hsame | ⟨-, hset⟩ := h.event
    · exact hsame.trans hm
    · rw [hset, hm]
      rfl
  · rw [h.record_of_ne hmn, hm]

/-- What is settled stays settled. -/
theorem Moves.settled_stays (h : Moves G capacity n op e t action e' t') {m : U}
    (hm : (e.record m).event ≠ some false) : (e'.record m).event ≠ some false := by
  by_cases hmn : m = n
  · subst hmn
    obtain hsame | ⟨-, hset⟩ := h.event
    · rwa [hsame]
    · cases hevent : (e.record m).event <;> simp [hset, hevent]
  · rwa [h.record_of_ne hmn]

/-- The calls of `invoke` are made by tasks that hold a token of the limiter. -/
theorem Moves.invocations (h : Moves G capacity n op e t action e' t') :
    e'.invocations = e.invocations ∨
      (t = .acquiring ∧ t'.Launched ∧ e'.invocations = e.invocations ++ [n]) := by
  cases h with
  | preterminal => exact .inl (e.sameShared_preterminal n).invocations
  | skipped => exact .inl (e.sameShared_skip n _).invocations
  | invoke => exact .inr ⟨rfl, trivial, rfl⟩
  | noInvoke => exact .inr ⟨rfl, trivial, (Executor.sharedSettle _ n op).2.2⟩
  | settled => exact .inl (e.shared_conclude n op _).2.2
  | stopped => exact .inl (e.shared_conclude n op _).2.2
  | cancelled => exact .inl (e.sameShared_cancel n).invocations
  | unreadable | conditionRaised | noEvent | unprepared => exact .inl (e.sameShared_fail n _).invocations
  | _ => exact .inl rfl

/-- A predecessor falls behind a task only when its event is set. -/
theorem Moves.pastPredecessor (h : Moves G capacity n op e t action e' t') {p : U}
    (hp : p ∈ G.predecessors n) (hpast : t'.PastPredecessor p) :
    t.PastPredecessor p ∨ (e.record p).event = some true := by
  cases h with
  | depend => exact absurd hp hpast
  | @waited pred rest hevent =>
    by_cases hpp : p = pred
    · exact .inr (hpp ▸ hevent)
    · exact .inl fun hmem ↦ (List.mem_cons.1 hmem).elim hpp hpast
  | hold => exact .inl List.not_mem_nil
  | pass => exact .inl List.not_mem_nil
  | released => exact .inl trivial
  | invoke => exact .inl trivial
  | _ => exact absurd hpast id

/-- What has been launched stays so. -/
theorem Moves.launched (h : Moves G capacity n op e t action e' t') (ht : t.Launched) :
    t'.Launched := by
  cases h with
  | settled => trivial
  | stopped => trivial
  | cancelled _ hinvoking hfinished => trivial
  | _ => exact absurd ht id

/-- A finished task makes no move. -/
theorem Moves.not_finished (h : Moves G capacity n op e t action e' t') (exit : Exit) :
    t ≠ .finished exit := by
  rintro rfl
  cases h with
  | cancelled _ _ hfinished => exact hfinished exit rfl

/-- An operation that is terminal on arrival goes no further. -/
theorem Moves.created_terminal (h : Moves G capacity n op e .created action e' t')
    (hterminal : (e.record n).status.terminal = true) : ∃ exit, t' = .finished exit := by
  cases h with
  | preterminal => exact ⟨_, rfl⟩
  | source hopen => exact absurd hterminal (by simp [hopen])
  | scan hopen => exact absurd hterminal (by simp [hopen])
  | abandoned => exact ⟨_, rfl⟩
  | cancelled hcreated => exact absurd rfl hcreated

end Moves

/-! ## The invariant -/

namespace RunState

variable {U κ : Type} [DecidableEq U] [ToString U] [JsonLoads]
variable {W : World U κ} {G : OperationGraph U κ} {capacity : ℕ}

/-- The operation will not be invoked any more: its task is over, or will find it terminal. -/
def Settled (s : RunState U U κ) (n : U) : Prop :=
  (∃ exit, s.task n = some ⟨n, .finished exit⟩) ∨
    (s.task n = some ⟨n, .created⟩ ∧ (s.executor.record n).status.terminal = true)

structure Safe (G : OperationGraph U κ) (s : RunState U U κ) : Prop where
  own : ∀ k t, s.task k = some t → t.node = k
  known : ∀ n t, s.task n = some t → ∃ op, G.operation n = some op
  settled : ∀ n, (s.executor.record n).event = some true → s.Settled n
  past : ∀ n t, s.task n = some ⟨n, t⟩ → ∀ p ∈ G.predecessors n, t.PastPredecessor p →
    (s.executor.record p).event = some true
  launched : ∀ n ∈ s.executor.invocations, ∃ t, s.task n = some ⟨n, t⟩ ∧ t.Launched
  nodup : s.executor.invocations.Nodup

omit [DecidableEq U] [ToString U] [JsonLoads] in
theorem safe_start (initial : U → Initial) (workspace : Entries) :
    Safe G (start G initial workspace) where
  own := by
    intro k t ht
    simp only [start] at ht
    split at ht <;> cases ht
    rfl
  known := by
    intro n t ht
    simp only [start] at ht
    split at ht
    · next hop => exact Option.isSome_iff_exists.1 hop
    · cases ht
  settled := by
    intro n hevent
    right
    simp only [start] at hevent ⊢
    split at hevent
    · next hop =>
      simp only [Initial.record, Option.some.injEq, decide_eq_true_eq] at hevent
      simp [hop, Initial.record, hevent, EventStatus.terminal]
    · cases hevent
  past := by
    intro n t ht p _ hpast
    simp only [start] at ht
    split at ht <;> cases ht
    exact absurd hpast id
  launched := by
    intro n hn
    cases hn
  nodup := List.nodup_nil

omit [ToString U] [JsonLoads] in
/-- The task that moves has a key of its own, so the others stay where they are. -/
theorem task_moved_self (s : RunState U U κ) (n : U) (action : Action) (e' : Executor U)
    (t' : TaskState U κ) : (s.moved n n action e' t').task n = some ⟨n, t'⟩ :=
  Function.update_self ..

variable {n : U}

omit [ToString U] [JsonLoads] in
theorem task_moved_of_ne (s : RunState U U κ) {m : U} (h : m ≠ n) (action : Action) (e' : Executor U)
    (t' : TaskState U κ) : (s.moved n n action e' t').task m = s.task m :=
  Function.update_of_ne h ..

variable {s s' : RunState U U κ} {op : Operation} {t t' : TaskState U κ} {action : Action} {e' : Executor U}

/-- An operation whose event is set makes no move but to its end. -/
theorem Settled.moves (h : s.Settled n) (ht : s.task n = some ⟨n, t⟩)
    (hmove : Moves G capacity n op s.executor t action e' t') : ∃ exit, t' = .finished exit := by
  obtain ⟨exit, hfinished⟩ | ⟨hcreated, hterminal⟩ := h
  · rw [hfinished, Option.some.injEq, Task.mk.injEq] at ht
    exact absurd ht.2.symm (hmove.not_finished exit)
  · rw [hcreated, Option.some.injEq, Task.mk.injEq] at ht
    obtain ⟨-, rfl⟩ := ht
    exact hmove.created_terminal hterminal

theorem Settled.moved {m : U} (h : s.Settled m) (ht : s.task n = some ⟨n, t⟩)
    (hmove : Moves G capacity n op s.executor t action e' t') : (s.moved n n action e' t').Settled m := by
  by_cases hmn : m = n
  · subst hmn
    obtain ⟨exit, rfl⟩ := h.moves ht hmove
    exact .inl ⟨exit, task_moved_self s m action e' _⟩
  · unfold Settled
    rw [task_moved_of_ne s hmn, show (s.moved n n action e' t').executor = e' from rfl,
      hmove.record_of_ne hmn]
    exact h

theorem Safe.moved (h : Safe G s) (ht : s.task n = some ⟨n, t⟩)
    (hmove : Moves G capacity n op s.executor t action e' t') :
    Safe G (s.moved n n action e' t') where
  own := by
    intro k task htask
    by_cases hk : k = n
    · subst hk
      rw [task_moved_self, Option.some.injEq] at htask
      rw [← htask]
    · rw [task_moved_of_ne s hk] at htask
      exact h.own k task htask
  known := by
    intro m task htask
    by_cases hmn : m = n
    · exact hmn ▸ h.known n _ ht
    · rw [task_moved_of_ne s hmn] at htask
      exact h.known m task htask
  settled := by
    intro m hevent
    by_cases hmn : m = n
    · subst hmn
      obtain hsame | ⟨⟨exit, rfl⟩, -⟩ := hmove.event
      · exact (h.settled m (hsame ▸ hevent)).moved ht hmove
      · exact .inl ⟨exit, task_moved_self s m action e' _⟩
    · exact (h.settled m (hmove.record_of_ne hmn ▸ hevent)).moved ht hmove
  past := by
    intro m task htask p hp hpast
    apply hmove.event_stays
    by_cases hmn : m = n
    · subst hmn
      rw [task_moved_self, Option.some.injEq, Task.mk.injEq] at htask
      obtain ⟨-, rfl⟩ := htask
      exact (hmove.pastPredecessor hp hpast).elim (h.past m t ht p hp) id
    · rw [task_moved_of_ne s hmn] at htask
      exact h.past m task htask p hp hpast
  launched := by
    intro m hm
    obtain hsame | ⟨rfl, hlaunched, hnew⟩ := hmove.invocations
    · obtain ⟨t₀, ht₀, hl⟩ := h.launched m (hsame ▸ hm)
      by_cases hmn : m = n
      · subst hmn
        rw [ht, Option.some.injEq, Task.mk.injEq] at ht₀
        exact ⟨t', task_moved_self s m action e' t', hmove.launched (ht₀.2 ▸ hl)⟩
      · exact ⟨t₀, (task_moved_of_ne s hmn ..).trans ht₀, hl⟩
    · by_cases hmn : m = n
      · subst hmn
        exact ⟨t', task_moved_self s m action e' t', hlaunched⟩
      · have hold : m ∈ s.executor.invocations := by
          have := hnew ▸ hm
          simpa [hmn] using this
        obtain ⟨t₀, ht₀, hl⟩ := h.launched m hold
        exact ⟨t₀, (task_moved_of_ne s hmn ..).trans ht₀, hl⟩
  nodup := by
    obtain hsame | ⟨rfl, -, hnew⟩ := hmove.invocations
    · exact hsame ▸ h.nodup
    · have hfresh : n ∉ s.executor.invocations := by
        intro hn
        obtain ⟨t₀, ht₀, hl⟩ := h.launched n hn
        rw [ht, Option.some.injEq, Task.mk.injEq] at ht₀
        obtain ⟨-, rfl⟩ := ht₀
        exact hl
      have hnodup : (s.executor.invocations ++ [n]).Nodup := by
        rw [← List.concat_eq_append]
        exact List.Nodup.concat hfresh h.nodup
      exact hnew ▸ hnodup

omit [DecidableEq U] [ToString U] [JsonLoads] in
theorem Safe.control {l : Label U} (h : Safe G s) (hstep : ControlStep s l s') : Safe G s' where
  own := hstep.task ▸ h.own
  known := hstep.task ▸ h.known
  settled := by
    unfold Settled
    rw [hstep.task, hstep.record]
    exact h.settled
  past := by
    rw [hstep.task, hstep.record]
    exact h.past
  launched := by
    rw [hstep.task, hstep.invocations]
    exact h.launched
  nodup := hstep.invocations ▸ h.nodup

theorem Safe.step {l : Label U} (h : Safe G s) (hstep : Step W G capacity s l s') : Safe G s' := by
  obtain ⟨key, n, op, t, action, e', t', -, htask, rfl⟩ | hcontrol := step_cases hstep
  · obtain rfl : n = key := h.own key _ htask.task
    exact h.moved htask.task htask.moves
  · exact h.control hcontrol

theorem safe_of_reachable {initial : U → Initial} {workspace : Entries}
    (h : Reachable (Step W G capacity) (start G initial workspace) s) : Safe G s :=
  h.invariant (safe_start initial workspace) fun _ _ _ hs hstep ↦ hs.step hstep

/-! ## Dependency safety -/

/-- After its event is set, an operation is not invoked any more. -/
theorem Safe.not_invoked_after {u : RunState U U κ} {p : U} (h : Safe G s)
    (hevent : (s.executor.record p).event = some true) (hrun : Reachable (Step W G capacity) s u)
    (hp : p ∈ u.executor.invocations) : p ∈ s.executor.invocations := by
  suffices hinv : Safe G u ∧ (u.executor.record p).event = some true ∧
      (p ∈ u.executor.invocations → p ∈ s.executor.invocations) from hinv.2.2 hp
  refine hrun.invariant (I := fun u ↦ Safe G u ∧ (u.executor.record p).event = some true ∧
      (p ∈ u.executor.invocations → p ∈ s.executor.invocations)) ⟨h, hevent, id⟩ ?_
  rintro v l w ⟨hsafe, hset, hold⟩ hstep
  refine ⟨hsafe.step hstep, ?_⟩
  obtain ⟨key, n, op, t, action, e', t', -, htask, rfl⟩ | hcontrol := step_cases hstep
  · obtain rfl : n = key := hsafe.own key _ htask.task
    refine ⟨htask.moves.event_stays hset, fun hmem ↦ hold ?_⟩
    obtain hsame | ⟨rfl, -, hnew⟩ := htask.moves.invocations
    · exact hsame ▸ hmem
    · have hpn : p ≠ n := by
        rintro rfl
        obtain ⟨exit, hfinished⟩ | ⟨hcreated, -⟩ := hsafe.settled p hset
        · exact absurd (hfinished.symm.trans htask.task) (by simp)
        · exact absurd (hcreated.symm.trans htask.task) (by simp)
      have hmem' : p ∈ v.executor.invocations ++ [n] := hnew ▸ hmem
      simpa [hpn] using hmem'
  · rw [hcontrol.record, hcontrol.invocations]
    exact ⟨hset, hold⟩

/-- When an operation is invoked, the completion events of its predecessors are set, and none of them
is invoked from then on; no operation is invoked twice. -/
theorem dependency_safety (W : World U κ) (G : OperationGraph U κ) (capacity : ℕ)
    (initial : U → Initial) (workspace : Entries) {s : RunState U U κ}
    (hs : Reachable (Step W G capacity) (start G initial workspace) s) :
    s.executor.invocations.Nodup ∧
      ∀ l t n, Step W G capacity s l t → n ∉ s.executor.invocations → n ∈ t.executor.invocations →
        ∀ p ∈ G.predecessors n, (s.executor.record p).event = some true ∧
          ∀ u, Reachable (Step W G capacity) t u →
            p ∈ u.executor.invocations → p ∈ s.executor.invocations := by
  have hsafe : Safe G s := safe_of_reachable hs
  refine ⟨hsafe.nodup, ?_⟩
  intro l t n hstep hfresh hn p hp
  have hevent : (s.executor.record p).event = some true := by
    obtain ⟨key, m, op, state, action, e', t', -, htask, rfl⟩ | hcontrol := step_cases hstep
    · obtain rfl : m = key := hsafe.own key _ htask.task
      obtain hsame | ⟨rfl, -, hnew⟩ := htask.moves.invocations
      · exact absurd (hsame ▸ hn) hfresh
      · have hmem : n ∈ s.executor.invocations ++ [m] := hnew ▸ hn
        obtain rfl : n = m := by simpa [hfresh] using hmem
        exact hsafe.past n .acquiring htask.task p hp trivial
    · exact absurd (hcontrol.invocations ▸ hn) hfresh
  exact ⟨hevent, fun u hu ↦ hsafe.not_invoked_after hevent ((Reachable.start.step hstep).trans hu)⟩

end RunState

/-! ## A chain of two operations -/

section Chain

open RunState

/-- An operation of a graph without gates and aggregations. -/
def plainOperation : Operation := ⟨false, none, none, none, []⟩

/-- Operation 2 depends on operation 1. -/
def chain : OperationGraph ℕ Unit where
  nodes := [1, 2]
  operation n := if n = 1 ∨ n = 2 then some plainOperation else none
  incoming n := if n = 2 then [⟨1, none⟩] else []

/-- Every operation responds with its own number. -/
def echo : Oracle ℕ Unit := ⟨fun _ _ ↦ .ok true, fun n _ ↦ .ok (.int n)⟩

def idle (_ : ℕ) : Initial := ⟨.pending, .none, .dict []⟩

local instance chainLoads : JsonLoads := JsonLoads.never

/-- The run of the chain up to the point where the second operation may be admitted. -/
def chainRun : RunState ℕ ℕ Unit :=
  (start chain idle []).play echo chain 1 [1, 1, 1, 1, 1, 2, 2, 2, 2, 2, 2, 2]

theorem RunState.dependency_safety_chainRun :
    2 ∉ chainRun.executor.invocations ∧
      2 ∈ (chainRun.play echo chain 1 [2]).executor.invocations ∧
      (chainRun.executor.record 1).event = some true := by
  have hfresh : 2 ∉ chainRun.executor.invocations := by decide +kernel
  have hn : 2 ∈ (chainRun.play echo chain 1 [2]).executor.invocations := by decide +kernel
  have hturn : (chainRun.turn echo chain 1 2).isSome = true := by decide +kernel
  obtain ⟨l, hstep, -⟩ := proceeds_play hturn
  have hrun : Reachable (Step echo.world chain 1) (start chain idle []) chainRun :=
    (reachable_play echo chain 1 _ [1, 1, 1, 1, 1, 2, 2, 2, 2, 2, 2, 2]).mono fun _ _ _ h ↦ h.1
  have hsafe := dependency_safety echo.world chain 1 idle [] hrun
  exact ⟨hfresh, hn, (hsafe.2 l _ 2 hstep hfresh hn 1 (by decide)).1⟩

end Chain

end Lionagi.Operations
