import Lionagi.Operations.ExecutorProgress

/-!
# The pause gate and the limiter

A task tests the pause gate and then waits for the capacity limiter, which may admit it at any time as
long as a token is free. The runs of the executor are followed with the admissions set apart, and with
what had happened when the gate was installed.
-/

namespace Lionagi.Operations

open Ln Transition

/-! ## Announcements -/

namespace Executor

variable {U : Type} [DecidableEq U] {e e₁ e₂ : Executor U}

/-- What is announced on the way from one executor to the other is no start. -/
def Unstarted (e e' : Executor U) : Prop :=
  ∃ new, e'.progress = e.progress ++ new ∧ ∀ m, (m, Progress.started) ∉ new

omit [DecidableEq U] in
theorem Unstarted.of_eq (h : e₁.progress = e.progress) : Unstarted e e₁ :=
  ⟨[], by rw [h, List.append_nil], fun _ ↦ List.not_mem_nil⟩

variable {p : Progress}

omit [DecidableEq U] in
theorem unstarted_emitProgress (e : Executor U) (n : U) (hp : p ≠ .started) : Unstarted e (e.emitProgress n p) := by
  refine ⟨[(n, p)], rfl, fun m hm ↦ ?_⟩
  exact hp (congrArg Prod.snd (List.mem_singleton.1 hm)).symm

theorem unstarted_emitTerminalOnce (e : Executor U) (n : U) (hp : p ≠ .started) :
    Unstarted e (e.emitTerminalOnce n p) := by
  unfold emitTerminalOnce
  split
  · exact .of_eq rfl
  · exact unstarted_emitProgress _ n hp

theorem unstarted_emitAbandonedTerminal (e : Executor U) (n : U) (hp : p ≠ .started) (requireStarted : Bool) :
    Unstarted e (e.emitAbandonedTerminal n p requireStarted) := by
  unfold emitAbandonedTerminal
  split
  · exact .of_eq rfl
  · exact e.unstarted_emitTerminalOnce n hp

theorem announceStatus_ne_started {status : EventStatus} (h : announceStatus status = some p) : p ≠ .started := by
  cases status <;> cases h <;> simp

theorem unstarted_preterminal (e : Executor U) (n : U) : Unstarted e (e.preterminal n) := by
  unfold preterminal
  dsimp only
  split
  · exact .of_eq rfl
  · next p hp => exact unstarted_emitTerminalOnce (e.modify n _) n (announceStatus_ne_started hp)

theorem unstarted_fail (e : Executor U) (n : U) (message : String) : Unstarted e (e.fail n message) :=
  unstarted_emitAbandonedTerminal (e.modifyBook n _) n (by simp) true

theorem unstarted_cancel (e : Executor U) (n : U) : Unstarted e (e.cancel n) :=
  unstarted_emitAbandonedTerminal ((e.setEvent n).modify n _) n (by simp) false

variable [ToString U]

theorem unstarted_skip (e : Executor U) (n : U) (reason : Option (GateReason U)) :
    Unstarted e (e.skip n reason) :=
  unstarted_emitTerminalOnce (e.modify n _) n (by simp)

variable [JsonLoads]

theorem unstarted_settle (e : Executor U) (n : U) (op : Operation) : Unstarted e (e.settle n op) := by
  unfold settle
  dsimp only
  split
  · split
    · exact unstarted_emitTerminalOnce (e.modifyBook n _) n (by simp)
    · exact unstarted_emitTerminalOnce (({ e with workspace := _ } : Executor U).modifyBook n _) n (by simp)
    · exact unstarted_emitTerminalOnce (e.modify n _) n (by simp)
  · exact unstarted_emitTerminalOnce (e.modify n _) n (by simp)
  · exact unstarted_emitTerminalOnce e n (by simp)
  · exact .of_eq rfl

theorem unstarted_conclude (e : Executor U) (n : U) (op : Operation) (outcome : Outcome) :
    Unstarted e (e.conclude n op outcome) := by
  unfold conclude
  dsimp only
  split
  · exact unstarted_settle (({ e with borrowed := _ } : Executor U).modify n _) n op
  · exact unstarted_settle (({ e with borrowed := _ } : Executor U).modify n _) n op
  · exact unstarted_cancel (({ e with borrowed := _ } : Executor U).modify n _) n

end Executor

section Moves

variable {U κ : Type} [DecidableEq U] [ToString U] [JsonLoads]
variable {G : OperationGraph U κ} {capacity : ℕ} {n : U} {op : Operation} {e e' : Executor U}
variable {t t' : TaskState U κ} {action : Action}

/-- Only a task that the limiter admits announces a start, and only its own. -/
theorem Moves.started (h : Moves G capacity n op e t action e' t') :
    Executor.Unstarted e e' ∨
      (t = .acquiring ∧ action = .run ∧
        Executor.Unstarted (e.emitProgress n .started) e') := by
  cases h with
  | preterminal => exact .inl (e.unstarted_preterminal n)
  | skipped => exact .inl (e.unstarted_skip n _)
  | invoke => exact .inr ⟨rfl, rfl, .of_eq rfl⟩
  | noInvoke => exact .inr ⟨rfl, rfl, Executor.unstarted_settle (e.begin n _) n op⟩
  | settled => exact .inl (e.unstarted_conclude n op _)
  | stopped => exact .inl (e.unstarted_conclude n op _)
  | cancelled => exact .inl (e.unstarted_cancel n)
  | unreadable | conditionRaised | noEvent | unprepared => exact .inl (e.unstarted_fail n _)
  | _ => exact .inl (.of_eq rfl)

theorem Moves.mem_started (h : Moves G capacity n op e t action e' t') {m : U}
    (hm : (m, Progress.started) ∈ e'.progress) :
    (m, Progress.started) ∈ e.progress ∨ (m = n ∧ t = .acquiring ∧ action = .run) := by
  obtain ⟨new, hnew, hquiet⟩ | ⟨ht, haction, new, hnew, hquiet⟩ := h.started
  · rw [hnew, List.mem_append] at hm
    exact .inl (hm.resolve_right (hquiet m))
  · rw [hnew, List.mem_append] at hm
    have hmem := List.mem_append.1 (hm.resolve_right (hquiet m))
    obtain hold | hself := hmem
    · exact .inl hold
    · exact .inr ⟨congrArg Prod.fst (List.mem_singleton.1 hself), ht, haction⟩

theorem Moves.of_acquiring (h : Moves G capacity n op e .acquiring action e' t') :
    t'.Launched ∧ (action = .run ∨ e' = e.cancel n) := by
  cases h with
  | cancelled => exact ⟨trivial, .inr rfl⟩
  | _ => exact ⟨trivial, .inl rfl⟩

theorem Moves.mem_invocations (h : Moves G capacity n op e t action e' t') {m : U} (hm : m ∈ e'.invocations) :
    m ∈ e.invocations ∨ (m = n ∧ t = .acquiring ∧ action = .run) := by
  obtain hsame | ⟨rfl, -, hnew⟩ := h.invocations
  · exact .inl (hsame ▸ hm)
  · obtain hrun | rfl := h.of_acquiring.2
    · rw [hnew, List.mem_append] at hm
      exact hm.imp_right fun hself ↦ ⟨List.mem_singleton.1 hself, rfl, hrun⟩
    · exact .inl ((e.sameShared_cancel n).invocations ▸ hm)

end Moves

/-! ## Admissions -/

/-- What `pause` finds when it installs a gate: the operations admitted by the limiter so far, and how
much has been announced and invoked. -/
structure PauseMark (U : Type) where
  admitted : List U
  progress : ℕ
  invocations : ℕ

/-- A run of the executor, with the tokens given to tasks that have not gone on yet, all operations
admitted, and the mark of the pause that is in force. -/
structure GatedRun (U κ : Type) where
  run : RunState U U κ
  granted : List U
  admitted : List U
  pause : Option (PauseMark U)

/-- The limiter admits an operation, or the run makes a step. -/
inductive GatedLabel (U : Type) where
  | step (l : Label U)
  | token (n : U)

namespace GatedRun

variable {U κ : Type} [DecidableEq U]

/-- The task is past the gate and the limiter has not admitted it. -/
def awaits (s : GatedRun U κ) (n : U) : Bool :=
  match s.run.task n with
  | some ⟨_, .acquiring⟩ => decide (n ∉ s.granted)
  | _ => false

variable {n : U}

theorem awaits_eq_true_iff {s : GatedRun U κ} :
    s.awaits n = true ↔ (∃ node, s.run.task n = some ⟨node, .acquiring⟩) ∧ n ∉ s.granted := by
  unfold awaits
  split
  · next node htask =>
    rw [decide_eq_true_iff]
    exact ⟨fun h ↦ ⟨⟨node, htask⟩, h⟩, And.right⟩
  · next htask =>
    constructor
    · intro h
      cases h
    · intro h
      obtain ⟨node, hnode⟩ := h.1
      exact absurd hnode (htask node)

/-- A task that awaits its admission does not go on; it may be cancelled. -/
def blocked (s : GatedRun U κ) : Label U → Bool
  | .task n .run => s.awaits n
  | _ => false

/-- A task that goes on uses up its token, or gives it back. -/
def grantedAfter (s : GatedRun U κ) : Label U → List U
  | .task n _ => s.granted.erase n
  | _ => s.granted

def mark (s : GatedRun U κ) : PauseMark U where
  admitted := s.admitted
  progress := s.run.executor.progress.length
  invocations := s.run.executor.invocations.length

/-- A second `pause` finds the gate installed. -/
def pauseAfter (s : GatedRun U κ) : Label U → Option (PauseMark U)
  | .pause => some (s.pause.getD s.mark)
  | .resume => none
  | _ => s.pause

/-- The limiter has a token that is neither in use nor given away. -/
def Available (capacity : ℕ) (s : GatedRun U κ) : Prop :=
  s.run.executor.borrowed + s.granted.length < capacity

instance (capacity : ℕ) (s : GatedRun U κ) : Decidable (s.Available capacity) :=
  inferInstanceAs (Decidable (_ < _))

variable [ToString U] [JsonLoads]

def next (G : OperationGraph U κ) (capacity : ℕ) (s : GatedRun U κ) :
    GatedLabel U → Option (GatedRun U κ)
  | .step l =>
    if s.blocked l then none
    else (s.run.next G capacity l).map fun run ↦
      { s with run, granted := s.grantedAfter l, pause := s.pauseAfter l }
  | .token n =>
    if s.awaits n ∧ s.Available capacity then
      some { s with granted := n :: s.granted, admitted := n :: s.admitted }
    else none

def Permitted (W : World U κ) (s : GatedRun U κ) : GatedLabel U → Prop
  | .step l => s.run.Permitted W l
  | .token _ => True

def Step (W : World U κ) (G : OperationGraph U κ) (capacity : ℕ) (s : GatedRun U κ) (l : GatedLabel U)
    (t : GatedRun U κ) : Prop :=
  s.next G capacity l = some t ∧ s.Permitted W l

/-- The start of a run, before any pause. -/
def start (G : OperationGraph U κ) (initial : U → Initial) (workspace : Entries) : GatedRun U κ where
  run := Operations.start G initial workspace
  granted := []
  admitted := []
  pause := none

/-- Since the pause in force was called, no operation that had not been admitted then has been announced
as started or invoked. -/
def Held (s : GatedRun U κ) : Prop :=
  ∀ mark, s.pause = some mark → ∀ n, n ∉ mark.admitted →
    (n, Progress.started) ∉ s.run.executor.progress.drop mark.progress ∧
      n ∉ s.run.executor.invocations.drop mark.invocations

/-- The limiter admits nothing while a gate is installed. -/
def KeptShut (s : GatedRun U κ) : GatedLabel U → Prop
  | .token _ => s.run.executor.pauseEvent = none
  | .step _ => True

instance (s : GatedRun U κ) : (l : GatedLabel U) → Decidable (s.KeptShut l)
  | .token _ => inferInstanceAs (Decidable (_ = none))
  | .step _ => isTrue trivial

/-- A step of a run in which the limiter admits nothing while a gate is installed. -/
def ShutStep (W : World U κ) (G : OperationGraph U κ) (capacity : ℕ) (s : GatedRun U κ)
    (l : GatedLabel U) (t : GatedRun U κ) : Prop :=
  Step W G capacity s l t ∧ s.KeptShut l

/-! ## Steps -/

variable {W : World U κ} {G : OperationGraph U κ} {capacity : ℕ} {s t : GatedRun U κ}
variable {initial : U → Initial} {workspace : Entries}

/-- The task of `n` is admitted; everything but the limiter stays. -/
structure Admits (capacity : ℕ) (s : GatedRun U κ) (n : U) (t : GatedRun U κ) : Prop where
  awaits : s.awaits n = true
  available : s.Available capacity
  run : t.run = s.run
  granted : t.granted = n :: s.granted
  admitted : t.admitted = n :: s.admitted
  pause : t.pause = s.pause

/-- The executor makes a step, which is not that of a task awaiting its admission. -/
structure Runs (W : World U κ) (G : OperationGraph U κ) (capacity : ℕ) (s : GatedRun U κ) (l : Label U)
    (t : GatedRun U κ) : Prop where
  step : RunState.Step W G capacity s.run l t.run
  blocked : s.blocked l = false
  granted : t.granted = s.grantedAfter l
  admitted : t.admitted = s.admitted
  pause : t.pause = s.pauseAfter l

theorem step_cases {l : GatedLabel U} (h : Step W G capacity s l t) :
    (∃ n, l = .token n ∧ Admits capacity s n t) ∨ ∃ l', l = .step l' ∧ Runs W G capacity s l' t := by
  obtain ⟨hnext, hpermits⟩ := h
  cases l with
  | token n =>
    rw [next] at hnext
    split at hnext
    · next htoken =>
      cases hnext
      exact .inl ⟨n, rfl, htoken.1, htoken.2, rfl, rfl, rfl, rfl⟩
    · cases hnext
  | step l =>
    rw [next] at hnext
    split at hnext
    · cases hnext
    · next hblocked =>
      obtain ⟨run, hrun, rfl⟩ := Option.map_eq_some_iff.1 hnext
      exact .inr ⟨l, rfl, ⟨hrun, hpermits⟩, Bool.eq_false_iff.2 hblocked, rfl, rfl, rfl⟩

variable {l : Label U}

/-- The gate of the executor after a step. -/
theorem isSome_pauseEvent_step {s t : RunState U U κ} (h : RunState.Step W G capacity s l t) :
    t.executor.pauseEvent.isSome =
      match l with
      | .pause => true
      | .resume => false
      | _ => s.executor.pauseEvent.isSome := by
  cases l with
  | task key action =>
    obtain ⟨n, op, t, e', t', htask, rfl⟩ := RunState.taskStep_of_step h
    exact congrArg Option.isSome htask.moves.pauseEvent
  | pause =>
    have hnext := h.1
    simp only [RunState.next] at hnext
    split at hnext
    · next hgate =>
      cases hnext
      exact congrArg Option.isSome hgate
    · cases hnext
      rfl
  | resume =>
    cases h.1
    rfl
  | cancel =>
    cases h.1
    rfl

/-! ## Accounts -/

/-- Only operations that the limiter has admitted hold tokens, are announced as started or are invoked,
and each of them holds its token until it goes on. -/
structure Accounted (s : GatedRun U κ) : Prop where
  own : ∀ k t, s.run.task k = some t → t.node = k
  gate : s.run.executor.pauseEvent.isSome = s.pause.isSome
  nodup : s.granted.Nodup
  granted : ∀ n ∈ s.granted, n ∈ s.admitted ∧ s.run.task n = some ⟨n, .acquiring⟩
  started : ∀ n, (n, Progress.started) ∈ s.run.executor.progress → n ∈ s.admitted
  invoked : ∀ n ∈ s.run.executor.invocations, n ∈ s.admitted
  passed : ∀ n ∈ s.admitted, n ∈ s.granted ∨ ∃ t, s.run.task n = some ⟨n, t⟩ ∧ t.Launched

omit [DecidableEq U] [ToString U] [JsonLoads] in
theorem accounted_start (G : OperationGraph U κ) (initial : U → Initial) (workspace : Entries) :
    (start G initial workspace).Accounted where
  own := (RunState.safe_start initial workspace).own
  gate := rfl
  nodup := List.nodup_nil
  granted := fun n hn ↦ absurd hn List.not_mem_nil
  started := by
    intro n hn
    obtain ⟨m, -, hm⟩ := List.mem_map.1 hn
    cases hm
  invoked := fun n hn ↦ absurd hn List.not_mem_nil
  passed := fun n hn ↦ absurd hn List.not_mem_nil

omit [ToString U] [JsonLoads] in
theorem Accounted.admits (h : s.Accounted) (hadmits : Admits capacity s n t) : t.Accounted := by
  obtain ⟨⟨node, hnode⟩, hfresh⟩ := awaits_eq_true_iff.1 hadmits.awaits
  obtain rfl : node = n := h.own n _ hnode
  constructor
  case own => exact hadmits.run ▸ h.own
  case gate =>
    rw [hadmits.run, hadmits.pause]
    exact h.gate
  case nodup =>
    rw [hadmits.granted]
    exact List.nodup_cons.2 ⟨hfresh, h.nodup⟩
  case granted =>
    intro m hm
    rw [hadmits.admitted, hadmits.run]
    rw [hadmits.granted] at hm
    obtain rfl | hm := List.mem_cons.1 hm
    · exact ⟨List.mem_cons_self, hnode⟩
    · exact ⟨List.mem_cons_of_mem _ (h.granted m hm).1, (h.granted m hm).2⟩
  case started =>
    intro m hm
    rw [hadmits.run] at hm
    rw [hadmits.admitted]
    exact List.mem_cons_of_mem _ (h.started m hm)
  case invoked =>
    intro m hm
    rw [hadmits.run] at hm
    rw [hadmits.admitted]
    exact List.mem_cons_of_mem _ (h.invoked m hm)
  case passed =>
    intro m hm
    rw [hadmits.admitted] at hm
    rw [hadmits.granted, hadmits.run]
    obtain rfl | hm := List.mem_cons.1 hm
    · exact .inl List.mem_cons_self
    · exact (h.passed m hm).imp_left (List.mem_cons_of_mem _)

/-- A task that goes on from the limiter has been admitted. -/
theorem Runs.mem_granted {action : Action} {node : U} (h : Runs W G capacity s (.task n action) t)
    (htask : s.run.task n = some ⟨node, .acquiring⟩) (haction : action = .run) : n ∈ s.granted := by
  subst haction
  by_contra hfresh
  have hawaits := awaits_eq_true_iff.2 ⟨⟨node, htask⟩, hfresh⟩
  exact Bool.false_ne_true (h.blocked.symm.trans hawaits)

theorem Runs.gate (h : Runs W G capacity s l t) (hs : s.Accounted) :
    t.run.executor.pauseEvent.isSome = t.pause.isSome := by
  rw [isSome_pauseEvent_step h.step, h.pause]
  cases l with
  | task key action => exact hs.gate
  | pause => rfl
  | resume => rfl
  | cancel => exact hs.gate

theorem Accounted.runs_task (h : s.Accounted) {action : Action} (hruns : Runs W G capacity s (.task n action) t) :
    t.Accounted := by
  obtain ⟨node, op, q, e', q', htask, hmoved⟩ := RunState.taskStep_of_step hruns.step
  obtain rfl : node = n := h.own n _ htask.task
  have hadmitted : q = .acquiring → action = .run → node ∈ s.admitted := by
    rintro rfl haction
    exact (h.granted node (hruns.mem_granted htask.task haction)).1
  have hself : t.run.task node = some ⟨node, q'⟩ := by rw [hmoved, RunState.task_moved_self]
  have hother : ∀ m, m ≠ node → t.run.task m = s.run.task m := by
    intro m hm
    rw [hmoved, RunState.task_moved_of_ne _ hm]
  have hexecutor : t.run.executor = e' := congrArg RunState.executor hmoved
  constructor
  case own =>
    intro k u hu
    by_cases hk : k = node
    · subst hk
      obtain rfl := Option.some.inj (hself.symm.trans hu)
      rfl
    · exact h.own k u ((hother k hk).symm.trans hu)
  case gate => exact hruns.gate h
  case nodup =>
    rw [hruns.granted]
    exact h.nodup.erase node
  case granted =>
    intro m hm
    rw [hruns.granted] at hm
    obtain ⟨hne, hm⟩ := (List.Nodup.mem_erase_iff h.nodup).1 hm
    rw [hruns.admitted, hother m hne]
    exact h.granted m hm
  case started =>
    intro m hm
    rw [hexecutor] at hm
    rw [hruns.admitted]
    obtain hold | ⟨rfl, hq, haction⟩ := htask.moves.mem_started hm
    · exact h.started m hold
    · exact hadmitted hq haction
  case invoked =>
    intro m hm
    rw [hexecutor] at hm
    rw [hruns.admitted]
    obtain hold | ⟨rfl, hq, haction⟩ := htask.moves.mem_invocations hm
    · exact h.invoked m hold
    · exact hadmitted hq haction
  case passed =>
    intro m hm
    rw [hruns.admitted] at hm
    rw [hruns.granted]
    by_cases hne : m = node
    · subst hne
      right
      refine ⟨q', hself, ?_⟩
      obtain hgranted | ⟨u, hu, hlaunched⟩ := h.passed m hm
      · obtain rfl : q = .acquiring :=
          congrArg Task.state (Option.some.inj (htask.task.symm.trans (h.granted m hgranted).2))
        exact htask.moves.of_acquiring.1
      · obtain rfl : q = u := congrArg Task.state (Option.some.inj (htask.task.symm.trans hu))
        exact htask.moves.launched hlaunched
    · rw [hother m hne]
      exact (h.passed m hm).imp_left (List.mem_erase_of_ne hne).2

theorem Accounted.runs_control (h : s.Accounted) (hruns : Runs W G capacity s l t) (hl : s.grantedAfter l = s.granted)
    (hcontrol : RunState.ControlStep s.run l t.run) : t.Accounted := by
  have hgranted : t.granted = s.granted := hruns.granted.trans hl
  constructor
  case own => exact hcontrol.task ▸ h.own
  case gate => exact hruns.gate h
  case nodup => exact hgranted ▸ h.nodup
  case granted =>
    rw [hgranted, hruns.admitted, hcontrol.task]
    exact h.granted
  case started =>
    rw [hruns.admitted, hcontrol.progress]
    exact h.started
  case invoked =>
    rw [hruns.admitted, hcontrol.invocations]
    exact h.invoked
  case passed =>
    rw [hgranted, hruns.admitted, hcontrol.task]
    exact h.passed

theorem Accounted.runs (h : s.Accounted) (hruns : Runs W G capacity s l t) : t.Accounted := by
  obtain ⟨n, node, op, q, action, e', q', rfl, -, -⟩ | hcontrol := RunState.step_cases hruns.step
  · exact h.runs_task hruns
  · cases l with
    | task n action => exact h.runs_task hruns
    | pause => exact h.runs_control hruns rfl hcontrol
    | resume => exact h.runs_control hruns rfl hcontrol
    | cancel => exact h.runs_control hruns rfl hcontrol

theorem Accounted.step (h : s.Accounted) {l : GatedLabel U} (hstep : Step W G capacity s l t) :
    t.Accounted := by
  obtain ⟨n, -, hadmits⟩ | ⟨l, -, hruns⟩ := step_cases hstep
  · exact h.admits hadmits
  · exact h.runs hruns

/-! ## The gate holds -/

/-- Nothing has been admitted since the pause in force was called. -/
def Unadmitted (s : GatedRun U κ) : Prop := ∀ mark, s.pause = some mark → s.admitted = mark.admitted

omit [DecidableEq U] [ToString U] [JsonLoads] in
theorem Accounted.held (h : s.Accounted) (hshut : s.Unadmitted) : s.Held := by
  intro mark hmark n hn
  rw [← hshut mark hmark] at hn
  exact ⟨fun hstarted ↦ hn (h.started n (List.mem_of_mem_drop hstarted)),
    fun hinvoked ↦ hn (h.invoked n (List.mem_of_mem_drop hinvoked))⟩

omit [ToString U] [JsonLoads] in
theorem Unadmitted.admits (hs : s.Accounted) (hadmits : Admits capacity s n t)
    (hshut : s.run.executor.pauseEvent = none) : t.Unadmitted := by
  intro mark hmark
  have hpause : s.pause.isSome = true := by
    rw [← hadmits.pause, hmark]
    rfl
  rw [← hs.gate, hshut] at hpause
  cases hpause

theorem Unadmitted.runs (h : s.Unadmitted) (hruns : Runs W G capacity s l t) : t.Unadmitted := by
  intro mark hmark
  rw [hruns.pause] at hmark
  rw [hruns.admitted]
  cases l with
  | pause =>
    obtain rfl : s.pause.getD s.mark = mark := Option.some.inj hmark
    cases hpause : s.pause with
    | none => rfl
    | some mark => exact h mark hpause
  | resume => cases hmark
  | task n action => exact h mark hmark
  | cancel => exact h mark hmark

end GatedRun

/-! ## Two operations and one token -/

section Pair

open GatedRun

local instance pairLoads : JsonLoads := JsonLoads.never

/-- Two operations that do not depend on each other. -/
def pair : OperationGraph ℕ Unit where
  nodes := [1, 2]
  operation n := if n = 1 ∨ n = 2 then some plainOperation else none
  incoming _ := []

/-- Both tasks pass the gate, the first one is admitted, and the run is paused. -/
def pairPaused : List (GatedLabel ℕ) :=
  List.replicate 3 (.step (.task 1 .run)) ++ [.token 1, .step (.task 1 .run)] ++
    List.replicate 3 (.step (.task 2 .run)) ++ [.step .pause]

/-- The first operation completes, and the second one is admitted and goes on. -/
def pairOverrun : List (GatedLabel ℕ) :=
  pairPaused ++ [.step (.task 1 (.returned (.completed (.int 1)))), .token 2, .step (.task 2 .run)]

/-- The run is paused before the second task comes to the gate, and the first operation completes. -/
def pairHeld : List (GatedLabel ℕ) :=
  List.replicate 3 (.step (.task 1 .run)) ++ [.token 1, .step (.task 1 .run), .step .pause] ++
    List.replicate 3 (.step (.task 2 .run)) ++ [.step (.task 1 (.returned (.completed (.int 1))))]

def played (labels : List (GatedLabel ℕ)) : GatedRun ℕ Unit :=
  (replay (next pair 1) (GatedRun.start pair idle []) labels).getD (GatedRun.start pair idle [])

/-- Operations may end in any way. -/
def anyOutcome : World ℕ Unit where
  condition _ _ _ _ := True
  invoke _ _ _ := True

/-- A label that answers no edge condition is permitted. -/
theorem permitted_anyOutcome {s : GatedRun ℕ Unit} {l : GatedLabel ℕ}
    (h : ∀ n outcome, l ≠ .step (.task n (.condition outcome))) : s.Permitted anyOutcome l := by
  cases l with
  | token n => trivial
  | step l =>
    cases l with
    | task n action =>
      intro task _
      cases action with
      | condition outcome => exact absurd rfl (h n outcome)
      | run => cases task.state <;> trivial
      | returned outcome => cases task.state <;> trivial
      | cancel => cases task.state <;> trivial
    | pause => trivial
    | resume => trivial
    | cancel => trivial

theorem overrun_reachable :
    Reachable (Step anyOutcome pair 1) (GatedRun.start pair idle []) (played pairOverrun) := by
  have hreplay : replay (next pair 1) (GatedRun.start pair idle []) pairOverrun =
      some (played pairOverrun) := rfl
  refine reachable_of_replay (fun s l t hl hnext ↦ ⟨hnext, permitted_anyOutcome ?_⟩) .start hreplay
  rintro n outcome rfl
  simp [pairOverrun, pairPaused] at hl

/-- The steps of the pair with nothing admitted while a gate is installed. -/
def shutNext (s : GatedRun ℕ Unit) (l : GatedLabel ℕ) : Option (GatedRun ℕ Unit) :=
  if s.KeptShut l then s.next pair 1 l else none

theorem held_reachable :
    Reachable (ShutStep anyOutcome pair 1) (GatedRun.start pair idle []) (played pairHeld) := by
  have hreplay : replay shutNext (GatedRun.start pair idle []) pairHeld = some (played pairHeld) := rfl
  refine reachable_of_replay (fun s l t hl hnext ↦ ?_) .start hreplay
  unfold shutNext at hnext
  split at hnext
  · next hshut =>
    refine ⟨⟨hnext, permitted_anyOutcome ?_⟩, hshut⟩
    rintro n outcome rfl
    simp [pairHeld] at hl
  · cases hnext

end Pair

end Lionagi.Operations
