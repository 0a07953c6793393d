import Mathlib.Algebra.Order.BigOperators.Group.List
import Mathlib.Algebra.Order.Group.Nat
import Mathlib.Order.WellFounded
import Mathlib.Tactic.Linarith
import Mathlib.Tactic.Ring
import Lionagi.Operations.ExecutorOutcome

/-!
# Runs come to their end

As long as nobody holds the pause gate, every move brings a task closer to its end. When no circle of
edges and aggregation sources makes operations wait for one another, and the limiter admits at least
one of them, some task can always move: every run can be continued until `execute` returns.
-/

namespace Lionagi.Operations

open Ln Transition Executor

/-- `n` waits for `m`, along an edge or as an aggregation. -/
def OperationGraph.Waits {U κ : Type} [ToString U] (G : OperationGraph U κ) (m n : U) : Prop :=
  m ∈ G.predecessors n ∨
    ∃ op, G.operation n = some op ∧ ∃ source ∈ op.aggregationSources, G.resolve source = some m

namespace TaskState

variable {U κ : Type}

/-- How many moves a task has left at most. -/
def weight (G : OperationGraph U κ) (n : U) (op : Operation) : TaskState U κ → ℕ
  | created => 2 * (G.incoming n).length + op.aggregationSources.length + (G.predecessors n).length + 6
  | scanning rest _ _ =>
    2 * rest.length + op.aggregationSources.length + (G.predecessors n).length + 5
  | checking _ _ rest _ =>
    2 * rest.length + op.aggregationSources.length + (G.predecessors n).length + 6
  | aggregating rest => rest.length + (G.predecessors n).length + 4
  | waiting rest => rest.length + 3
  | paused _ => 4
  | acquiring => 2
  | invoking _ => 1
  | finished _ => 0

/-- A task only looks at what its operation depends on. -/
def Scoped (G : OperationGraph U κ) (n : U) (op : Operation) : TaskState U κ → Prop
  | scanning rest _ _ => rest ⊆ G.incoming n
  | checking _ _ rest _ => rest ⊆ G.incoming n
  | aggregating rest => rest ⊆ op.aggregationSources
  | waiting rest => rest ⊆ G.predecessors n
  | _ => True

def IsInvoking : TaskState U κ → Prop
  | invoking _ => True
  | _ => False

end TaskState

section Moves

variable {U κ : Type} [DecidableEq U] [ToString U] [JsonLoads]
variable {G : OperationGraph U κ} {capacity : ℕ} {n : U} {op : Operation} {e e' : Executor U}
variable {t t' : TaskState U κ} {action : Action}

/-- With no pause installed, every move counts. -/
theorem Moves.weight_lt (h : Moves G capacity n op e t action e' t') (hpause : e.pauseEvent = none) :
    t'.weight G n op < t.weight G n op := by
  cases h with
  | hold hgate => simp [hpause] at hgate
  | cancelled hcreated hinvoking hfinished =>
    cases t with
    | finished exit => exact absurd rfl (hfinished exit)
    | _ => simp [TaskState.weight]
  | _ => simp [TaskState.weight] <;> omega

theorem Moves.pauseEvent (h : Moves G capacity n op e t action e' t') :
    e'.pauseEvent = e.pauseEvent := by
  cases h with
  | preterminal => exact (e.sameShared_preterminal n).pauseEvent
  | skipped => exact (e.sameShared_skip n _).pauseEvent
  | noInvoke => exact (Executor.sharedSettle _ n op).2.1
  | settled => exact (e.shared_conclude n op _).2.1
  | stopped => exact (e.shared_conclude n op _).2.1
  | cancelled => exact (e.sameShared_cancel n).pauseEvent
  | unreadable | conditionRaised | noEvent | unprepared => exact (e.sameShared_fail n _).pauseEvent
  | _ => rfl

theorem Moves.inScope (h : Moves G capacity n op e t action e' t') (ht : t.Scoped G n op) :
    t'.Scoped G n op := by
  cases h with
  | source => exact List.Subset.refl _
  | scan => exact List.Subset.refl _
  | admitted => exact List.Subset.refl _
  | depend => exact List.Subset.refl _
  | hold => trivial
  | pass => trivial
  | released => exact List.nil_subset _
  | vetoed | passed | ask | aggregated | waited => exact fun x hx ↦ ht (List.mem_cons_of_mem _ hx)
  | answered => exact ht
  | _ => trivial

/-- A token of the limiter is held exactly while the body runs. -/
theorem Moves.borrowed (h : Moves G capacity n op e t action e' t') :
    (e'.borrowed = e.borrowed ∧ ¬ t.IsInvoking ∧ ¬ t'.IsInvoking) ∨
      (e'.borrowed = e.borrowed + 1 ∧ ¬ t.IsInvoking ∧ t'.IsInvoking) ∨
      (e'.borrowed = e.borrowed - 1 ∧ t.IsInvoking ∧ ¬ t'.IsInvoking) := by
  cases h with
  | preterminal => exact .inl ⟨(e.sameShared_preterminal n).borrowed, id, id⟩
  | skipped => exact .inl ⟨(e.sameShared_skip n _).borrowed, id, id⟩
  | noInvoke => exact .inl ⟨(Executor.sharedSettle _ n op).1, id, id⟩
  | invoke => exact .inr (.inl ⟨rfl, id, trivial⟩)
  | settled => exact .inr (.inr ⟨(e.shared_conclude n op _).1, trivial, id⟩)
  | stopped => exact .inr (.inr ⟨(e.shared_conclude n op _).1, trivial, id⟩)
  | cancelled hcreated hinvoking =>
    refine .inl ⟨(e.sameShared_cancel n).borrowed, ?_, id⟩
    cases t with
    | invoking prepared => exact absurd rfl (hinvoking prepared)
    | _ => exact id
  | unreadable | conditionRaised | noEvent | unprepared =>
    exact .inl ⟨(e.sameShared_fail n _).borrowed, id, id⟩
  | _ => exact .inl ⟨rfl, id, id⟩

/-- A task that waits for nothing can go on. -/
theorem advance_isSome (O : Oracle U κ) (hop : G.operation n = some op) (hscoped : t.Scoped G n op)
    (hwaits : ∀ m, G.Waits m n → (e.record m).event ≠ some false) (hpause : e.pauseEvent = none)
    (hcap : t = .acquiring → e.borrowed < capacity) (hopen : ∀ exit, t ≠ .finished exit) :
    ∃ out, advance G capacity n op e t (O.action n t) = some out := by
  cases t with
  | created => exact ⟨_, rfl⟩
  | scanning rest valid reason =>
    cases rest with
    | nil => exact ⟨_, rfl⟩
    | cons edge rest =>
      have hmem : edge.head ∈ G.predecessors n :=
        List.mem_map_of_mem (hscoped List.mem_cons_self)
      simp [advance, Oracle.action, hwaits _ (.inl hmem)]
  | checking edge value rest reason =>
    cases hask : O.ask edge value <;> simp [advance, Oracle.action, hask]
  | aggregating rest =>
    cases rest with
    | nil => exact ⟨_, rfl⟩
    | cons source rest =>
      cases hsource : G.resolve source with
      | none => simp [advance, Oracle.action, hsource]
      | some m =>
        have hm : G.Waits m n := .inr ⟨op, hop, source, hscoped List.mem_cons_self, hsource⟩
        simp [advance, Oracle.action, hsource, hwaits m hm]
  | waiting rest =>
    cases rest with
    | nil => simp [advance, Oracle.action, hpause]
    | cons pred rest =>
      have hpred := hwaits pred (.inl (hscoped List.mem_cons_self))
      simp only [advance, Oracle.action]
      split
      · exact ⟨_, rfl⟩
      · next hevent => exact absurd hevent hpred
      · exact ⟨_, rfl⟩
  | paused gate => simp [advance, Oracle.action, hpause]
  | acquiring => simp [advance, Oracle.action, hcap rfl]
  | invoking prepared =>
    cases houtcome : O.outcome n prepared <;> simp [advance, Oracle.action, houtcome]
  | finished exit => exact absurd rfl (hopen exit)

/-- The limiter hands out no more tokens than it has. -/
theorem Moves.borrowed_le (h : Moves G capacity n op e t action e' t') (hle : e.borrowed ≤ capacity) :
    e'.borrowed ≤ capacity := by
  rcases h.borrowed with ⟨heq, -⟩ | ⟨-, -, hinvoking⟩ | ⟨heq, -⟩
  · exact heq ▸ hle
  · cases h with
    | invoke hcap => exact hcap
    | _ => exact hinvoking.elim
  · omega

end Moves

/-! ## Runs -/

namespace RunState

variable {U κ : Type} [DecidableEq U] [ToString U] [JsonLoads]
variable {O : Oracle U κ} {G : OperationGraph U κ} {capacity : ℕ}
variable {initial : U → Initial} {workspace : Entries}

/-- What a task still has to do. -/
def load (G : OperationGraph U κ) (s : RunState U U κ) (n : U) : ℕ :=
  match s.task n, G.operation n with
  | some t, some op => t.state.weight G n op
  | _, _ => 0

/-- Tasks stay within the graph, and the tokens of the limiter are with the bodies that run. -/
structure Orderly (G : OperationGraph U κ) (s : RunState U U κ) : Prop where
  inScope : ∀ n op t, G.operation n = some op → s.task n = some ⟨n, t⟩ → t.Scoped G n op
  tokens : ∃ holders : List U, holders.Nodup ∧ holders.length = s.executor.borrowed ∧
    ∀ m, m ∈ holders ↔ ∃ t, s.task m = some ⟨m, t⟩ ∧ t.IsInvoking

omit [DecidableEq U] [ToString U] [JsonLoads] in
theorem orderly_start : Orderly G (start G initial workspace) where
  inScope := by
    intro n op t hop ht
    simp only [start, hop, Option.isSome_some, if_true, Option.some.injEq, Task.mk.injEq,
      true_and] at ht
    subst ht
    trivial
  tokens := by
    refine ⟨[], List.nodup_nil, rfl, fun m ↦ ⟨fun hm ↦ absurd hm List.not_mem_nil, ?_⟩⟩
    rintro ⟨t, ht, hinvoking⟩
    simp only [start] at ht
    split at ht <;> cases ht
    exact absurd hinvoking id

variable {s s' : RunState U U κ} {n : U}

omit [ToString U] [JsonLoads] in
/-- A task that starts or stops running its body enters or leaves the holders. -/
theorem isInvoking_moved {m : U} (hmn : m ≠ n) (action : Action) (e' : Executor U) (t' : TaskState U κ) :
    (∃ t, (s.moved n n action e' t').task m = some ⟨m, t⟩ ∧ t.IsInvoking) ↔
      ∃ t, s.task m = some ⟨m, t⟩ ∧ t.IsInvoking := by
  rw [task_moved_of_ne s hmn]

omit [ToString U] [JsonLoads] in
theorem isInvoking_moved_self (n : U) (action : Action) (e' : Executor U) (t' : TaskState U κ) :
    (∃ t, (s.moved n n action e' t').task n = some ⟨n, t⟩ ∧ t.IsInvoking) ↔ t'.IsInvoking := by
  rw [task_moved_self]
  constructor
  · rintro ⟨t, ht, hinvoking⟩
    cases ht
    exact hinvoking
  · exact fun h ↦ ⟨t', rfl, h⟩

variable {op : Operation} {t : TaskState U κ}

theorem Orderly.moved (h : Orderly G s) {t' : TaskState U κ} {action : Action} {e' : Executor U}
    (hop : G.operation n = some op) (ht : s.task n = some ⟨n, t⟩)
    (hmove : Moves G capacity n op s.executor t action e' t') :
    Orderly G (s.moved n n action e' t') where
  inScope := by
    intro m opm tm hopm htm
    by_cases hmn : m = n
    · subst hmn
      rw [task_moved_self, Option.some.injEq, Task.mk.injEq] at htm
      obtain ⟨-, rfl⟩ := htm
      rw [hop, Option.some.injEq] at hopm
      subst hopm
      exact hmove.inScope (h.inScope m op t hop ht)
    · rw [task_moved_of_ne s hmn] at htm
      exact h.inScope m opm tm hopm htm
  tokens := by
    obtain ⟨holders, hnodup, hlength, hmem⟩ := h.tokens
    have hself : n ∈ holders ↔ t.IsInvoking := by
      rw [hmem, ht]
      constructor
      · rintro ⟨t₀, ht₀, hinvoking⟩
        cases ht₀
        exact hinvoking
      · exact fun hinvoking ↦ ⟨t, rfl, hinvoking⟩
    obtain ⟨hborrowed, hbefore, hafter⟩ | ⟨hborrowed, hbefore, hafter⟩ |
      ⟨hborrowed, hbefore, hafter⟩ := hmove.borrowed
    · refine ⟨holders, hnodup, hlength.trans hborrowed.symm, fun m ↦ ?_⟩
      by_cases hmn : m = n
      · subst hmn
        rw [isInvoking_moved_self, hself]
        exact ⟨fun hin ↦ absurd hin hbefore, fun hin ↦ absurd hin hafter⟩
      · rw [isInvoking_moved hmn, hmem]
    · have hfresh : n ∉ holders := fun hin ↦ hbefore (hself.1 hin)
      refine ⟨n :: holders, List.nodup_cons.2 ⟨hfresh, hnodup⟩, ?_, fun m ↦ ?_⟩
      · exact (congrArg (· + 1) hlength).trans hborrowed.symm
      · by_cases hmn : m = n
        · subst hmn
          rw [isInvoking_moved_self]
          exact ⟨fun _ ↦ hafter, fun _ ↦ List.mem_cons_self⟩
        · rw [isInvoking_moved hmn, ← hmem, List.mem_cons]
          exact ⟨fun hin ↦ hin.resolve_left hmn, .inr⟩
    · refine ⟨holders.erase n, hnodup.erase n, ?_, fun m ↦ ?_⟩
      · rw [List.length_erase_of_mem (hself.2 hbefore), hlength]
        exact hborrowed.symm
      · rw [hnodup.mem_erase_iff]
        by_cases hmn : m = n
        · subst hmn
          rw [isInvoking_moved_self]
          exact ⟨fun hin ↦ absurd rfl hin.1, fun hin ↦ absurd hin hafter⟩
        · rw [isInvoking_moved hmn, ← hmem]
          exact ⟨fun hin ↦ hin.2, fun hin ↦ ⟨hmn, hin⟩⟩

omit [DecidableEq U] [ToString U] [JsonLoads] in
theorem Orderly.control {l : Label U} (h : Orderly G s) (hstep : ControlStep s l s') : Orderly G s' where
  inScope := by
    rw [hstep.task]
    exact h.inScope
  tokens := by
    rw [hstep.task, hstep.borrowed]
    exact h.tokens

theorem Orderly.step {W : World U κ} {l : Label U} (hsafe : Safe G s) (h : Orderly G s)
    (hstep : Step W G capacity s l s') : Orderly G s' := by
  obtain ⟨key, n, op, t, action, e', t', -, htask, rfl⟩ | hcontrol := step_cases hstep
  · obtain rfl : n = key := hsafe.own key _ htask.task
    exact h.moved htask.operation htask.task htask.moves
  · exact h.control hcontrol

theorem orderly_of_reachable {W : World U κ} (hs : Reachable (Step W G capacity) (start G initial workspace) s) :
    Orderly G s := by
  refine (hs.invariant (I := fun u ↦ Safe G u ∧ Orderly G u)
    ⟨safe_start initial workspace, orderly_start⟩ ?_).2
  rintro u l v ⟨hsafe, hu⟩ hstep
  exact ⟨hsafe.step hstep, hu.step hsafe hstep⟩

/-- Some task can go on in a state that is not complete. -/
theorem exists_turn (hcapacity : 1 ≤ capacity) (hwaits : WellFounded G.Waits) (h : Foretold O G initial workspace s)
    (horderly : Orderly G s) (hpause : s.executor.pauseEvent = none) (hopen : ¬ s.Complete) :
    ∃ n t op out, s.task n = some ⟨n, t⟩ ∧ G.operation n = some op ∧
      advance G capacity n op s.executor t (O.action n t) = some out := by
  obtain ⟨n, ⟨t, ht, hunfinished⟩, hmin⟩ := hwaits.has_min
    { n | ∃ t, s.task n = some ⟨n, t⟩ ∧ ∀ exit, t ≠ .finished exit } (by
      simp only [Complete, not_forall] at hopen
      obtain ⟨key, ⟨node, t⟩, ht, hexit⟩ := hopen
      obtain rfl : node = key := h.safe.own key _ ht
      exact ⟨node, t, ht, fun exit hfinished ↦ hexit ⟨exit, hfinished⟩⟩)
  obtain ⟨op, hop⟩ := h.safe.known n _ ht
  have hset : ∀ m, G.Waits m n → (s.executor.record m).event ≠ some false := by
    intro m hm hevent
    have hopm : G.operation m ≠ none := by
      intro hnone
      simp [h.operation_of_event.2 hnone] at hevent
    obtain ⟨opm, hopm⟩ := Option.ne_none_iff_exists'.1 hopm
    obtain ⟨tm, htm, hexpects, -⟩ := h.task m opm hopm
    refine hmin m ⟨tm, htm, ?_⟩ hm
    rintro exit rfl
    simp [show (s.executor.record m).event = some true from hexpects] at hevent
  by_cases hfull : s.executor.borrowed < capacity
  · obtain ⟨out, hout⟩ := advance_isSome O hop (horderly.inScope n op t hop ht) hset hpause
      (fun _ ↦ hfull) hunfinished
    exact ⟨n, t, op, out, ht, hop, hout⟩
  · obtain ⟨holders, -, hlength, hmem⟩ := horderly.tokens
    obtain ⟨m, hm⟩ : ∃ m, m ∈ holders := List.exists_mem_of_length_pos (by omega)
    obtain ⟨tm, htm, hinvoking⟩ := (hmem m).1 hm
    obtain ⟨opm, hopm⟩ := h.safe.known m _ htm
    cases tm with
    | invoking prepared =>
      obtain ⟨out, hout⟩ : ∃ out, advance G capacity m opm s.executor (.invoking prepared)
          (O.action m (.invoking prepared)) = some out := by
        cases houtcome : O.outcome m prepared <;> simp [advance, Oracle.action, houtcome]
      exact ⟨m, _, opm, out, htm, hopm, hout⟩
    | _ => exact absurd hinvoking id

/-- What all tasks together still have to do. -/
def work (G : OperationGraph U κ) (s : RunState U U κ) : ℕ := (G.nodes.map (s.load G)).sum

theorem work_lt {t' : TaskState U κ} {action : Action} {e' : Executor U} (hnode : n ∈ G.nodes)
    (hop : G.operation n = some op) (ht : s.task n = some ⟨n, t⟩)
    (hmove : Moves G capacity n op s.executor t action e' t') (hpause : s.executor.pauseEvent = none) :
    (s.moved n n action e' t').work G < s.work G := by
  have hlt : (s.moved n n action e' t').load G n < s.load G n := by
    simp only [load, task_moved_self, hop, ht]
    exact hmove.weight_lt hpause
  have hle : ∀ m ∈ G.nodes, (s.moved n n action e' t').load G m ≤ s.load G m := by
    intro m _
    by_cases hmn : m = n
    · subst hmn
      exact hlt.le
    · simp only [load, task_moved_of_ne s hmn]
      exact le_refl _
  exact List.sum_lt_sum _ _ hle ⟨n, hnode, hlt⟩

/-- A scheduled task that can go on makes a step of the run. -/
theorem taskStep_of_advance {out : Executor U × TaskState U κ} (ht : s.task n = some ⟨n, t⟩)
    (hop : G.operation n = some op) (hadvance : advance G capacity n op s.executor t (O.action n t) = some out) :
    TaskStep O.world G capacity s n n op t (O.action n t) out.1 out.2 ∧
      Proceeds O.world G capacity s (.task n (O.action n t))
        (s.moved n n (O.action n t) out.1 out.2) := by
  have hdeliver : (O.action n t).deliverable s.cancelling = true := by
    cases t <;> rfl
  have hpermits := O.permits_action s.executor n t
  refine ⟨⟨ht, hop, hdeliver, hpermits, moves_of_advance hadvance⟩, ⟨?_, ?_⟩, nofun⟩
  · simp [next, ht, hop, hdeliver, hadvance, RunState.moved]
  · intro t₀ ht₀
    rw [ht, Option.some.injEq] at ht₀
    exact ht₀ ▸ hpermits

/-- Every run can be continued until it is complete. -/
theorem exists_complete (hO : O.IgnoresWorkspace G initial ∨ O.NoContext)
    (hinitial : ∀ n, (initial n).status = .pending ∨ (initial n).status.terminal = true)
    (hnodes : ∀ n op, G.operation n = some op → n ∈ G.nodes) (hwaits : WellFounded G.Waits) (hcapacity : 1 ≤ capacity)
    (hs : Reachable (Proceeds O.world G capacity) (start G initial workspace) s) :
    ∃ t, Reachable (Proceeds O.world G capacity) s t ∧ t.Complete := by
  -- induction on the work left, from a state in which nobody holds the pause gate
  have hfinish : ∀ k (u : RunState U U κ), u.work G = k → Foretold O G initial workspace u →
      Orderly G u → u.executor.pauseEvent = none →
      ∃ t, Reachable (Proceeds O.world G capacity) u t ∧ t.Complete := by
    intro k
    induction k using Nat.strong_induction_on with
    | _ k ih =>
      intro u hk hforetold horderly hpause
      by_cases hopen : u.Complete
      · exact ⟨u, .start, hopen⟩
      · obtain ⟨n, t, op, out, ht, hop, hadvance⟩ :=
          exists_turn hcapacity hwaits hforetold horderly hpause hopen
        obtain ⟨htask, hproceeds⟩ := taskStep_of_advance ht hop hadvance
        have hless := work_lt (hnodes n op hop) hop ht htask.moves hpause
        obtain ⟨v, hv, hcomplete⟩ := ih _ (hk ▸ hless) _ rfl (hforetold.moved hO hinitial htask)
          (horderly.moved hop ht htask.moves) (htask.moves.pauseEvent.trans hpause)
        exact ⟨v, (Reachable.start.step hproceeds).trans hv, hcomplete⟩
  have hforetold := foretold_of_reachable hO hinitial hs
  have horderly := orderly_of_reachable (hs.mono fun _ _ _ hstep ↦ hstep.1)
  have hresume : Proceeds O.world G capacity s .resume
      { s with executor := { s.executor with pauseEvent := none } } := ⟨⟨rfl, trivial⟩, nofun⟩
  have hcontrol : ControlStep s .resume
      { s with executor := { s.executor with pauseEvent := none } } :=
    ⟨rfl, rfl, rfl, rfl, rfl, rfl, fun _ ↦ rfl⟩
  obtain ⟨t, ht, hcomplete⟩ := hfinish _ _ rfl (hforetold.control hcontrol nofun)
    (horderly.control hcontrol) rfl
  exact ⟨t, (Reachable.start.step hresume).trans ht, hcomplete⟩

/-- In every run, whatever the conditions and the operations do and whoever pauses or cancels it, the bodies that
run at one time are within the limit, and a complete run has given all the tokens back. -/
theorem running_le_capacity (W : World U κ) (G : OperationGraph U κ) (capacity : ℕ) (initial : U → Initial)
    (workspace : Entries) {s : RunState U U κ} (hs : Reachable (Step W G capacity) (start G initial workspace) s) :
    (∀ running : List U, running.Nodup → (∀ n ∈ running, ∃ prepared, s.task n = some ⟨n, .invoking prepared⟩) →
      running.length ≤ capacity) ∧
    (s.Complete → s.executor.borrowed = 0) := by
  obtain ⟨holders, hnodup, hlength, hmem⟩ := (orderly_of_reachable hs).tokens
  have hle : s.executor.borrowed ≤ capacity := by
    refine hs.invariant (I := fun u ↦ u.executor.borrowed ≤ capacity) (Nat.zero_le _) fun u l v hu hstep ↦ ?_
    obtain ⟨key, n, op, t, action, e', t', -, htask, rfl⟩ | hcontrol := step_cases hstep
    · exact htask.moves.borrowed_le hu
    · exact hcontrol.borrowed ▸ hu
  constructor
  · intro running hrunning hinvoking
    refine ((List.subperm_of_subset hrunning fun n hn ↦ ?_).length_le).trans (hlength ▸ hle)
    obtain ⟨prepared, ht⟩ := hinvoking n hn
    exact (hmem n).2 ⟨_, ht, trivial⟩
  · intro hcomplete
    rw [← hlength, List.length_eq_zero_iff, List.eq_nil_iff_forall_not_mem]
    intro n hn
    obtain ⟨t, ht, hinvoking⟩ := (hmem n).1 hn
    obtain ⟨exit, rfl⟩ := hcomplete n _ ht
    exact hinvoking

end RunState

/-! ## A join -/

section Join

open RunState

/-- Operation 3 depends on the operations 1 and 2. -/
def join : OperationGraph ℕ Unit where
  nodes := [1, 2, 3]
  operation n := if n = 1 ∨ n = 2 ∨ n = 3 then some plainOperation else none
  incoming n := if n = 3 then [⟨1, none⟩, ⟨2, none⟩] else []

local instance joinLoads : JsonLoads := JsonLoads.never

/-- One operation after the other, with a limit of one. -/
def joinInOrder : RunState ℕ ℕ Unit :=
  (start join idle []).play echo join 1
    (List.replicate 5 1 ++ List.replicate 5 2 ++ List.replicate 12 3)

/-- The sources side by side and the other way round. -/
def joinSideBySide : RunState ℕ ℕ Unit :=
  (start join idle []).play echo join 2
    ([2, 1, 2, 1, 2, 1, 2, 1, 1, 2] ++ List.replicate 12 3)

/-- A run of the join is complete when its three tasks have come to their end. -/
theorem join_complete {capacity : ℕ} {s : RunState ℕ ℕ Unit}
    (hs : Reachable (Proceeds echo.world join capacity) (start join idle []) s)
    (hend : ∀ n ∈ join.nodes, ∃ exit, (s.task n).map Task.state = some (.finished exit)) :
    s.Complete := by
  intro n t ht
  obtain ⟨op, hop⟩ := (safe_of_reachable (hs.mono fun _ _ _ hstep ↦ hstep.1)).known n t ht
  have hn : n ∈ join.nodes := by
    simp only [join] at hop ⊢
    split at hop
    · next hn => simpa using hn
    · cases hop
  obtain ⟨exit, hexit⟩ := hend n hn
  rw [ht] at hexit
  exact ⟨exit, Option.some.inj hexit⟩

/-- The sources of the join run side by side, and a third body is not let in. -/
theorem RunState.running_le_capacity_join : [1, 2].length ≤ 2 := by
  have hs := reachable_play echo join 2 (start join idle []) [2, 1, 2, 1, 2, 1, 2, 1]
  refine (running_le_capacity echo.world join 2 idle [] (hs.mono fun _ _ _ hstep ↦ hstep.1)).1 [1, 2] (by decide) ?_
  intro n hn
  simp only [List.mem_cons, List.not_mem_nil, or_false] at hn
  obtain rfl | rfl := hn
  all_goals exact ⟨_, rfl⟩

end Join

end Lionagi.Operations
