import Lionagi.Operations.ReactiveGrowth

/-!
# Scheduling what was accepted

Spawn requests and injections schedule what they get accepted, an escalation does not, and acceptance
does not tell an operation that is already in the graph from a new one. An operation has as many tasks as
times it was handed to the task group.
-/

namespace Lionagi.Operations

open Ln Protocols Transition

/-- `_accept_node` returned `True`. -/
def Verdict.Accepted (v : Verdict) : Prop := v = .accepted true ∨ v = .accepted false

instance (v : Verdict) : Decidable v.Accepted := inferInstanceAs (Decidable (_ ∨ _))

/-- The attempt was accepted, and its caller goes on to schedule the operation. -/
def Attempt.Hands {U : Type} (a : Attempt U) (n : U) : Prop :=
  a.verdict.Accepted ∧ a.source ≠ .escalation ∧ a.grouped = true ∧ a.child = n

instance {U : Type} [DecidableEq U] (a : Attempt U) (n : U) : Decidable (a.Hands n) :=
  inferInstanceAs (Decidable (_ ∧ _))

/-- If the attempt was accepted, then it was a spawn request or an injection of an operation that was not
in the graph, while there was a task group. -/
def Attempt.Regular {U : Type} (a : Attempt U) : Prop :=
  a.verdict.Accepted → a.verdict = .accepted true ∧ a.source ≠ .escalation ∧ a.grouped = true

namespace Reactive

section Frames

variable {U κ : Type}

/-- What `_accept_node` leaves alone. -/
structure Frame (s s' : Reactive U κ) : Prop where
  task : s'.run.task = s.run.task
  cancelling : s'.run.cancelling = s.run.cancelling
  initial : s'.initial = s.initial
  nextKey : s'.nextKey = s.nextKey
  running : s'.running = s.running
  taskGroup : s'.taskGroup = s.taskGroup
  opened : s'.opened = s.opened
  attempts : s'.attempts = s.attempts

theorem Accepts.frame [DecidableEq U] {s s' : Reactive U κ} {child : Child U} {v : Verdict}
    (h : Accepts s child v s') : Frame s s' := by
  cases h <;> exact ⟨rfl, rfl, rfl, rfl, rfl, rfl, rfl, rfl⟩

end Frames

section Schedule

variable {U κ : Type} [DecidableEq U]

/-- The number of tasks that were scheduled for an operation. -/
def tasksOf (s : Reactive U κ) (n : U) : ℕ :=
  (List.range s.nextKey).countP fun key ↦ (s.run.task key).map Task.node = some n

/-- How often an operation was handed to the task group. -/
def handed (s : Reactive U κ) (n : U) : ℕ :=
  (if s.opened then s.initial.count n else 0) + s.attempts.countP fun a ↦ a.Hands n

variable {s s' : Reactive U κ} {n : U}

theorem tasksOf_schedule (s : Reactive U κ) (m n : U) :
    (s.schedule m).tasksOf n = s.tasksOf n + if m = n then 1 else 0 := by
  have hold : (List.range s.nextKey).countP (fun key ↦
      ((s.schedule m).run.task key).map Task.node = some n) = s.tasksOf n := by
    apply List.countP_congr
    intro key hkey
    have hne : key ≠ s.nextKey := (List.mem_range.1 hkey).ne
    rw [show (s.schedule m).run.task key = s.run.task key from Function.update_of_ne hne _ _]
  have hlast : (s.schedule m).run.task s.nextKey = some ⟨m, .created⟩ := Function.update_self _ _ _
  calc
    (s.schedule m).tasksOf n =
        (List.range (s.nextKey + 1)).countP fun key ↦
          ((s.schedule m).run.task key).map Task.node = some n := rfl
    _ = s.tasksOf n + if m = n then 1 else 0 := by
      rw [List.range_succ, List.countP_append, hold]
      simp [List.countP_cons, hlast]

theorem Frame.tasksOf (h : Frame s s') (n : U) : s'.tasksOf n = s.tasksOf n := by
  rw [Reactive.tasksOf, h.nextKey, h.task, Reactive.tasksOf]

/-- The counts agree, and what was accepted as new is neither initial nor absent. -/
structure Counted (s : Reactive U κ) : Prop where
  tasks : ∀ n, s.tasksOf n = s.handed n
  initial : ∀ n ∈ s.initial, s.graph.hasNode n = true
  fresh : ∀ n ∈ s.acceptedNew, n ∉ s.initial

/-- The counts after an attempt: the task of an attempt that hands its child over is still owed. -/
structure Owing (s : Reactive U κ) (a : Attempt U) : Prop where
  tasks : ∀ n, s.tasksOf n + (if a.Hands n then 1 else 0) = s.handed n
  initial : ∀ n ∈ s.initial, s.graph.hasNode n = true
  fresh : ∀ n ∈ s.acceptedNew, n ∉ s.initial

variable {a : Attempt U}

theorem Owing.schedule (h : Owing s a) (hhands : a.Hands a.child) :
    Counted (s.schedule a.child) where
  tasks n := by
    rw [tasksOf_schedule, show (s.schedule a.child).handed n = s.handed n from rfl, ← h.tasks n]
    by_cases hn : a.child = n
    · rw [if_pos hn, if_pos (hn ▸ hhands)]
    · rw [if_neg hn, if_neg fun hh ↦ hn hh.2.2.2]
  initial := h.initial
  fresh := h.fresh

theorem Owing.counted (h : Owing s a) (hhands : ¬ a.Hands a.child) : Counted s where
  tasks n := by
    rw [← h.tasks n, if_neg, Nat.add_zero]
    rintro hh
    exact hhands (hh.2.2.2 ▸ hh)
  initial := h.initial
  fresh := h.fresh

variable {child : Child U} {v : Verdict}

theorem Accepts.hasNode (h : Accepts s child v s') (hn : s.graph.hasNode n = true) : s'.graph.hasNode n = true := by
  cases h with
  | full => exact hn
  | unchanged => exact hn
  | stranded _ _ _ hnodes => exact (hnodes n).2 (Or.inr hn)
  | cycle _ hcontents => exact (Graph.hasNode_congr hcontents.nodes n).trans hn
  | known _ _ _ _ hnodes => exact (Graph.hasNode_congr hnodes n).trans hn
  | new _ _ _ _ hnodes => exact (hnodes n).2 (Or.inr hn)

variable {capacity maxSpawn : ℕ} {emitterId : Option U} {independent : Bool}

/-- An attempt is what it comes to, and remembered. -/
theorem Growing.attempt_eq (h : Growing maxSpawn s) {source : Source} {edgeId : U}
    (heq : s.attempt source child emitterId independent edgeId = (v, s')) :
    ∃ s₁, Accepts s child v s₁ ∧
      s' = { s₁ with attempts := s.attempts ++ [⟨source, child.id, s.taskGroup, v⟩] } := by
  have haccepts := acceptNode_accepts h.sound h.acyclic child emitterId independent edgeId
  unfold Reactive.attempt at heq
  generalize s.acceptNode child emitterId independent edgeId = result at haccepts heq
  obtain ⟨v', s₁⟩ := result
  obtain ⟨rfl, rfl⟩ := Prod.mk.inj heq
  exact ⟨s₁, haccepts, rfl⟩

theorem Counted.attempt (h : Counted s) (hgrowing : Growing maxSpawn s) {source : Source} {edgeId : U}
    (heq : s.attempt source child emitterId independent edgeId = (v, s')) :
    Owing s' ⟨source, child.id, s.taskGroup, v⟩ := by
  obtain ⟨s₁, haccepts, rfl⟩ := hgrowing.attempt_eq heq
  have hframe := haccepts.frame
  generalize ha : (⟨source, child.id, s.taskGroup, v⟩ : Attempt U) = a
  refine ⟨fun n ↦ ?_, fun n hn ↦ ?_, fun n hn ↦ ?_⟩
  · change s₁.tasksOf n + _ = (if s₁.opened then s₁.initial.count n else 0) +
      List.countP (fun a : Attempt U ↦ a.Hands n) (s.attempts ++ [a])
    rw [hframe.tasksOf, h.tasks, handed, hframe.opened, hframe.initial, List.countP_append,
      List.countP_singleton]
    simp only [decide_eq_true_eq, Nat.add_assoc]
  · exact haccepts.hasNode (h.initial n (hframe.initial ▸ hn))
  · change n ∉ s₁.initial
    rw [hframe.initial]
    change n ∈ List.map Attempt.child
      (List.filter (fun a ↦ a.verdict = .accepted true) (s.attempts ++ [a])) at hn
    rw [List.filter_append, List.map_append, List.mem_append] at hn
    rcases hn with hn | hn
    · exact h.fresh n hn
    · cases haccepts with
      | new hroom hfresh =>
        intro hinitial
        have hmem := h.initial n hinitial
        have hchild : n = child.id := by simpa [← ha] using hn
        rw [hchild, hfresh] at hmem
        cases hmem
      | _ => simp [← ha] at hn

/-- A change of what the counts do not read. -/
theorem Counted.of_same (h : Counted s) (htask : s'.run.task = s.run.task)
    (hkey : s'.nextKey = s.nextKey) (hinitial : s'.initial = s.initial) (hopened : s'.opened = s.opened)
    (hattempts : s'.attempts = s.attempts) (hgraph : s'.graph = s.graph) : Counted s' where
  tasks n := by
    rw [tasksOf, htask, hkey, handed, hopened, hinitial, hattempts]
    exact h.tasks n
  initial n hn := by
    rw [hgraph]
    exact h.initial n (hinitial ▸ hn)
  fresh n hn := by
    rw [acceptedNew, hattempts] at hn
    rw [hinitial]
    exact h.fresh n hn

theorem Counted.inject (h : Counted s) (hgrowing : Growing maxSpawn s) (child : Child U) (after : Option U)
    (independent : Bool) (edgeId : U) : Counted (s.inject child after independent edgeId) := by
  unfold Reactive.inject
  split
  · exact h
  · next hopen =>
    have hgroup : s.taskGroup = true := by
      rw [Bool.or_eq_true, not_or] at hopen
      simpa using hopen.2
    split
    · next newlyAdded s' heq =>
      have howing := h.attempt hgrowing heq
      have hhands : Attempt.Hands ⟨.inject, child.id, s.taskGroup, .accepted newlyAdded⟩ child.id :=
        ⟨by cases newlyAdded <;> simp [Verdict.Accepted], by simp, hgroup, rfl⟩
      exact howing.schedule hhands
    · next v s' hne heq =>
      apply (h.attempt hgrowing heq).counted
      rintro ⟨haccepted, -⟩
      exact haccepted.elim (hne true) (hne false)

theorem Counted.injectRequest (h : Counted s) (hgrowing : Growing maxSpawn s) (req : ℕ) (emitterId : Option U)
    (built : Built U) (independent : Bool) (edgeId : U) :
    Counted (s.injectRequest req emitterId built independent edgeId) := by
  have hseen : Counted { s with seenReqs := req :: s.seenReqs } := h.of_same rfl rfl rfl rfl rfl rfl
  have hgrowing' : Growing maxSpawn { s with seenReqs := req :: s.seenReqs } :=
    hgrowing.of_same ⟨rfl, rfl, rfl, rfl, rfl, fun _ ↦ id⟩
  unfold Reactive.injectRequest
  split
  · exact h.of_same rfl rfl rfl rfl rfl rfl
  · cases built with
    | error => exact hseen.of_same rfl rfl rfl rfl rfl rfl
    | null => exact hseen.of_same rfl rfl rfl rfl rfl rfl
    | child child =>
      dsimp only
      split
      · next newlyAdded s' heq =>
        have howing := hseen.attempt hgrowing' heq
        obtain ⟨s₁, haccepts, rfl⟩ := hgrowing'.attempt_eq heq
        have hgroup : s₁.taskGroup = s.taskGroup := haccepts.frame.taskGroup
        split
        · next hopen =>
          have hhands : Attempt.Hands ⟨.spawn, child.id, s.taskGroup, .accepted newlyAdded⟩ child.id :=
            ⟨by cases newlyAdded <;> simp [Verdict.Accepted], by simp, hgroup.symm.trans hopen, rfl⟩
          exact howing.schedule hhands
        · next hclosed =>
          apply howing.counted
          rintro ⟨-, -, hopen, -⟩
          exact hclosed (hgroup.trans hopen)
      · next v s' hne heq =>
        apply (hseen.attempt hgrowing' heq).counted
        rintro ⟨haccepted, -⟩
        exact haccepted.elim (hne true) (hne false)

theorem Counted.scheduleEscalation (h : Counted s) (hgrowing : Growing maxSpawn s) (req : ℕ) (emitterId : Option U)
    (urgency : String) (route : Option String) (child : Child U) (edgeId : U) :
    Counted (s.scheduleEscalation req emitterId urgency route child edgeId) := by
  have hseen : Counted { s with seenReqs := req :: s.seenReqs } := h.of_same rfl rfl rfl rfl rfl rfl
  have hgrowing' : Growing maxSpawn { s with seenReqs := req :: s.seenReqs } :=
    hgrowing.of_same ⟨rfl, rfl, rfl, rfl, rfl, fun _ ↦ id⟩
  -- whatever the retry comes to, nothing is scheduled for it
  have hretry : ∀ v s', { s with seenReqs := req :: s.seenReqs }.attempt .escalation child emitterId
      true edgeId = (v, s') → Counted s' :=
    fun v s' heq ↦ (hseen.attempt hgrowing' heq).counted fun hhands ↦ hhands.2.1 rfl
  unfold Reactive.scheduleEscalation
  split
  · exact h
  · dsimp only
    split
    · split
      · next heq => exact (hretry _ _ heq).of_same rfl rfl rfl rfl rfl rfl
      · next heq => exact hretry _ _ heq
    · split
      · exact hseen
      · exact hseen.of_same rfl rfl rfl rfl rfl rfl

theorem tasksOf_openGroup (s : Reactive U κ) (n : U) :
    s.openGroup.tasksOf n = s.tasksOf n + s.initial.count n := by
  have hfold : ∀ (l : List U) (s : Reactive U κ),
      (l.foldl (fun s n ↦ (s.announce n).schedule n) s).tasksOf n = s.tasksOf n + l.count n := by
    intro l
    induction l with
    | nil => exact fun _ ↦ rfl
    | cons m l ih =>
      intro s
      rw [List.foldl_cons, ih, tasksOf_schedule, List.count_cons]
      simp only [show (s.announce m).tasksOf n = s.tasksOf n from rfl, beq_iff_eq]
      omega
  exact hfold s.initial _

omit [DecidableEq U] in
theorem openGroup_eq (s : Reactive U κ) :
    s.openGroup.initial = s.initial ∧ s.openGroup.opened = true ∧ s.openGroup.taskGroup = true := by
  have hfold : ∀ (l : List U) (s : Reactive U κ),
      (l.foldl (fun s n ↦ (s.announce n).schedule n) s).initial = s.initial ∧
        (l.foldl (fun s n ↦ (s.announce n).schedule n) s).opened = s.opened ∧
        (l.foldl (fun s n ↦ (s.announce n).schedule n) s).taskGroup = s.taskGroup := by
    intro l
    induction l with
    | nil => exact fun _ ↦ ⟨rfl, rfl, rfl⟩
    | cons m l ih => exact fun s ↦ ih _
  exact hfold s.initial _

theorem Counted.openGroup (h : Counted s) (hclosed : s.opened = false) : Counted s.openGroup where
  tasks n := by
    have hsame := sameGrowth_openGroup s
    obtain ⟨hinitial, hopened, -⟩ := openGroup_eq s
    have hold := h.tasks n
    rw [handed, hclosed] at hold
    rw [tasksOf_openGroup, hold, handed, hinitial, hopened, hsame.attempts]
    simp only [Bool.false_eq_true, if_false, if_true, Nat.zero_add]
    exact Nat.add_comm _ _
  initial n hn := by
    rw [(sameGrowth_openGroup s).graph]
    exact h.initial n ((openGroup_eq s).1 ▸ hn)
  fresh n hn := by
    rw [acceptedNew, (sameGrowth_openGroup s).attempts] at hn
    rw [(openGroup_eq s).1]
    exact h.fresh n hn

variable [ToString U] [JsonLoads]

theorem tasksOf_run {W : World U κ} {G : OperationGraph U κ} {l : Operations.Label ℕ} {run : RunState ℕ U κ}
    (h : RunState.Step W G capacity s.run l run) (n : U) : Reactive.tasksOf { s with run } n = s.tasksOf n := by
  apply List.countP_congr
  intro key _
  rw [RunState.node_step h key]

theorem Counted.step {W : World U κ} {l : Label U} (h : Counted s) (hgrowing : Growing maxSpawn s)
    (hstep : Step W capacity s l s') : Counted s' := by
  obtain ⟨hnext, hpermitted⟩ := hstep
  cases l with
  | run l =>
    obtain ⟨run, hrun, rfl⟩ := Option.map_eq_some_iff.1 hnext
    refine ⟨fun n ↦ ?_, h.initial, h.fresh⟩
    rw [tasksOf_run ⟨hrun, hpermitted⟩]
    exact h.tasks n
  | enter =>
    simp only [next] at hnext
    split at hnext
    · cases hnext
    · next hclosed =>
      cases hnext
      exact h.openGroup (Bool.eq_false_iff.2 hclosed)
  | inject child after independent edgeId =>
    cases hnext
    exact h.inject hgrowing child after independent edgeId
  | spawn origin req built independent edgeId =>
    obtain ⟨emitter, -, rfl⟩ := Option.map_eq_some_iff.1 hnext
    exact h.injectRequest hgrowing req emitter built independent edgeId
  | escalate origin req urgency route child edgeId =>
    obtain ⟨emitter, -, rfl⟩ := Option.map_eq_some_iff.1 hnext
    exact h.scheduleEscalation hgrowing req emitter urgency route child edgeId
  | close =>
    simp only [next] at hnext
    split at hnext
    · cases hnext
      exact h.of_same rfl rfl rfl rfl rfl rfl
    · cases hnext

omit [ToString U] [JsonLoads] in
theorem counted_start {graph : Graph U (Option Operation) κ} (hsound : graph.Sound ∅ ∅ ∅)
    (initial : U → Initial) (workspace : Entries) (maxSpawn : ℕ) (stream : Bool) :
    Counted (start graph initial workspace maxSpawn stream) := by
  have hbegin : ∀ s : Reactive U κ, s.graph = graph → s.nextKey = 0 → s.opened = false →
      s.attempts = [] → (∀ n ∈ s.initial, n ∈ graph.internalNodes.progression.order) → Counted s := by
    rintro s rfl hkey hopened hattempts hinitial
    refine ⟨fun n ↦ ?_, fun n hn ↦ ?_, fun n hn ↦ ?_⟩
    · simp [tasksOf, handed, hkey, hopened, hattempts]
    · exact (Graph.hasNode_iff hsound.nodes n).2 ((hsound.nodes.mem_iff n).1 (hinitial n hn))
    · simp [acceptedNew, hattempts] at hn
  have hinitial : ∀ n ∈ (OperationGraph.ofGraph graph).nodes.filter fun n ↦
      ((OperationGraph.ofGraph graph).operation n).isSome,
      n ∈ graph.internalNodes.progression.order := fun n hn ↦ (List.mem_filter.1 hn).1
  unfold start
  dsimp only
  split
  · exact hbegin _ rfl rfl rfl rfl hinitial
  · exact (hbegin _ rfl rfl rfl rfl hinitial).openGroup rfl

omit [ToString U] [JsonLoads] in
/-- Regular attempts hand over what they get accepted, each operation once. -/
theorem Counted.tasksOf_eq_one (h : Counted s) (hgrowing : Growing maxSpawn s) (hregular : ∀ a ∈ s.attempts, a.Regular)
    (ha : a ∈ s.attempts) (haccepted : a.verdict.Accepted) : s.tasksOf a.child = 1 := by
  have hhands : ∀ b ∈ s.attempts, b.Hands a.child ↔ b.verdict = .accepted true ∧ b.child = a.child := by
    intro b hb
    constructor
    · rintro ⟨hb', -, -, hchild⟩
      exact ⟨(hregular b hb hb').1, hchild⟩
    · rintro ⟨hb', hchild⟩
      obtain ⟨-, hsource, hgrouped⟩ := hregular b hb (.inl hb')
      exact ⟨.inl hb', hsource, hgrouped, hchild⟩
  have hnew : a.child ∈ s.acceptedNew := by
    apply List.mem_map.2
    exact ⟨a, List.mem_filter.2 ⟨ha, by simpa using (hregular a ha haccepted).1⟩, rfl⟩
  have hnodup : s.acceptedNew.Nodup := hgrowing.accepted ▸ hgrowing.nodup
  have hnone : s.initial.count a.child = 0 := List.count_eq_zero.2 (h.fresh _ hnew)
  calc
    s.tasksOf a.child = s.attempts.countP fun b ↦ b.Hands a.child := by
      rw [h.tasks, handed, hnone, ite_self, Nat.zero_add]
    _ = s.acceptedNew.count a.child := by
      rw [acceptedNew, List.count, List.countP_map, List.countP_filter]
      apply List.countP_congr
      intro b hb
      simp [hhands b hb, and_comm]
    _ = 1 := List.count_eq_one_of_mem hnodup hnew

end Schedule

/-! ## The claim -/

section RunOnce

variable {U κ : Type} [DecidableEq U] [ToString U] [JsonLoads]

end RunOnce

/-! ## Runs in which operations are accepted -/

section Example

local instance scheduleLoads : JsonLoads := JsonLoads.never

/-- Operation 1 is invoked and asks to be retried on a higher tier. -/
def retriedLabels : List (Label ℕ) :=
  List.replicate 4 (.run (.task 0 .run)) ++
    [.escalate (.bus (some 1)) 7 "blocked" none (newcomer 3) 30]

def retried : Reactive ℕ Unit :=
  (Transition.replay (next 1) (start single idle [] 5 false) retriedLabels).getD
    (start single idle [] 5 false)

theorem retried_reachable : Reachable (Step echo.world 1) (start single idle [] 5 false) retried := by
  have hreplay : Transition.replay (next 1) (start single idle [] 5 false) retriedLabels =
      some retried := rfl
  refine reachable_of_replay (fun s l t hl hnext ↦ ⟨hnext, ?_⟩) .start hreplay
  rcases List.mem_append.1 hl with hl | hl
  · rw [List.eq_of_mem_replicate hl]
    intro task _
    cases task.state <;> trivial
  · rw [List.mem_singleton.1 hl]
    trivial

end Example

end Reactive

end Lionagi.Operations
