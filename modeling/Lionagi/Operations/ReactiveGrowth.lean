import Lionagi.Operations.Reactive

/-!
# Growth of the graph

What a call of `_accept_node` may come to is listed once. A run keeps the graph sound and acyclic and
the counters in step with it, and a child that is refused leaves nothing behind.
-/

namespace Lionagi.Operations

open Ln Protocols Transition

namespace Reactive

section Accept

variable {U κ : Type} [DecidableEq U]

/-- The record of a new child. -/
def childRecord (child : Child U) (r : Record U) : Record U :=
  { r with
    status := child.initial.status
    response := child.initial.response
    parameters := child.initial.parameters
    event := some false }

/-- The executor with the record of a new child. -/
def withChild (s : Reactive U κ) (child : Child U) : Executor U :=
  s.run.executor.modify child.id (childRecord child)

/-- The executor whose new child is gone again. -/
def withoutChild (s : Reactive U κ) (child : Child U) : Executor U :=
  (s.withChild child).modify child.id fun r ↦ { r with event := none }

/-- The state with another executor and another graph. -/
def replaced (s : Reactive U κ) (executor : Executor U)
    (graph : Graph U (Option Operation) κ) : Reactive U κ :=
  { s with run := { s.run with executor }, graph }

/-- What `_accept_node` does to a sound and acyclic graph. -/
inductive Accepts (s : Reactive U κ) (child : Child U) : Verdict → Reactive U κ → Prop
  | full {emitter} (h : s.maxSpawn ≤ s.spawnCount) :
      Accepts s child (.refused .maxSpawnExceeded) (s.drop .maxSpawnExceeded emitter (some child.id))
  | unchanged : Accepts s child .raised s
  | stranded {graph} (hfresh : s.graph.hasNode child.id = false) (hsound : graph.Sound ∅ ∅ ∅)
      (hacyclic : graph.Acyclic)
      (hnodes : ∀ n, graph.hasNode n = true ↔ n = child.id ∨ s.graph.hasNode n = true) :
      Accepts s child .raised (s.replaced (s.withChild child) graph)
  | cycle {executor graph emitter} (hsound : graph.Sound ∅ ∅ ∅)
      (hcontents : Graph.SameContents s.graph graph)
      (hexecutor : executor = s.run.executor ∨
        s.graph.hasNode child.id = false ∧ executor = s.withoutChild child) :
      Accepts s child (.refused .cycle)
        ((s.replaced executor graph).drop .cycle emitter (some child.id))
  | known {graph} (hroom : s.spawnCount < s.maxSpawn) (hknown : s.graph.hasNode child.id = true)
      (hsound : graph.Sound ∅ ∅ ∅) (hacyclic : graph.Acyclic)
      (hnodes : graph.internalNodes = s.graph.internalNodes) :
      Accepts s child (.accepted false) { s with graph }
  | new {graph} (hroom : s.spawnCount < s.maxSpawn) (hfresh : s.graph.hasNode child.id = false)
      (hsound : graph.Sound ∅ ∅ ∅) (hacyclic : graph.Acyclic)
      (hnodes : ∀ n, graph.hasNode n = true ↔ n = child.id ∨ s.graph.hasNode n = true) :
      Accepts s child (.accepted true)
        ((s.replaced (s.withChild child) graph).commit child.id true)

variable {s : Reactive U κ} {child : Child U}
variable {s' : Reactive U κ}

theorem addChild_ok (h : s.addChild child = .ok s') :
    ∃ graph, s.graph.addNode ⟨child.id, some child.operation⟩ = .ok graph ∧
      s' = s.replaced (s.withChild child) graph := by
  obtain ⟨graph, hgraph, rfl⟩ := Graph.map_eq_ok.1 h
  exact ⟨graph, hgraph, rfl⟩

/-- An edge that closes a cycle is taken back. -/
theorem attach_detach {edge : Option (Edge U κ)} (hs : s.graph.Sound ∅ ∅ ∅) (h : s.attach edge = .ok s') :
    ∃ graph, s' = { s with graph } ∧ graph.Sound ∅ ∅ ∅ ∧
      graph.internalNodes = s.graph.internalNodes ∧
      ∃ graph', s'.detach edge = .ok { s with graph := graph' } ∧ graph'.Sound ∅ ∅ ∅ ∧
        Graph.SameContents s.graph graph' := by
  cases edge with
  | none =>
    cases h
    exact ⟨s.graph, rfl, hs, rfl, s.graph, rfl, hs, rfl, rfl, rfl⟩
  | some edge =>
    obtain ⟨graph, hgraph, rfl⟩ := Graph.map_eq_ok.1 h
    have hsound := Graph.sound_addEdge hs hgraph
    obtain ⟨graph', hremove, hsame⟩ := Graph.removeEdge_addEdge hs hgraph
    refine ⟨graph, rfl, hsound, Graph.nodes_addEdge hgraph, graph', ?_,
      Graph.sound_removeEdge hsound hremove, hsame⟩
    exact Graph.map_eq_ok.2 ⟨graph', hremove, rfl⟩

theorem acceptNode_accepts (hs : s.graph.Sound ∅ ∅ ∅) (hacyclic : s.graph.Acyclic)
    (child : Child U) (emitterId : Option U) (independent : Bool) (edgeId : U) :
    Accepts s child (s.acceptNode child emitterId independent edgeId).1
      (s.acceptNode child emitterId independent edgeId).2 := by
  unfold acceptNode
  split
  · next hfull => exact .full hfull
  · next hroom =>
    rw [Nat.not_le] at hroom
    generalize edgeTo child.id emitterId independent edgeId = edge
    cases hknown : s.graph.hasNode child.id with
    | true =>
      simp only [Bool.not_true, Bool.false_eq_true, if_false]
      cases hattach : s.attach edge with
      | error e => exact .unchanged
      | ok s₁ =>
        obtain ⟨graph, rfl, hsound, hnodes, graph', hdetach, hsound', hsame⟩ := attach_detach hs hattach
        obtain ⟨b, hb, hiff⟩ := hsound.isAcyclic_iff
        simp only [hb]
        cases b with
        | true => exact .known hroom hknown hsound (hiff.1 rfl) hnodes
        | false =>
          simp only [rollback, hdetach, bind, Except.bind]
          exact .cycle hsound' hsame (.inl rfl)
    | false =>
      simp only [Bool.not_false, if_true]
      cases hadd : s.addChild child with
      | error e => exact .unchanged
      | ok s₁ =>
        obtain ⟨added, hadded, rfl⟩ := addChild_ok hadd
        have hsound₁ := Graph.sound_addNode hs hadded
        have hnodes₁ := Graph.hasNode_addNode hs hadded
        simp only
        cases hattach : (s.replaced (s.withChild child) added).attach edge with
        | error e => exact .stranded hknown hsound₁ (Graph.acyclic_addNode hadded hacyclic) hnodes₁
        | ok s₂ =>
          obtain ⟨graph, rfl, hsound, hnodes, graph', hdetach, hsound', hsame⟩ :=
            attach_detach hsound₁ hattach
          obtain ⟨b, hb, hiff⟩ := hsound.isAcyclic_iff
          simp only [hb]
          cases b with
          | true =>
            apply Accepts.new hroom hknown hsound (hiff.1 rfl)
            intro n
            rw [Graph.hasNode_congr hnodes]
            exact hnodes₁ n
          | false =>
            obtain ⟨graph'', hremove, hsame'⟩ := Graph.removeNode_addNode hs hadded hsame
            simp only [rollback, hdetach, bind, Except.bind, if_true]
            have hremoveChild : removeChild { s.replaced (s.withChild child) added with graph := graph' }
                child.id = .ok (s.replaced (s.withoutChild child) graph'') :=
              Graph.map_eq_ok.2 ⟨graph'', hremove, rfl⟩
            rw [hremoveChild]
            exact .cycle (Graph.sound_removeNode hsound' hremove) hsame' (.inr ⟨hknown, rfl⟩)

end Accept

/-! ## The invariant -/

section Growth

variable {U κ : Type} {maxSpawn : ℕ} {s s' : Reactive U κ}

/-- The new nodes that were accepted, in the order of their acceptance. -/
def acceptedNew (s : Reactive U κ) : List U :=
  (s.attempts.filter fun a ↦ a.verdict = .accepted true).map Attempt.child

/-- What growth is about is the same; the completion events that are missing stay missing. -/
structure SameGrowth (s s' : Reactive U κ) : Prop where
  graph : s'.graph = s.graph
  maxSpawn : s'.maxSpawn = s.maxSpawn
  spawnCount : s'.spawnCount = s.spawnCount
  spawnedIds : s'.spawnedIds = s.spawnedIds
  attempts : s'.attempts = s.attempts
  event : ∀ n, (s.run.executor.record n).event = none → (s'.run.executor.record n).event = none

theorem SameGrowth.refl (s : Reactive U κ) : SameGrowth s s := ⟨rfl, rfl, rfl, rfl, rfl, fun _ ↦ id⟩

theorem SameGrowth.trans {s₁ s₂ s₃ : Reactive U κ} (h : SameGrowth s₁ s₂) (h' : SameGrowth s₂ s₃) :
    SameGrowth s₁ s₃ where
  graph := h'.graph.trans h.graph
  maxSpawn := h'.maxSpawn.trans h.maxSpawn
  spawnCount := h'.spawnCount.trans h.spawnCount
  spawnedIds := h'.spawnedIds.trans h.spawnedIds
  attempts := h'.attempts.trans h.attempts
  event n hn := h'.event n (h.event n hn)

theorem sameGrowth_schedule (s : Reactive U κ) (n : U) : SameGrowth s (s.schedule n) :=
  ⟨rfl, rfl, rfl, rfl, rfl, fun _ ↦ id⟩

theorem sameGrowth_announce (s : Reactive U κ) (n : U) : SameGrowth s (s.announce n) :=
  ⟨rfl, rfl, rfl, rfl, rfl, fun _ ↦ id⟩

theorem sameGrowth_drop (s : Reactive U κ) (reason : DropReason) (emitterId opId : Option U) :
    SameGrowth s (s.drop reason emitterId opId) :=
  ⟨rfl, rfl, rfl, rfl, rfl, fun _ ↦ id⟩

theorem sameGrowth_openGroup (s : Reactive U κ) : SameGrowth s s.openGroup := by
  have hfold : ∀ (l : List U) (s : Reactive U κ),
      SameGrowth s (l.foldl (fun s n ↦ (s.announce n).schedule n) s) := by
    intro l
    induction l with
    | nil => exact SameGrowth.refl
    | cons n l ih =>
      intro s
      exact ((sameGrowth_announce s n).trans (sameGrowth_schedule _ n)).trans (ih _)
  have hopen : SameGrowth s { s with taskGroup := true, opened := true } :=
    ⟨rfl, rfl, rfl, rfl, rfl, fun _ ↦ id⟩
  exact hopen.trans (hfold _ _)

variable [DecidableEq U]

/-- The graph, the counters and the completion events of a run with this budget. -/
structure Growing (maxSpawn : ℕ) (s : Reactive U κ) : Prop where
  sound : s.graph.Sound ∅ ∅ ∅
  acyclic : s.graph.Acyclic
  cap : s.maxSpawn = maxSpawn
  count : s.spawnedIds.length = s.spawnCount
  nodup : s.spawnedIds.Nodup
  budget : s.spawnCount ≤ maxSpawn
  accepted : s.acceptedNew = s.spawnedIds
  present : ∀ n ∈ s.spawnedIds, s.graph.hasNode n = true
  outside : ∀ n, s.graph.hasNode n = false → (s.run.executor.record n).event = none

theorem Growing.of_same (h : Growing maxSpawn s) (hsame : SameGrowth s s') : Growing maxSpawn s' where
  sound := hsame.graph ▸ h.sound
  acyclic := hsame.graph ▸ h.acyclic
  cap := hsame.maxSpawn.trans h.cap
  count := by rw [hsame.spawnedIds, hsame.spawnCount, h.count]
  nodup := hsame.spawnedIds ▸ h.nodup
  budget := hsame.spawnCount ▸ h.budget
  accepted := by rw [acceptedNew, hsame.attempts, hsame.spawnedIds, ← h.accepted, acceptedNew]
  present := by
    rw [hsame.spawnedIds, hsame.graph]
    exact h.present
  outside n hn := by
    rw [hsame.graph] at hn
    exact hsame.event n (h.outside n hn)

theorem Growing.replaced (h : Growing maxSpawn s) {executor : Executor U}
    {graph : Graph U (Option Operation) κ} (hsound : graph.Sound ∅ ∅ ∅) (hacyclic : graph.Acyclic)
    (hnodes : ∀ n, s.graph.hasNode n = true → graph.hasNode n = true)
    (hevent : ∀ n, graph.hasNode n = false → (executor.record n).event = none) :
    Growing maxSpawn (s.replaced executor graph) where
  sound := hsound
  acyclic := hacyclic
  cap := h.cap
  count := h.count
  nodup := h.nodup
  budget := h.budget
  accepted := h.accepted
  present n hn := hnodes n (h.present n hn)
  outside := hevent

variable {child : Child U}

/-- The event of a new child is the only one that may be there without its node. -/
theorem Growing.outside_withChild (h : Growing maxSpawn s) {graph : Graph U (Option Operation) κ}
    (hnodes : ∀ n, graph.hasNode n = true ↔ n = child.id ∨ s.graph.hasNode n = true) (n : U)
    (hn : graph.hasNode n = false) : ((s.withChild child).record n).event = none := by
  rw [← Bool.not_eq_true, hnodes, not_or, Bool.not_eq_true] at hn
  rw [withChild, Executor.record_modify, Function.update_of_ne hn.1]
  exact h.outside n hn.2

/-- The rollback of a child restores the completion events. -/
theorem Growing.event_cycle (h : Growing maxSpawn s) {executor : Executor U}
    (hexecutor : executor = s.run.executor ∨ s.graph.hasNode child.id = false ∧ executor = s.withoutChild child) (n : U)
    :
    (executor.record n).event = (s.run.executor.record n).event := by
  rcases hexecutor with rfl | ⟨hfresh, rfl⟩
  · rfl
  · by_cases hn : n = child.id
    · subst hn
      simp [withoutChild, h.outside child.id hfresh]
    · simp [withoutChild, withChild, hn]

/-- An attempt that adds no node is remembered. -/
theorem Growing.remember (h : Growing maxSpawn s') (hattempts : s'.attempts = s.attempts)
    {a : Attempt U} (ha : a.verdict ≠ .accepted true) :
    Growing maxSpawn { s' with attempts := s.attempts ++ [a] } where
  sound := h.sound
  acyclic := h.acyclic
  cap := h.cap
  count := h.count
  nodup := h.nodup
  budget := h.budget
  accepted := by
    rw [← h.accepted]
    simp [acceptedNew, hattempts, ha]
  present := h.present
  outside := h.outside

/-- A cycle that is taken back leaves the invariant as it was. -/
theorem Growing.restored (h : Growing maxSpawn s) {child : Child U} {executor : Executor U}
    {graph : Graph U (Option Operation) κ} (hsound : graph.Sound ∅ ∅ ∅)
    (hcontents : Graph.SameContents s.graph graph)
    (hexecutor : executor = s.run.executor ∨
      s.graph.hasNode child.id = false ∧ executor = s.withoutChild child) :
    Growing maxSpawn (s.replaced executor graph) := by
  have hnodes := Graph.hasNode_congr hcontents.nodes
  apply h.replaced hsound (hcontents.acyclic h.acyclic) fun n hn ↦ (hnodes n).trans hn
  intro n hn
  rw [h.event_cycle hexecutor n]
  exact h.outside n ((hnodes n).symm.trans hn)

/-- A new child is counted, listed and remembered. -/
theorem Growing.counted (h : Growing maxSpawn s) {graph : Graph U (Option Operation) κ}
    (hroom : s.spawnCount < s.maxSpawn) (hfresh : s.graph.hasNode child.id = false) (hsound : graph.Sound ∅ ∅ ∅)
    (hacyclic : graph.Acyclic) (hnodes : ∀ n, graph.hasNode n = true ↔ n = child.id ∨ s.graph.hasNode n = true)
    {a : Attempt U} (hchild : a.child = child.id) (hverdict : a.verdict = .accepted true) :
    Growing maxSpawn { s.replaced (s.withChild child) graph with
      spawnCount := s.spawnCount + 1
      spawnedIds := s.spawnedIds ++ [child.id]
      attempts := s.attempts ++ [a] } := by
  have hnot : child.id ∉ s.spawnedIds := fun hmem ↦ by
    rw [h.present child.id hmem] at hfresh
    cases hfresh
  exact
    { sound := hsound
      acyclic := hacyclic
      cap := h.cap
      count := by simp [h.count]
      nodup := by
        rw [List.nodup_append_comm]
        exact List.nodup_cons.2 ⟨hnot, h.nodup⟩
      budget := by
        have hcap := h.cap
        dsimp only
        omega
      accepted := by simp [acceptedNew, hverdict, hchild, ← h.accepted]
      present := by
        intro n hn
        simp only [List.mem_append, List.mem_singleton] at hn
        rcases hn with hn | rfl
        · exact (hnodes n).2 (Or.inr (h.present n hn))
        · exact (hnodes _).2 (Or.inl rfl)
      outside := h.outside_withChild hnodes }

/-- A call of `_accept_node` keeps the invariant. -/
theorem Growing.attempt (h : Growing maxSpawn s) (source : Source) (child : Child U)
    (emitterId : Option U) (independent : Bool) (edgeId : U) :
    Growing maxSpawn (s.attempt source child emitterId independent edgeId).2 := by
  have haccepts := acceptNode_accepts h.sound h.acyclic child emitterId independent edgeId
  unfold Reactive.attempt
  generalize s.acceptNode child emitterId independent edgeId = result at haccepts ⊢
  obtain ⟨verdict, s'⟩ := result
  dsimp only at haccepts ⊢
  cases haccepts with
  | full => exact (h.of_same (sameGrowth_drop s _ _ _)).remember rfl (by simp)
  | unchanged => exact h.remember rfl (by simp)
  | stranded hfresh hsound hacyclic hnodes =>
    have hstranded := h.replaced hsound hacyclic (fun n hn ↦ (hnodes n).2 (Or.inr hn))
      (h.outside_withChild hnodes)
    exact hstranded.remember rfl (by simp)
  | cycle hsound hcontents hexecutor =>
    have hcycle := h.restored hsound hcontents hexecutor
    exact (hcycle.of_same (sameGrowth_drop _ _ _ _)).remember rfl (by simp)
  | known hroom hknown hsound hacyclic hnodes =>
    have hcongr := Graph.hasNode_congr hnodes
    have hgrown := h.replaced hsound hacyclic (fun n hn ↦ (hcongr n).trans hn)
      (fun n hn ↦ h.outside n ((hcongr n).symm.trans hn))
    exact hgrown.remember rfl (by simp)
  | new hroom hfresh hsound hacyclic hnodes =>
    have hcounted := h.counted (a := ⟨source, child.id, s.taskGroup, .accepted true⟩) hroom hfresh
      hsound hacyclic hnodes rfl rfl
    exact hcounted.of_same (sameGrowth_announce _ child.id)

/-- What follows an attempt does not concern growth. -/
theorem Growing.inject (h : Growing maxSpawn s) (child : Child U) (after : Option U)
    (independent : Bool) (edgeId : U) : Growing maxSpawn (s.inject child after independent edgeId) := by
  have hattempt := h.attempt .inject child after independent edgeId
  unfold Reactive.inject
  split
  · exact h
  · split
    · next _ _ heq =>
      rw [heq] at hattempt
      exact hattempt.of_same (sameGrowth_schedule _ _)
    · next heq =>
      rw [heq] at hattempt
      exact hattempt

theorem Growing.injectRequest (h : Growing maxSpawn s) (req : ℕ) (emitterId : Option U)
    (built : Built U) (independent : Bool) (edgeId : U) :
    Growing maxSpawn (s.injectRequest req emitterId built independent edgeId) := by
  have hseen : Growing maxSpawn { s with seenReqs := req :: s.seenReqs } :=
    h.of_same ⟨rfl, rfl, rfl, rfl, rfl, fun _ ↦ id⟩
  unfold Reactive.injectRequest
  split
  · exact h.of_same (sameGrowth_drop s _ _ _)
  · cases built with
    | error => exact hseen.of_same (sameGrowth_drop _ _ _ _)
    | null => exact hseen.of_same (sameGrowth_drop _ _ _ _)
    | child child =>
      have hattempt := hseen.attempt .spawn child emitterId independent edgeId
      dsimp only
      split
      · next _ _ heq =>
        rw [heq] at hattempt
        split
        · exact hattempt.of_same (sameGrowth_schedule _ _)
        · exact hattempt
      · next heq =>
        rw [heq] at hattempt
        exact hattempt

theorem Growing.scheduleEscalation (h : Growing maxSpawn s) (req : ℕ) (emitterId : Option U)
    (urgency : String) (route : Option String) (child : Child U) (edgeId : U) :
    Growing maxSpawn (s.scheduleEscalation req emitterId urgency route child edgeId) := by
  have hseen : Growing maxSpawn { s with seenReqs := req :: s.seenReqs } :=
    h.of_same ⟨rfl, rfl, rfl, rfl, rfl, fun _ ↦ id⟩
  have hescalated : ∀ s' : Reactive U κ, Growing maxSpawn s' →
      Growing maxSpawn { s' with escalatedIds := emitterId.toList ++ s'.escalatedIds } :=
    fun s' hs' ↦ hs'.of_same ⟨rfl, rfl, rfl, rfl, rfl, fun _ ↦ id⟩
  unfold Reactive.scheduleEscalation
  split
  · exact h
  · dsimp only
    split
    · have hattempt := hseen.attempt .escalation child emitterId true edgeId
      split
      · next _ _ heq =>
        rw [heq] at hattempt
        exact hescalated _ hattempt
      · next heq =>
        rw [heq] at hattempt
        exact hattempt
    · split
      · exact hseen
      · exact hescalated _ hseen

variable [ToString U] [JsonLoads]

theorem sameGrowth_run {W : World U κ} {G : OperationGraph U κ} {capacity : ℕ}
    {l : Operations.Label ℕ} {run : RunState ℕ U κ} (h : RunState.Step W G capacity s.run l run) :
    SameGrowth s { s with run } := by
  refine ⟨rfl, rfl, rfl, rfl, rfl, fun n hn ↦ ?_⟩
  rcases RunState.step_cases h with ⟨key, m, op, t, action, e', t', -, htask, rfl⟩ | hcontrol
  · by_cases hnm : n = m
    · subst hnm
      rcases htask.moves.event with hsame | ⟨-, hset⟩
      · exact hsame.trans hn
      · exact hset.trans (by rw [hn]; rfl)
    · exact (congrArg Record.event (htask.moves.record_of_ne hnm)).trans hn
  · exact (congrArg (fun record ↦ (record n).event) hcontrol.record).trans hn

theorem Growing.step {W : World U κ} {capacity : ℕ} {l : Label U} (h : Growing maxSpawn s)
    (hstep : Step W capacity s l s') : Growing maxSpawn s' := by
  obtain ⟨hnext, hpermitted⟩ := hstep
  cases l with
  | run l =>
    obtain ⟨run, hrun, rfl⟩ := Option.map_eq_some_iff.1 hnext
    exact h.of_same (sameGrowth_run ⟨hrun, hpermitted⟩)
  | enter =>
    simp only [next] at hnext
    split at hnext
    · cases hnext
    · cases hnext
      exact h.of_same (sameGrowth_openGroup s)
  | inject child after independent edgeId =>
    cases hnext
    exact h.inject child after independent edgeId
  | spawn origin req built independent edgeId =>
    obtain ⟨emitter, -, rfl⟩ := Option.map_eq_some_iff.1 hnext
    exact h.injectRequest req emitter built independent edgeId
  | escalate origin req urgency route child edgeId =>
    obtain ⟨emitter, -, rfl⟩ := Option.map_eq_some_iff.1 hnext
    exact h.scheduleEscalation req emitter urgency route child edgeId
  | close =>
    simp only [next] at hnext
    split at hnext
    · cases hnext
      exact h.of_same ⟨rfl, rfl, rfl, rfl, rfl, fun _ ↦ id⟩
    · cases hnext

variable {graph : Graph U (Option Operation) κ}

omit [ToString U] [JsonLoads] in
theorem growing_start (hsound : graph.Sound ∅ ∅ ∅) (hacyclic : graph.Acyclic)
    (initial : U → Initial) (workspace : Entries) (maxSpawn : ℕ) (stream : Bool) :
    Growing maxSpawn (start graph initial workspace maxSpawn stream) := by
  have houtside : ∀ n, graph.hasNode n = false →
      ((Operations.start (.ofGraph graph) initial workspace).executor.record n).event = none := by
    intro n hn
    have hget : graph.internalNodes.collections.get? n = none := by
      rw [OrderedDict.get?_eq_none_iff, ← Graph.hasNode_iff hsound.nodes, hn]
      decide
    simp [Operations.start, OperationGraph.ofGraph, hget, Record.absent]
  have hbegin : ∀ s : Reactive U κ, s.graph = graph → s.maxSpawn = maxSpawn → s.spawnCount = 0 →
      s.spawnedIds = [] → s.attempts = [] →
      s.run.executor.record = (Operations.start (.ofGraph graph) initial workspace).executor.record →
      Growing maxSpawn s := by
    rintro s rfl hcap hcount hspawned hattempts hrecord
    exact
      { sound := hsound
        acyclic := hacyclic
        cap := hcap
        count := by rw [hspawned, hcount, List.length_nil]
        nodup := hspawned ▸ List.nodup_nil
        budget := hcount ▸ Nat.zero_le maxSpawn
        accepted := by simp [acceptedNew, hattempts, hspawned]
        present := by simp [hspawned]
        outside := fun n hn ↦ hrecord ▸ houtside n hn }
  unfold start
  dsimp only
  split
  · exact hbegin _ rfl rfl rfl rfl rfl rfl
  · exact (hbegin _ rfl rfl rfl rfl rfl rfl).of_same (sameGrowth_openGroup _)

end Growth

/-! ## The claim -/

section Budget

variable {U κ : Type} [DecidableEq U]

/-- The nodes, the edges, the mapping and the completion events are what they were. -/
structure Untouched (s s' : Reactive U κ) : Prop where
  contents : Graph.SameContents s.graph s'.graph
  events : ∀ n, (s'.run.executor.record n).event = (s.run.executor.record n).event

theorem Growing.untouched {maxSpawn : ℕ} {s : Reactive U κ} (h : Growing maxSpawn s)
    {child : Child U} {emitterId : Option U} {independent : Bool} {edgeId : U} {reason : DropReason}
    (hrefused : (s.acceptNode child emitterId independent edgeId).1 = .refused reason) :
    Untouched s (s.acceptNode child emitterId independent edgeId).2 := by
  have haccepts := acceptNode_accepts h.sound h.acyclic child emitterId independent edgeId
  generalize s.acceptNode child emitterId independent edgeId = result at haccepts hrefused ⊢
  obtain ⟨verdict, s'⟩ := result
  cases hrefused
  cases haccepts with
  | full => exact ⟨⟨rfl, rfl, rfl⟩, fun _ ↦ rfl⟩
  | cycle hsound hcontents hexecutor => exact ⟨hcontents, h.event_cycle hexecutor⟩

variable [ToString U] [JsonLoads]

/-- In every state of a run on an acyclic graph, the graph is sound and acyclic, the distinct new nodes
that were accepted are counted, listed and within the budget, and whatever attempt is then refused
leaves the graph and the completion events as they are. -/
theorem growth_within_budget (W : World U κ) (capacity : ℕ) (graph : Graph U (Option Operation) κ)
    (hsound : graph.Sound ∅ ∅ ∅) (hacyclic : graph.Acyclic) (initial : U → Initial)
    (workspace : Entries) (maxSpawn : ℕ) (stream : Bool) (s : Reactive U κ)
    (h : Reachable (Step W capacity) (start graph initial workspace maxSpawn stream) s) :
    s.graph.Acyclic ∧ s.graph.Sound ∅ ∅ ∅ ∧ s.acceptedNew.dedup.length = s.spawnCount ∧
      s.spawnedIds.dedup.length = s.spawnCount ∧ s.spawnCount ≤ maxSpawn ∧
      ∀ (child : Child U) (emitterId : Option U) (independent : Bool) (edgeId : U)
        (reason : DropReason),
        (s.acceptNode child emitterId independent edgeId).1 = .refused reason →
          Untouched s (s.acceptNode child emitterId independent edgeId).2 := by
  have hgrowing : Growing maxSpawn s :=
    h.invariant (growing_start hsound hacyclic initial workspace maxSpawn stream)
      fun _ _ _ hs hstep ↦ hs.step hstep
  have hcount : s.spawnedIds.dedup.length = s.spawnCount := by
    rw [List.dedup_eq_self.2 hgrowing.nodup, hgrowing.count]
  exact ⟨hgrowing.acyclic, hgrowing.sound, hgrowing.accepted ▸ hcount, hcount, hgrowing.budget,
    fun _ _ _ _ _ ↦ hgrowing.untouched⟩

end Budget

/-! ## A run that grows -/

section Example

/-- One operation. -/
def single : Graph ℕ (Option Operation) Unit :=
  ((Graph.new 90 91).addNode ⟨1, some plainOperation⟩).toOption.getD (Graph.new 90 91)

def newcomer (n : ℕ) : Child ℕ := ⟨n, plainOperation, idle n⟩

/-- A child is injected behind the operation, and an edge back to the operation is refused. -/
def grownLabels : List (Label ℕ) :=
  [.inject (newcomer 2) (some 1) false 20, .inject (newcomer 1) (some 2) false 21]

local instance grownLoads : JsonLoads := JsonLoads.never

def grown : Reactive ℕ Unit :=
  (Transition.replay (next 1) (start single idle [] 5 false) grownLabels).getD
    (start single idle [] 5 false)

theorem single_sound : single.Sound ∅ ∅ ∅ := by
  have hadd : (Graph.new 90 91).addNode ⟨1, some plainOperation⟩ = .ok single := rfl
  exact Graph.sound_addNode (Graph.sound_new 90 91) hadd

theorem single_acyclic : single.Acyclic := by
  obtain ⟨b, hb, hiff⟩ := single_sound.isAcyclic_iff
  have hrun : single.isAcyclic = .ok true := rfl
  rw [hrun, Except.ok.injEq] at hb
  exact hiff.1 hb.symm

theorem grown_reachable : Reachable (Step echo.world 1) (start single idle [] 5 false) grown := by
  have hreplay : Transition.replay (next 1) (start single idle [] 5 false) grownLabels =
      some grown := rfl
  refine reachable_of_replay (fun s l t hl hnext ↦ ⟨hnext, ?_⟩) .start hreplay
  rcases List.mem_cons.1 hl with rfl | hl
  · trivial
  · rw [List.mem_singleton.1 hl]
    trivial

theorem growth_within_budget_grown :
    grown.graph.Acyclic ∧ grown.spawnedIds = [2] ∧ grown.droppedSpawns.map DroppedSpawn.reason =
      [.cycle] ∧ grown.acceptedNew.dedup.length = grown.spawnCount := by
  have hgrowth := growth_within_budget echo.world 1 single single_sound single_acyclic idle [] 5 false
    grown grown_reachable
  exact ⟨hgrowth.1, rfl, rfl, hgrowth.2.2.1⟩

end Example

end Reactive

end Lionagi.Operations
