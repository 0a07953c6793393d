import Lionagi.Operations.ReactiveGrowth
import Lionagi.Protocols.GraphAddition

/-!
# Injections that fail

`inject` as its caller sees it. `after` is read where the edge is built, behind the new node and its
completion event. The setup of the branch, the callback on progress and the task group are asked behind
the lock, when the child has been counted.
-/

namespace Lionagi.Operations

open Ln Protocols Transition Relation

/-- An operation, its identifier, or what else a caller may pass for `after`. -/
abbrev After (U : Type) := Ref U (Node U (Option Operation))

/-- Whether the branch of a new child is set up, whether the callback on its progress returns, and
whether the task group takes the task. -/
structure Answers where
  branch : Bool
  progress : Bool
  group : Bool

inductive Injected where
  | returned (scheduled : Bool)
  | raised
deriving DecidableEq, Repr

namespace Reactive

section Inject

variable {U κ : Type} [DecidableEq U]

/-- `not independent and emitter_id is not None` -/
def dependent : After U → Bool → Bool
  | .none, _ => false
  | _, independent => !independent

/-- The edge of a dependent child. Its emitter is read by the constructor of the edge. -/
def edgeAfter (childId : U) (after : After U) (independent : Bool) (edgeId : U) :
    Except PyError (Option (Edge U κ)) :=
  if dependent after independent then
    after.getId.map fun emitter ↦ some (spawnEdge edgeId emitter childId)
  else .ok none

/-- The child is added where it is new. -/
def enter (s : Reactive U κ) (child : Child U) : Except PyError (Reactive U κ) :=
  if s.graph.hasNode child.id then .ok s else s.addChild child

def count (s : Reactive U κ) (childId : U) (newlyAdded : Bool) : Reactive U κ :=
  if newlyAdded then { s with spawnCount := s.spawnCount + 1, spawnedIds := s.spawnedIds ++ [childId] }
  else s

/-- `_accept_node` as far as it holds the lock. -/
def acceptLocked (s : Reactive U κ) (child : Child U) (after : After U) (independent : Bool)
    (edgeId : U) : Verdict × Reactive U κ :=
  let emitterId := after.getId.toOption
  if s.maxSpawn ≤ s.spawnCount then
    (.refused .maxSpawnExceeded, s.drop .maxSpawnExceeded emitterId (some child.id))
  else
    let newlyAdded := !s.graph.hasNode child.id
    match s.enter child with
    | .error _ => (.raised, s)
    | .ok s =>
      match edgeAfter child.id after independent edgeId with
      | .error _ => (.raised, s)
      | .ok edge =>
        match s.attach edge with
        | .error _ => (.raised, s)
        | .ok s =>
          match s.graph.isAcyclic with
          | .error _ => (.raised, s)
          | .ok true => (.accepted newlyAdded, s.count child.id newlyAdded)
          | .ok false =>
            match s.rollback child.id newlyAdded edge with
            | .error _ => (.raised, s)
            | .ok s => (.refused .cycle, s.drop .cycle emitterId (some child.id))

/-- A call of `_accept_node` as far as it holds the lock, remembered. -/
def attemptLocked (s : Reactive U κ) (child : Child U) (after : After U) (independent : Bool)
    (edgeId : U) : Verdict × Reactive U κ :=
  let (verdict, s') := s.acceptLocked child after independent edgeId
  (verdict, { s' with attempts := s.attempts ++ [⟨.inject, child.id, s.taskGroup, verdict⟩] })

/-- `self._tg.start_soon(self._run_tracked, child)` -/
def startSoon (s : Reactive U κ) (child : Child U) (answers : Answers) : Injected × Reactive U κ :=
  if answers.group then (.returned true, s.schedule child.id) else (.raised, s)

/-- What `inject` makes of the verdict. The branch of a new child is assigned before the child is
announced, and then it is scheduled. -/
def conclude (s : Reactive U κ) (child : Child U) (answers : Answers) :
    Verdict → Injected × Reactive U κ
  | .raised => (.raised, s)
  | .refused _ => (.returned false, s)
  | .accepted false => s.startSoon child answers
  | .accepted true =>
    if answers.branch then
      if answers.progress then (s.announce child.id).startSoon child answers
      else (.raised, s.announce child.id)
    else (.raised, s)

/-- `inject` -/
def injectWith (s : Reactive U κ) (child : Child U) (after : After U) (independent : Bool)
    (edgeId : U) (answers : Answers) : Injected × Reactive U κ :=
  if !s.running || !s.taskGroup then (.returned false, s)
  else
    let (verdict, s') := s.attemptLocked child after independent edgeId
    s'.conclude child answers verdict

/-! ## Runs with such calls -/

inductive InjectLabel (U : Type) where
  | step (l : Label U)
  | inject (child : Child U) (after : After U) (independent : Bool) (edgeId : U) (answers : Answers)

variable [ToString U] [JsonLoads]

def InjectStep (W : World U κ) (capacity : ℕ) (s : Reactive U κ) :
    InjectLabel U → Reactive U κ → Prop
  | .step l, t => Step W capacity s l t
  | .inject child after independent edgeId answers, t =>
    t = (s.injectWith child after independent edgeId answers).2

/-! ## Under the lock -/

omit [ToString U] [JsonLoads]

/-- The edge that the call asks for can be added: the emitter can be read and is a node or the child
itself, and the identifier of the edge is new. -/
def Attachable (s : Reactive U κ) (child : Child U) (after : After U) (independent : Bool) (edgeId : U) :
    Prop :=
  dependent after independent = true → ∃ emitter, after.getId = .ok emitter ∧
    (emitter = child.id ∨ s.graph.hasNode emitter = true) ∧ edgeId ∉ s.graph.internalEdges.collections

/-- The emitter can be reached from the child. -/
def ClosesCycle (s : Reactive U κ) (child : Child U) (after : After U) (independent : Bool) : Prop :=
  dependent after independent = true ∧
    ∃ emitter, after.getId = .ok emitter ∧ ReflTransGen s.graph.Linked child.id emitter

/-- The executor and the graph once the child is in. -/
structure Entered (s : Reactive U κ) (child : Child U) (executor : Executor U)
    (graph : Graph U (Option Operation) κ) : Prop where
  sound : graph.Sound ∅ ∅ ∅
  nodes : ∀ n, graph.hasNode n = true ↔ n = child.id ∨ s.graph.hasNode n = true
  edges : graph.internalEdges = s.graph.internalEdges
  known : s.graph.hasNode child.id = true → executor = s.run.executor ∧ graph = s.graph
  fresh : s.graph.hasNode child.id = false → executor = s.withChild child ∧
    s.graph.addNode ⟨child.id, some child.operation⟩ = .ok graph

variable {s : Reactive U κ} {child : Child U} {after : After U} {independent : Bool} {edgeId : U}

theorem enter_ok (hs : s.graph.Sound ∅ ∅ ∅) (child : Child U) :
    ∃ executor graph, s.enter child = .ok (s.replaced executor graph) ∧ Entered s child executor graph := by
  cases hknown : s.graph.hasNode child.id with
  | true =>
    refine ⟨s.run.executor, s.graph, ?_, hs, fun n ↦ ?_, rfl, fun _ ↦ ⟨rfl, rfl⟩, fun hfresh ↦ ?_⟩
    · rw [enter, if_pos hknown]
      rfl
    · refine ⟨Or.inr, fun h ↦ h.elim (fun heq ↦ heq ▸ hknown) id⟩
    · rw [hknown] at hfresh
      cases hfresh
  | false =>
    have htotal : ∃ graph, s.graph.addNode ⟨child.id, some child.operation⟩ = .ok graph :=
      Graph.addNode_total hknown
    obtain ⟨graph, hadd⟩ := htotal
    refine ⟨s.withChild child, graph, ?_, Graph.sound_addNode hs hadd, Graph.hasNode_addNode hs hadd, ?_,
      fun hmem ↦ ?_, fun _ ↦ ⟨rfl, hadd⟩⟩
    · rw [enter, hknown, addChild, hadd]
      rfl
    · obtain ⟨p, -, rfl⟩ := Graph.addNode_eq hadd
      rfl
    · rw [hknown] at hmem
      cases hmem

theorem Entered.linked {executor : Executor U} {graph : Graph U (Option Operation) κ}
    (h : Entered s child executor graph) : graph.Linked = s.graph.Linked := by
  funext h' t
  exact propext (exists_congr fun e ↦ Graph.joins_congr h.edges e h' t)

theorem Entered.acyclic {executor : Executor U} {graph : Graph U (Option Operation) κ}
    (h : Entered s child executor graph) (hacyclic : s.graph.Acyclic) : graph.Acyclic := by
  unfold Graph.Acyclic
  rw [h.linked]
  exact hacyclic

/-- What `_accept_node` does under the lock to a sound and acyclic graph. -/
inductive Locks (s : Reactive U κ) (child : Child U) (after : After U) (independent : Bool) (edgeId : U) :
    Verdict → Reactive U κ → Prop
  | full {emitter} (hfull : s.maxSpawn ≤ s.spawnCount) :
      Locks s child after independent edgeId (.refused .maxSpawnExceeded)
        (s.drop .maxSpawnExceeded emitter (some child.id))
  | detached {executor graph} (hroom : s.spawnCount < s.maxSpawn)
      (hnot : ¬ Attachable s child after independent edgeId) (hentered : Entered s child executor graph) :
      Locks s child after independent edgeId .raised (s.replaced executor graph)
  | cycle {executor graph emitter} (hroom : s.spawnCount < s.maxSpawn)
      (hattachable : Attachable s child after independent edgeId)
      (hcloses : ClosesCycle s child after independent) (hsound : graph.Sound ∅ ∅ ∅)
      (hcontents : Graph.SameContents s.graph graph)
      (hexecutor : executor = s.run.executor ∨
        s.graph.hasNode child.id = false ∧ executor = s.withoutChild child) :
      Locks s child after independent edgeId (.refused .cycle)
        ((s.replaced executor graph).drop .cycle emitter (some child.id))
  | accepted {executor entered graph} (hroom : s.spawnCount < s.maxSpawn)
      (hattachable : Attachable s child after independent edgeId)
      (hopen : ¬ ClosesCycle s child after independent) (hentered : Entered s child executor entered)
      (hsound : graph.Sound ∅ ∅ ∅) (hacyclic : graph.Acyclic)
      (hnodes : graph.internalNodes = entered.internalNodes)
      (hfree : dependent after independent = false → graph = entered)
      (hedge : dependent after independent = true → edgeId ∈ graph.internalEdges.collections) :
      Locks s child after independent edgeId (.accepted (!s.graph.hasNode child.id))
        ((s.replaced executor graph).count child.id (!s.graph.hasNode child.id))

/-- An edge is added to the graph of the child exactly when the call asks for one that can be added. -/
theorem Entered.attachable_iff {executor : Executor U} {entered : Graph U (Option Operation) κ}
    (h : Entered s child executor entered) (hdependent : dependent after independent = true)
    {emitter : U} (hemitter : after.getId = .ok emitter) :
    (∃ graph, entered.addEdge (spawnEdge edgeId emitter child.id) = .ok graph) ↔
      Attachable s child after independent edgeId := by
  have hchild : entered.hasNode child.id = true := (h.nodes child.id).2 (Or.inl rfl)
  rw [Graph.addEdge_total_iff h.sound]
  simp only [spawnEdge, h.nodes, true_or, true_and, h.edges]
  constructor
  · intro hadd _
    exact ⟨emitter, hemitter, hadd⟩
  · intro hattachable
    obtain ⟨emitter', hemitter', hadd⟩ := hattachable hdependent
    rw [hemitter, Except.ok.injEq] at hemitter'
    exact hemitter' ▸ hadd

theorem closesCycle_iff (hdependent : dependent after independent = true) {emitter : U}
    (hemitter : after.getId = .ok emitter) :
    ClosesCycle s child after independent ↔ ReflTransGen s.graph.Linked child.id emitter := by
  constructor
  · rintro ⟨-, emitter', hemitter', hback⟩
    rw [hemitter, Except.ok.injEq] at hemitter'
    exact hemitter' ▸ hback
  · intro hback
    exact ⟨hdependent, emitter, hemitter, hback⟩

/-- A cycle is taken back completely. -/
theorem Entered.rollback_ok {executor : Executor U} {entered graph : Graph U (Option Operation) κ}
    (hs : s.graph.Sound ∅ ∅ ∅) (h : Entered s child executor entered) {edge : Edge U κ}
    (hadd : entered.addEdge edge = .ok graph) :
    ∃ executor' graph', rollback (s.replaced executor graph) child.id (!s.graph.hasNode child.id)
        (some edge) = .ok (s.replaced executor' graph') ∧ graph'.Sound ∅ ∅ ∅ ∧
      Graph.SameContents s.graph graph' ∧ (executor' = s.run.executor ∨
        s.graph.hasNode child.id = false ∧ executor' = s.withoutChild child) := by
  have hsound := Graph.sound_addEdge h.sound hadd
  obtain ⟨detached, hremove, hsame⟩ := Graph.removeEdge_addEdge h.sound hadd
  have hsound' := Graph.sound_removeEdge hsound hremove
  have hdetach : detach (s.replaced executor graph) (some edge) = .ok (s.replaced executor detached) :=
    Graph.map_eq_ok.2 ⟨detached, hremove, rfl⟩
  cases hknown : s.graph.hasNode child.id with
  | true =>
    obtain ⟨rfl, rfl⟩ := h.known hknown
    refine ⟨s.run.executor, detached, ?_, hsound', hsame, Or.inl rfl⟩
    rw [rollback, hdetach]
    rfl
  | false =>
    obtain ⟨rfl, hnew⟩ := h.fresh hknown
    obtain ⟨restored, hremove', hsame'⟩ := Graph.removeNode_addNode hs hnew hsame
    refine ⟨s.withoutChild child, restored, ?_, Graph.sound_removeNode hsound' hremove', hsame',
      Or.inr ⟨rfl, rfl⟩⟩
    have hremoveChild : removeChild (s.replaced (s.withChild child) detached) child.id =
        .ok (s.replaced (s.withoutChild child) restored) :=
      Graph.map_eq_ok.2 ⟨restored, hremove', rfl⟩
    rw [rollback, hdetach]
    exact hremoveChild

theorem acceptLocked_locks (hs : s.graph.Sound ∅ ∅ ∅) (hacyclic : s.graph.Acyclic) (child : Child U)
    (after : After U) (independent : Bool) (edgeId : U) :
    Locks s child after independent edgeId (s.acceptLocked child after independent edgeId).1
      (s.acceptLocked child after independent edgeId).2 := by
  unfold acceptLocked
  split
  · next hfull => exact .full hfull
  · next hroom =>
    rw [Nat.not_le] at hroom
    obtain ⟨executor, entered, henter, hentered⟩ := enter_ok hs child
    have henteredAcyclic := hentered.acyclic hacyclic
    simp only [henter]
    cases hdependent : dependent after independent with
    | false =>
      have hattachable : Attachable s child after independent edgeId := fun hasked ↦ by
        rw [hdependent] at hasked
        cases hasked
      have hopen : ¬ ClosesCycle s child after independent := fun hcloses ↦ by
        have hasked := hcloses.1
        rw [hdependent] at hasked
        cases hasked
      obtain ⟨b, hb, hiff⟩ := hentered.sound.isAcyclic_iff
      cases hiff.2 henteredAcyclic
      simp only [edgeAfter, hdependent, Bool.false_eq_true, if_false, attach]
      rw [show (s.replaced executor entered).graph.isAcyclic = .ok true from hb]
      refine .accepted hroom hattachable hopen hentered hentered.sound henteredAcyclic rfl
        (fun _ ↦ rfl) fun hasked ↦ ?_
      rw [hdependent] at hasked
      cases hasked
    | true =>
      simp only [edgeAfter, hdependent, if_true]
      cases hemitter : after.getId with
      | error e =>
        refine .detached hroom (fun hattachable ↦ ?_) hentered
        obtain ⟨emitter, hread, -⟩ := hattachable hdependent
        rw [hemitter] at hread
        cases hread
      | ok emitter =>
        simp only [Except.map]
        cases hadd : entered.addEdge (spawnEdge edgeId emitter child.id) with
        | error e =>
          have hattach : attach (s.replaced executor entered)
              (some (spawnEdge edgeId emitter child.id)) = .error e := by
            rw [attach, show (s.replaced executor entered).graph = entered from rfl, hadd]
            rfl
          simp only [hattach]
          refine .detached hroom (fun hattachable ↦ ?_) hentered
          obtain ⟨graph, hok⟩ := (hentered.attachable_iff hdependent hemitter).2 hattachable
          rw [hadd] at hok
          cases hok
        | ok graph =>
          have hattach : attach (s.replaced executor entered)
              (some (spawnEdge edgeId emitter child.id)) = .ok (s.replaced executor graph) := by
            rw [attach, show (s.replaced executor entered).graph = entered from rfl, hadd]
            rfl
          have hattachable : Attachable s child after independent edgeId :=
            (hentered.attachable_iff hdependent hemitter).1 ⟨graph, hadd⟩
          have hsound := Graph.sound_addEdge hentered.sound hadd
          have hiff : graph.Acyclic ↔ ¬ ClosesCycle s child after independent := by
            rw [Graph.acyclic_addEdge_iff hentered.sound henteredAcyclic hadd, hentered.linked,
              closesCycle_iff hdependent hemitter]
            rfl
          obtain ⟨b, hb, hacyclicIff⟩ := hsound.isAcyclic_iff
          simp only [hattach]
          rw [show (s.replaced executor graph).graph.isAcyclic = .ok b from hb]
          cases b with
          | true =>
            have hgraphAcyclic := hacyclicIff.1 rfl
            refine .accepted hroom hattachable (hiff.1 hgraphAcyclic) hentered hsound hgraphAcyclic
              (Graph.nodes_addEdge hadd) (fun hasked ↦ ?_) fun _ ↦ ?_
            · rw [hdependent] at hasked
              cases hasked
            · have hjoins : graph.Joins edgeId emitter child.id := by
                rw [Graph.joins_addEdge hentered.sound hadd]
                simp [spawnEdge]
              exact hjoins.mem
          | false =>
            obtain ⟨executor', graph', hrollback, hsound', hcontents, hexecutor⟩ :=
              hentered.rollback_ok hs hadd
            have hcloses : ClosesCycle s child after independent := by
              apply Classical.not_not.1
              intro hopen
              cases hacyclicIff.2 (hiff.2 hopen)
            simp only [hrollback]
            exact .cycle hroom hattachable hcloses hsound' hcontents hexecutor

/-! ## The invariant -/

variable {maxSpawn : ℕ}

/-- The child that is in the graph, with its edge or without. -/
theorem Growing.entered (h : Growing maxSpawn s) {executor : Executor U}
    {entered graph : Graph U (Option Operation) κ} (hentered : Entered s child executor entered)
    (hsound : graph.Sound ∅ ∅ ∅) (hacyclic : graph.Acyclic)
    (hnodes : graph.internalNodes = entered.internalNodes) :
    Growing maxSpawn (s.replaced executor graph) := by
  have hgrown (n : U) : graph.hasNode n = true ↔ n = child.id ∨ s.graph.hasNode n = true := by
    rw [Graph.hasNode_congr hnodes]
    exact hentered.nodes n
  apply h.replaced hsound hacyclic fun n hn ↦ (hgrown n).2 (Or.inr hn)
  cases hknown : s.graph.hasNode child.id with
  | true =>
    rw [(hentered.known hknown).1]
    intro n hn
    apply h.outside n
    rw [← Bool.not_eq_true] at hn ⊢
    exact fun hmem ↦ hn ((hgrown n).2 (Or.inr hmem))
  | false =>
    rw [(hentered.fresh hknown).1]
    exact h.outside_withChild hgrown

theorem Growing.attemptLocked (h : Growing maxSpawn s) (child : Child U) (after : After U)
    (independent : Bool) (edgeId : U) :
    Growing maxSpawn (s.attemptLocked child after independent edgeId).2 := by
  have hlocks := acceptLocked_locks h.sound h.acyclic child after independent edgeId
  unfold Reactive.attemptLocked
  generalize s.acceptLocked child after independent edgeId = result at hlocks ⊢
  obtain ⟨verdict, s'⟩ := result
  dsimp only at hlocks ⊢
  cases hlocks with
  | full => exact (h.of_same (sameGrowth_drop s _ _ _)).remember rfl (by simp)
  | detached hroom hnot hentered =>
    have hgrown := h.entered hentered hentered.sound (hentered.acyclic h.acyclic) rfl
    exact hgrown.remember rfl (by simp)
  | cycle hroom hattachable hcloses hsound hcontents hexecutor =>
    have hcycle := h.restored hsound hcontents hexecutor
    exact (hcycle.of_same (sameGrowth_drop _ _ _ _)).remember rfl (by simp)
  | accepted hroom hattachable hopen hentered hsound hacyclic hnodes hfree hedge =>
    have hgrown := h.entered hentered hsound hacyclic hnodes
    cases hknown : s.graph.hasNode child.id with
    | true => exact hgrown.remember rfl (by simp)
    | false =>
      obtain ⟨rfl, -⟩ := hentered.fresh hknown
      refine h.counted (a := ⟨.inject, child.id, s.taskGroup, .accepted true⟩) hroom hknown hsound
        hacyclic (fun n ↦ ?_) rfl rfl
      rw [Graph.hasNode_congr hnodes]
      exact hentered.nodes n

theorem Growing.startSoon (h : Growing maxSpawn s) (child : Child U) (answers : Answers) :
    Growing maxSpawn (s.startSoon child answers).2 := by
  unfold Reactive.startSoon
  split
  · exact h.of_same (sameGrowth_schedule _ _)
  · exact h

theorem Growing.conclude (h : Growing maxSpawn s) (child : Child U) (answers : Answers)
    (verdict : Verdict) : Growing maxSpawn (s.conclude child answers verdict).2 := by
  have hannounced := h.of_same (sameGrowth_announce s child.id)
  unfold Reactive.conclude
  split
  · exact h
  · exact h
  · exact h.startSoon child answers
  · split
    · split
      · exact hannounced.startSoon child answers
      · exact hannounced
    · exact h

theorem Growing.injectWith (h : Growing maxSpawn s) (child : Child U) (after : After U)
    (independent : Bool) (edgeId : U) (answers : Answers) :
    Growing maxSpawn (s.injectWith child after independent edgeId answers).2 := by
  have hattempt := h.attemptLocked child after independent edgeId
  unfold Reactive.injectWith
  generalize s.attemptLocked child after independent edgeId = result at hattempt ⊢
  obtain ⟨verdict, s'⟩ := result
  split
  · exact h
  · exact Growing.conclude hattempt child answers verdict

theorem Growing.injectStep [ToString U] [JsonLoads] {W : World U κ} {capacity : ℕ} {s' : Reactive U κ}
    {l : InjectLabel U} (h : Growing maxSpawn s) (hstep : InjectStep W capacity s l s') :
    Growing maxSpawn s' := by
  cases l with
  | step l => exact h.step hstep
  | inject child after independent edgeId answers =>
    cases hstep
    exact h.injectWith child after independent edgeId answers

/-! ## Traces -/

/-- The graph, the completion events and the counters are what they were. -/
structure NoTrace (s s' : Reactive U κ) : Prop extends Untouched s s' where
  spawnCount : s'.spawnCount = s.spawnCount
  spawnedIds : s'.spawnedIds = s.spawnedIds

/-- When a failing call of `inject` leaves no trace. A known child leaves one where its new edge is not
followed by a task, a new child where its edge cannot be added or one of the later steps fails. -/
def Harmless (s : Reactive U κ) (child : Child U) (after : After U) (independent : Bool) (edgeId : U)
    (answers : Answers) : Prop :=
  s.running = false ∨ s.taskGroup = false ∨ s.maxSpawn ≤ s.spawnCount ∨
    if s.graph.hasNode child.id then
      dependent after independent = false ∨ ¬ Attachable s child after independent edgeId ∨
        ClosesCycle s child after independent ∨ answers.group = true
    else
      Attachable s child after independent edgeId ∧ (ClosesCycle s child after independent ∨
        answers.branch = true ∧ answers.progress = true ∧ answers.group = true)

theorem harmless_iff (hrunning : s.running = true) (hgroup : s.taskGroup = true)
    (hroom : s.spawnCount < s.maxSpawn) {answers : Answers} :
    Harmless s child after independent edgeId answers ↔
      if s.graph.hasNode child.id then
        dependent after independent = false ∨ ¬ Attachable s child after independent edgeId ∨
          ClosesCycle s child after independent ∨ answers.group = true
      else
        Attachable s child after independent edgeId ∧ (ClosesCycle s child after independent ∨
          answers.branch = true ∧ answers.progress = true ∧ answers.group = true) := by
  simp only [Harmless, hrunning, hgroup, Bool.true_eq_false, false_or, Nat.not_le.2 hroom]

/-- A state whose counters are those of before. -/
structure Uncounted (s : Reactive U κ) (executor : Executor U) (graph : Graph U (Option Operation) κ)
    (s' : Reactive U κ) : Prop where
  graph : s'.graph = graph
  executor : s'.run.executor = executor
  spawnCount : s'.spawnCount = s.spawnCount
  spawnedIds : s'.spawnedIds = s.spawnedIds

/-- Without its edge a child leaves a trace exactly when it is new. -/
theorem Entered.noTrace_iff {s' : Reactive U κ} {executor : Executor U}
    {graph : Graph U (Option Operation) κ} (h : Entered s child executor graph)
    (hs' : Uncounted s executor graph s') : NoTrace s s' ↔ s.graph.hasNode child.id = true := by
  constructor
  · intro hsame
    rw [← Graph.hasNode_congr hsame.contents.nodes, hs'.graph, h.nodes]
    exact Or.inl rfl
  · intro hknown
    obtain ⟨hexecutor, hgraph⟩ := h.known hknown
    have hcontents : s'.graph = s.graph := hs'.graph.trans hgraph
    refine ⟨⟨⟨?_, ?_, ?_⟩, fun n ↦ ?_⟩, hs'.spawnCount, hs'.spawnedIds⟩
    · rw [hcontents]
    · rw [hcontents]
    · rw [hcontents]
    · rw [hs'.executor, hexecutor]

/-- A known child that was accepted leaves a trace exactly when it got an edge. -/
theorem Entered.noTrace_edge_iff {s' : Reactive U κ} {executor : Executor U}
    {entered graph : Graph U (Option Operation) κ} (h : Entered s child executor entered)
    (hknown : s.graph.hasNode child.id = true)
    (hattachable : Attachable s child after independent edgeId)
    (hfree : dependent after independent = false → graph = entered)
    (hedge : dependent after independent = true → edgeId ∈ graph.internalEdges.collections)
    (hs' : Uncounted s executor graph s') : NoTrace s s' ↔ dependent after independent = false := by
  constructor
  · intro hsame
    rw [← Bool.not_eq_true]
    intro hdependent
    obtain ⟨emitter, -, -, hnew⟩ := hattachable hdependent
    have hedges : graph.internalEdges = s.graph.internalEdges := hs'.graph ▸ hsame.contents.edges
    exact hnew (hedges ▸ hedge hdependent)
  · intro hdependent
    rw [hfree hdependent] at hs'
    exact (h.noTrace_iff hs').2 hknown

omit [DecidableEq U] in
theorem not_noTrace_of_counted {s' : Reactive U κ} (h : s'.spawnCount = s.spawnCount + 1) :
    ¬ NoTrace s s' := by
  intro htrace
  have hsame := htrace.spawnCount
  omega

/-- A call that is not made, or that is made to end in failure, is judged by the state it leaves. -/
theorem failed_iff {result : Injected} (h : result ≠ .returned true) {P : Prop} :
    (result ≠ .returned true → P) ↔ P :=
  imp_iff_right h

omit [DecidableEq U] in
/-- What follows the acceptance of a known child. -/
theorem startSoon_noTrace_iff {s' : Reactive U κ} {answers : Answers} {free : Prop}
    (hs' : NoTrace s s' ↔ free) :
    ((s'.startSoon child answers).1 ≠ .returned true → NoTrace s (s'.startSoon child answers).2) ↔
      free ∨ answers.group = true := by
  unfold Reactive.startSoon
  cases answers.group with
  | true => exact iff_of_true (fun h ↦ absurd rfl h) (Or.inr rfl)
  | false =>
    refine (failed_iff (by simp)).trans (hs'.trans ?_)
    simp

omit [DecidableEq U] in
/-- What follows the acceptance of a new child. -/
theorem conclude_noTrace_iff {s' : Reactive U κ} {answers : Answers}
    (hs' : s'.spawnCount = s.spawnCount + 1) :
    ((s'.conclude child answers (.accepted true)).1 ≠ .returned true →
        NoTrace s (s'.conclude child answers (.accepted true)).2) ↔
      answers.branch = true ∧ answers.progress = true ∧ answers.group = true := by
  unfold conclude
  cases answers.branch with
  | false => exact iff_of_false (fun h ↦ not_noTrace_of_counted hs' (h (by simp))) (by simp)
  | true =>
    cases answers.progress with
    | false =>
      have hannounced : (s'.announce child.id).spawnCount = s.spawnCount + 1 := hs'
      exact iff_of_false (fun h ↦ not_noTrace_of_counted hannounced (h (by simp))) (by simp)
    | true =>
      have hannounced : (s'.announce child.id).spawnCount = s.spawnCount + 1 := hs'
      have hcounted := iff_of_false (not_noTrace_of_counted hannounced) not_false
      refine (startSoon_noTrace_iff hcounted).trans ?_
      simp

/-- A failing call leaves no trace exactly when it is harmless. -/
theorem Growing.noTrace_iff (h : Growing maxSpawn s) (child : Child U) (after : After U)
    (independent : Bool) (edgeId : U) (answers : Answers) :
    ((s.injectWith child after independent edgeId answers).1 ≠ .returned true →
        NoTrace s (s.injectWith child after independent edgeId answers).2) ↔
      Harmless s child after independent edgeId answers := by
  have hsame : NoTrace s s := ⟨⟨⟨rfl, rfl, rfl⟩, fun _ ↦ rfl⟩, rfl, rfl⟩
  cases hrunning : s.running with
  | false =>
    rw [Reactive.injectWith, hrunning]
    exact iff_of_true (fun _ ↦ hsame) (Or.inl hrunning)
  | true =>
    cases hgroup : s.taskGroup with
    | false =>
      rw [Reactive.injectWith, hrunning, hgroup]
      exact iff_of_true (fun _ ↦ hsame) (Or.inr (Or.inl hgroup))
    | true =>
      have hlocks := acceptLocked_locks h.sound h.acyclic child after independent edgeId
      simp only [Reactive.injectWith, hrunning, hgroup, Reactive.attemptLocked, Bool.not_true, Bool.or_self,
        Bool.false_eq_true, if_false]
      generalize s.acceptLocked child after independent edgeId = result at hlocks ⊢
      obtain ⟨verdict, s'⟩ := result
      dsimp only at hlocks ⊢
      cases hlocks with
      | full hfull =>
        refine iff_of_true (fun _ ↦ ?_) (Or.inr (Or.inr (Or.inl hfull)))
        exact ⟨⟨⟨rfl, rfl, rfl⟩, fun _ ↦ rfl⟩, rfl, rfl⟩
      | detached hroom hnot hentered =>
        rw [harmless_iff hrunning hgroup hroom]
        have hraised : Injected.raised ≠ .returned true := by simp
        refine (failed_iff hraised).trans ((hentered.noTrace_iff ?_).trans ?_)
        · exact ⟨rfl, rfl, rfl, rfl⟩
        · cases s.graph.hasNode child.id <;> simp [hnot]
      | cycle hroom hattachable hcloses hsound hcontents hexecutor =>
        rw [harmless_iff hrunning hgroup hroom]
        refine iff_of_true (fun _ ↦ ?_) ?_
        · exact ⟨⟨hcontents, h.event_cycle hexecutor⟩, rfl, rfl⟩
        · split
          · exact Or.inr (Or.inr (Or.inl hcloses))
          · exact ⟨hattachable, Or.inl hcloses⟩
      | accepted hroom hattachable hopen hentered hsound hacyclic hnodes hfree hedge =>
        rw [harmless_iff hrunning hgroup hroom]
        cases hknown : s.graph.hasNode child.id with
        | true =>
          refine (startSoon_noTrace_iff
            (hentered.noTrace_edge_iff hknown hattachable hfree hedge ?_)).trans ?_
          · exact ⟨rfl, rfl, rfl, rfl⟩
          · simp [hattachable, hopen]
        | false =>
          refine (conclude_noTrace_iff rfl).trans ?_
          simp [hattachable, hopen]

variable [ToString U] [JsonLoads]

/-- In every state of a run on an acyclic graph, whatever calls of `inject` belong to it, a call that
does not return `True` leaves no trace exactly when it is harmless. -/
theorem inject_noTrace_iff (W : World U κ) (capacity : ℕ) (graph : Graph U (Option Operation) κ)
    (hsound : graph.Sound ∅ ∅ ∅) (hacyclic : graph.Acyclic) (initial : U → Initial)
    (workspace : Entries) (maxSpawn : ℕ) (stream : Bool) (s : Reactive U κ)
    (h : Reachable (InjectStep W capacity) (start graph initial workspace maxSpawn stream) s)
    (child : Child U) (after : After U) (independent : Bool) (edgeId : U) (answers : Answers) :
    ((s.injectWith child after independent edgeId answers).1 ≠ .returned true →
        NoTrace s (s.injectWith child after independent edgeId answers).2) ↔
      Harmless s child after independent edgeId answers := by
  have hgrowing : Growing maxSpawn s :=
    h.invariant (growing_start hsound hacyclic initial workspace maxSpawn stream)
      fun _ _ _ hs hstep ↦ hs.injectStep hstep
  exact hgrowing.noTrace_iff child after independent edgeId answers

end Inject

/-! ## Calls on one operation -/

section Example

local instance injectLoads : JsonLoads := JsonLoads.never

def agreeing : Answers := ⟨true, true, true⟩

/-- A child that is to follow itself is refused, and everything is taken back. -/
theorem inject_noTrace_iff_self :
    ((start single idle [] 5 false).injectWith (newcomer 2) (.uuid 2) false 20 agreeing).1 =
        .returned false ∧
      NoTrace (start single idle [] 5 false)
        ((start single idle [] 5 false).injectWith (newcomer 2) (.uuid 2) false 20 agreeing).2 := by
  have hiff := inject_noTrace_iff echo.world 1 single single_sound single_acyclic idle [] 5 false _ .start
    (newcomer 2) (.uuid 2) false 20 agreeing
  have hrefused : ((start single idle [] 5 false).injectWith (newcomer 2) (.uuid 2) false 20 agreeing).1 =
      .returned false := by decide +kernel
  refine ⟨hrefused, hiff.2 ?_ (by rw [hrefused]; decide)⟩
  refine Or.inr (Or.inr (Or.inr ?_))
  have hfresh : (start single idle [] 5 false).graph.hasNode (newcomer 2).id = false := by decide +kernel
  rw [hfresh]
  exact ⟨fun _ ↦ ⟨2, rfl, Or.inl rfl, by decide +kernel⟩, Or.inl ⟨rfl, 2, rfl, .refl⟩⟩

/-- A child that is to follow an operation outside the graph stays in the graph, with its completion
event. -/
theorem not_noTrace_stranger :
    ((start single idle [] 5 false).injectWith (newcomer 2) (.uuid 7) false 20 agreeing).1 = .raised ∧
      (start single idle [] 5 false).graph.hasNode 2 = false ∧
      ((start single idle [] 5 false).injectWith (newcomer 2) (.uuid 7) false 20
        agreeing).2.graph.hasNode 2 = true ∧
      ¬ NoTrace (start single idle [] 5 false)
        ((start single idle [] 5 false).injectWith (newcomer 2) (.uuid 7) false 20 agreeing).2 := by
  have hbefore : (start single idle [] 5 false).graph.hasNode 2 = false := by decide +kernel
  have hafter : ((start single idle [] 5 false).injectWith (newcomer 2) (.uuid 7) false 20
      agreeing).2.graph.hasNode 2 = true := by decide +kernel
  refine ⟨by decide +kernel, hbefore, hafter, fun htrace ↦ ?_⟩
  rw [Graph.hasNode_congr htrace.contents.nodes, hbefore] at hafter
  cases hafter

end Example

end Reactive

end Lionagi.Operations
