import Lionagi.Operations.GateVeto
import Lionagi.Operations.ReactiveSchedule

/-!
# Signals of a growing group

The signals of `execute`, and those of a reactive run, whose operations are announced while it goes on:
the initial ones when the group is opened, and each new child when it is accepted.
-/

namespace Lionagi.Operations

open Ln Protocols Transition

namespace Reactive

/-! ## What was announced -/

section Announced

variable {U κ : Type} [DecidableEq U]

/-- The status that an operation had when it was first announced. -/
def statusOf (s : Reactive U κ) (n : U) : Option EventStatus :=
  (s.announced.find? fun entry ↦ entry.1 = n).map Prod.snd

variable {s s' : Reactive U κ} {n : U}

theorem statusOf_eq_none : s.statusOf n = none ↔ ∀ entry ∈ s.announced, entry.1 ≠ n := by
  simp [statusOf]

theorem exists_of_statusOf {st : EventStatus} (h : s.statusOf n = some st) :
    ∃ entry ∈ s.announced, entry.1 = n := by
  obtain ⟨entry, hentry, -⟩ := Option.map_eq_some_iff.1 h
  exact ⟨entry, List.mem_of_find?_eq_some hentry, by simpa using List.find?_some hentry⟩

/-- Another announcement of an operation changes nothing. -/
theorem statusOf_announce_old (h : s.statusOf n ≠ none) : (s.announce n).statusOf = s.statusOf := by
  funext m
  obtain ⟨st, hst⟩ := Option.ne_none_iff_exists'.1 h
  obtain ⟨entry, hentry, -⟩ := Option.map_eq_some_iff.1 hst
  by_cases hm : n = m
  · subst hm
    simp [statusOf, announce, modifyExecutor, List.find?_append, hentry]
  · simp [statusOf, announce, modifyExecutor, List.find?_append, hm]

theorem statusOf_announce_new (h : s.statusOf n = none) :
    (s.announce n).statusOf =
      Function.update s.statusOf n (some (s.run.executor.record n).status) := by
  funext m
  by_cases hm : n = m
  · subst hm
    rw [Function.update_self]
    have hnone : s.announced.find? (fun entry ↦ entry.1 = n) = none := Option.map_eq_none_iff.1 h
    simp [statusOf, announce, modifyExecutor, List.find?_append, hnone]
  · rw [Function.update_of_ne (Ne.symm hm)]
    simp [statusOf, announce, modifyExecutor, List.find?_append, hm]

/-! ## The invariant -/

/-- The signals settle, tasks and announcements are about nodes of the graph, and what is announced
was in the graph at the start or was accepted. -/
structure Signalled (s : Reactive U κ) : Prop where
  settling : RunState.Settling s.statusOf s.run
  keys : ∀ key, s.nextKey ≤ key → s.run.task key = none
  nodes : ∀ key n, (s.run.task key).map Task.node = some n → s.graph.hasNode n = true
  announced : ∀ entry ∈ s.announced, s.graph.hasNode entry.1 = true
  sources : ∀ entry ∈ s.announced, s.opened = true ∧ entry.1 ∈ s.initial ∨ entry.1 ∈ s.acceptedNew
  closed : s.opened = false → s.nextKey = 0
  grouped : s.taskGroup = true → s.opened = true

/-- A change of what has nothing to do with signals. -/
theorem Signalled.of_same (h : Signalled s) (hrun : s'.run = s.run) (hgraph : s'.graph = s.graph)
    (hinitial : s'.initial = s.initial) (hkey : s'.nextKey = s.nextKey)
    (hannounced : s'.announced = s.announced) (hattempts : s'.attempts = s.attempts)
    (hopened : s'.opened = s.opened) (hgroup : s'.taskGroup = true → s.taskGroup = true) :
    Signalled s' where
  settling := by
    rw [show s'.statusOf = s.statusOf from funext fun n ↦ by rw [statusOf, hannounced, statusOf], hrun]
    exact h.settling
  keys := by
    rw [hkey, hrun]
    exact h.keys
  nodes := by
    rw [hrun, hgraph]
    exact h.nodes
  announced := by
    rw [hannounced, hgraph]
    exact h.announced
  sources := by
    rw [hannounced, hopened, hinitial, acceptedNew, hattempts]
    exact h.sources
  closed := by
    rw [hopened, hkey]
    exact h.closed
  grouped hg := hopened.trans (h.grouped (hgroup hg))

/-- An operation outside the graph has neither been announced nor scheduled. -/
theorem Signalled.fresh (h : Signalled s) (hn : s.graph.hasNode n = false) :
    s.statusOf n = none ∧ ∀ key t, s.run.task key ≠ some ⟨n, t⟩ := by
  constructor
  · apply statusOf_eq_none.2
    rintro entry hentry rfl
    rw [h.announced entry hentry] at hn
    cases hn
  · intro key t ht
    rw [h.nodes key n (by rw [ht]; rfl)] at hn
    cases hn

variable {graph : Graph U (Option Operation) κ}

/-- The record of a new child is written, and the graph grows. -/
theorem Signalled.replaced (h : Signalled s) {executor : Executor U}
    (hexecutor : RunState.Settling s.statusOf { s.run with executor })
    (hnodes : ∀ n, s.graph.hasNode n = true → graph.hasNode n = true) :
    Signalled (s.replaced executor graph) where
  settling := hexecutor
  keys := h.keys
  nodes key n hn := hnodes n (h.nodes key n hn)
  announced entry hentry := hnodes entry.1 (h.announced entry hentry)
  sources := h.sources
  closed := h.closed
  grouped := h.grouped

variable {child : Child U}

theorem Signalled.withChild (h : Signalled s) (hfresh : s.graph.hasNode child.id = false) :
    RunState.Settling s.statusOf { s.run with executor := s.withChild child } :=
  h.settling.modify (h.fresh hfresh).1 rfl

theorem Signalled.withoutChild (h : Signalled s) (hfresh : s.graph.hasNode child.id = false) :
    RunState.Settling s.statusOf { s.run with executor := s.withoutChild child } :=
  (h.withChild hfresh).modify (h.fresh hfresh).1 rfl

/-- An announcement is heard as a signal that is not terminal. -/
theorem settling_announce (h : RunState.Settling s.statusOf s.run)
    (hidle : s.statusOf n = none → ∀ key t, s.run.task key ≠ some ⟨n, t⟩) :
    RunState.Settling (s.announce n).statusOf (s.announce n).run := by
  have hquiet : ∀ announced, RunState.Settling announced s.run →
      RunState.Settling announced (s.announce n).run := by
    intro announced hsettling
    refine hsettling.of_same rfl (fun m ↦ ?_) rfl id
    simp [announce, modifyExecutor, Executor.terminals, Executor.emitProgress, Progress.terminal]
  apply hquiet
  by_cases hn : s.statusOf n = none
  · rw [statusOf_announce_new hn]
    exact h.announce (hidle hn)
  · rw [statusOf_announce_old hn]
    exact h

theorem Signalled.schedule (h : Signalled s) (hn : s.graph.hasNode n = true)
    (hopened : s.opened = true) : Signalled (s.schedule n) where
  settling := h.settling.schedule (h.keys s.nextKey le_rfl) n
  keys key hkey := by
    have hlt : s.nextKey < key := hkey
    exact (Function.update_of_ne hlt.ne' _ _).trans (h.keys key hlt.le)
  nodes key m hm := by
    by_cases hkey : key = s.nextKey
    · subst hkey
      rw [show (s.schedule n).run.task s.nextKey = some ⟨n, .created⟩ from Function.update_self _ _ _,
        Option.map_some, Option.some.injEq] at hm
      exact hm ▸ hn
    · rw [show (s.schedule n).run.task key = s.run.task key from Function.update_of_ne hkey _ _] at hm
      exact h.nodes key m hm
  announced := h.announced
  sources := h.sources
  closed hclosed := by
    rw [show (s.schedule n).opened = s.opened from rfl, hopened] at hclosed
    cases hclosed
  grouped := h.grouped

/-! ## What each step does to it -/

variable {maxSpawn : ℕ}

/-- A call of `_accept_node` keeps the invariant. -/
theorem Signalled.attempt (h : Signalled s) (hgrowing : Growing maxSpawn s) {source : Source} {emitterId : Option U}
    {independent : Bool} {edgeId : U} {v : Verdict}
    (heq : s.attempt source child emitterId independent edgeId = (v, s')) :
    Signalled s' ∧ (v.Accepted → s'.graph.hasNode child.id = true) := by
  obtain ⟨s₁, haccepts, rfl⟩ := hgrowing.attempt_eq heq
  have hattempts : s₁.attempts = s.attempts := haccepts.frame.attempts
  -- remembering an attempt adds to the sources
  have hremember : ∀ a : Attempt U, Signalled s₁ →
      Signalled { s₁ with attempts := s.attempts ++ [a] } := by
    intro a hs₁
    refine ⟨hs₁.settling, hs₁.keys, hs₁.nodes, hs₁.announced, fun entry hentry ↦ ?_, hs₁.closed,
      hs₁.grouped⟩
    apply (hs₁.sources entry hentry).imp_right
    intro hmem
    rw [acceptedNew, hattempts] at hmem
    rw [acceptedNew, List.filter_append, List.map_append]
    exact List.mem_append_left _ hmem
  cases haccepts with
  | full => exact ⟨hremember _ (h.of_same rfl rfl rfl rfl rfl rfl rfl id), by simp [Verdict.Accepted]⟩
  | unchanged => exact ⟨hremember _ h, by simp [Verdict.Accepted]⟩
  | stranded hfresh hsound hacyclic hnodes =>
    refine ⟨hremember _ (h.replaced (h.withChild hfresh) fun n hn ↦ (hnodes n).2 (.inr hn)), ?_⟩
    simp [Verdict.Accepted]
  | @cycle executor graph _ hsound hcontents hexecutor =>
    have hsettling : RunState.Settling s.statusOf { s.run with executor } := by
      rcases hexecutor with rfl | ⟨hfresh, rfl⟩
      · exact h.settling
      · exact h.withoutChild hfresh
    have hnodes := Graph.hasNode_congr hcontents.nodes
    have hcycle := h.replaced hsettling fun n hn ↦ (hnodes n).trans hn
    exact ⟨hremember _ (hcycle.of_same rfl rfl rfl rfl rfl rfl rfl id), by simp [Verdict.Accepted]⟩
  | known hroom hknown hsound hacyclic hnodes =>
    have hcongr := Graph.hasNode_congr hnodes
    refine ⟨hremember _ (h.replaced h.settling fun n hn ↦ (hcongr n).trans hn), fun _ ↦ ?_⟩
    exact (hcongr child.id).trans hknown
  | @new graph hroom hfresh hsound hacyclic hnodes =>
    have hchild := h.replaced (h.withChild hfresh) fun n hn ↦ (hnodes n).2 (.inr hn)
    have hmember : graph.hasNode child.id = true := (hnodes child.id).2 (.inl rfl)
    refine ⟨⟨?_, hchild.keys, hchild.nodes, ?_, ?_, hchild.closed, hchild.grouped⟩, fun _ ↦ hmember⟩
    · exact settling_announce hchild.settling fun _ ↦ (h.fresh hfresh).2
    · intro entry hentry
      rcases List.mem_append.1 hentry with hentry | hentry
      · exact hchild.announced entry hentry
      · rw [List.mem_singleton.1 hentry]
        exact hmember
    · intro entry hentry
      rw [acceptedNew, List.filter_append, List.map_append]
      rcases List.mem_append.1 hentry with hentry | hentry
      · exact (h.sources entry hentry).imp_right (List.mem_append_left _)
      · rw [List.mem_singleton.1 hentry]
        exact .inr (List.mem_append_right _ (by simp))

theorem Signalled.inject (h : Signalled s) (hgrowing : Growing maxSpawn s) (child : Child U)
    (after : Option U) (independent : Bool) (edgeId : U) :
    Signalled (s.inject child after independent edgeId) := by
  unfold Reactive.inject
  split
  · exact h
  · next hopen =>
    have hopened : s.opened = true := by
      rw [Bool.or_eq_true, not_or] at hopen
      exact h.grouped (by simpa using hopen.2)
    split
    · next newlyAdded s' heq =>
      obtain ⟨hs', hmember⟩ := h.attempt hgrowing heq
      obtain ⟨s₁, haccepts, rfl⟩ := hgrowing.attempt_eq heq
      apply hs'.schedule (hmember (by cases newlyAdded <;> simp [Verdict.Accepted]))
      exact haccepts.frame.opened.trans hopened
    · next heq => exact (h.attempt hgrowing heq).1

theorem Signalled.injectRequest (h : Signalled s) (hgrowing : Growing maxSpawn s) (req : ℕ)
    (emitterId : Option U) (built : Built U) (independent : Bool) (edgeId : U) :
    Signalled (s.injectRequest req emitterId built independent edgeId) := by
  have hseen : Signalled { s with seenReqs := req :: s.seenReqs } :=
    h.of_same rfl rfl rfl rfl rfl rfl rfl id
  have hgrowing' : Growing maxSpawn { s with seenReqs := req :: s.seenReqs } :=
    hgrowing.of_same ⟨rfl, rfl, rfl, rfl, rfl, fun _ ↦ id⟩
  unfold Reactive.injectRequest
  split
  · exact h.of_same rfl rfl rfl rfl rfl rfl rfl id
  · cases built with
    | error => exact hseen.of_same rfl rfl rfl rfl rfl rfl rfl id
    | null => exact hseen.of_same rfl rfl rfl rfl rfl rfl rfl id
    | child child =>
      dsimp only
      split
      · next newlyAdded s' heq =>
        obtain ⟨hs', hmember⟩ := hseen.attempt hgrowing' heq
        split
        · next hgroup =>
          apply hs'.schedule (hmember (by cases newlyAdded <;> simp [Verdict.Accepted]))
          exact hs'.grouped hgroup
        · exact hs'
      · next heq => exact (hseen.attempt hgrowing' heq).1

theorem Signalled.scheduleEscalation (h : Signalled s) (hgrowing : Growing maxSpawn s) (req : ℕ)
    (emitterId : Option U) (urgency : String) (route : Option String) (child : Child U)
    (edgeId : U) : Signalled (s.scheduleEscalation req emitterId urgency route child edgeId) := by
  have hseen : Signalled { s with seenReqs := req :: s.seenReqs } :=
    h.of_same rfl rfl rfl rfl rfl rfl rfl id
  have hgrowing' : Growing maxSpawn { s with seenReqs := req :: s.seenReqs } :=
    hgrowing.of_same ⟨rfl, rfl, rfl, rfl, rfl, fun _ ↦ id⟩
  unfold Reactive.scheduleEscalation
  split
  · exact h
  · dsimp only
    split
    · split
      · next heq => exact (hseen.attempt hgrowing' heq).1.of_same rfl rfl rfl rfl rfl rfl rfl id
      · next heq => exact (hseen.attempt hgrowing' heq).1
    · split
      · exact hseen
      · exact hseen.of_same rfl rfl rfl rfl rfl rfl rfl id

/-- The initial operations are announced and scheduled one after the other; whatever has a task by then
has been announced. -/
theorem Signalled.openGroup (h : Signalled s) (hclosed : s.opened = false)
    (hinitial : ∀ n ∈ s.initial, s.graph.hasNode n = true) : Signalled s.openGroup := by
  have hfold : ∀ (l : List U) (s : Reactive U κ), Signalled s → s.opened = true →
      (∀ n ∈ l, n ∈ s.initial ∧ s.graph.hasNode n = true) →
      (∀ key n t, s.run.task key = some ⟨n, t⟩ → s.statusOf n ≠ none) →
      Signalled (l.foldl (fun s n ↦ (s.announce n).schedule n) s) := by
    intro l
    induction l with
    | nil => exact fun _ hs _ _ _ ↦ hs
    | cons n l ih =>
      intro s hs hopened hl htasks
      obtain ⟨hn, hmember⟩ := hl n List.mem_cons_self
      have hannounced : Signalled (s.announce n) :=
        { settling := settling_announce hs.settling fun hnone key t ht ↦ htasks key n t ht hnone
          keys := hs.keys
          nodes := hs.nodes
          announced := by
            intro entry hentry
            rcases List.mem_append.1 hentry with hentry | hentry
            · exact hs.announced entry hentry
            · exact (List.mem_singleton.1 hentry) ▸ hmember
          sources := by
            intro entry hentry
            rcases List.mem_append.1 hentry with hentry | hentry
            · exact hs.sources entry hentry
            · exact .inl ⟨hopened, (List.mem_singleton.1 hentry) ▸ hn⟩
          closed := hs.closed
          grouped := hs.grouped }
      refine ih _ (hannounced.schedule hmember hopened) hopened
        (fun m hm ↦ hl m (List.mem_cons_of_mem n hm)) fun key m t ht hnone ↦ ?_
      have hnone' : ∀ entry ∈ s.announced ++ [(n, (s.run.executor.record n).status)], entry.1 ≠ m :=
        statusOf_eq_none.1 hnone
      by_cases hkey : key = s.nextKey
      · subst hkey
        rw [show ((s.announce n).schedule n).run.task s.nextKey = some ⟨n, .created⟩ from
          Function.update_self _ _ _, Option.some.injEq, Task.mk.injEq] at ht
        exact hnone' _ (List.mem_append_right _ List.mem_cons_self) ht.1
      · rw [show ((s.announce n).schedule n).run.task key = s.run.task key from
          Function.update_of_ne hkey _ _] at ht
        apply htasks key m t ht
        exact statusOf_eq_none.2 fun entry hentry ↦ hnone' entry (List.mem_append_left _ hentry)
  apply hfold s.initial
  · refine ⟨h.settling, h.keys, h.nodes, h.announced, fun entry hentry ↦ ?_, ?_, fun _ ↦ rfl⟩
    · exact (h.sources entry hentry).imp_left fun hin ↦ ⟨rfl, hin.2⟩
    · exact fun hopened ↦ by cases hopened
  · rfl
  · exact fun n hn ↦ ⟨hn, hinitial n hn⟩
  · intro key n t ht
    rw [show s.run.task key = none from h.keys key (h.closed hclosed ▸ Nat.zero_le key)] at ht
    cases ht

variable [ToString U] [JsonLoads]

theorem Signalled.step {W : World U κ} {capacity : ℕ} {l : Label U} (h : Signalled s)
    (hgrowing : Growing maxSpawn s) (hcounted : Counted s) (hstep : Step W capacity s l s') :
    Signalled s' := by
  obtain ⟨hnext, hpermitted⟩ := hstep
  cases l with
  | run l =>
    obtain ⟨run, hrun, rfl⟩ := Option.map_eq_some_iff.1 hnext
    have hnode := RunState.node_step ⟨hrun, hpermitted⟩
    refine ⟨h.settling.step ⟨hrun, hpermitted⟩, fun key hkey ↦ ?_, fun key n hn ↦ ?_, h.announced,
      h.sources, h.closed, h.grouped⟩
    · have hnone := hnode key
      rwa [h.keys key hkey, Option.map_none, Option.map_eq_none_iff] at hnone
    · exact h.nodes key n ((hnode key).symm.trans hn)
  | enter =>
    simp only [next] at hnext
    split at hnext
    · cases hnext
    · next hclosed =>
      cases hnext
      exact h.openGroup (Bool.eq_false_iff.2 hclosed) hcounted.initial
  | inject child after independent edgeId =>
    cases hnext
    exact h.inject hgrowing child after independent edgeId
  | spawn origin req built independent edgeId =>
    obtain ⟨emitter, -, rfl⟩ := Option.map_eq_some_iff.1 hnext
    exact h.injectRequest hgrowing req emitter built independent edgeId
  | escalate origin req urgency route child edgeId =>
    obtain ⟨emitter, -, rfl⟩ := Option.map_eq_some_iff.1 hnext
    exact h.scheduleEscalation hgrowing req emitter urgency route child edgeId
  | close =>
    simp only [next] at hnext
    split at hnext
    · cases hnext
      exact h.of_same rfl rfl rfl rfl rfl rfl rfl fun hgroup ↦ by cases hgroup
    · cases hnext

omit [ToString U] [JsonLoads] in
theorem signalled_start (hsound : graph.Sound ∅ ∅ ∅) (initial : U → Initial) (workspace : Entries) (maxSpawn : ℕ)
    (stream : Bool) : Signalled (start graph initial workspace maxSpawn stream) := by
  have hbegin : ∀ s : Reactive U κ, s.run.task = (fun _ ↦ none) → s.run.executor.progress = [] →
      (∀ n, (s.run.executor.record n).terminalEmitted = false) → s.nextKey = 0 → s.announced = [] →
      s.taskGroup = false → Signalled s := by
    intro s htask hprogress hopen hkey hannounced hgroup
    have hnone : ∀ n, s.statusOf n = none := fun n ↦ by simp [statusOf, hannounced]
    have hno : ∀ n st, s.statusOf n ≠ some st := fun n st hst ↦ by
      rw [hnone n] at hst
      cases hst
    exact
      { settling :=
          { once := fun n ↦ by simp [Executor.terminals, hprogress, hopen n]
            terminal := fun n st hst ↦ absurd hst (hno n st)
            stays := fun n st hst ↦ absurd hst (hno n st)
            outside := fun key n t st _ hst ↦ absurd hst (hno n st)
            aborted := fun n st hst ↦ absurd hst (hno n st)
            processing := fun n st hst ↦ absurd hst (hno n st)
            answered := fun key n exit st _ hst ↦ absurd hst (hno n st)
            stopped := fun key n exit ht ↦ by simp [htask] at ht }
        keys := fun key _ ↦ by rw [htask]
        nodes := fun key n hn ↦ by simp [htask] at hn
        announced := by simp [hannounced]
        sources := by simp [hannounced]
        closed := fun _ ↦ hkey
        grouped := by simp [hgroup] }
  have hrecord : ∀ n, ((Operations.start (.ofGraph graph) initial workspace).executor.record
      n).terminalEmitted = false := by
    intro n
    simp only [Operations.start]
    split <;> rfl
  have hinitial := (counted_start hsound initial workspace maxSpawn true).initial
  unfold start
  dsimp only
  split
  · exact hbegin _ rfl rfl hrecord rfl rfl rfl
  · exact (hbegin _ rfl rfl hrecord rfl rfl rfl).openGroup rfl hinitial

end Announced

/-! ## The claim -/

section Answers

variable {U κ : Type} [DecidableEq U] [ToString U] [JsonLoads]

/-- Every operation that `execute` announces has a task, and the signals settle. -/
theorem answered_execute (W : World U κ) (G : OperationGraph U κ) (capacity : ℕ)
    (initial : U → Initial) (workspace : Entries) {s : RunState U U κ}
    (h : Reachable (RunState.Step W G capacity) (Operations.start G initial workspace) s) :
    s.Answered (announcedAtStart G initial) ∧
      ∀ n st, announcedAtStart G initial n = some st → (s.task n).map Task.node = some n := by
  have hrun := h.invariant
    (I := fun s ↦ RunState.Settling (announcedAtStart G initial) s ∧
      ∀ n, (s.task n).map Task.node = ((Operations.start G initial workspace).task n).map Task.node)
    ⟨settling_start G initial workspace, fun _ ↦ rfl⟩
    fun _ _ _ hs hstep ↦ ⟨hs.1.step hstep, fun n ↦ (RunState.node_step hstep n).trans (hs.2 n)⟩
  refine ⟨hrun.1.result, fun n st hst ↦ ?_⟩
  unfold announcedAtStart at hst
  split at hst
  · next hn =>
    rw [hrun.2 n]
    simp [Operations.start, hn.2]
  · cases hst

/-- What was announced in a reactive run has a task, unless it was accepted for an escalation or without
a task group. -/
def Scheduled (s : Reactive U κ) : Prop :=
  ∀ n st, s.statusOf n = some st →
    (∀ a ∈ s.attempts, a.child = n → a.verdict = .accepted true →
      a.source ≠ .escalation ∧ a.grouped = true) →
    ∃ key, (s.run.task key).map Task.node = some n

variable {s : Reactive U κ}

omit [ToString U] [JsonLoads] in
theorem Signalled.scheduled (h : Signalled s) (hcounted : Counted s) : s.Scheduled := by
  intro n st hst hregular
  have hpositive : 0 < s.tasksOf n := by
    rw [hcounted.tasks, handed]
    obtain ⟨entry, hentry, rfl⟩ := exists_of_statusOf hst
    rcases h.sources entry hentry with ⟨hopened, hmem⟩ | hmem
    · rw [if_pos hopened]
      exact Nat.add_pos_left (List.count_pos_iff.2 hmem) _
    · obtain ⟨a, ha, hchild⟩ := List.mem_map.1 hmem
      rw [List.mem_filter, decide_eq_true_eq] at ha
      obtain ⟨hsource, hgrouped⟩ := hregular a ha.1 hchild ha.2
      apply Nat.add_pos_right
      exact List.countP_pos_iff.2 ⟨a, ha.1, decide_eq_true ⟨.inl ha.2, hsource, hgrouped, hchild⟩⟩
  obtain ⟨key, -, hkey⟩ := List.countP_pos_iff.1 hpositive
  exact ⟨key, of_decide_eq_true hkey⟩

theorem signalled_of_reachable (W : World U κ) (capacity : ℕ) {graph : Graph U (Option Operation) κ}
    (hsound : graph.Sound ∅ ∅ ∅) (hacyclic : graph.Acyclic) (initial : U → Initial) (workspace : Entries) (maxSpawn : ℕ)
    (stream : Bool) (h : Reachable (Step W capacity) (start graph initial workspace maxSpawn stream) s) :
    Counted s ∧ Signalled s := by
  have hrun := h.invariant (I := fun s ↦ Growing maxSpawn s ∧ Counted s ∧ Signalled s)
    ⟨growing_start hsound hacyclic initial workspace maxSpawn stream,
      counted_start hsound initial workspace maxSpawn stream,
      signalled_start hsound initial workspace maxSpawn stream⟩
    fun _ _ _ hs hstep ↦
      ⟨hs.1.step hstep, hs.2.1.step hs.1 hstep, hs.2.2.step hs.1 hs.2.1 hstep⟩
  exact hrun.2

end Answers

/-! ## Runs with and without an answer -/

section Example

local instance signalLoads : JsonLoads := JsonLoads.never

/-- Conditions and operations may do anything. -/
def anything : World ℕ Unit := ⟨fun _ _ _ _ ↦ True, fun _ _ _ ↦ True⟩

/-- The operation runs to its end. -/
def finishedLabels : List (Label ℕ) :=
  List.replicate 4 (.run (.task 0 .run)) ++ [.run (.task 0 (.returned (.completed (.int 1)))), .close]

def finished : Reactive ℕ Unit :=
  (Transition.replay (next 1) (start single idle [] 5 false) finishedLabels).getD
    (start single idle [] 5 false)

theorem finished_reachable : Reachable (Step anything 1) (start single idle [] 5 false) finished := by
  have hreplay : Transition.replay (next 1) (start single idle [] 5 false) finishedLabels =
      some finished := rfl
  refine reachable_of_replay (fun s l t hl hnext ↦ ⟨hnext, ?_⟩) .start hreplay
  simp only [finishedLabels, List.mem_append, List.mem_cons, List.not_mem_nil, or_false] at hl
  rcases hl with hl | rfl | rfl
  · rw [List.eq_of_mem_replicate hl]
    intro task _
    cases task.state <;> trivial
  · intro task _
    cases task.state <;> trivial
  · trivial

theorem finished_complete : finished.run.Complete := by
  obtain ⟨-, hsignalled⟩ := signalled_of_reachable anything 1 single_sound single_acyclic idle [] 5
    false finished_reachable
  intro key t ht
  cases key with
  | zero =>
    have hend : (finished.run.task 0).map Task.state = some (.finished .settled) := rfl
    rw [ht, Option.map_some, Option.some.injEq] at hend
    exact ⟨.settled, hend⟩
  | succ key =>
    have hnone := hsignalled.keys (key + 1) (show 1 ≤ key + 1 by omega)
    rw [ht] at hnone
    cases hnone

theorem bypassedRun_reachable : Reachable (RunState.Step rejecter.world bypassed 1)
    (Operations.start bypassed idle []) bypassedRun :=
  (RunState.reachable_play rejecter bypassed 1 _ (List.replicate 6 1 ++ List.replicate 6 2 ++
    List.replicate 3 3 ++ List.replicate 9 4)).mono fun _ _ _ h ↦ h.1

theorem bypassedRun_complete : bypassedRun.Complete := by
  have hend : ∀ n ∈ bypassed.nodes,
      ∃ exit, (bypassedRun.task n).map Task.state = some (.finished exit) := by
    intro n hn
    simp only [bypassed, List.mem_cons, List.not_mem_nil, or_false] at hn
    rcases hn with rfl | rfl | rfl | rfl
    · exact ⟨.settled, by rfl⟩
    · exact ⟨.settled, by rfl⟩
    · exact ⟨.scanError, by rfl⟩
    · exact ⟨.settled, by rfl⟩
  intro n t ht
  obtain ⟨op, hop⟩ := (RunState.safe_of_reachable bypassedRun_reachable).known n t ht
  have hn : n ∈ bypassed.nodes := by
    simp only [bypassed] at hop ⊢
    grind
  obtain ⟨exit, hexit⟩ := hend n hn
  rw [ht, Option.map_some, Option.some.injEq] at hexit
  exact ⟨exit, hexit⟩

end Example

end Reactive

end Lionagi.Operations
