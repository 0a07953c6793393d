import Mathlib.Data.List.Perm.Basic
import Lionagi.Library.Transition

/-!
# The event processor

One loop takes events from a queue that any number of producers fill, and a permission check starts,
denies or defers each of them. Producers run while a check is awaited. A deferred event goes back into
the queue, and the loop is left early when the deferrals since the last grant reach the queue's length.
-/

namespace Lionagi.Protocols

open Transition

/-- Where the loop stands: between two calls, awaiting the check of an event, awaiting a place for a
deferred event, or past the loop, which it left with the given events queued. -/
inductive Phase (E : Type) where
  | idle
  | considering (event : E)
  | blocked (event : E)
  | draining (left : List E)
  deriving DecidableEq

/-- The processor, its call of `process`, and what has happened to the events: which were enqueued,
started and denied, how many of these before the call, and which were deferred since the last grant. -/
structure Processor (E : Type) where
  queueCapacity : ℕ
  maxQueueSize : ℕ
  queue : List E
  availableCapacity : ℕ
  phase : Phase E
  eventsProcessed : ℕ
  deferred : ℕ
  enqueued : List E
  started : List E
  denied : List E
  settledBefore : ℕ
  deferredSinceGrant : List E

/-- The answer of `request_permission` and `handle_denied`. -/
inductive Permission where
  | grant
  | deny
  | defer
  deriving DecidableEq

/-- A call of a producer, or the next step of the loop up to where it waits. -/
inductive ProcessorOp (E : Type) where
  | enqueue (event : E)
  | process
  | answer (permission : Permission)
  | resume
  | finish

namespace Processor

variable {E : Type}

def init (queueCapacity maxQueueSize : ℕ) : Processor E where
  queueCapacity := queueCapacity
  maxQueueSize := maxQueueSize
  queue := []
  availableCapacity := queueCapacity
  phase := .idle
  eventsProcessed := 0
  deferred := 0
  enqueued := []
  started := []
  denied := []
  settledBefore := 0
  deferredSinceGrant := []

variable (p : Processor E)

/-- A queue of size zero is unbounded. -/
def Full : Prop := p.maxQueueSize ≠ 0 ∧ p.maxQueueSize ≤ p.queue.length

instance : Decidable p.Full :=
  inferInstanceAs (Decidable (p.maxQueueSize ≠ 0 ∧ p.maxQueueSize ≤ p.queue.length))

/-- `enqueue` and `try_enqueue`: a full queue makes the one wait and the other return false. -/
def enqueue (event : E) : Processor E :=
  if p.Full then p else { p with queue := p.queue ++ [event], enqueued := p.enqueued ++ [event] }

/-- The test of the loop, and where it holds the next event, whose check is awaited. -/
def turn : Processor E :=
  match p.queue with
  | [] => { p with phase := .draining [] }
  | event :: queue =>
    if 0 < p.availableCapacity then { p with queue := queue, phase := .considering event }
    else { p with phase := .draining p.queue }

def process : Processor E :=
  turn { p with
    eventsProcessed := 0
    deferred := 0
    settledBefore := p.started.length + p.denied.length }

def grant (event : E) : Processor E :=
  turn { p with
    started := p.started ++ [event]
    eventsProcessed := p.eventsProcessed + 1
    deferred := 0
    availableCapacity := p.availableCapacity - 1
    deferredSinceGrant := [] }

def deny (event : E) : Processor E :=
  turn { p with
    denied := p.denied ++ [event]
    eventsProcessed := p.eventsProcessed + 1
    availableCapacity := p.availableCapacity - 1 }

/-- The deferred event has its place in the queue. -/
def reenqueued (event : E) : Processor E :=
  { p with
    queue := p.queue ++ [event]
    deferred := p.deferred + 1
    deferredSinceGrant := p.deferredSinceGrant ++ [event] }

def reenqueue (event : E) : Processor E :=
  if p.queue.length + 1 ≤ p.deferred + 1 then
    { p.reenqueued event with phase := .draining (p.reenqueued event).queue }
  else (p.reenqueued event).turn

def defer (event : E) : Processor E :=
  if p.Full then { p with phase := .blocked event } else p.reenqueue event

def finish : Processor E :=
  { p with
    phase := .idle
    availableCapacity := if 0 < p.eventsProcessed then p.queueCapacity else p.availableCapacity }

/-- One step; what is not enabled changes nothing. -/
def exec : Processor E → ProcessorOp E → Processor E
  | p, .enqueue event => p.enqueue event
  | p, .process =>
    match p.phase with
    | .idle => p.process
    | _ => p
  | p, .answer permission =>
    match p.phase with
    | .considering event =>
      match permission with
      | .grant => p.grant event
      | .deny => p.deny event
      | .defer => p.defer event
    | _ => p
  | p, .resume =>
    match p.phase with
    | .blocked event => if p.Full then p else p.reenqueue event
    | _ => p
  | p, .finish =>
    match p.phase with
    | .draining _ => p.finish
    | _ => p

/-- The event the loop holds. -/
def held : List E :=
  match p.phase with
  | .considering event => [event]
  | .blocked event => [event]
  | _ => []

/-! ## The contract -/

/-- Every enqueued event is in one place, a call settles no more events than the capacity, the loop is
left with capacity only when what was queued had been deferred since the last grant, and it never waits
for a place in a queue that only it empties. -/
structure Sound : Prop where
  conserved : p.enqueued.Perm (p.queue ++ p.held ++ p.started ++ p.denied)
  bounded : p.started.length + p.denied.length ≤ p.settledBefore + p.queueCapacity
  fair : ∀ left, p.phase = .draining left → 0 < p.availableCapacity →
    ∀ event ∈ left, event ∈ p.deferredSinceGrant
  unblocked : ∀ event, p.phase = .blocked event → ¬ p.Full

/-! ## The condition -/

section Condition

variable [DecidableEq E]

/-- The queued events that were not deferred since the last grant, once `event` is deferred. -/
def fresh (event : E) : List E := p.queue.filter (· ∉ p.deferredSinceGrant ++ [event])

/-- The queued events that were, `event` among them. -/
def seen (event : E) : List E :=
  (p.queue ++ [event]).filter (· ∈ p.deferredSinceGrant ++ [event])

/-- The deferrals of the call since its last grant that do not account for a queued event each. -/
def surplus (event : E) : ℕ := p.deferred + 1 - (p.seen event).length

/-- At a deferral the queue has a place, and the fresh events, if there are any, outnumber the surplus
deferrals. -/
def Admits : ProcessorOp E → Prop
  | .answer .defer => ∀ event, p.phase = .considering event →
    ¬ p.Full ∧ (p.fresh event = [] ∨ p.surplus event < (p.fresh event).length)
  | _ => True

theorem length_seen_add_fresh (event : E) :
    (p.seen event).length + (p.fresh event).length = p.queue.length + 1 := by
  have hevent : [event].filter (· ∈ p.deferredSinceGrant ++ [event]) = [event] := by simp
  have hsplit := List.length_eq_length_filter_add (l := p.queue) (· ∈ p.deferredSinceGrant ++ [event])
  rw [seen, fresh, List.filter_append, hevent, List.length_append, List.length_singleton, hsplit]
  simp only [decide_not]
  omega

variable {event : E}

/-- The loop goes on after a deferral exactly when the fresh events outnumber the surplus ones. -/
theorem surplus_lt_iff (hfresh : p.fresh event ≠ []) :
    p.surplus event < (p.fresh event).length ↔ p.deferred < p.queue.length := by
  have hlength := p.length_seen_add_fresh event
  have hpos : 0 < (p.fresh event).length := List.length_pos_iff.2 hfresh
  unfold surplus
  omega

variable {p}

theorem fresh_eq_nil (h : ∀ other ∈ p.queue, other ∈ p.deferredSinceGrant ++ [event]) : p.fresh event = [] := by
  rw [fresh, List.filter_eq_nil_iff]
  intro other hmem
  rw [decide_eq_true_iff, not_not]
  exact h other hmem

/-- Without fresh events, all that is queued after the deferral was deferred. -/
theorem mem_deferredSinceGrant {other : E} (hfresh : p.fresh event = []) (hmem : other ∈ p.queue ++ [event]) :
    other ∈ p.deferredSinceGrant ++ [event] := by
  rw [fresh, List.filter_eq_nil_iff] at hfresh
  obtain hqueue | hevent := List.mem_append.1 hmem
  · have hother := hfresh other hqueue
    rwa [decide_eq_true_iff, not_not] at hother
  · exact List.mem_append_right _ hevent

theorem exists_of_not_admits {op : ProcessorOp E} (h : ¬ p.Admits op) :
    ∃ event, p.phase = .considering event ∧ op = .answer .defer ∧
      ¬ (¬ p.Full ∧ (p.fresh event = [] ∨ p.surplus event < (p.fresh event).length)) := by
  unfold Admits at h
  split at h
  · obtain ⟨event, hevent⟩ := not_forall.1 h
    obtain ⟨hphase, hnot⟩ := Classical.not_imp.1 hevent
    exact ⟨event, hphase, rfl, hnot⟩
  · exact absurd trivial h

end Condition

/-! ## The invariant -/

/-- Every event is accounted for, and so are the events that the call has settled. -/
structure Looping : Prop where
  conserved : p.enqueued.Perm (p.queue ++ p.started ++ p.denied)
  counted : p.availableCapacity + p.eventsProcessed = p.queueCapacity
  settled : p.started.length + p.denied.length = p.settledBefore + p.eventsProcessed

/-- The loop never waits for a place, and between two calls it has its whole capacity. -/
structure Invariant : Prop extends Sound p where
  moving : ∀ event, p.phase ≠ .blocked event
  ready : p.phase = .idle → p.availableCapacity = p.queueCapacity
  counted : p.phase ≠ .idle → p.availableCapacity + p.eventsProcessed = p.queueCapacity
  settled : p.phase ≠ .idle → p.started.length + p.denied.length = p.settledBefore + p.eventsProcessed
  busy : ∀ event, p.phase = .considering event → 0 < p.availableCapacity

variable {p}

theorem Invariant.init (queueCapacity maxQueueSize : ℕ) :
    (Processor.init queueCapacity maxQueueSize : Processor E).Invariant where
  conserved := List.Perm.refl _
  bounded := Nat.zero_le _
  fair _ h := by cases h
  unblocked _ h := by cases h
  moving _ h := by cases h
  ready _ := rfl
  counted h := absurd rfl h
  settled h := absurd rfl h
  busy _ h := by cases h

theorem Looping.bounded (h : p.Looping) :
    p.started.length + p.denied.length ≤ p.settledBefore + p.queueCapacity := by
  have hcounted := h.counted
  have hsettled := h.settled
  omega

/-- The loop is left. -/
theorem Looping.draining (h : p.Looping) {left : List E}
    (hfair : 0 < p.availableCapacity → ∀ event ∈ left, event ∈ p.deferredSinceGrant) :
    ({ p with phase := .draining left } : Processor E).Invariant where
  conserved := by simpa [held] using h.conserved
  bounded := h.bounded
  fair := by
    intro other hleft hpos
    cases hleft
    exact hfair hpos
  unblocked := by
    intro event hphase
    cases hphase
  moving := by
    intro event hphase
    cases hphase
  ready := by
    intro hphase
    cases hphase
  counted := fun _ ↦ h.counted
  settled := fun _ ↦ h.settled
  busy := by
    intro event hphase
    cases hphase

/-- The loop turns to the next event or is left. -/
theorem Looping.turn (h : p.Looping) : p.turn.Invariant := by
  unfold Processor.turn
  split
  · apply h.draining
    intro _ event hmem
    cases hmem
  · next event queue hqueue =>
    split
    · next hcapacity =>
      exact {
        conserved := by
          have hconserved := h.conserved
          rw [hqueue] at hconserved
          refine hconserved.trans ?_
          simp only [held, List.cons_append, List.append_assoc, List.nil_append]
          exact List.perm_middle.symm
        bounded := h.bounded
        fair := by
          intro left hleft
          cases hleft
        unblocked := by
          intro other hphase
          cases hphase
        moving := by
          intro other hphase
          cases hphase
        ready := by
          intro hphase
          cases hphase
        counted := fun _ ↦ h.counted
        settled := fun _ ↦ h.settled
        busy := fun _ _ ↦ hcapacity }
    · next hcapacity => exact h.draining fun hpos ↦ absurd hpos hcapacity

/-! ## Steps -/

section Steps

theorem considering_ne_idle (event : E) : Phase.considering event ≠ .idle := by
  intro h
  cases h

variable {event : E}

theorem Invariant.looping (h : p.Invariant) (hphase : p.phase = .considering event) :
    p.enqueued.Perm (p.queue ++ [event] ++ p.started ++ p.denied) := by
  have hconserved := h.conserved
  rw [held, hphase] at hconserved
  exact hconserved

theorem Invariant.enqueue (h : p.Invariant) (event : E) : (p.enqueue event).Invariant := by
  unfold Processor.enqueue
  split
  · exact h
  · next hfull =>
    exact {
      conserved := by
        change (p.enqueued ++ [event]).Perm (p.queue ++ [event] ++ p.held ++ p.started ++ p.denied)
        refine (h.conserved.append_right [event]).trans ?_
        simp only [List.append_assoc]
        apply List.Perm.append_left
        simp only [← List.append_assoc]
        exact List.perm_append_comm
      bounded := h.bounded
      fair := h.fair
      unblocked := fun other hphase ↦ absurd hphase (h.moving other)
      moving := h.moving
      ready := h.ready
      counted := h.counted
      settled := h.settled
      busy := h.busy }

theorem Invariant.process (h : p.Invariant) (hphase : p.phase = .idle) : p.process.Invariant := by
  have hconserved := h.conserved
  rw [held, hphase, List.append_nil] at hconserved
  exact Looping.turn {
    conserved := hconserved
    counted := h.ready hphase
    settled := rfl }

theorem Invariant.grant (h : p.Invariant) (hphase : p.phase = .considering event) : (p.grant event).Invariant := by
  have hcounted := h.counted (hphase ▸ considering_ne_idle event)
  have hsettled := h.settled (hphase ▸ considering_ne_idle event)
  have hbusy := h.busy event hphase
  apply Looping.turn
  exact {
    conserved := by
      refine (h.looping hphase).trans ?_
      simp only [List.append_assoc]
      apply List.Perm.append_left
      simp only [← List.append_assoc]
      exact List.perm_append_comm.append_right p.denied
    counted := by
      change p.availableCapacity - 1 + (p.eventsProcessed + 1) = p.queueCapacity
      omega
    settled := by
      change (p.started ++ [event]).length + p.denied.length = p.settledBefore + (p.eventsProcessed + 1)
      rw [List.length_append, List.length_singleton]
      omega }

theorem Invariant.deny (h : p.Invariant) (hphase : p.phase = .considering event) : (p.deny event).Invariant := by
  have hcounted := h.counted (hphase ▸ considering_ne_idle event)
  have hsettled := h.settled (hphase ▸ considering_ne_idle event)
  have hbusy := h.busy event hphase
  apply Looping.turn
  exact {
    conserved := by
      refine (h.looping hphase).trans ?_
      simp only [List.append_assoc]
      apply List.Perm.append_left
      rw [← List.append_assoc p.started]
      exact List.perm_append_comm
    counted := by
      change p.availableCapacity - 1 + (p.eventsProcessed + 1) = p.queueCapacity
      omega
    settled := by
      change p.started.length + (p.denied ++ [event]).length = p.settledBefore + (p.eventsProcessed + 1)
      rw [List.length_append, List.length_singleton]
      omega }

/-- A deferred event that finds a place: the loop goes on, or it is left with nothing fresh queued. -/
theorem Invariant.reenqueue [DecidableEq E] (h : p.Invariant) (hphase : p.phase = .considering event)
    (hfresh : p.fresh event = [] ∨ p.surplus event < (p.fresh event).length) : (p.reenqueue event).Invariant := by
  have hlooping : (p.reenqueued event).Looping := {
    conserved := h.looping hphase
    counted := h.counted (hphase ▸ considering_ne_idle event)
    settled := h.settled (hphase ▸ considering_ne_idle event) }
  unfold Processor.reenqueue
  split
  · next hlength =>
    have hempty : p.fresh event = [] := by
      by_contra hne
      have hsurplus := (p.surplus_lt_iff hne).1 (hfresh.resolve_left hne)
      omega
    exact hlooping.draining fun _ _ hmem ↦ mem_deferredSinceGrant hempty hmem
  · exact hlooping.turn

theorem Invariant.finish (h : p.Invariant) {left : List E} (hphase : p.phase = .draining left) :
    p.finish.Invariant := by
  have hidle : p.phase ≠ .idle := by
    rw [hphase]
    intro hne
    cases hne
  have hcounted := h.counted hidle
  have hconserved := h.conserved
  rw [held, hphase] at hconserved
  exact {
    conserved := hconserved
    bounded := h.bounded
    fair := by
      intro _ hleft
      cases hleft
    unblocked := by
      intro other hother
      cases hother
    moving := by
      intro other hother
      cases hother
    ready := by
      intro _
      change (if 0 < p.eventsProcessed then p.queueCapacity else p.availableCapacity) = p.queueCapacity
      split
      · rfl
      · omega
    counted := fun hne ↦ absurd rfl hne
    settled := fun hne ↦ absurd rfl hne
    busy := by
      intro other hother
      cases hother }

variable [DecidableEq E]

/-- A step whose deferral, if it is one, is admitted. -/
theorem Invariant.exec (h : p.Invariant) (op : ProcessorOp E) (hadmits : p.Admits op) :
    (p.exec op).Invariant := by
  cases op with
  | enqueue event => exact h.enqueue event
  | process =>
    simp only [Processor.exec]
    split
    · next hphase => exact h.process hphase
    · exact h
  | answer permission =>
    simp only [Processor.exec]
    split
    · next event hphase =>
      cases permission with
      | grant => exact h.grant hphase
      | deny => exact h.deny hphase
      | defer =>
        obtain ⟨hfull, hfresh⟩ := hadmits event hphase
        have hdefer : p.defer event = p.reenqueue event := if_neg hfull
        change (p.defer event).Invariant
        rw [hdefer]
        exact h.reenqueue hphase hfresh
    · exact h
  | resume =>
    simp only [Processor.exec]
    split
    · next event hphase => exact absurd hphase (h.moving event)
    · exact h
  | finish =>
    simp only [Processor.exec]
    split
    · next left hphase => exact h.finish hphase
    · exact h

/-- A deferral that is not admitted waits for a place that only the loop can make, or ends the loop
with capacity while a fresh event is queued. -/
theorem Invariant.not_sound (h : p.Invariant) {op : ProcessorOp E} (hadmits : ¬ p.Admits op) :
    ¬ (p.exec op).Sound := by
  obtain ⟨event, hphase, rfl, hnot⟩ := exists_of_not_admits hadmits
  have hexec : p.exec (.answer .defer) = p.defer event := by simp only [Processor.exec, hphase]
  rw [hexec]
  intro hsound
  by_cases hfull : p.Full
  · have hdefer : p.defer event = { p with phase := .blocked event } := if_pos hfull
    rw [hdefer] at hsound
    exact hsound.unblocked event rfl hfull
  · have hfresh : p.fresh event ≠ [] := fun hempty ↦ hnot ⟨hfull, .inl hempty⟩
    have hlength : p.queue.length + 1 ≤ p.deferred + 1 := by
      by_contra hlt
      exact hnot ⟨hfull, .inr ((p.surplus_lt_iff hfresh).2 (by omega))⟩
    have hdefer : p.defer event =
        { p.reenqueued event with phase := .draining (p.reenqueued event).queue } :=
      (if_neg hfull).trans (if_pos hlength)
    rw [hdefer] at hsound
    apply hfresh
    apply fresh_eq_nil
    intro other hmem
    exact hsound.fair _ rfl (h.busy event hphase) other (List.mem_append_left _ hmem)

/-- No event is lost, duplicated, starved or stuck throughout exactly the runs whose deferrals are all
admitted. -/
theorem sound_throughout_iff (queueCapacity maxQueueSize : ℕ) (ops : List (ProcessorOp E)) :
    Throughout Processor.exec Sound (Processor.init queueCapacity maxQueueSize) ops ↔
      Along Processor.exec (fun p op ↦ p.Admits op) (Processor.init queueCapacity maxQueueSize) ops :=
  throughout_iff_along (fun _ h ↦ h.toSound) (fun _ op h hadmits ↦ h.exec op hadmits)
    (fun _ _ h hadmits ↦ h.not_sound hadmits) (Invariant.init queueCapacity maxQueueSize)

/-- Event 2 comes in while event 1 is checked. The third deferral is the second one of event 0 and
meets a queue of three, so the loop is left without a check of event 2. -/
def overtaken : List (ProcessorOp ℕ) :=
  [.enqueue 0, .process, .enqueue 1, .answer .defer, .enqueue 2, .answer .defer, .answer .defer]

/-- Event 1 takes the only place while event 0 is checked. -/
def wedged : List (ProcessorOp ℕ) := [.enqueue 0, .process, .enqueue 1, .answer .defer]

theorem not_sound_throughout :
    (¬ ∀ ops, Throughout Processor.exec Sound (Processor.init 1 0) (ops : List (ProcessorOp ℕ))) ∧
      ¬ ∀ ops, Throughout Processor.exec Sound (Processor.init 1 1) (ops : List (ProcessorOp ℕ)) := by
  constructor
  · intro h
    have hfair := (h overtaken).final.fair [2, 1, 0] rfl (by decide) 2 (by decide)
    exact absurd hfair (by decide)
  · intro h
    exact (h wedged).final.unblocked 0 rfl (by decide)

end Steps

end Processor

end Lionagi.Protocols
