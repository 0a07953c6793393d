import Lionagi.Library.Transition
import Lionagi.LionCore.HostCallAtomic
import Lionagi.LionCore.StepRun

/-!
# Messages between actors

A run of steps, on either path, with the messages that were sent and consumed so far. Routing and
consuming keep the order of messages, one queue hands over to the next. Sending does not enqueue.
-/

namespace Lionagi.LionCore

open Transition

/-- The messages in the result of a send. -/
def Step.sends : Step → List Message
  | .hostCall hc _ result => if hc.function = .capSend then result.newMsgs else []
  | _ => []

/-- The message that a computation takes from the mailbox of its plugin. -/
def Step.consumes (step : Step) (s : State) : List (ActorId × Message) :=
  match step with
  | .pluginInternal pid pi =>
    if pi.consumeMailbox then ((s.getActor pid).bind fun actor ↦ actor.mailbox.head?).toList.map (pid, ·)
    else []
  | _ => []

structure Flow where
  state : State
  sent : List Message
  consumed : List (ActorId × Message)

namespace Flow

def start (s : State) : Flow := { state := s, sent := [], consumed := [] }

def sentTo (flow : Flow) (aid : ActorId) : List Message := flow.sent.filter fun msg ↦ msg.dst = aid

def consumedBy (flow : Flow) (aid : ActorId) : List Message :=
  (flow.consumed.filter fun entry ↦ entry.1 = aid).map Prod.snd

/-- A step on one of the paths; one that fails changes nothing. -/
def run (flow : Flow) (move : Path × Step) : Flow :=
  match move.1.execute move.2 flow.state with
  | .ok state =>
    { state, sent := flow.sent ++ move.2.sends, consumed := flow.consumed ++ move.2.consumes flow.state }
  | .error _ => flow

/-- What was consumed, then the mailbox, then the pending messages are what was queued at the start, then
what was sent. -/
def Conserved (start : State) (flow : Flow) : Prop :=
  ∀ aid actor, flow.state.getActor aid = some actor →
    flow.consumedBy aid ++ actor.mailbox ++ actor.pending =
      ((start.getActor aid).elim [] fun actor ↦ actor.mailbox ++ actor.pending) ++ flow.sentTo aid

end Flow

/-! ## One step -/

section Queues

variable {s s' : State} {step : Step}

/-- The queues of the actors are kept, or one message moves: out of a mailbox, to the actor that
consumes, or from the pending messages to the mailbox. -/
inductive Handover (s : State) (step : Step) (s' : State) : Prop
  | kept (hqueues : ∀ aid actor', s'.getActor aid = some actor' → ∃ actor, s.getActor aid = some actor ∧
      actor'.mailbox = actor.mailbox ∧ actor'.pending = actor.pending) (hconsumes : step.consumes s = [])
  | consumed (aid : ActorId) (pi : PluginInternal) (msg : Message) (rest : List Message)
      (actor : ActorRuntime) (hstep : step = .pluginInternal aid pi)
      (hconsumes : step.consumes s = [(aid, msg)]) (hactor : s.getActor aid = some actor)
      (hmailbox : actor.mailbox = msg :: rest)
      (hget : ∀ b, s'.getActor b = if b = aid then some { actor with mailbox := rest } else s.getActor b)
  | routed (aid : ActorId) (msg : Message) (rest : List Message) (actor : ActorRuntime)
      (hstep : step = .kernelInternal (.routeOne aid)) (hconsumes : step.consumes s = [])
      (hactor : s.getActor aid = some actor) (hpending : actor.pending = msg :: rest)
      (hget : ∀ b, s'.getActor b =
        if b = aid then some { actor with pending := rest, mailbox := actor.mailbox ++ [msg] }
        else s.getActor b)

theorem Handover.of_actors (hactors : s'.actors = s.actors) (hconsumes : step.consumes s = []) :
    Handover s step s' := by
  apply Handover.kept _ hconsumes
  intro aid actor hactor
  rw [getActor_of_actors hactors] at hactor
  exact ⟨actor, hactor, rfl, rfl⟩

theorem Step.Quiet.consumes (h : step.Quiet) : step.consumes s = [] := by
  cases step with
  | pluginInternal pid pi =>
    apply if_neg
    exact Bool.eq_false_iff.1 h
  | _ => rfl

theorem Step.Frees.consumes {addr : MemAddr} (h : step.Frees s addr) : step.consumes s = [] := by
  cases step with
  | pluginInternal => exact h.elim
  | _ => rfl

theorem Step.Revokes.consumes {c : CapId} (h : step.Revokes s c) : step.consumes s = [] := by
  cases step with
  | pluginInternal => exact h.elim
  | _ => rfl

theorem Effect.handover (h : Effect s step s') : Handover s step s' := by
  cases h with
  | quiet hquiet => exact .of_actors rfl hquiet.consumes
  | @consumed pid pi hstep hconsume hready =>
    cases hactor : s.getActor pid with
    | none =>
      apply Handover.kept
      · intro aid actor' hactor'
        rw [getActor_updateActor] at hactor'
        split at hactor'
        · rw [hactor] at hactor'
          cases hactor'
        · exact ⟨actor', hactor', rfl, rfl⟩
      · rw [hstep, Step.consumes, if_pos hconsume, hactor]
        rfl
    | some actor =>
      obtain ⟨msg, rest, hmailbox⟩ := List.exists_cons_of_ne_nil (hready actor hactor)
      refine .consumed pid pi msg rest actor hstep ?_ hactor hmailbox fun b ↦ ?_
      · rw [hstep, Step.consumes, if_pos hconsume, hactor, Option.bind_some, hmailbox]
        rfl
      · rw [getActor_updateActor, hactor, Option.map_some, ActorRuntime.consumeMut, hmailbox, List.tail_cons]
  | @delivered dst actor hstep hactor hpending hspace =>
    obtain ⟨msg, rest, hcons⟩ := List.exists_cons_of_ne_nil hpending
    refine .routed dst msg rest actor hstep ?_ hactor hcons fun b ↦ ?_
    · rw [hstep]
      rfl
    · rw [getActor_updateActor, hactor, Option.map_some, ActorRuntime.deliverMut, hcons]
      simp only [if_pos hspace]
  | @unblocked dst hstep =>
    apply Handover.kept
    · intro aid actor' hactor'
      rw [getActor_updateActor] at hactor'
      split at hactor'
      · next heq =>
        obtain ⟨actor, hactor, rfl⟩ := Option.map_eq_some_iff.1 hactor'
        exact ⟨actor, heq ▸ hactor, rfl, rfl⟩
      · exact ⟨actor', hactor', rfl, rfl⟩
    · rw [hstep]
      rfl
  | ticked hstep => exact .of_actors rfl (hstep ▸ rfl)
  | allocated hstep => exact .of_actors (updatePlugin_actors _ _ _) (hstep ▸ rfl)
  | freed hfrees => exact .of_actors rfl hfrees.consumes
  | revoked hrevokes => exact .of_actors rfl hrevokes.consumes
  | declassified hstep => exact .of_actors (updatePlugin_actors _ _ _) (hstep ▸ rfl)

theorem PathEffect.handover (h : PathEffect s step s') : Handover s step s' := by
  cases h with
  | shared heffect => exact heffect.handover
  | freed hfrees => exact .of_actors rfl hfrees.consumes
  | revoked hrevokes => exact .of_actors rfl hrevokes.consumes

end Queues

/-! ## Sending -/

/-- The step is a send that succeeds. -/
def Sends (flow : Flow) (move : Path × Step) : Prop :=
  (∃ hc auth result, move.2 = .hostCall hc auth result ∧ hc.function = .capSend) ∧
    ∃ s', move.1.execute move.2 flow.state = .ok s'

section Sending

variable {s s' : State} {step : Step} {path : Path} {hc : HostCall} {auth : Authorized}
  {result : HostResult}

theorem checkMessage_getActor {msg : Message} (h : HostFunction.checkMessage s hc msg = .ok ()) :
    ∃ actor, s.getActor msg.dst = some actor := by
  unfold HostFunction.checkMessage at h
  split at h
  · cases h
  · split at h
    · cases h
    · next actor hactor => exact ⟨actor, hactor⟩

/-- A send that succeeds has a first message, with an actor to go to. -/
theorem checkCapSend_head (h : HostFunction.checkCapSend s hc result = .ok ()) :
    ∃ msg rest actor, result.newMsgs = msg :: rest ∧ s.getActor msg.dst = some actor := by
  unfold HostFunction.checkCapSend at h
  cases hmsgs : result.newMsgs with
  | nil =>
    rw [hmsgs] at h
    cases h
  | cons msg rest =>
    rw [hmsgs] at h
    simp only [List.isEmpty_cons, Bool.false_eq_true, if_false] at h
    change (do HostFunction.checkMessage s hc msg; rest.forM (HostFunction.checkMessage s hc)) = _ at h
    rw [check_bind_eq_ok_iff] at h
    obtain ⟨actor, hactor⟩ := checkMessage_getActor h.1
    exact ⟨msg, rest, actor, rfl, hactor⟩

/-- On both paths a send that succeeds has passed its checks, and leaves the state as it was. -/
theorem capSend_eq_ok (hfunction : hc.function = .capSend)
    (h : path.execute (.hostCall hc auth result) s = .ok s') :
    s' = s ∧ HostFunction.checkCapSend s hc result = .ok () := by
  have hpure : executeHostCall s hc auth result = .ok s' → s' = s ∧
      HostFunction.checkCapSend s hc result = .ok () := by
    intro hok
    unfold executeHostCall at hok
    rw [check_bind_eq_ok_iff, hfunction, HostFunction.execute, HostFunction.executeCapSend,
      check_bind_eq_ok_iff] at hok
    obtain ⟨-, hcheck, hs'⟩ := hok
    exact ⟨(Except.ok.inj hs').symm, hcheck⟩
  cases path with
  | pure => exact hpure h
  | mutating =>
    simp only [Path.execute, Step.executeMut, executeHostCallMut] at h
    cases hcheck : checkHostCall s hc auth with
    | error e =>
      rw [hcheck] at h
      cases h
    | ok u =>
      simp only [hcheck, hfunction, HostFunction.executeMut, HostFunction.executeCapSendMut] at h
      cases hsend : HostFunction.checkCapSend s hc result with
      | error e =>
        rw [hsend] at h
        cases h
      | ok u' =>
        rw [hsend] at h
        exact ⟨(Except.ok.inj h).symm, rfl⟩

theorem sends_eq_nil {flow : Flow} {move : Path × Step} (hsends : ¬ Sends flow move)
    (h : move.1.execute move.2 flow.state = .ok s') : move.2.sends = [] := by
  obtain ⟨path, step⟩ := move
  cases step with
  | hostCall hc auth result =>
    apply if_neg
    intro hfunction
    exact hsends ⟨⟨hc, auth, result, rfl, hfunction⟩, s', h⟩
  | _ => rfl

end Sending

/-! ## Runs -/

section Runs

variable {start : State} {flow : Flow} {move : Path × Step}

theorem consumedBy_append (sent : List Message) (s : State) (consumed : List (ActorId × Message))
    (aid : ActorId) :
    ({ state := s, sent, consumed := flow.consumed ++ consumed } : Flow).consumedBy aid =
      flow.consumedBy aid ++ (consumed.filter fun entry ↦ entry.1 = aid).map Prod.snd := by
  simp [Flow.consumedBy]

/-- A step that sends nothing conserves the messages. -/
theorem Flow.Conserved.run (h : flow.Conserved start) (hsends : ¬ Sends flow move) :
    (flow.run move).Conserved start := by
  unfold Flow.run
  cases hexecute : move.1.execute move.2 flow.state with
  | error e => exact h
  | ok s' =>
    have hnil := sends_eq_nil hsends hexecute
    rw [hnil, List.append_nil]
    intro aid actor' hactor'
    rw [consumedBy_append]
    change _ = _ ++ flow.sentTo aid
    cases (pathEffect_execute hexecute).handover with
    | kept hqueues hconsumes =>
      obtain ⟨actor, hactor, hmailbox, hpending⟩ := hqueues aid actor' hactor'
      rw [hconsumes, hmailbox, hpending, ← h aid actor hactor]
      simp
    | consumed a pi msg rest actor _ hconsumes hactor hmailbox hget =>
      rw [hget] at hactor'
      rw [hconsumes]
      split at hactor'
      · next heq =>
        -- the head of the mailbox becomes the last message consumed
        subst heq
        cases hactor'
        rw [← h aid actor hactor, hmailbox]
        simp
      · next hne =>
        rw [← h aid actor' hactor']
        simp [Ne.symm hne]
    | routed a msg rest actor _ hconsumes hactor hpending hget =>
      rw [hget] at hactor'
      rw [hconsumes]
      split at hactor'
      · next heq =>
        subst heq
        cases hactor'
        rw [← h aid actor hactor, hpending]
        simp
      · rw [← h aid actor' hactor']
        simp

/-- A send that succeeds loses its messages. -/
theorem Flow.Conserved.not_run (h : flow.Conserved start) (hsends : Sends flow move) :
    ¬ (flow.run move).Conserved start := by
  intro hrun
  obtain ⟨⟨hc, auth, result, hmove, hfunction⟩, s', hexecute⟩ := hsends
  obtain ⟨path, step⟩ := move
  obtain rfl : step = .hostCall hc auth result := hmove
  obtain ⟨rfl, hcheck⟩ := capSend_eq_ok hfunction hexecute
  obtain ⟨msg, rest, actor, hmsgs, hactor⟩ := checkCapSend_head hcheck
  have hbefore := h msg.dst actor hactor
  unfold Flow.run at hrun
  rw [hexecute] at hrun
  have hafter := hrun msg.dst actor hactor
  have hsent : Step.sends (.hostCall hc auth result) = msg :: rest := (if_pos hfunction).trans hmsgs
  have hconsumes : Step.consumes (.hostCall hc auth result) flow.state = [] := rfl
  simp only [hsent, hconsumes, List.append_nil] at hafter
  -- the queues are the same, what was sent has grown
  have hlength := congrArg List.length (hbefore.symm.trans hafter)
  simp only [Flow.sentTo, List.filter_append, List.filter_cons, decide_true, if_true, List.length_append,
    List.length_cons] at hlength
  omega

theorem Flow.conserved_start (s : State) : (Flow.start s).Conserved s := by
  intro aid actor hactor
  change s.getActor aid = some actor at hactor
  rw [hactor]
  simp [Flow.start, Flow.consumedBy, Flow.sentTo]

end Runs

/-- Along a run the messages to every actor are conserved if and only if no send succeeds. In every run
messages move one by one, in order, from the pending messages to the mailbox by routing and out of the
mailbox by consuming, and a step that fails moves none. -/
theorem conserved_throughout_iff (start : State) (moves : List (Path × Step)) :
    (Throughout Flow.run (Flow.Conserved start) (Flow.start start) moves ↔
      Along Flow.run (fun flow move ↦ ¬ Sends flow move) (Flow.start start) moves) ∧
    Along Flow.run
      (fun flow move ↦ (∀ s', move.1.execute move.2 flow.state = .ok s' → Handover flow.state move.2 s') ∧
        ∀ e, (move.2.executeMut flow.state).1 = .error e → (move.2.executeMut flow.state).2 = flow.state)
      (Flow.start start) moves := by
  constructor
  · exact throughout_iff_along (fun _ h ↦ h) (fun _ _ h hsends ↦ h.run hsends)
      (fun _ _ h hsends ↦ h.not_run (not_not.1 hsends)) (Flow.conserved_start start)
  · apply Along.of_forall
    intro flow move
    exact ⟨fun _ h ↦ (pathEffect_execute h).handover, fun _ h ↦ executeMut_of_error h⟩

/-! ## A lost message -/

section Lost

/-- Plugin 1 may send, and actor 2 has an empty mailbox. -/
def connected : State :=
  { owning (MetaState.empty.alloc 0 1) with actors := [(2, ⟨[], [], 4, none, none⟩)] }

def sendAuth : Authorized where
  cap := ownerCap
  action := { subject := 1, target := 0, rights := Rights.singleton .send, kind := "cap_send" }
  ctx := ⟨0, none⟩
  validated := ⟨connected, rfl⟩

def greeting : Message := ⟨7, 1, 2, .publicLevel, []⟩

theorem sends_greeting :
    Sends (Flow.start connected) (.pure, .hostCall (callOf .capSend) sendAuth ⟨[], [greeting]⟩) :=
  ⟨⟨_, _, _, rfl, rfl⟩, connected, rfl⟩

theorem not_conserved_throughout : ¬ ∀ (start : State) (moves : List (Path × Step)),
    Throughout Flow.run (Flow.Conserved start) (Flow.start start) moves := by
  intro h
  obtain ⟨-, hafter⟩ := h connected [(.pure, .hostCall (callOf .capSend) sendAuth ⟨[], [greeting]⟩)]
  exact (Flow.conserved_start connected).not_run sends_greeting hafter

end Lost

end Lionagi.LionCore
