import Lionagi.LionCore.Ghost
import Lionagi.LionCore.Mediation

/-!
# What a step does

A step that succeeds has one of nine effects on the state. Whatever holds of all steps is proved by
cases on the effect.
-/

namespace Lionagi.LionCore

open SortedTable

/-! ## Sorted states -/

/-- The tables of a state are sorted by their keys. -/
structure State.Ordered (s : State) : Prop where
  plugins : Sorted Prod.fst s.plugins
  actors : Sorted Prod.fst s.actors
  resources : Sorted Prod.fst s.resources
  workflows : Sorted Prod.fst s.workflows
  ghost : s.ghost.Ordered

section Tables

variable (s : State)
variable (pid : PluginId)

theorem getPlugin_updatePlugin (f : PluginState → PluginState) (q : PluginId) :
    (s.updatePlugin pid f).getPlugin q = if q = pid then (s.getPlugin pid).map f else s.getPlugin q := by
  unfold State.updatePlugin
  split
  · next idx hsearch =>
    change ((lookup Prod.fst q (s.plugins.modify idx fun entry ↦ (entry.1, f entry.2))).map Prod.snd) = _
    rw [lookup_modify (f := fun entry ↦ (entry.1, f entry.2)) (fun _ ↦ rfl) hsearch, State.getPlugin,
      State.getPlugin]
    split
    · simp [Option.map_map, Function.comp_def]
    · rfl
  · next pos hsearch =>
    split
    · next heq =>
      rw [heq, State.getPlugin, lookup_eq_none_of_search hsearch]
      rfl
    · rfl

variable (aid : ActorId)

theorem getActor_updateActor (f : ActorRuntime → ActorRuntime) (b : ActorId) :
    (s.updateActor aid f).getActor b = if b = aid then (s.getActor aid).map f else s.getActor b := by
  unfold State.updateActor
  split
  · next idx hsearch =>
    change ((lookup Prod.fst b (s.actors.modify idx fun entry ↦ (entry.1, f entry.2))).map Prod.snd) = _
    rw [lookup_modify (f := fun entry ↦ (entry.1, f entry.2)) (fun _ ↦ rfl) hsearch, State.getActor,
      State.getActor]
    split
    · simp [Option.map_map, Function.comp_def]
    · rfl
  · next pos hsearch =>
    split
    · next heq =>
      rw [heq, State.getActor, lookup_eq_none_of_search hsearch]
      rfl
    · rfl

@[simp] theorem updatePlugin_actors (f : PluginState → PluginState) : (s.updatePlugin pid f).actors = s.actors := by
  unfold State.updatePlugin
  split <;> rfl

@[simp] theorem updatePlugin_resources (f : PluginState → PluginState) :
    (s.updatePlugin pid f).resources = s.resources := by
  unfold State.updatePlugin
  split <;> rfl

@[simp] theorem updateActor_plugins (f : ActorRuntime → ActorRuntime) : (s.updateActor aid f).plugins = s.plugins := by
  unfold State.updateActor
  split <;> rfl

@[simp] theorem updateActor_resources (f : ActorRuntime → ActorRuntime) :
    (s.updateActor aid f).resources = s.resources := by
  unfold State.updateActor
  split <;> rfl

variable {s} in
theorem State.Ordered.updatePlugin (h : s.Ordered) (pid : PluginId) (f : PluginState → PluginState) :
    (s.updatePlugin pid f).Ordered := by
  unfold State.updatePlugin
  split
  · exact { h with plugins := h.plugins.modify (f := fun entry ↦ (entry.1, f entry.2)) (fun _ ↦ rfl) _ }
  · exact h

variable {s} in
theorem State.Ordered.updateActor (h : s.Ordered) (aid : ActorId) (f : ActorRuntime → ActorRuntime) :
    (s.updateActor aid f).Ordered := by
  unfold State.updateActor
  split
  · exact { h with actors := h.actors.modify (f := fun entry ↦ (entry.1, f entry.2)) (fun _ ↦ rfl) _ }
  · exact h

end Tables

/-! ## Effects -/

/-- The step does nothing beyond its checks: a computation that consumes no message, a call, a send, or
a tick of a workflow. -/
def Step.Quiet : Step → Prop
  | .pluginInternal _ pi => pi.consumeMailbox = false
  | .hostCall hc _ _ => hc.function = .capCall ∨ hc.function = .capSend
  | .kernelInternal (.workflowTick _) => True
  | _ => False

inductive Effect (s : State) (step : Step) : State → Prop
  | quiet (hquiet : step.Quiet) : Effect s step s
  | consumed {pid pi} (hstep : step = .pluginInternal pid pi) (hconsume : pi.consumeMailbox = true)
      (hready : ∀ actor, s.getActor pid = some actor → actor.mailbox ≠ []) :
      Effect s step (s.updateActor pid ActorRuntime.consumeMut)
  | delivered {dst actor} (hstep : step = .kernelInternal (.routeOne dst))
      (hactor : s.getActor dst = some actor) (hpending : actor.pending ≠ [])
      (hspace : actor.mailbox.length < actor.capacity) :
      Effect s step (s.updateActor dst ActorRuntime.deliverMut)
  | unblocked {dst} (hstep : step = .kernelInternal (.unblockSend dst)) :
      Effect s step (s.updateActor dst ActorRuntime.unblockMut)
  | ticked (hstep : step = .kernelInternal .timeTick) :
      Effect s step { s with kernel := { s.kernel with now := s.kernel.now + 1 } }
  | allocated {hc auth result plugin} (hstep : step = .hostCall hc auth result)
      (hfunction : hc.function = .kernelAlloc) (hplugin : s.getPlugin hc.caller = some plugin)
      (hroom : plugin.canAllocMemory (hc.args.head?.getD 0) = true) :
      Effect s step ((s.applyAlloc hc.caller (hc.args.head?.getD 0)).updatePlugin hc.caller
        (HostFunction.charge (hc.args.head?.getD 0)))
  | freed {addr} (hfrees : step.Frees s addr) :
      Effect s step { s with ghost := s.ghost.free addr }
  | revoked {c} (hrevokes : step.Revokes s c) : Effect s step (s.applyCapRevoke c)
  | declassified {hc auth result plugin newLevel} (hstep : step = .hostCall hc auth result)
      (hfunction : hc.function = .declassify)
      (hdecode : HostFunction.decodeLevel (hc.args.head?.getD 0) = .ok newLevel)
      (hplugin : s.getPlugin hc.caller = some plugin) (hlevel : newLevel ≤ plugin.level) :
      Effect s step (s.updatePlugin hc.caller fun plugin ↦ { plugin with level := newLevel })

section Effects

variable {s s' : State}
variable {pi : PluginInternal}

theorem checkPreconditions_ready {pid : PluginId} (h : pi.checkPreconditions s pid = .ok ())
    (hconsume : pi.consumeMailbox = true) {actor : ActorRuntime} (hactor : s.getActor pid = some actor) :
    actor.mailbox ≠ [] := by
  unfold PluginInternal.checkPreconditions at h
  cases hplugin : s.getPlugin pid with
  | none =>
    rw [hplugin] at h
    cases h
  | some plugin =>
    simp only [hplugin, hactor, hconsume, if_true] at h
    split at h
    · cases h
    · split at h
      · cases h
      · split at h
        · cases h
        · split at h
          · cases h
          · next hready =>
            simpa [ActorRuntime.canReceive] using hready

theorem effect_pluginInternal {pid : PluginId} (h : executePluginInternal s pid pi = .ok s') :
    Effect s (.pluginInternal pid pi) s' := by
  unfold executePluginInternal at h
  cases hplugin : s.getPlugin pid with
  | none =>
    rw [hplugin] at h
    cases h
  | some plugin =>
    simp only [hplugin, check_bind_eq_ok_iff] at h
    obtain ⟨hcheck, h⟩ := h
    split at h
    · cases h
    · split at h
      · next hconsume =>
        cases h
        exact .consumed rfl hconsume fun actor ↦ checkPreconditions_ready hcheck hconsume
      · next hconsume =>
        cases h
        exact .quiet (Bool.eq_false_iff.2 hconsume)

theorem effect_kernelOp {op : KernelOp} (h : op.execute s = .ok s') :
    Effect s (.kernelInternal op) s' := by
  cases op with
  | routeOne dst =>
    simp only [KernelOp.execute, check_bind_eq_ok_iff] at h
    obtain ⟨hcheck, h⟩ := h
    cases h
    unfold KernelOp.checkRouteOne at hcheck
    cases hactor : s.getActor dst with
    | none =>
      rw [hactor] at hcheck
      cases hcheck
    | some actor =>
      simp only [hactor] at hcheck
      split at hcheck
      · cases hcheck
      · next hpending =>
        split at hcheck
        · cases hcheck
        · next hspace =>
          exact .delivered rfl hactor (by simpa using hpending) (Nat.not_le.1 hspace)
  | workflowTick wid =>
    simp only [KernelOp.execute, check_bind_eq_ok_iff] at h
    cases h.2
    exact .quiet trivial
  | timeTick =>
    simp only [KernelOp.execute, State.tick, KernelState.tickChecked] at h
    cases hnow : checkedAdd s.kernel.now 1 with
    | none =>
      rw [hnow] at h
      cases h
    | some now =>
      rw [hnow] at h
      cases h
      obtain rfl : s.kernel.now + 1 = now := by
        unfold checkedAdd at hnow
        split at hnow <;> cases hnow
        rfl
      exact .ticked rfl
  | unblockSend dst =>
    simp only [KernelOp.execute, check_bind_eq_ok_iff] at h
    cases h.2
    exact .unblocked rfl
  | threadSwitch => cases h

theorem effect_hostCall {hc : HostCall} {auth : Authorized} {result : HostResult}
    (hcheck : checkHostCall s hc auth = .ok ()) (h : hc.function.execute s hc result = .ok s') :
    Effect s (.hostCall hc auth result) s' := by
  cases hfunction : hc.function with
  | capCall =>
    simp only [hfunction, HostFunction.execute, HostFunction.executeCapCall, check_bind_eq_ok_iff] at h
    cases h.2
    exact .quiet (.inl hfunction)
  | capSend =>
    simp only [hfunction, HostFunction.execute, HostFunction.executeCapSend, check_bind_eq_ok_iff] at h
    cases h.2
    exact .quiet (.inr hfunction)
  | kernelAlloc =>
    simp only [hfunction, HostFunction.execute, HostFunction.executeKernelAlloc,
      check_bind_eq_ok_iff] at h
    obtain ⟨hroom, h⟩ := h
    cases h
    unfold HostFunction.checkKernelAlloc at hroom
    cases hplugin : s.getPlugin hc.caller with
    | none =>
      rw [hplugin] at hroom
      cases hroom
    | some plugin =>
      simp only [hplugin] at hroom
      split at hroom
      · cases hroom
      · next hcan => exact .allocated rfl hfunction hplugin (by simpa using hcan)
  | memFree =>
    simp only [hfunction, HostFunction.execute, HostFunction.executeMemFree] at h
    cases hargs : hc.args.head? with
    | none =>
      rw [hargs] at h
      cases h
    | some addr =>
      simp only [hargs, check_bind_eq_ok_iff] at h
      obtain ⟨hfree, h⟩ := h
      have hfreeable := checkFree_eq_ok_iff.1 hfree
      rw [hfreeable.applyFree] at h
      cases h
      exact .freed ⟨hcheck, hfunction, hargs, hfreeable⟩
  | capRevoke =>
    simp only [hfunction, HostFunction.execute, HostFunction.executeCapRevoke] at h
    cases hargs : hc.args.head? with
    | none =>
      rw [hargs] at h
      cases h
    | some c =>
      simp only [hargs, check_bind_eq_ok_iff] at h
      obtain ⟨hrevoke, h⟩ := h
      cases h
      exact .revoked ⟨hcheck, hfunction, hargs, checkRevoke_eq_ok_iff.1 hrevoke⟩
  | declassify =>
    simp only [hfunction, HostFunction.execute, HostFunction.executeDeclassify] at h
    cases hlevel : HostFunction.decodeLevel (hc.args.head?.getD 0) with
    | error e =>
      rw [hlevel] at h
      cases h
    | ok newLevel =>
      simp only [hlevel, bind, Except.bind] at h
      split at h
      · cases h
      · next hdown =>
        cases h
        unfold HostFunction.checkDeclassify at hdown
        cases hplugin : s.getPlugin hc.caller with
        | none =>
          rw [hplugin] at hdown
          cases hdown
        | some plugin =>
          simp only [hplugin] at hdown
          split at hdown
          · next hle => exact .declassified rfl hfunction hlevel hplugin hle
          · cases hdown
  | _ =>
    rw [hfunction] at h
    cases h

/-- What a step that succeeds on the pure path may do. -/
theorem effect_execute {step : Step} (h : step.execute s = .ok s') : Effect s step s' := by
  cases step with
  | pluginInternal pid pi => exact effect_pluginInternal h
  | hostCall hc auth result =>
    simp only [Step.execute, executeHostCall, check_bind_eq_ok_iff] at h
    exact effect_hostCall h.1 h.2
  | kernelInternal op => exact effect_kernelOp h
  | memFree caller addr =>
    simp only [Step.execute, executeMemFree, check_bind_eq_ok_iff] at h
    obtain ⟨hfree, h⟩ := h
    have hfreeable := checkFree_eq_ok_iff.1 hfree
    rw [hfreeable.applyFree] at h
    cases h
    exact .freed ⟨rfl, hfreeable⟩
  | capRevoke caller c =>
    simp only [Step.execute, executeCapRevoke, check_bind_eq_ok_iff] at h
    obtain ⟨hrevoke, h⟩ := h
    cases h
    exact .revoked ⟨rfl, checkRevoke_eq_ok_iff.1 hrevoke⟩

/-- Every effect keeps the tables sorted. -/
theorem Effect.ordered {step : Step} (h : Effect s step s') (hs : s.Ordered) : s'.Ordered := by
  cases h with
  | quiet => exact hs
  | consumed => exact hs.updateActor _ _
  | delivered => exact hs.updateActor _ _
  | unblocked => exact hs.updateActor _ _
  | ticked => exact { hs with }
  | allocated =>
    apply State.Ordered.updatePlugin
    exact { hs with ghost := hs.ghost.alloc _ _ }
  | @freed addr => exact { hs with ghost := hs.ghost.free addr }
  | revoked => exact { hs with }
  | declassified => exact hs.updatePlugin _ _

end Effects

end Lionagi.LionCore
