import Lionagi.LionCore.StepAgreement

/-!
# Complete mediation

Which steps change the validity of a capability, the freed set or the allocated resources, and which
of them do so for a subject that holds a valid capability for the operation. A host call is checked
against the capability that its witness carries, the direct operations are not checked at all.
-/

namespace Lionagi.LionCore

open SortedTable

section Effects

variable {state : State}

/-- Another validity of some capability, another freed set, or other allocated resources. -/
def Changes (state state' : State) : Prop :=
  (∃ c, state'.kernel.revocation.isValid c ≠ state.kernel.revocation.isValid c) ∨
    state'.ghost.freedSet ≠ state.ghost.freedSet ∨ state'.ghost.resources ≠ state.ghost.resources

theorem not_changes_of_eq {state' : State} (hkernel : state'.kernel = state.kernel)
    (hghost : state'.ghost = state.ghost) : ¬ Changes state state' := by
  simp [Changes, hkernel, hghost]

@[simp] theorem updatePlugin_ghost (pid : PluginId) (f : PluginState → PluginState) :
    (state.updatePlugin pid f).ghost = state.ghost := by
  unfold State.updatePlugin
  split <;> rfl

@[simp] theorem updateActor_ghost (aid : ActorId) (f : ActorRuntime → ActorRuntime) :
    (state.updateActor aid f).ghost = state.ghost := by
  unfold State.updateActor
  split <;> rfl

/-- A free that passes its checks extends the freed set. -/
theorem Freeable.changes {addr : MemAddr} (h : Freeable state addr) :
    Changes state { state with ghost := state.ghost.free addr } := by
  right
  left
  have hfreed := h.1
  unfold MetaState.isFreed at hfreed
  simp only [MetaState.free, MetaState.insertFreedAddr]
  cases hsearch : binarySearchByKey id addr state.ghost.freedSet with
  | ok idx => simp [hsearch] at hfreed
  | error pos =>
    intro heq
    have hlength := congrArg List.length heq
    rw [List.length_insertIdx_of_le_length (search_error_le hsearch)] at hlength
    omega

/-- Some valid capability is in the set that revoking `c` revokes. -/
def Revocable (state : State) (c : CapId) : Prop :=
  ∃ k, state.kernel.revocation.isValid k = true ∧ state.kernel.revocation.inRevokeSet k c = true

theorem changes_applyCapRevoke_iff (c : CapId) :
    Changes state (state.applyCapRevoke c) ↔ Revocable state c := by
  have hvalid : ∀ k, (state.applyCapRevoke c).kernel.revocation.isValid k =
      (state.kernel.revocation.isValid k && !state.kernel.revocation.inRevokeSet k c) :=
    RevocationState.isValid_revokeWhere state.kernel.revocation
      fun k ↦ state.kernel.revocation.inRevokeSet k c
  have hghost : (state.applyCapRevoke c).ghost = state.ghost := rfl
  simp only [Changes, hvalid, hghost, ne_eq, not_true_eq_false, or_false, Revocable]
  apply exists_congr
  intro k
  cases state.kernel.revocation.isValid k <;> simp

theorem changes_applyAlloc_iff (owner : PluginId) (size : Size) (f : PluginState → PluginState) :
    Changes state ((state.applyAlloc owner size).updatePlugin owner f) ↔
      state.ghost.getStatus state.ghost.resourceCount ≠ some (.allocated owner) := by
  rw [Ne, ← setStatus_eq_iff]
  simp [Changes, State.applyAlloc, MetaState.alloc]

end Effects

/-! ## Steps that change the state -/

/-- The step allocates an address for its caller once its checks have passed. -/
def Step.Allocates (step : Step) (state : State) : Prop :=
  match step with
  | .hostCall hc auth _ => checkHostCall state hc auth = .ok () ∧ hc.function = .kernelAlloc ∧
      HostFunction.checkKernelAlloc state hc (hc.args.head?.getD 0) = .ok () ∧
      state.ghost.getStatus state.ghost.resourceCount ≠ some (.allocated hc.caller)
  | _ => False

section ChangingSteps

variable {state : State}

theorem not_changes_pluginInternal {state' : State} {pid : PluginId} {pi : PluginInternal}
    (h : executePluginInternal state pid pi = .ok state') : ¬ Changes state state' := by
  unfold executePluginInternal at h
  cases hplugin : state.getPlugin pid with
  | none =>
    rw [hplugin] at h
    cases h
  | some plugin =>
    simp only [hplugin, check_bind_eq_ok_iff] at h
    obtain ⟨-, h⟩ := h
    split at h
    · cases h
    · split at h <;> cases h
      · exact not_changes_of_eq (updateActor_kernel state pid _) (updateActor_ghost pid _)
      · exact not_changes_of_eq rfl rfl

theorem changes_memFree_iff (state : State) (addr : MemAddr) :
    (∃ state', executeMemFree state addr = .ok state' ∧ Changes state state') ↔ Freeable state addr := by
  unfold executeMemFree
  constructor
  · rintro ⟨state', h, -⟩
    rw [check_bind_eq_ok_iff] at h
    exact checkFree_eq_ok_iff.1 h.1
  · intro h
    refine ⟨_, ?_, h.changes⟩
    rw [check_bind_eq_ok_iff, h.applyFree]
    exact ⟨checkFree_eq_ok_iff.2 h, rfl⟩

theorem changes_hostMemFree_iff (state : State) (hc : HostCall) :
    (∃ state', HostFunction.executeMemFree state hc = .ok state' ∧ Changes state state') ↔
      ∃ addr, hc.args.head? = some addr ∧ Freeable state addr := by
  unfold HostFunction.executeMemFree
  cases hargs : hc.args.head? with
  | none => simp
  | some addr =>
    simp only [Option.some.injEq, exists_eq_left']
    constructor
    · rintro ⟨state', h, -⟩
      rw [check_bind_eq_ok_iff] at h
      exact checkFree_eq_ok_iff.1 h.1
    · intro h
      refine ⟨_, ?_, h.changes⟩
      rw [check_bind_eq_ok_iff, h.applyFree]
      exact ⟨checkFree_eq_ok_iff.2 h, rfl⟩

theorem changes_capRevoke_iff (state : State) (c : CapId) :
    (∃ state', executeCapRevoke state c = .ok state' ∧ Changes state state') ↔
      state.kernel.revocation.contains c = true ∧ Revocable state c := by
  unfold executeCapRevoke
  simp only [check_bind_eq_ok_iff, checkRevoke_eq_ok_iff]
  constructor
  · rintro ⟨state', ⟨hcontains, hstate⟩, hchanges⟩
    cases hstate
    exact ⟨hcontains, (changes_applyCapRevoke_iff c).1 hchanges⟩
  · rintro ⟨hcontains, hrevocable⟩
    exact ⟨_, ⟨hcontains, rfl⟩, (changes_applyCapRevoke_iff c).2 hrevocable⟩

theorem changes_hostCapRevoke_iff (state : State) (hc : HostCall) :
    (∃ state', HostFunction.executeCapRevoke state hc = .ok state' ∧ Changes state state') ↔
      ∃ c, hc.args.head? = some c ∧ state.kernel.revocation.contains c = true ∧ Revocable state c := by
  unfold HostFunction.executeCapRevoke
  cases hargs : hc.args.head? with
  | none => simp
  | some c =>
    simp only [Option.some.injEq, exists_eq_left']
    exact changes_capRevoke_iff state c

theorem changes_kernelAlloc_iff (state : State) (hc : HostCall) :
    (∃ state', HostFunction.executeKernelAlloc state hc = .ok state' ∧ Changes state state') ↔
      HostFunction.checkKernelAlloc state hc (hc.args.head?.getD 0) = .ok () ∧
        state.ghost.getStatus state.ghost.resourceCount ≠ some (.allocated hc.caller) := by
  unfold HostFunction.executeKernelAlloc
  simp only [check_bind_eq_ok_iff]
  constructor
  · rintro ⟨state', ⟨hcheck, hstate⟩, hchanges⟩
    cases hstate
    exact ⟨hcheck, (changes_applyAlloc_iff _ _ _).1 hchanges⟩
  · rintro ⟨hcheck, hstatus⟩
    exact ⟨_, ⟨hcheck, rfl⟩, (changes_applyAlloc_iff _ _ _).2 hstatus⟩

theorem not_changes_function {state' : State} {function : HostFunction} {hc : HostCall}
    {result : HostResult} (hfree : function ≠ .memFree) (hrevoke : function ≠ .capRevoke)
    (halloc : function ≠ .kernelAlloc) (h : function.execute state hc result = .ok state') :
    ¬ Changes state state' := by
  cases function with
  | capCall =>
    simp only [HostFunction.execute, HostFunction.executeCapCall, check_bind_eq_ok_iff] at h
    cases h.2
    exact not_changes_of_eq rfl rfl
  | capSend =>
    simp only [HostFunction.execute, HostFunction.executeCapSend, check_bind_eq_ok_iff] at h
    cases h.2
    exact not_changes_of_eq rfl rfl
  | declassify =>
    simp only [HostFunction.execute, HostFunction.executeDeclassify] at h
    cases hlevel : HostFunction.decodeLevel (hc.args.head?.getD 0) with
    | error e =>
      rw [hlevel] at h
      cases h
    | ok newLevel =>
      simp only [hlevel, bind, Except.bind] at h
      split at h
      · cases h
      · cases h
        exact not_changes_of_eq (updatePlugin_kernel _ _ _) (updatePlugin_ghost _ _)
  | memFree => exact absurd rfl hfree
  | capRevoke => exact absurd rfl hrevoke
  | kernelAlloc => exact absurd rfl halloc
  | _ => cases h

end ChangingSteps

/-- Whatever a step other than a kernel operation changes is a free, a revocation or an allocation. -/
theorem changes_iff (state : State) {step : Step} (hkernel : ∀ op, step ≠ .kernelInternal op) :
    (∃ state', step.execute state = .ok state' ∧ Changes state state') ↔
      (∃ addr, step.Frees state addr) ∨ (∃ c, step.Revokes state c ∧ Revocable state c) ∨
        step.Allocates state := by
  cases step with
  | kernelInternal op => exact absurd rfl (hkernel op)
  | pluginInternal pid pi =>
    simp only [Step.Frees, Step.Revokes, Step.Allocates, exists_false, false_and, or_false, iff_false]
    rintro ⟨state', h, hchanges⟩
    exact not_changes_pluginInternal h hchanges
  | memFree caller addr =>
    refine (changes_memFree_iff state addr).trans ?_
    simp [Step.Frees, Step.Revokes, Step.Allocates]
  | capRevoke caller c =>
    refine (changes_capRevoke_iff state c).trans ?_
    simp [Step.Frees, Step.Revokes, Step.Allocates]
  | hostCall hc auth result =>
    simp only [Step.execute, executeHostCall, check_bind_eq_ok_iff, and_assoc, exists_and_left,
      Step.Frees, Step.Revokes, Step.Allocates, ← and_or_left]
    apply and_congr_right
    intro hcheck
    by_cases hfree : hc.function = .memFree
    · rw [hfree]
      refine (changes_hostMemFree_iff state hc).trans ?_
      simp
    by_cases hrevoke : hc.function = .capRevoke
    · rw [hrevoke]
      refine (changes_hostCapRevoke_iff state hc).trans ?_
      simp
    by_cases halloc : hc.function = .kernelAlloc
    · rw [halloc]
      refine (changes_kernelAlloc_iff state hc).trans ?_
      simp
    · simp only [hfree, hrevoke, halloc, false_and, or_false, iff_false]
      rintro ⟨state', h, hchanges⟩
      exact not_changes_function hfree hrevoke halloc h hchanges

/-! ## Mediation -/

/-- The action that a step performs. A direct operation performs the action of the host function of
the same name. -/
def Step.action : Step → Option Action
  | .hostCall hc _ _ => hc.requiredAction.toOption
  | .memFree caller addr =>
    some { subject := caller, target := addr, rights := Rights.singleton .delete, kind := "mem_free" }
  | .capRevoke caller capId =>
    some { subject := caller, target := capId, rights := Rights.singleton .revoke, kind := "cap_revoke" }
  | .pluginInternal _ _ => none
  | .kernelInternal _ => none

/-- The subject holds a capability that, in the kernel's table, is valid, has the action's target and
includes its rights. -/
def Covered (state : State) (action : Action) : Prop :=
  ∃ capId stored, state.pluginHolds action.subject capId = true ∧
    state.kernel.revocation.get capId = some stored ∧ stored.isValid = true ∧
    stored.target = action.target ∧ action.rights.isSubsetOf stored.rights = true

def Permitted (state : State) (action : Action) : Prop :=
  ∀ ctx, (state.kernel.policy.eval action ctx).isPermit = true

structure Mediated (state : State) (action : Action) : Prop where
  subject : ∃ plugin, state.getPlugin action.subject = some plugin
  covered : Covered state action
  permitted : Permitted state action

/-- A step that changes the validity of a capability, the freed set or the allocated resources is
mediated. -/
def Step.Mediates (step : Step) (state : State) : Prop :=
  ∀ state', step.execute state = .ok state' → Changes state state' →
    ∃ action, step.action = some action ∧ Mediated state action

section Mediation

variable {state : State} {step : Step} {action : Action}

theorem Covered.subject (h : Covered state action) :
    ∃ plugin, state.getPlugin action.subject = some plugin := by
  obtain ⟨capId, stored, hholds, -⟩ := h
  obtain ⟨plugin, hplugin, -⟩ := (Option.any_eq_true _ _).1 hholds
  exact ⟨plugin, hplugin⟩

theorem mediated_iff : Mediated state action ↔ Covered state action ∧ Permitted state action :=
  ⟨fun h ↦ ⟨h.covered, h.permitted⟩, fun h ↦ ⟨h.1.subject, h.1, h.2⟩⟩

theorem checkHostCall_eq_ok {hc : HostCall} {auth : Authorized}
    (h : checkHostCall state hc auth = .ok ()) :
    hc.requiredAction = .ok auth.action ∧ Passes state auth.cap auth.action auth.ctx := by
  unfold checkHostCall at h
  by_cases hsubject : auth.action.subject = hc.caller
  · cases haction : hc.requiredAction with
    | error e =>
      rw [if_neg (not_not.2 hsubject), haction] at h
      cases h
    | ok derived =>
      by_cases hderived : derived = auth.action
      · cases hvalidate : auth.validate state with
        | error e =>
          rw [if_neg (not_not.2 hsubject), haction, hvalidate] at h
          simp only [bind, Except.bind, if_neg (not_not.2 hderived)] at h
          cases h
        | ok u => exact ⟨congrArg Except.ok hderived, checkAll_eq_ok_iff.1 hvalidate⟩
      · rw [if_neg (not_not.2 hsubject), haction] at h
        simp only [bind, Except.bind, if_pos hderived] at h
        cases h
  · rw [if_pos hsubject] at h
    cases h

variable {addr : MemAddr}

/-- No capability that covers a free is left when the free passes its checks. -/
theorem Freeable.not_covered (h : Freeable state addr) (htarget : action.target = addr) : ¬ Covered state action := by
  rintro ⟨capId, stored, -, hget, hvalid, hstored, -⟩
  have hnone := h.2
  unfold RevocationState.anyValidTargeting at hnone
  rw [List.any_eq_false] at hnone
  rw [RevocationState.get_eq_map_lookup, Option.map_eq_some_iff] at hget
  obtain ⟨entry, hlookup, rfl⟩ := hget
  apply hnone entry (mem_of_lookup hlookup)
  simp [hvalid, hstored, htarget]

theorem Step.Frees.target (h : step.Frees state addr) (haction : step.action = some action) : action.target = addr := by
  cases step with
  | memFree caller addr' =>
    obtain ⟨rfl, -⟩ := h
    cases haction
    rfl
  | hostCall hc auth result =>
    obtain ⟨-, hfunction, hargs, -⟩ := h
    simp only [Step.action, HostCall.requiredAction, hfunction, hargs] at haction
    cases haction
    rfl
  | pluginInternal => exact h.elim
  | kernelInternal => exact h.elim
  | capRevoke => exact h.elim

theorem Step.Frees.freeable (h : step.Frees state addr) : Freeable state addr := by
  cases step with
  | memFree => exact h.2
  | hostCall => exact h.2.2.2
  | pluginInternal => exact h.elim
  | kernelInternal => exact h.elim
  | capRevoke => exact h.elim

/-- What has to be looked up for a step that revokes or allocates: for a host call that its caller is
covered by the kernel's table, for a direct revocation also that the policy permits it. -/
def Step.Backed (step : Step) (state : State) : Prop :=
  match step with
  | .hostCall _ auth _ => Covered state auth.action
  | .capRevoke _ _ => ∃ action, step.action = some action ∧ Covered state action ∧ Permitted state action
  | _ => True

theorem mediated_iff_backed
    (h : (∃ c, step.Revokes state c ∧ Revocable state c) ∨ step.Allocates state) :
    (∃ action, step.action = some action ∧ Mediated state action) ↔ step.Backed state := by
  cases step with
  | hostCall hc auth result =>
    have hcheck : checkHostCall state hc auth = .ok () := by
      rcases h with ⟨c, hrevokes, -⟩ | hallocates
      · exact hrevokes.1
      · exact hallocates.1
    obtain ⟨haction, hpasses⟩ := checkHostCall_eq_ok hcheck
    have hpermitted : Permitted state auth.action := by
      intro ctx
      rw [PolicyState.eval_eq_eval _ _ auth.action _ auth.ctx]
      exact hpasses.policy
    simp [Step.action, haction, Except.toOption, mediated_iff, hpermitted, Step.Backed]
  | capRevoke caller c => simp only [mediated_iff, Step.Backed]
  | pluginInternal =>
    rcases h with ⟨c, hrevokes, -⟩ | hallocates
    · exact hrevokes.elim
    · exact hallocates.elim
  | kernelInternal =>
    rcases h with ⟨c, hrevokes, -⟩ | hallocates
    · exact hrevokes.elim
    · exact hallocates.elim
  | memFree =>
    rcases h with ⟨c, hrevokes, -⟩ | hallocates
    · exact hrevokes.elim
    · exact hallocates.elim

end Mediation

end Lionagi.LionCore
